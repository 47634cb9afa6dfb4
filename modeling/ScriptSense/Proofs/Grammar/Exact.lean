/-
A line is read to its end and no further.

What a rule reads of a line ends with the line break, if no parenthesis is opened on the way
(`FullLine`). So where the tokens of a line are known, the rule consumes just them
(`LineBody.exact`). If the line begins with a word of a block, that word is a child of the
node under construction, and among what is built besides nothing is left open
(`LineBody.headed`); that is how the first line of a block is read, and its last one
(`closing_exact`).
-/
import ScriptSense.Proofs.Grammar.Closed
import ScriptSense.Proofs.Grammar.Isolation
import ScriptSense.Proofs.Grammar.Skipping

set_option autoImplicit false

namespace ScriptSense.Grammar

open ScriptSense.Tree (leavesOfAll)

variable {α β : Type}

/-! ## The tokens of a line -/

/-- The token neither ends a line nor opens a parenthesis. -/
def inLine (kind : TokenKind) : Bool := kind != .newline && kind != .lParen && kind != .eof

theorem inLine_of_staysInLine {kind : TokenKind} (h : staysInLine kind = true) :
    inLine kind = true := by
  cases kind <;> first | rfl | cases h

theorem inLine_of_isTrivia {kind : TokenKind} (h : kind.isTrivia = true) : inLine kind = true := by
  cases kind <;> first | rfl | cases h

theorem Straight.not_newline {words after : List Token} {t : Token}
    (h : Straight (words ++ t :: after)) (hwords : ∀ t ∈ words, inLine t.kind = true) :
    t.kind ≠ .newline := by
  induction words with
  | nil =>
    rcases h with hopen | ⟨hne, -⟩
    · rw [hopen]
      decide
    · exact hne
  | cons u words ih =>
    have hu := hwords u List.mem_cons_self
    have htail := h.resolve_left fun hopen => by rw [hopen] at hu; cases hu
    exact ih htail.2 fun t ht => hwords t (List.mem_cons_of_mem _ ht)

/-- In front of a line break the text does not end. -/
theorem kindAhead_ne_eof {words more : List Token} {ending : Token}
    (hwords : ∀ t ∈ words, inLine t.kind = true) (hending : ending.kind = .newline) :
    kindAhead 0 (words ++ ending :: more) ≠ .eof := by
  induction words with
  | nil =>
    rw [List.nil_append, kindAhead, if_neg (by rw [hending]; decide), hending]
    decide
  | cons t words ih =>
    rw [List.cons_append, kindAhead]
    split
    · exact ih fun t ht => hwords t (List.mem_cons_of_mem _ ht)
    · have ht := hwords t List.mem_cons_self
      exact fun heof => by rw [heof] at ht; cases ht

/-- **The end of a line is where its line break is.** -/
theorem FullLine.exact {new rest words more : List Token} {ending : Token}
    (h : FullLine new (kindAhead 0 rest)) (heq : new ++ rest = words ++ ending :: more)
    (hwords : ∀ t ∈ words, inLine t.kind = true) (hending : ending.kind = .newline) :
    new = words ++ [ending] ∧ rest = more := by
  obtain ⟨line, last, rfl, hstraight, hlast⟩ := h
  -- A line break in the line would be the first one, and there is none in the line.
  have hnone {after : List Token} : line ≠ words ++ ending :: after := by
    rintro rfl
    exact hstraight.not_newline hwords hending
  rw [List.append_cons] at heq
  rcases List.append_eq_append_iff.1 heq with ⟨as, hnew, hrest⟩ | ⟨bs, hnew, hrest⟩
  · rcases List.eq_nil_or_concat as with rfl | ⟨as, t, rfl⟩
    · exact ⟨by simpa using hnew.symm, hrest⟩
    · rw [List.concat_eq_append, ← List.append_assoc] at hnew
      obtain ⟨hbefore, ht⟩ := List.append_inj' hnew rfl
      obtain rfl := List.singleton_inj.1 ht
      rcases hlast with ⟨u, rfl, hu⟩ | ⟨rfl, heof⟩
      · have huin := hwords u (by rw [hbefore]; simp)
        rw [hu] at huin
        cases huin
      · refine absurd heof ?_
        rw [hrest, List.concat_eq_append, List.append_assoc]
        refine kindAhead_ne_eof (fun t ht => hwords t ?_) hending
        rw [hbefore]
        exact List.mem_append_right _ ht
  · rcases hlast with ⟨u, rfl, hu⟩ | ⟨rfl, -⟩
    · rcases List.eq_nil_or_concat bs with rfl | ⟨bs, t, rfl⟩
      · exact ⟨by simpa using hnew, hrest.symm⟩
      · rw [List.concat_eq_append, ← List.append_assoc] at hnew
        obtain ⟨hline, -⟩ := List.append_inj' hnew rfl
        exact absurd (hline.trans (List.append_cons ..).symm) hnone
    · exact absurd ((List.append_nil line).symm.trans (hnew.trans (List.append_cons ..).symm)) hnone

/-! ## Rules that read a line -/

/-- **The rule consumes just the line.** -/
theorem LineBody.exact {ahead : TokenKind → Prop} {m : Step Unit} (hm : LineBody ahead m)
    {s : State} {words more : List Token} {ending : Token} (hparens : s.parens = 0)
    (hout : s.out = #[]) (hrest : s.rest = words ++ ending :: more)
    (hwords : ∀ t ∈ words, inLine t.kind = true) (hending : ending.kind = .newline)
    (hahead : ahead (kindAhead 0 s.rest)) (hfault : (m s).2.fault = none) :
    (m s).2.rest = more ∧ leavesOfAll (m s).2.out.toList = words ++ [ending] := by
  have hempty : s.out.toList = [] := by rw [hout]
  obtain ⟨moved, hmoved, hleaves⟩ := hm.framed advances_frame s
  rw [hempty, Tree.leavesOfAll_nil, List.nil_append] at hleaves
  obtain ⟨new, hnew, hends⟩ := (hm.ends []).run (fun _ => hparens)
    ⟨⟨[], by rw [hempty]; rfl, trivial⟩, hahead⟩ hfault
  obtain rfl : new = moved := by rw [← List.nil_append new, ← hnew, hleaves]
  obtain ⟨rfl, hmore⟩ := hends.exact (hmoved.symm.trans hrest) hwords hending
  exact ⟨hmore, hleaves⟩

/-! ## Lines that begin with a word of a block -/

theorem IsHeaded.kindAhead {word : TokenKind} {row : List Token} (h : IsHeaded word row)
    (hseen : ¬ word.isTrivia = true) (more : List Token) :
    kindAhead 0 (row ++ more) = word := by
  obtain ⟨blank, t, line, rfl, hblank, rfl, -⟩ := h
  rw [State.kindAhead_zero, List.append_assoc, List.dropWhile_append_of_pos hblank,
    List.cons_append, dropWhile_seen hseen]
  rfl

theorem opensBlock_of_plain {kind : TokenKind} (h : staysInLine kind = true ∨ kind = .newline) :
    opensBlock kind = false := by
  rcases h with h | rfl
  · cases kind <;> first | rfl | cases h
  · rfl

theorem IsPlain.opensBlock {line : List Token} (h : IsPlain line) :
    ∀ t ∈ line, opensBlock t.kind = false := by
  obtain ⟨words, ending, rfl, hwords, hending⟩ := h
  intro t ht
  refine opensBlock_of_plain ?_
  rcases List.mem_append.1 ht with ht | ht
  · exact .inl (hwords t ht)
  · exact .inr (List.mem_singleton.1 ht ▸ hending)

/-- What was closed before the step and what the step built is closed. -/
def KeepsClosed (s t : State) : Prop :=
  (∀ c ∈ s.out.toList, c.Closed) → ∀ c ∈ t.out.toList, c.Closed

/-- **A line that begins with a word of a block is read exactly.** The word is there, and
nothing else in the line is left open. -/
theorem LineBody.headed {m : Step Unit} (hm : LineBody (fun _ => True) m) [Formal m]
    {word : TokenKind} (hword : inLine word = true) (hseen : ¬ word.isTrivia = true) {s : State}
    {row more : List Token} (hparens : s.parens = 0) (hout : s.out = #[])
    (hrow : IsHeaded word row) (hrest : s.rest = row ++ more)
    (hfault : ((bump word >>= fun _ => m) s).2.fault = none) :
    ((bump word >>= fun _ => m) s).2.rest = more
      ∧ (∃ t, .leaf t ∈ ((bump word >>= fun _ => m) s).2.out.toList ∧ t.kind = word)
      ∧ ∀ c ∈ ((bump word >>= fun _ => m) s).2.out.toList, c.Closed := by
  obtain ⟨blank, u, line, rfl, hblank, hu, hline⟩ := hrow
  obtain ⟨words, ending, rfl, hwords, hending⟩ := id hline
  have hbreak : word ≠ .newline := by rintro rfl; cases hword
  have hend : word ≠ .eof := by rintro rfl; cases hword
  have hbody : LineBody (fun _ => True) (bump word >>= fun _ => m) :=
    .after (bump_alike hbreak).framed (.bump hend hbreak) fun _ => hm
  have hrow : ∀ t ∈ blank ++ u :: words, inLine t.kind = true := by
    intro t ht
    rcases List.mem_append.1 ht with ht | ht
    · exact inLine_of_isTrivia (hblank t ht)
    · rcases List.mem_cons.1 ht with rfl | ht
      · rwa [hu]
      · exact inLine_of_staysInLine (hwords t ht)
  have htokens : s.rest = (blank ++ u :: words) ++ ending :: more := by rw [hrest]; simp
  obtain ⟨hmore, hleaves⟩ := hbody.exact hparens hout htokens hrow hending trivial hfault
  have hformed : ∀ c ∈ ((bump word >>= fun _ => m) s).2.out.toList, c.Formed :=
    Formal.formed s hfault (by simp [hout])
  -- The word that is there is the one in the line, as it is the first that is no trivia.
  have hbump : (bump word s).2.fault = none := Formal.unbroken (m := m) _ hfault
  obtain ⟨hthere, heat⟩ := bump_sound hbump
  rw [heat] at hbump
  obtain ⟨hmissing, -⟩ | ⟨-, before, v, after, hbefore, hv, htrivia, -⟩ := toList_out_eat hend hbump
  · exact absurd (hthere.symm.trans hmissing) (by decide)
  rw [hout, Array.toList_empty, List.nil_append, List.map_append, List.map_cons,
    List.append_cons] at hbefore
  obtain ⟨new, hnew⟩ := Formal.kept (m := m) (bump word s).2 (before.map .leaf) v
    ⟨_, by rw [heat]; exact hbefore.symm⟩
  change _ = ((bump word >>= fun _ => m) s).2.out.toList at hnew
  rw [← hnew] at hleaves hformed ⊢
  have hafter : leavesOfAll new = words ++ [ending] := by
    have hdrop := congrArg (List.dropWhile (·.kind.isTrivia)) hleaves
    simp only [Tree.leavesOfAll_append, leavesOfAll_tokens, Tree.leavesOfAll_cons,
      Tree.leaves_leaf, List.append_assoc, List.cons_append,
      List.nil_append] at hdrop
    rw [List.dropWhile_append_of_pos htrivia, List.dropWhile_append_of_pos hblank,
      List.dropWhile_cons_of_neg (by simpa [hv] using hseen),
      List.dropWhile_cons_of_neg (by simpa [hu] using hseen)] at hdrop
    exact (List.cons.inj hdrop).2
  refine ⟨hmore, ⟨v, by simp, hv⟩, fun c hc => ?_⟩
  rcases List.mem_append.1 hc with hc | hc
  · rw [← List.map_singleton, ← List.map_append] at hc
    exact Tree.Closed.of_tokens c hc
  · refine .of_formed (hformed c (List.mem_append_right _ hc)) fun t ht => hline.opensBlock t ?_
    rw [← hafter]
    exact Tree.mem_leavesOfAll.2 ⟨c, hc, ht⟩

/-! ## The first line of a loop over a collection -/

theorem setAside_keepsLine {ahead : TokenKind → Prop} (wanted : Wanted)
    (recovers : TokenKind → Bool) : KeepsLine ahead (setAside wanted recovers) := by
  refine .current fun kind => .ite (fun _ => .complain _) fun _ => .atLineEnd fun ends => ?_
  refine .ite (fun _ => .complain _) fun hends => .node (.after (fun _ => .complain _) fun _ => ?_)
  exact .bumpAny fun k hk => not_newline hends hk.2

theorem variableOrDecl_keepsLine {ahead : TokenKind → Prop} (recovers : TokenKind → Bool) :
    KeepsLine ahead (variableOrDecl recovers) := by
  refine .current fun kind => .ite (fun hkind => variableDecl_keepsLine.mono ?_) fun _ => ?_
  · rintro _ ⟨-, rfl⟩
    constructor <;> (rintro rfl; cases hkind)
  · refine .isAt fun there => .ite (fun _ => .node (.bump (by decide) (by decide))) fun _ => ?_
    exact setAside_keepsLine _ _

/-! ## The last line of a block -/

/-- Where the word that closes the block comes next, it is consumed. -/
theorem closing_eq {R : Rules} {word : TokenKind} {wanted : Wanted} {s : State}
    (hahead : kindAhead 0 s.rest = word) (hfault : (closing R word wanted s).2.fault = none) :
    closing R word wanted s = (bump word >>= fun _ => lineEnd R) s := by
  have hexpect : (expect word wanted s).2.fault = none :=
    Formal.unbroken (m := if (expect word wanted s).1 then lineEnd R else pure ()) _ hfault
  have hfound : (current s).1 = word := by
    by_contra hmissing
    rw [run_expect, run_eat, if_neg hmissing] at hexpect
    obtain ⟨hkind, -⟩ := current_sound (s := s) hexpect
    rw [(looked_current s).1, hahead] at hkind
    exact hmissing hkind
  have hthere : expect word wanted s = (true, (current s).2.consume) := by
    rw [run_expect, run_eat, if_pos hfound]
    rfl
  have hclosing : closing R word wanted s = (if (expect word wanted s).1 then lineEnd R
      else pure () : Step Unit) (expect word wanted s).2 := rfl
  rw [hclosing, hthere, run_bind, run_bump, if_pos hfound]
  rfl

/-- **The last line of a block is read exactly**, and the word that closes the block is there. -/
theorem closing_exact {R : Rules} {word : TokenKind} {wanted : Wanted}
    (hword : inLine word = true) (hseen : ¬ word.isTrivia = true) {s : State}
    {row more : List Token} (hparens : s.parens = 0) (hrow : IsHeaded word row)
    (hrest : s.rest = row ++ more) (hfault : (closing R word wanted s).2.fault = none) :
    (closing R word wanted s).2.rest = more
      ∧ (∃ t, .leaf t ∈ (closing R word wanted s).2.out.toList ∧ t.kind = word)
      ∧ KeepsClosed s (closing R word wanted s).2 := by
  rw [(closing_fresh R word wanted).run_inside] at hfault ⊢
  set t := s.inside #[]
  have hahead : kindAhead 0 t.rest = word :=
    (congrArg _ hrest).trans (hrow.kindAhead hseen more)
  change (closing R word wanted t).2.fault = none at hfault
  have heq := closing_eq hahead hfault
  rw [heq] at hfault ⊢
  obtain ⟨hmore, ⟨u, hu, hkind⟩, hclosed⟩ := LineBody.headed (s := t) (.lineEnd R) hword hseen hparens rfl
    hrow hrest hfault
  refine ⟨hmore, ⟨u, ?_, hkind⟩, fun hout c hc => ?_⟩
  · rw [State.behind, Array.toList_append]
    exact List.mem_append_right _ hu
  · rw [State.behind, Array.toList_append] at hc
    exact (List.mem_append.1 hc).elim (hout c) (hclosed c)

end ScriptSense.Grammar
