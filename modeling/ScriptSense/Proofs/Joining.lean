/-
A text that is followed by another one.

Where the last token of a text is a line break and the text behind it does not go on
with one, the tokens of the two together are those of the first followed by those of
the second, further on. Every token but the last has a line break behind it, and no
scan gets past one: runs of blank space and comments end there, a string that does not
has its quote in front of it, and everything else ends at the next blank (`next_eq`).
-/
import ScriptSense.Proofs.Layout.Recasing
import ScriptSense.Proofs.Lexemes
import ScriptSense.Proofs.Syntax.Moved

set_option autoImplicit false

namespace ScriptSense

/-- The last token of the text is a line break. -/
def EndsLine (cs : List Char) : Prop :=
  ∃ t, (tokensFrom 0 cs).dropLast.getLast? = some t ∧ t.kind = .newline

/-! ## Where the last token is a line break -/

/-- The kinds of the tokens do not depend on where the text stands. -/
theorem map_kind_tokensFrom (offset offset' : Nat) (cs : List Char) :
    (tokensFrom offset cs).map Token.kind = (tokensFrom offset' cs).map Token.kind := by
  have hkinds (offset : Nat) :
      (tokensFrom offset cs).map Token.kind = (tokensFrom 0 cs).map Token.kind := by
    rw [← Nat.zero_add offset, tokensFrom_add, List.map_map]
    rfl
  rw [hkinds, hkinds offset']

theorem tokensFrom_ne_nil (offset : Nat) (cs : List Char) : tokensFrom offset cs ≠ [] := by
  obtain ⟨body, -, heq⟩ := tokensFrom_tiling offset cs
  simp [heq]

theorem endsLine_iff {cs : List Char} (offset : Nat) :
    EndsLine cs ↔ ((tokensFrom offset cs).map Token.kind).dropLast.getLast? = some .newline := by
  rw [map_kind_tokensFrom offset 0, ← List.map_dropLast, List.getLast?_map]
  constructor
  · rintro ⟨t, ht, hkind⟩
    rw [ht, Option.map_some, hkind]
  · intro h
    obtain ⟨t, ht, hkind⟩ := Option.map_eq_some_iff.1 h
    exact ⟨t, ht, hkind⟩

/-- A text that ends with a line break as its last token has a character of one. -/
theorem EndsLine.exists_isBreak {cs : List Char} (h : EndsLine cs) : ∃ d ∈ cs, isBreak d = true := by
  obtain ⟨t, hlast, hkind⟩ := h
  obtain ⟨body, hbody, heq⟩ := tokensFrom_tiling 0 cs
  rw [heq, List.dropLast_concat] at hlast
  have hmem : t ∈ body := List.mem_of_getLast? hlast
  obtain ⟨before, after, hsplit⟩ := List.append_of_mem hmem
  have hlist : tokensFrom 0 cs = before ++ t :: (after ++ [⟨.eof, 0 + byteLength cs, ""⟩]) := by
    rw [heq, hsplit, List.append_assoc, List.cons_append]
  -- The last token is a line break, so it consists of breaks.
  have hlexeme := lexeme_of_tokensFrom 0 cs hlist (by simp [hkind])
  rw [hkind] at hlexeme
  obtain ⟨c, ds, htext, hc⟩ := hlexeme.isRun_isBreak.head
  have hspell := congrArg String.toList hbody.spell
  rw [Token.toList_spell, String.toList_ofList] at hspell
  refine ⟨c, ?_, hc⟩
  rw [← hspell]
  exact List.mem_flatMap.2 ⟨t, hmem, by rw [htext]; exact List.mem_cons_self⟩

/-- Behind the first token there is nothing left or a text of the same sort. -/
theorem EndsLine.cases {c : Char} {rest : List Char} (h : EndsLine (c :: rest)) :
    Lead.of c = .lineBreak ∧ (c :: rest).drop (Scan.next c rest).2 = []
      ∨ EndsLine ((c :: rest).drop (Scan.next c rest).2) := by
  rw [endsLine_iff 0, tokensFrom_cons, List.map_cons,
    List.dropLast_cons_of_ne_nil (by simp [tokensFrom_ne_nil])] at h
  cases hleft : (c :: rest).drop (Scan.next c rest).2 with
  | nil =>
    rw [hleft, tokensFrom] at h
    -- Nothing is left behind this token, so it is the last one and ends the line.
    have hkind : (Scan.next c rest).1 = .newline := by simpa using h
    have hlexeme := Scan.next_right c rest
    rw [Scan.Right, hkind] at hlexeme
    obtain ⟨d, ds, htake, hd⟩ := hlexeme.isRun_isBreak.head
    obtain ⟨n, hn⟩ : ∃ n, (Scan.next c rest).2 = n + 1 :=
      ⟨_, (Nat.sub_add_cancel (Scan.next_sound c rest).pos).symm⟩
    rw [hn, List.take_succ_cons, List.cons.injEq] at htake
    rw [← htake.1] at hd
    have hgap : isGap c = false := by
      simp only [isBreak, Bool.or_eq_true, beq_iff_eq] at hd
      rcases hd with rfl | rfl <;> rfl
    exact .inl ⟨by simp [Lead.of, hgap, hd], rfl⟩
  | cons d left =>
    rw [hleft] at h
    refine .inr ((endsLine_iff (0 + byteLength ((c :: rest).take (Scan.next c rest).2))).2 ?_)
    obtain ⟨body, -, heq⟩ := tokensFrom_tiling
      (0 + byteLength ((c :: rest).take (Scan.next c rest).2)) (d :: left)
    -- More is left behind this token, so the last token is found there.
    have hbody : body ≠ [] := by
      rintro rfl
      rw [List.nil_append, tokensFrom_cons, List.cons.injEq] at heq
      exact tokensFrom_ne_nil _ _ heq.2
    rw [heq, List.map_append, List.map_singleton, List.dropLast_concat] at h ⊢
    rw [List.getLast?_cons] at h
    cases hlast : (body.map Token.kind).getLast? with
    | none => simp [hbody] at hlast
    | some k => simpa [hlast] using h

/-! ## The scanner in front of more text -/

namespace Scan

/-- A run that ends in a text does not get past it. -/
theorem run_append_of_mem {p : Char → Bool} {cs : List Char} (h : ∃ d ∈ cs, p d = false)
    (ds : List Char) : run p (cs ++ ds) = run p cs := by
  induction cs with
  | nil => simp at h
  | cons c cs ih =>
    cases hc : p c with
    | false => simp [run, hc]
    | true =>
      -- The run goes past this character, so what stops it stands further on.
      have hmore : ∃ d ∈ cs, p d = false := by
        obtain ⟨d, hd, hpd⟩ := h
        rcases List.mem_cons.1 hd with rfl | hd
        · rw [hc] at hpd
          cases hpd
        · exact ⟨d, hd, hpd⟩
      rw [List.cons_append, run_cons hc, run_cons hc, ih hmore]

theorem run_lt_length {p : Char → Bool} {cs : List Char} (h : ∃ d ∈ cs, p d = false) :
    run p cs < cs.length := by
  refine Nat.lt_of_le_of_ne (run_le p cs) fun heq => ?_
  obtain ⟨d, hd, hpd⟩ := h
  have hall := all_take_run p cs
  rw [heq, List.take_length] at hall
  rw [hall d hd] at hpd
  cases hpd

/-- Nor does one that ends where the text does, if what follows is not part of it. -/
theorem run_append_of_head {p : Char → Bool} {ds : List Char} (h : ds.head?.all (!p ·) = true)
    (cs : List Char) : run p (cs ++ ds) = run p cs := by
  by_cases hall : ∀ c ∈ cs, p c = true
  · have hwhole : run p (cs ++ []) = cs.length + run p [] := run_append_of_all hall
    rw [List.append_nil] at hwhole
    rw [run_append_of_all hall, run_eq_zero h, hwhole]
    rfl
  · refine run_append_of_mem ?_ ds
    simpa using hall

end Scan

/-- Texts that have a blank in them agree with what is longer as far as there. -/
theorem near_append {cs : List Char} (h : ∃ d ∈ cs, isSpace d = true) (ds : List Char) :
    Near cs (cs ++ ds) := by
  induction cs with
  | nil => simp at h
  | cons c cs ih =>
    cases hc : isSpace c with
    | true => exact .stop (by simp [EndsHere, hc]) (by simp [EndsHere, hc])
    | false =>
      refine .cons hc rfl (ih ?_)
      obtain ⟨d, hd, hspace⟩ := h
      rcases List.mem_cons.1 hd with rfl | hd
      · rw [hc] at hspace
        cases hspace
      · exact ⟨d, hd, hspace⟩

/-- **No scan gets past the end of the last line.** -/
theorem EndsLine.next_append {c : Char} {rest ds : List Char} (h : EndsLine (c :: rest))
    (hds : ds.head?.all (!isBreak ·) = true) : Scan.next c (rest ++ ds) = Scan.next c rest := by
  rcases h.cases with ⟨hlead, -⟩ | hleft
  · rw [Scan.next, Scan.next, hlead]
    simp only
    rw [Scan.run_append_of_head hds]
  · obtain ⟨d, hd, hbreak⟩ := hleft.exists_isBreak
    -- A break stands behind this token, so what has ended the token stands in the text as well.
    have hmem : d ∈ rest := by
      have hpos := (Scan.next_sound c rest).pos
      obtain ⟨n, hn⟩ : ∃ n, (Scan.next c rest).2 = n + 1 := ⟨_, (Nat.sub_add_cancel hpos).symm⟩
      rw [hn, List.drop_succ_cons] at hd
      exact List.mem_of_mem_drop hd
    by_cases hink : Lead.of c ∈ [.gap, .lineBreak, .semicolon, .quote]
    · have hnotGap : isGap d = false := by
        simp only [isBreak, Bool.or_eq_true, beq_iff_eq] at hbreak
        rcases hbreak with rfl | rfl <;> rfl
      simp only [List.mem_cons, List.not_mem_nil, or_false] at hink
      rcases hink with hlead | hlead | hlead | hlead
      · rw [Scan.next, Scan.next, hlead]
        simp only
        rw [Scan.run_append_of_mem ⟨d, hmem, hnotGap⟩]
      · rw [Scan.next, Scan.next, hlead]
        simp only
        rw [Scan.run_append_of_head hds]
      · rw [Scan.next, Scan.next, hlead]
        simp only
        rw [Scan.run_append_of_mem ⟨d, hmem, by simp [hbreak]⟩]
      · -- The string is closed in the text, or nothing would be left behind it.
        have hclosed : ∃ q ∈ rest, (q != c) = false := by
          by_contra hopen
          have hwhole : Scan.run (· != c) rest = rest.length := by
            have hall : ∀ q ∈ rest, (q != c) = true := fun q hq => by
              by_contra hsame
              exact hopen ⟨q, hq, by simpa using hsame⟩
            have happend : Scan.run (· != c) (rest ++ []) = rest.length + Scan.run (· != c) [] :=
              Scan.run_append_of_all hall
            rwa [List.append_nil] at happend
          rw [Scan.next, hlead] at hd
          simp [Scan.quoted, hwhole] at hd
        have hlt := Scan.run_lt_length hclosed
        have hsome : (rest.drop (Scan.run (· != c) rest)).isEmpty = false := by
          simpa [List.isEmpty_iff] using hlt
        have hsome' : ((rest ++ ds).drop (Scan.run (· != c) rest)).isEmpty = false := by
          rw [List.isEmpty_eq_false_iff, ← List.length_pos_iff, List.length_drop,
            List.length_append]
          omega
        rw [Scan.next, Scan.next, hlead]
        simp only [Scan.quoted, Scan.run_append_of_mem hclosed ds, hsome, hsome']
    · exact (next_eq rfl hink (near_append ⟨d, hmem, by simp [isSpace, hbreak]⟩ ds)).symm

/-! ## The tokens of two texts together -/

/-- **A text behind the end of a line changes nothing in front of it.** -/
theorem tokensFrom_append {cs ds : List Char} (h : EndsLine cs)
    (hds : ds.head?.all (!isBreak ·) = true) (offset : Nat) :
    tokensFrom offset (cs ++ ds)
      = (tokensFrom offset cs).dropLast ++ tokensFrom (offset + byteLength cs) ds := by
  induction hlen : cs.length using Nat.strongRecOn generalizing offset cs with
  | _ n ih =>
    cases cs with
    | nil => simp [EndsLine, tokensFrom] at h
    | cons c rest =>
      have hsound := Scan.next_sound c rest
      set taken := (c :: rest).take (Scan.next c rest).2 with htaken
      set left := (c :: rest).drop (Scan.next c rest).2 with hleft
      have hsplit : taken ++ left = c :: rest := List.take_append_drop _ _
      have htake : (c :: (rest ++ ds)).take (Scan.next c rest).2 = taken := by
        rw [← List.cons_append, List.take_append_of_le_length hsound.le]
      have hdrop : (c :: (rest ++ ds)).drop (Scan.next c rest).2 = left ++ ds := by
        rw [← List.cons_append, List.drop_append_of_le_length hsound.le]
      have hbytes : byteLength (c :: rest) = byteLength taken + byteLength left := by
        rw [← hsplit, byteLength_append]
      -- The first token is the same with the second text behind it.
      have hfirst : tokensFrom offset (c :: (rest ++ ds))
          = ⟨(Scan.next c rest).1, offset, String.ofList taken⟩
            :: tokensFrom (offset + byteLength taken) (left ++ ds) := by
        rw [tokensFrom_cons, h.next_append hds, htake, hdrop]
      rw [List.cons_append, hfirst, tokensFrom_cons,
        List.dropLast_cons_of_ne_nil (tokensFrom_ne_nil _ _), List.cons_append]
      refine congrArg _ ?_
      -- It was the last one, or what is left ends a line as well and is shorter.
      rcases h.cases with ⟨-, hnil⟩ | hends
      · rw [← hleft] at hnil ⊢
        rw [hnil, List.nil_append, hbytes, hnil, byteLength_nil, Nat.add_zero, tokensFrom,
          ← htaken]
        rfl
      · have hshort : left.length < n := by
          have hpos := hsound.pos
          rw [hleft, List.length_drop, ← hlen, List.length_cons]
          omega
        rw [ih _ hshort hends _ rfl, hbytes, Nat.add_assoc]

/-- The tokens of a text, without the end of the text. -/
def innerTokens (text : String) : List Token := (tokens text).filter (·.kind != .eof)

/-- They are those of the first text and those of the second, further on. -/
theorem innerTokens_append {a b : String} (ha : EndsLine a.toList)
    (hb : b.toList.head?.all (!isBreak ·) = true) :
    innerTokens (a ++ b)
      = innerTokens a ++ (innerTokens b).map (Token.moved a.utf8ByteSize) := by
  obtain ⟨-, hdrop⟩ := tokens_tiling a
  have hsize : byteLength a.toList = a.utf8ByteSize := (utf8ByteSize_eq a).symm
  have hkind : (fun t : Token => t.kind != .eof) ∘ Token.moved a.utf8ByteSize
      = fun t => t.kind != .eof := rfl
  -- The tokens of the second text are its own, moved behind the first.
  have hmoved : (tokensFrom (0 + byteLength a.toList) b.toList).filter (·.kind != .eof)
      = (innerTokens b).map (Token.moved a.utf8ByteSize) := by
    rw [hsize, tokensFrom_add, List.filter_map, hkind]
    rfl
  rw [innerTokens, tokens, String.toList_append, tokensFrom_append ha hb 0, List.filter_append,
    hmoved, ← tokens, ← hdrop, List.filter_filter]
  simp only [Bool.and_self]
  rfl

/-- **The scanner starts afresh behind a line break**: what a line begins with is cut into
tokens as it is at the beginning of a text, whatever stood in the lines before. -/
theorem tokens_append {a b : String} (ha : EndsLine a.toList)
    (hb : b.toList.head?.all (!isBreak ·) = true) :
    tokens (a ++ b) = (tokens a).dropLast ++ (tokens b).map (Token.moved a.utf8ByteSize) := by
  have hsize : byteLength a.toList = a.utf8ByteSize := (utf8ByteSize_eq a).symm
  rw [tokens, String.toList_append, tokensFrom_append ha hb 0, tokensFrom_add, hsize]
  rfl

/-- A line with a string over two lines, a number and a comment with a quote in it; behind
it the end of a number, and a string that is never closed. -/
theorem tokens_append_at_quotes :
    EndsLine "x \"1\n2\" 12.5;'é\r\n".toList
      ∧ ".5 'x\n".toList.head?.all (!isBreak ·) = true
      ∧ tokens ("x \"1\n2\" 12.5;'é\r\n" ++ ".5 'x\n")
        = (tokens "x \"1\n2\" 12.5;'é\r\n").dropLast
          ++ (tokens ".5 'x\n").map (Token.moved "x \"1\n2\" 12.5;'é\r\n".utf8ByteSize) := by
  have hline : EndsLine "x \"1\n2\" 12.5;'é\r\n".toList :=
    ⟨⟨.newline, 16, "\r\n"⟩, by decide +kernel, rfl⟩
  have hmore : ".5 'x\n".toList.head?.all (!isBreak ·) = true := by decide
  exact ⟨hline, hmore, tokens_append hline hmore⟩

end ScriptSense
