/-
A block beyond the limit of nesting is passed over exactly.

The loop that passes over a block counts the blocks that are opened and closed in it, by
their words alone (`skipKind_eq`). Along lines that are nested well this is a count that
comes out even (`Nested.passed`), so the loop goes on to the word behind them and no
further (`iterate_skipWord`), and all that it builds on the way are leaves
(`deepBlock_passes`).
-/
import ScriptSense.Proofs.Grammar.HeadedRules
import ScriptSense.Proofs.Grammar.Nested

set_option autoImplicit false

namespace ScriptSense.Grammar

variable {α β : Type}

/-! ## Looks in a reading that goes on -/

/-- What is looked at is what is ahead, unless the reading is given up. -/
theorem run_current_then {f : TokenKind → Step β} [∀ kind, Formal (f kind)] {s : State}
    (hfault : ((current >>= f) s).2.fault = none) :
    (current >>= f) s = f (kindAhead 0 s.rest) s.looked := by
  rcases run_look_cases 0 s with ⟨-, -, hlook⟩ | hlost
  · rw [run_bind, current, hlook]
  · have hlooked : (current s).2.fault = none := Formal.unbroken (m := f _) _ hfault
    rw [current, hlost] at hlooked
    exact absurd hlooked (State.fault_giveUp_ne_none _ s)

theorem run_isAt_then {kind : TokenKind} {f : Bool → Step β} [∀ there, Formal (f there)] {s : State}
    (hfault : ((isAt kind >>= f) s).2.fault = none) :
    (isAt kind >>= f) s = f (kindAhead 0 s.rest == kind) s.looked :=
  run_current_then (f := fun k => f (k == kind)) hfault

/-! ## Tokens ahead but for the trivia in front of them -/

/-- The two have the same tokens from the first on that is no trivia. -/
def Even (ts us : List Token) : Prop :=
  ts.dropWhile (·.kind.isTrivia) = us.dropWhile (·.kind.isTrivia)

theorem dropWhile_trivia {t : Token} (ht : t.kind.isTrivia = true) (ts : List Token) :
    (t :: ts).dropWhile (·.kind.isTrivia) = ts.dropWhile (·.kind.isTrivia) :=
  ts.dropWhile_cons_of_pos (p := (·.kind.isTrivia)) ht

/-- A token that is no trivia is the first one. -/
theorem dropWhile_seen {t : Token} (ht : ¬ t.kind.isTrivia = true) (ts : List Token) :
    (t :: ts).dropWhile (·.kind.isTrivia) = t :: ts :=
  ts.dropWhile_cons_of_neg (p := (·.kind.isTrivia)) ht

namespace Even

variable {ts us : List Token} {t : Token}

theorem dropWhile (ts : List Token) : Even (ts.dropWhile (·.kind.isTrivia)) ts :=
  List.dropWhile_idempotent _ _

theorem kindAhead_eq (h : Even ts us) : kindAhead 0 ts = kindAhead 0 us := by
  rw [State.kindAhead_zero, State.kindAhead_zero, h]

/-- Trivia in front does not matter. -/
theorem of_trivia (h : Even ts (t :: us)) (ht : t.kind.isTrivia = true) : Even ts us := by
  rwa [Even, dropWhile_trivia ht] at h

theorem cons (h : Even ts us) (ht : t.kind.isTrivia = true) : Even (t :: ts) us := by
  rwa [Even, dropWhile_trivia ht]

/-- The first token that is no trivia is the same. -/
theorem dropWhile_eq (h : Even ts (t :: us)) (ht : ¬ t.kind.isTrivia = true) :
    ts.dropWhile (·.kind.isTrivia) = t :: us := by
  rwa [Even, dropWhile_seen ht] at h

theorem exists_split (h : Even ts us) : ∃ front, (∀ t ∈ front, t.kind.isTrivia = true)
    ∧ ts = front ++ us.dropWhile (·.kind.isTrivia) :=
  ⟨ts.takeWhile (·.kind.isTrivia), fun t => List.all_eq_true.1 List.all_takeWhile t,
    by rw [← h, List.takeWhile_append_dropWhile]⟩

end Even

/-- A token is consumed with the trivia in front of it, and no more where no parentheses are
open. -/
theorem State.rest_consume {s : State} {more : List Token} {t : Token} (hparens : s.parens = 0)
    (hrest : Even s.rest (t :: more)) (ht : ¬ t.kind.isTrivia = true) : s.consume.rest = more := by
  have htrivia : s.shiftTrivia.rest = t :: more := by rw [rest_shiftTrivia, hrest.dropWhile_eq ht]
  have hcalm : s.shiftTrivia.shift.parens = 0 :=
    ((count_shift .parens _).trans (count_shiftTrivia .parens s)).trans hparens
  have hconsume : s.consume.rest = s.shiftTrivia.shift.shiftBreaks.rest := rfl
  rw [hconsume, shiftBreaks, if_neg (by omega), shift_of_rest htrivia]

/-! ## Passing over words -/

/-- The rule passes over a token as the blocks are counted. -/
theorem skipKind_eq (opened : Nat) {kind : TokenKind} (hkind : kind ≠ .eof) :
    skipKind opened kind = match opensTo opened kind with
      | none => pure none
      | some n => do bumpAny; return some n := by
  cases opened with
  | zero => cases kind <;> first | rfl | exact absurd rfl hkind
  | succ opened => cases kind <;> first | rfl | exact absurd rfl hkind

/-- **A turn of the loop**, unless it is given up: the token is consumed, or the block ends. -/
theorem run_skipWord {opened : Nat} {s : State} (hfault : (skipWord opened s).2.fault = none) :
    (opensTo opened (kindAhead 0 s.rest)).elim
      ((skipWord opened s).1 = none ∧ (skipWord opened s).2.rest = s.rest
        ∧ (skipWord opened s).2.out = s.out)
      fun n => skipWord opened s = (some n, s.consume) := by
  have hrun : skipWord opened s = _ := run_isAt_then hfault
  by_cases hend : kindAhead 0 s.rest = .eof
  · rw [hrun, hend]
    exact ⟨rfl, rfl, rfl⟩
  · have hmore : skipWord opened s
        = (current >>= fun kind => skipKind opened kind : Step (Option Nat)) s.looked := by
      rw [hrun, show (kindAhead 0 s.rest == .eof) = false by simpa using hend]
      rfl
    rw [hmore] at hfault ⊢
    have hsight := run_current_then hfault
    have hahead : s.looked.rest = s.rest := rfl
    rw [hsight, hahead, skipKind_eq _ hend] at hfault ⊢
    cases hopens : opensTo opened (kindAhead 0 s.rest) with
    | none => exact ⟨rfl, rfl, rfl⟩
    | some n =>
      rw [hopens] at hfault
      -- The look at the end of the text and the one at the kind are undone by consuming.
      have hbump : (bumpAny s.looked.looked).2.fault = none := hfault
      have hconsume : (bumpAny s.looked.looked).2 = s.consume := by
        have hahead : s.looked.looked.rest = s.rest := rfl
        have hrun : bumpAny s.looked.looked = _ := run_current_then hbump
        rw [hrun, hahead, show (kindAhead 0 s.rest == .eof) = false by simpa using hend]
        simp only [Bool.false_eq_true, if_false, run_modify, State.consume_looked]
      change (some n, (bumpAny s.looked.looked).2) = _
      rw [hconsume]

/-- A turn that ends without a fault, as the first of a loop that does. -/
theorem fault_skipWord {opened k : Nat} {s : State}
    (hfault : (iterate skipWord (k + 1) opened s).2.fault = none) :
    (skipWord opened s).2.fault = none := by
  rw [run_iterate_succ] at hfault
  split at hfault
  · exact hfault
  · exact Formal.unbroken (m := iterate skipWord k _) _ hfault

/-- **The loop passes over lines that come out even**, with the trivia behind them perhaps, and
builds leaves. -/
theorem iterate_skipWord {ts more : List Token} {opened behind k : Nat} {s : State}
    (hpassed : passed opened ts = some behind) (hparens : s.parens = 0)
    (hrest : Even s.rest (ts ++ more))
    (hfault : (iterate skipWord k opened s).2.fault = none) :
    ∃ (j : Nat) (t : State) (moved : List Token),
      iterate skipWord k opened s = iterate skipWord j behind t ∧ Even t.rest more
        ∧ t.out.toList = s.out.toList ++ moved.map .leaf := by
  induction ts generalizing opened k s with
  | nil =>
    obtain rfl : opened = behind := by simpa [passed] using hpassed
    exact ⟨k, s, [], rfl, hrest, by simp⟩
  | cons t ts ih =>
    rw [passed] at hpassed
    by_cases ht : t.kind.isTrivia = true
    · rw [if_pos ht] at hpassed
      -- Trivia in front do not count as a turn.
      exact ih hpassed hparens (hrest.of_trivia ht) hfault
    · rw [if_neg ht] at hpassed
      obtain ⟨n, hopens, hpassed⟩ := Option.bind_eq_some_iff.1 hpassed
      cases k with
      | zero => exact absurd hfault (State.fault_giveUp_ne_none _ s)
      | succ k =>
        have hahead : kindAhead 0 s.rest = t.kind := by
          rw [hrest.kindAhead_eq, List.cons_append, kindAhead, if_neg ht]
        -- A word is passed in one turn, and the blocks that are open are counted.
        have hturn := run_skipWord (fault_skipWord hfault)
        rw [hahead, hopens, Option.elim_some] at hturn
        obtain ⟨before, next, after, hout, -⟩ := s.toList_out_consume
        have hbehind : s.consume.rest = ts ++ more := State.rest_consume hparens hrest ht
        rw [run_iterate_succ, hturn] at hfault ⊢
        obtain ⟨j, u, moved, hrun, heven, hmoved⟩ := ih hpassed
          ((State.count_consume .parens s).trans hparens) (congrArg _ hbehind) hfault
        refine ⟨j, u, before ++ next ++ after ++ moved, hrun, heven, ?_⟩
        rw [hmoved, hout, List.append_assoc, ← List.map_append]

/-- In front of a word that closes the block, the loop ends. -/
theorem iterate_skipWord_closed {k : Nat} {s : State}
    (hfault : (iterate skipWord k 0 s).2.fault = none)
    (hcloses : closesBlock (kindAhead 0 s.rest) = true) :
    (iterate skipWord k 0 s).2.rest = s.rest ∧ (iterate skipWord k 0 s).2.out = s.out := by
  cases k with
  | zero => exact absurd hfault (State.fault_giveUp_ne_none _ s)
  | succ k =>
    -- No block is open, so a word that closes one ends the loop.
    have hends : opensTo 0 (kindAhead 0 s.rest) = none := by
      generalize kindAhead 0 s.rest = kind at hcloses
      cases kind <;> first | rfl | exact absurd hcloses (by decide)
    have hturn := run_skipWord (fault_skipWord hfault)
    rw [hends, Option.elim_none] at hturn
    rw [run_iterate_succ, hturn.1]
    exact hturn.2

/-- **A block that is nested too deeply is passed over** up to the word that closes it: what is
built is one node over leaves. -/
theorem deepBlock_passes {R : Rules} {ts more : List Token} {s : State} (hts : Nested .body ts)
    (hparens : s.parens = 0) (hrest : s.rest = ts ++ more)
    (hcloses : closesBlock (kindAhead 0 more) = true) (hfault : (deepBlock R s).2.fault = none) :
    Even (deepBlock R s).2.rest more
      ∧ ∃ (blank moved : List Token) (span : Span), (deepBlock R s).2.out.toList
        = s.out.toList ++ (blank.map .leaf ++ [.node .error span (moved.map .leaf)]) := by
  unfold deepBlock at hfault ⊢
  set body : Step Unit := do
    complain .deepBlock
    R.loopFrom 0 skipWord
  obtain ⟨blank, hout, -⟩ := Formal.toList_out_node .error body s
  set u := (complain .deepBlock ((s.opened .error).inside #[])).2
  have hloop : (iterate skipWord R.turns 0 u).2.fault = none := by rwa [run_node] at hfault
  have hcalm : u.parens = 0 := (State.count_shiftTrivia .parens s).trans hparens
  have hahead : Even u.rest (ts ++ more) := by
    have hu : u.rest = s.rest.dropWhile (·.kind.isTrivia) := State.rest_shiftTrivia s
    rw [hu, ← hrest]
    exact .dropWhile s.rest
  -- The body is balanced, so the loop comes to its end with as many open blocks as before.
  obtain ⟨j, v, moved, hrun, heven, hmoved⟩ :=
    iterate_skipWord (hts.passed (Nat.le_refl 0)) hcalm hahead hloop
  rw [hrun] at hloop
  obtain ⟨hsame, hkept⟩ := iterate_skipWord_closed hloop (by rwa [heven.kindAhead_eq])
  have hbody : (body ((s.opened .error).inside #[])).2 = (iterate skipWord j 0 v).2 :=
    congrArg Prod.snd hrun
  rw [hbody, hkept, hmoved] at hout
  refine ⟨?_, blank, moved, _, hout⟩
  rw [run_node]
  change Even (body ((s.opened .error).inside #[])).2.rest more
  rw [hbody, hsame]
  exact heven

end ScriptSense.Grammar
