/-
A `begin` block with nothing in it, and the same one filled.

What stands behind the first line of a `begin` block is the block and the word that closes
it. If lines that are nested well stand there as well, the block is all of these lines, and
what comes behind them is read as it is where the block is empty (`blockAndEnd_filled`):
there are the same tokens ahead, further on in the text. What is complained about in the block
is about the lines in it. From below that is so as nothing is complained about in front of the
first word (`OverLines.past_iterate`), from above as whatever is complained about was read when
the loop over the lines is done (`BodyRuns`).
-/
import ScriptSense.Proofs.Grammar.Further
import ScriptSense.Proofs.Grammar.Opening

set_option autoImplicit false

namespace ScriptSense.Grammar

/-! ## The block -/

theorem State.Level.trans {s t u : State} (h : s.Level t) (h' : t.Level u) : s.Level u :=
  ⟨h.1.trans h'.1, h.2.1.trans h'.2.1, h.2.2.1.trans h'.2.2.1, h.2.2.2.trans h'.2.2.2⟩

section Block

variable {f : String → Bool} {levels : Nat} {s : State}

variable {ts more : List Token}

end Block

/-! ## The block and the word that closes it -/

section End

variable {f : String → Bool} {levels levels' size : Nat} {s : State} {ts ending : List Token}

/-- A word that closes a block and does not come next is missed. -/
theorem complaints_closing {R : Rules} {kind : TokenKind} {wanted : Wanted}
    (hmissing : kindAhead 0 s.rest ≠ kind) (hfault : (closing R kind wanted s).2.fault = none) :
    ∃ c, (closing R kind wanted s).2.complaints.toList = s.complaints.toList ++ [c] := by
  have hexpect : (expect kind wanted s).2.fault = none :=
    Formal.unbroken (m := if (expect kind wanted s).1 then lineEnd R else pure ()) _ hfault
  rw [run_expect] at hexpect
  have heat : (eat kind s).2.fault = none := by
    split at hexpect <;> exact hexpect
  have hrun := run_eat_ahead heat
  rw [if_neg hmissing] at hrun
  have hclosing : closing R kind wanted s = (if (expect kind wanted s).1 then lineEnd R
      else pure () : Step Unit) (expect kind wanted s).2 := rfl
  rw [hclosing, run_expect, hrun]
  exact ⟨⟨.missing wanted, s.looked.place⟩, Array.toList_push ..⟩

/-- Where the text ends behind the first line, there is a complaint about that. -/
theorem quiet_of_blockAndEnd (hnone : s.rest = [])
    (hfault : (blockAndEnd (rules f levels) s).2.fault = none)
    (hone : (blockAndEnd (rules f levels) s).2.complaints.toList.length ≤ 1) :
    s.complaints = #[] := by
  set R := rules f levels
  set b := (within .begins R.block s).2
  have hblock : Alike .fresh (fun _ => .next) (within .begins R.block) (within .begins R.block) :=
    .within _ (rules_alike_self f levels).block
  -- Nothing is left to read, so the closing word is missed and that complaint is the only one.
  have hrest : b.rest = [] := List.suffix_nil.1 (hnone ▸ hblock.onward.suffix s)
  have hrun : (blockAndEnd R s).2 = (closing R .kwEnd .kwEnd b).2 := rfl
  rw [hrun] at hfault hone
  obtain ⟨c, hc⟩ := complaints_closing (s := b) (by rw [hrest]; decide) hfault
  have hlater : Coupled Eq true (within .begins R.block) (within .begins R.block) := inferInstance
  have hprefix : s.complaints.toList.length ≤ b.complaints.toList.length :=
    (hlater.later s).complaints.length_le
  rw [hc, List.length_append, List.length_singleton] at hone
  have hempty : s.complaints.toList.length = 0 := by omega
  simpa using hempty

end End

/-! ## The statement -/

/-- The tokens ahead are the first line of a `begin` block, or the end of one. -/
structure FirstLine (s : State) : Prop where
  line : ∃ words last, s.rest <:+ words ++ [last] ∧ ∀ t ∈ words, t.kind ≠ .newline
  whole : WholeLines s.rest
  some : s.rest ≠ []
  parens : s.parens = 0
  depth : s.nesting < nestingLimit

theorem FirstLine.opened {s : State} (h : FirstLine s) (kind : NodeKind) :
    FirstLine ((s.opened kind).inside #[]) where
  line := by
    obtain ⟨words, last, hrest, hwords⟩ := h.line
    exact ⟨words, last, (State.opened_suffix kind s).trans hrest, hwords⟩
  whole := WholeLines.opened h.whole kind
  some := WholeLines.opened_ne_nil h.whole kind h.some
  parens := (State.parens_opened kind s).trans h.parens
  depth := (State.count_opened .nesting kind s).trans_lt h.depth

section Statement

variable {f : String → Bool} {s : State}

theorem run_beginParts (R : Rules) (s : State) :
    (beginParts R s).2 = (blockAndEnd R (beginLine R s).2).2 := by
  unfold beginParts
  rw [run_bind]

/-- **If nothing is wrong but that the text ends behind the first line**, all of the line is read
without a complaint, and as it is in front of more. -/
theorem FirstLine.alone (h : FirstLine s) {levels : Nat}
    (hfault : (beginParts (rules f levels) s).2.fault = none)
    (hone : (beginParts (rules f levels) s).2.complaints.toList.length ≤ 1) :
    ∃ v : State, v.rest = [] ∧ v.complaints = #[] ∧ (∀ c, v.count c = s.count c)
      ∧ ∀ (n : Nat) (more : List Token), (beginLine (rules f n) (s.longer more)).2.fault = none →
        beginLine (rules f n) (s.longer more) = ((), v.longer more) := by
  rw [run_beginParts] at hfault hone
  have hself := rules_alike_self f levels
  obtain ⟨words, last, hrest, hwords⟩ := h.line
  have hline : (beginLine (rules f levels) s).2.fault = none :=
    Formal.unbroken (m := blockAndEnd (rules f levels)) _ hfault
  have hnone := rest_beginLine hself h.parens h.whole hrest hwords hline
  -- The one complaint is about the missing `end`, so the line itself has none.
  have hquiet := quiet_of_blockAndEnd hnone hfault hone
  refine ⟨_, hnone, hquiet, fun c => (beginLine_alike hself).frame (count_frame c) s,
    fun n more hmore => ?_⟩
  refine (beginLine_carries (rules_alike f levels n) (rules_inLine f levels)).carries more s h.whole
    h.parens h.some (fun h => by cases h) ⟨hline, fun c hc => ?_⟩ hmore
  rw [hquiet] at hc
  cases hc

variable {alone levels levels' size offset : Nat} {ts ending : List Token}

section Close

variable (kind : NodeKind) (start : Nat) (outer : Array Tree) (t : State)

end Close

end Statement

end ScriptSense.Grammar
