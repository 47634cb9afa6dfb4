/-
The rules as they write down events, and what they share: recovery and names.

The grammar is the one of `ScriptSense.Syntax.Grammar`, rule by rule, but here every
node is a mark that is set and settled. The rules use each other in the same way, each
given the rules one level further down (`Rules`); where no level is left, and where a
loop has no turn left, everything ends.
-/
import ScriptSense.Syntax.Grammar.Rules
import ScriptSense.Syntax.Record.Recorder

set_option autoImplicit false

namespace ScriptSense.Record

open Grammar (closesBlock)

/-- The rules of the grammar, as a rule may use them. -/
structure Rules where
  /-- How often a loop may turn. -/
  turns : Nat
  /-- A statement with the end of its line. -/
  statement : Step Unit
  /-- The statements of a block, up to a word that closes it. -/
  block : Step Unit
  /-- The branches of an `if` after the first. -/
  branches : Step Unit
  /-- An expression whose operators bind at least with the power, if there is one. -/
  expression : Nat → Step (Option Built)
  /-- An operand with the operators in front of it, if there is one; in it, names may
  begin a call if the flag is set. -/
  operand : Bool → Step (Option Built)

namespace Rules

/-- The rules where no level is left. -/
def exhausted : Rules where
  turns := 0
  statement := throw .exhausted
  block := throw .exhausted
  branches := throw .exhausted
  expression := fun _ => throw .exhausted
  operand := fun _ => throw .exhausted

/-- Repeats a step on what it answered last, until it answers that it is done. -/
def loopFrom {σ : Type} (R : Rules) (start : σ) (step : σ → Step (ForInStep σ)) : Step Unit :=
  discard <| iterate step R.turns start

/-- Repeats a step until it answers `false`. -/
def loop (R : Rules) (step : Step Bool) : Step Unit :=
  R.loopFrom () fun _ => do
    if ← step then return .yield () else return .done ()

end Rules

/-- Consumes a line break, or else takes a step. Answers `true`, for a loop. -/
def breakOr (step : Step Unit) : Step Bool := do
  if ← eat .newline then return true
  step
  return true

/-! ## Recovery -/

/-- Complains about the next token and sets it aside, unless it is one of those
that `recovers` names or the line ends here. -/
def setAside (problem : Problem) (recovers : TokenKind → Bool) : Step Unit := do
  let stops ← do
    if recovers (← current) then pure true else atLineEnd
  if stops then complain problem
  else
    let mark ← start
    complain problem
    bumpAny
    discard <| complete mark .error

/-- Passes over a token of a line, unless the line ends here. Answers whether it
does not. -/
def passInLine : Step Bool := do
  if ← atLineEnd then return false
  bumpAny
  return true

/-- The end of a statement. What is left on the line is set aside as a whole. -/
def lineEnd (R : Rules) : Step Unit := do
  if ← eat .newline then return
  if ← atEnd then return
  let mark ← start
  complain (.missing .lineEnd)
  R.loop passInLine
  discard <| complete mark .error
  discard <| eat .newline

/-- Passes over a token of a line, unless it ends the line or closes a bracket
that was open before: `opened` are those opened since. Answers how many are open
then. -/
def skipToken (opened : Nat) : Step (ForInStep Nat) := do
  if ← atLineEnd then return .done opened
  match ← current with
  | .lParen | .lBracket | .lBrace => do
    bumpAny
    return .yield (opened + 1)
  | .rParen | .rBracket | .rBrace => do
    if opened == 0 then return .done opened
    bumpAny
    return .yield (opened - 1)
  | _ => do
    bumpAny
    return .yield opened

/-- Sets aside an expression at the limit of nesting. -/
def deepExpression (R : Rules) : Step Built := do
  let mark ← start
  complain .deepExpression
  withoutParens (R.loopFrom 0 skipToken)
  complete mark .error

/-- Passes over a token of a block, unless the block or the text ends here: `opened`
are the blocks opened since. Answers how many are open then. -/
def skipWord (opened : Nat) : Step (ForInStep Nat) := do
  if ← atEnd then return .done opened
  match ← current with
  | .kwIf | .kwWhile | .kwForeach | .kwBegin => do
    bumpAny
    return .yield (opened + 1)
  | kind => do
    if 0 < opened && (kind == .kwEndIf || kind == .kwLoop || kind == .kwEnd) then
      bumpAny
      return .yield (opened - 1)
    -- `elseif` and `else` close a block as well, but only this one.
    if opened == 0 && closesBlock kind then return .done opened
    bumpAny
    return .yield opened

/-- Sets aside a block at the limit of nesting. -/
def deepBlock (R : Rules) : Step Unit := do
  let mark ← start
  complain .deepBlock
  R.loopFrom 0 skipWord
  discard <| complete mark .error

/-! ## Names -/

/-- A declared name. -/
def declaredName (wanted : Wanted) : Step Unit := do
  let mark ← start
  if ← eat .ident then discard <| complete mark .name
  else
    abandon mark
    complain (.missing wanted)

end ScriptSense.Record
