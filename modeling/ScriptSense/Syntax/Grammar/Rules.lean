/-
The rules by which the grammar refers to itself.

The grammar is written with open recursion: each rule is given the rules one
level further down and never calls itself by name. `Rules.deeper` in
`ScriptSense.Syntax.Grammar.Script` ties the knot level by level, and at the
bottom, where no level is left, a rule gives up.

How many levels are enough is a matter of counting. From one token consumed to
the next the rules call each other at most four deep (block, statement,
expression, operand), so a few levels for each token never run out. The same
number bounds the turns of every loop, of which each but the last consumes a
token.
-/
import ScriptSense.Syntax.Grammar.Builder

set_option autoImplicit false

namespace ScriptSense.Grammar

/-- The rules of the grammar, as a rule may use them. -/
structure Rules where
  /-- How often a loop may turn. -/
  turns : Nat
  /-- The identifier is known to be a function. -/
  isFunction : String → Bool
  /-- A statement with the end of its line. -/
  statement : Step Unit
  /-- The statements of a block, up to a word that closes it. -/
  block : Step Unit
  /-- The branches of an `if` after the first. -/
  branches : Step Unit
  /-- An expression whose operators bind at least with the power. -/
  expression : Nat → Step Unit
  /-- An operand with the operators in front of it; in it, names may begin a call
  if the flag is set. Answers whether there was anything to be an operand. -/
  operand : Bool → Step Bool

namespace Rules

/-- The rules where no level is left. -/
def exhausted (isFunction : String → Bool) : Rules where
  turns := 0
  isFunction := isFunction
  statement := modify (State.giveUp .stuck)
  block := modify (State.giveUp .stuck)
  branches := modify (State.giveUp .stuck)
  expression := fun _ => modify (State.giveUp .stuck)
  operand := fun _ => do
    modify (State.giveUp .stuck)
    return false

/-- Repeats a step on what it answered last, until it answers nothing. -/
def loopFrom {σ : Type} (R : Rules) (start : σ) (step : σ → Step (Option σ)) : Step Unit :=
  iterate step R.turns start

/-- Repeats a step until it answers `false`. -/
def loop (R : Rules) (step : Step Bool) : Step Unit :=
  R.loopFrom () fun _ => do
    if ← step then return some () else return none

end Rules

/-- Consumes a line break, or else takes a step. Answers `true`, for a loop. -/
def breakOr (step : Step Unit) : Step Bool := do
  if ← eat .newline then return true
  step
  return true

/-! ## Words that close a block -/

/-- The word closes a block or one of its branches. -/
def closesBlock (kind : TokenKind) : Bool := (Closer.ofToken? kind).isSome

/-! ## Recovery

Nothing here consumes a line break, so a fault in one line leaves the next one
alone. -/

/-- Complains about the next token and sets it aside, unless it is one of those
that `recovers` names or the line ends here. -/
def setAside (wanted : Wanted) (recovers : TokenKind → Bool) : Step Unit := do
  -- What comes next may be just what is wanted after this.
  if recovers (← current) then complain (.missing wanted)
  else if ← atLineEnd then complain (.missing wanted)
  else
    node .error do
      complain (.missing wanted)
      bumpAny

/-- Passes over a token of a line, unless the line ends here. Answers whether it
does not. -/
def passInLine : Step Bool := do
  if ← atLineEnd then return false
  bumpAny
  return true

/-- The end of a statement. What is left on the line is set aside as a whole. -/
def lineEnd (R : Rules) : Step Unit := do
  if ← eat .newline then return
  if ← atEnd then return
  node .error do
    complain (.missing .lineEnd)
    R.loop passInLine
  -- The line break stays outside the error.
  discard <| eat .newline

/-- Passes over a token of a line, unless it ends the line or closes a bracket
that was open before: `opened` are those opened since. Answers how many are open
then. -/
def skipToken (opened : Nat) : Step (Option Nat) := do
  if ← atLineEnd then return none
  match ← current with
  | .lParen | .lBracket | .lBrace => do
    bumpAny
    return some (opened + 1)
  | .rParen | .rBracket | .rBrace =>
    -- A bracket that was open before is closed by whoever opened it.
    if opened == 0 then return none
    bumpAny
    return some (opened - 1)
  | _ => do
    bumpAny
    return some opened

/-- Sets aside an expression at the limit of nesting. -/
def deepExpression (R : Rules) : Step Unit :=
  node .error do
    complain .deepExpression
    withoutParens (R.loopFrom 0 skipToken)

/-- Passes over a token of a kind, unless it is the word that closes the block:
`opened` are the blocks opened since. Answers how many are open then. -/
def skipKind (opened : Nat) (kind : TokenKind) : Step (Option Nat) := do
  match kind with
  | .kwIf | .kwWhile | .kwForeach | .kwBegin => do
    bumpAny
    return some (opened + 1)
  | kind =>
    if opened == 0 then
      -- `elseif` and `else` close a block as well, but only this one.
      if closesBlock kind then return none
      bumpAny
      return some opened
    else
      bumpAny
      if kind == .kwEndIf || kind == .kwLoop || kind == .kwEnd then return some (opened - 1)
      return some opened

/-- Passes over a token of a block, unless the block or the text ends here. Answers
how many blocks are open then. -/
def skipWord (opened : Nat) : Step (Option Nat) := do
  if ← atEnd then return none
  skipKind opened (← current)

/-- Sets aside a block at the limit of nesting. -/
def deepBlock (R : Rules) : Step Unit :=
  node .error do
    complain .deepBlock
    R.loopFrom 0 skipWord

/-- A declared name. -/
def declaredName (wanted : Wanted) : Step Unit := do
  if ← isAt .ident then node .name (modify State.consume)
  else complain (.missing wanted)

end ScriptSense.Grammar
