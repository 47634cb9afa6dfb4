/-
The events of whole texts: of a script, or of one expression alone.

The mark of the root is set first and completed last, so the events of a text are
those of one node.
-/
import ScriptSense.Syntax.Grammar.Script
import ScriptSense.Syntax.Record.Statement

set_option autoImplicit false

namespace ScriptSense.Record

open Grammar (belongsOutside levelsFor)

/-! ## Tying the rules -/

/-- The rules one level up from the rules they use. -/
def Rules.deeper (R : Rules) : Rules where
  turns := R.turns + 1
  statement := Record.statement R
  block := Record.block R
  branches := Record.branches R
  expression := Record.expression R
  operand := Record.operand R

/-- The rules with a number of levels. -/
def rules : Nat → Rules
  | 0 => .exhausted
  | levels + 1 => (rules levels).deeper

/-! ## Scripts -/

/-- Consumes line breaks. -/
def lineBreaks (R : Rules) : Step Unit := R.loop (eat .newline)

/-- `scriptname Name` -/
def scriptName (R : Rules) : Step Unit := do
  let mark ← start
  bump .kwScriptName
  declaredName .scriptName
  lineEnd R
  discard <| complete mark .scriptNameDecl

/-- What stands outside every block. -/
def topLevel (R : Rules) : Step Unit := do
  let kind ← current
  if kind == .kwScriptName then
    complain .secondScriptName
    scriptName R
  else match Closer.ofToken? kind with
    | some closer => setAside (.unopened closer) fun _ => false
    | none => do
      unless belongsOutside kind do complain .misplacedStatement
      R.statement

/-- A line break or what stands outside every block, unless the text ends here.
Answers whether it does not. -/
def scriptTurn (R : Rules) : Step Bool := do
  if ← atEnd then return false
  breakOr (topLevel R)

/-- A script. -/
def script (R : Rules) : Step Unit := do
  let mark ← start
  lineBreaks R
  if ← isAt .kwScriptName then scriptName R else complain (.missing .scriptNameDecl)
  R.loop (scriptTurn R)
  discard <| complete mark .script

/-! ## Expressions alone -/

/-- Passes over a token, unless the text ends here. Answers whether it does not. -/
def passToken : Step Bool := do
  if ← atEnd then return false
  bumpAny
  return true

/-- Sets aside all that is left of the text. -/
def trailing (R : Rules) : Step Unit := do
  let mark ← start
  complain .trailingInput
  R.loop passToken
  discard <| complete mark .error

/-- A text that is one expression. -/
def onlyExpression (R : Rules) : Step Unit := do
  let mark ← start
  lineBreaks R
  discard <| R.expression 0
  lineBreaks R
  unless ← atEnd do trailing R
  discard <| complete mark .exprRoot

/-! ## The events of a text -/

/-- The events of the tokens of a text, if all marks are settled behind it. -/
def eventsOf (content : Rules → Step Unit) (isFunction : String → Bool) (tokens : List Token) :
    Except Breach (Array Event) := do
  let levels := levelsFor (tokens.filter (·.kind != .eof)).length
  let ((), s) ← content (rules levels) { input := .ofTokens isFunction tokens }
  if s.pending.isEmpty then return s.events else throw .unsettledMark

end ScriptSense.Record
