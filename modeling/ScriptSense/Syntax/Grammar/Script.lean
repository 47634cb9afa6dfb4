/-
Whole texts: a script, or one expression alone.

A script begins with its name and goes on with declarations, assignments and
`begin` blocks; any other statement outside a block is read all the same and
draws a warning. This is also where the rules are tied together and where the
number of levels is fixed.
-/
import ScriptSense.Syntax.Grammar.Statement

set_option autoImplicit false

namespace ScriptSense.Grammar

/-! ## Tying the rules -/

/-- The rules one level up from the rules they use. -/
def Rules.deeper (R : Rules) : Rules where
  turns := R.turns + 1
  isFunction := R.isFunction
  statement := Grammar.statement R
  block := Grammar.block R
  branches := Grammar.branches R
  expression := Grammar.expression R
  operand := Grammar.operand R

/-- The rules with a number of levels. -/
def rules (isFunction : String → Bool) : Nat → Rules
  | 0 => .exhausted isFunction
  | levels + 1 => (rules isFunction levels).deeper

/-- The levels that a number of tokens can take. -/
def levelsFor (tokens : Nat) : Nat := 8 * (tokens + 1)

/-! ## Scripts -/

/-- Consumes line breaks. -/
def lineBreaks (R : Rules) : Step Unit := R.loop (eat .newline)

/-- `scriptname Name` -/
def scriptName (R : Rules) : Step Unit :=
  node .scriptNameDecl do
    bump .kwScriptName
    declaredName .scriptName
    lineEnd R

/-- The statement may stand outside every block. -/
def belongsOutside (kind : TokenKind) : Bool :=
  kind.isTypeName || kind == .kwSet || kind == .kwLet || kind == .kwBegin

/-- Sets aside a word that closes a block where none is open. -/
def strayCloser (closer : Closer) : Step Unit := do
  discard current
  unless ← atLineEnd do
    node .error do
      complain (.unopened closer)
      bumpAny

/-- What stands outside every block. -/
def topLevel (R : Rules) : Step Unit := do
  let kind ← current
  if kind == .kwScriptName then
    complain .secondScriptName
    scriptName R
  else match Closer.ofToken? kind with
    | some closer => strayCloser closer
    | none => do
      unless belongsOutside kind do complain .misplacedStatement
      R.statement

/-- A line break or what stands outside every block, unless the text ends here.
Answers whether it does not. -/
def scriptTurn (R : Rules) : Step Bool := do
  if ← atEnd then return false
  breakOr (topLevel R)

/-- The content of a script. -/
def script (R : Rules) : Step Unit := do
  lineBreaks R
  -- Without a name the statements are read all the same.
  if ← isAt .kwScriptName then scriptName R else complain (.missing .scriptNameDecl)
  R.loop (scriptTurn R)

/-! ## Expressions alone -/

/-- Passes over a token, unless the text ends here. Answers whether it does not. -/
def passToken : Step Bool := do
  if ← atEnd then return false
  bumpAny
  return true

/-- The content of a text that is one expression. -/
def onlyExpression (R : Rules) : Step Unit := do
  lineBreaks R
  R.expression 0
  lineBreaks R
  unless ← atEnd do
    node .error do
      complain .trailingInput
      R.loop passToken

/-! ## Reading a text -/

/-- The state in front of a text. -/
def State.initial (tokens : List Token) : State :=
  { rest := tokens.filter (·.kind != .eof) }

/-- The root over everything built and everything left. -/
def State.root (kind : NodeKind) (s : State) : Tree :=
  let s := s.shiftMany s.rest.length
  .node kind ⟨0, s.offset⟩ s.out.toList

/-- The state behind a text. -/
def run (isFunction : String → Bool) (content : Rules → Step Unit) (tokens : List Token) :
    State :=
  let start := State.initial tokens
  ((content (rules isFunction (levelsFor start.rest.length))).run start).2

end ScriptSense.Grammar
