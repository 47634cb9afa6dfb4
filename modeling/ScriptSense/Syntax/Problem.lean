/-
What can be wrong with a text.

A problem is a cause. Its wording and its severity are functions of the cause,
and only one cause is a mere warning: a statement outside every block that does
not belong there.
-/
import ScriptSense.Text.Span
import ScriptSense.Syntax.TokenKind

set_option autoImplicit false

namespace ScriptSense

/-- How bad a problem is. -/
inductive Severity where
  /-- The text is malformed. -/
  | error
  /-- The text is well formed and suspicious. -/
  | warning
deriving DecidableEq, Repr

/-- The word for a severity. -/
def Severity.word : Severity → String
  | .error => "error"
  | .warning => "warning"

/-- The name under which a severity is shown. -/
def Severity.label : Severity → String
  | .error => "Error"
  | .warning => "Warning"

/-- What the grammar asks for at some place. -/
inductive Wanted where
  | scriptNameDecl | scriptName | blockType | variableName | variable | memberName
  | expression | argument | lineEnd
  | kwTo | kwEnd | kwEndIf | kwLoop | arrow
  | closeParen | closeBracket | closeBrace
deriving DecidableEq, Repr

/-- The wording of what is asked for. -/
def Wanted.word : Wanted → String
  | .scriptNameDecl => "script name declaration"
  | .scriptName => "script name"
  | .blockType => "block type"
  | .variableName => "variable name"
  | .variable => "variable"
  | .memberName => "member name"
  | .expression => "expression"
  | .argument => "argument"
  | .lineEnd => "newline"
  | .kwTo => "to"
  | .kwEnd => "end"
  | .kwEndIf => "endif"
  | .kwLoop => "loop"
  | .arrow => "<-"
  | .closeParen => ")"
  | .closeBracket => "]"
  | .closeBrace => "\x7d"

/-- The words that close a block or one of its branches. -/
inductive Closer where
  | kwEnd | kwEndIf | kwElseIf | kwElse | kwLoop
deriving DecidableEq, Repr

namespace Closer

/-- The closer that a token is. -/
def ofToken? : TokenKind → Option Closer
  | .kwEnd => some .kwEnd
  | .kwEndIf => some .kwEndIf
  | .kwElseIf => some .kwElseIf
  | .kwElse => some .kwElse
  | .kwLoop => some .kwLoop
  | _ => none

/-- The wording of a closer. -/
def word : Closer → String
  | .kwEnd => "end"
  | .kwEndIf => "endif"
  | .kwElseIf => "elseif"
  | .kwElse => "else"
  | .kwLoop => "loop"

end Closer

/-- A cause of complaint. -/
inductive Problem where
  /-- Something the grammar asks for is not there. -/
  | missing (wanted : Wanted)
  /-- A word closes a block that is not open. -/
  | unopened (closer : Closer)
  /-- The script is named a second time. -/
  | secondScriptName
  /-- The statement belongs in a block. -/
  | misplacedStatement
  /-- Something follows a complete expression. -/
  | trailingInput
  /-- A `begin` block stands in another one. -/
  | nestedBegin
  /-- Blocks are nested beyond the limit. -/
  | deepBlock
  /-- Expressions are nested beyond the limit. -/
  | deepExpression
deriving DecidableEq, Repr

namespace Problem

/-- How bad a problem is. -/
def severity : Problem → Severity
  | .misplacedStatement => .warning
  | _ => .error

/-- The wording of a problem. -/
def message : Problem → String
  | .missing wanted => "expected " ++ wanted.word
  | .unopened closer => "unexpected " ++ closer.word
  | .secondScriptName => "duplicate script name declaration"
  | .misplacedStatement => "statement not allowed at top level"
  | .trailingInput => "unexpected input after expression"
  | .nestedBegin => "nested begin blocks not allowed"
  | .deepBlock => "block nested too deeply"
  | .deepExpression => "expression nested too deeply"

end Problem

/-- A problem at its place in the text. -/
structure Complaint where
  /-- What is wrong. -/
  problem : Problem
  /-- Where it is wrong. -/
  span : Span
deriving DecidableEq, Repr

namespace Complaint

/-- How bad the problem is. -/
def severity (c : Complaint) : Severity := c.problem.severity

/-- The wording of the problem. -/
def message (c : Complaint) : String := c.problem.message

/-- The written form: severity, wording and place. -/
def text (c : Complaint) : String :=
  c.severity.word ++ ": " ++ c.message ++ " at " ++ c.span.text

end Complaint

end ScriptSense
