/-
What the editor reports about a file.

A report has a code, which fixes how bad it is, and it may point to places in
other files that explain it.
-/
import ScriptSense.Syntax.Problem

set_option autoImplicit false

namespace ScriptSense

/-- What a report is about. -/
inductive DiagnosticCode where
  /-- The text is malformed. -/
  | syntaxError
  /-- The text is suspicious. -/
  | syntaxWarning
  /-- Another file has the script name. -/
  | duplicateScriptName
deriving DecidableEq, Repr

namespace DiagnosticCode

/-- The code of a problem in a text. -/
def ofSeverity : Severity → DiagnosticCode
  | .error => .syntaxError
  | .warning => .syntaxWarning

/-- The written form. -/
def text : DiagnosticCode → String
  | .syntaxError => "E001"
  | .syntaxWarning => "W001"
  | .duplicateScriptName => "E101"

/-- The name under which a code is shown. -/
def label : DiagnosticCode → String
  | .syntaxError => "SyntaxError"
  | .syntaxWarning => "SyntaxWarning"
  | .duplicateScriptName => "DuplicateScriptName"

/-- How bad it is. -/
def severity : DiagnosticCode → Severity
  | .syntaxError | .duplicateScriptName => .error
  | .syntaxWarning => .warning

end DiagnosticCode

/-- A place that explains a report. -/
structure RelatedPlace where
  /-- The place, in a file that the message names. -/
  span : Span
  /-- What is to be seen there. -/
  message : String
deriving DecidableEq, Repr

/-- A report about a place in a file. -/
structure Diagnostic where
  /-- What it is about. -/
  code : DiagnosticCode
  /-- The place. -/
  span : Span
  /-- The wording. -/
  message : String
  /-- Places that explain it. -/
  related : List RelatedPlace
deriving DecidableEq, Repr

namespace Diagnostic

/-- The report of a complaint. -/
def ofComplaint (c : Complaint) : Diagnostic := ⟨.ofSeverity c.severity, c.span, c.message, []⟩

/-- How bad it is. -/
def severity (d : Diagnostic) : Severity := d.code.severity

/-- The report is of an error. -/
def isError (d : Diagnostic) : Bool := d.severity == .error

/-- The written form: severity, code, wording and place. -/
def text (d : Diagnostic) : String :=
  d.severity.word ++ "[" ++ d.code.text ++ "]: " ++ d.message ++ " (at " ++ d.span.text ++ ")"

end Diagnostic

end ScriptSense
