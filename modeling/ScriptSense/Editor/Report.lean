/-
Reports in the form in which an editor shows them.

An editor counts lines and columns and knows one message for each report, so
places in other files are told in the message.
-/
import ScriptSense.Text.Position
import ScriptSense.Workspace.Database

set_option autoImplicit false

namespace ScriptSense

/-- A report as an editor shows it. -/
structure Report where
  /-- Where the place begins. -/
  first : Position
  /-- Where the place ends. -/
  last : Position
  /-- How bad it is. -/
  severity : Severity
  /-- The code. -/
  code : String
  /-- The wording. -/
  message : String
deriving DecidableEq, Repr

/-- Who speaks in a report. -/
def Report.source : String := "obscript"

/-- The report on a text. -/
def Diagnostic.report (text : String) (d : Diagnostic) : Report where
  first := .ofOffset text d.span.start
  last := .ofOffset text d.span.stop
  severity := d.severity
  code := d.code.text
  message := d.related.foldl (fun m place => m ++ " (" ++ place.message ++ ")") d.message

/-- **The reports about a file.** -/
def Database.reports (d : Database) (file : FileId) : List Report :=
  match d.file? file with
  | none => []
  | some source => (d.diagnostics file).map (·.report source.text)

end ScriptSense
