import ScriptSense.Editor.Completion
import ScriptSense.Editor.Hover
import ScriptSense.Editor.Layout
import ScriptSense.Editor.Rename
import ScriptSense.Editor.Report
import ScriptSense.Catalog.Stored
import ScriptSense.Proofs.Grammar.Alike
import ScriptSense.Proofs.Lexing
import ScriptSense.Proofs.Lexemes
import ScriptSense.Proofs.Grammar.Shape
import ScriptSense.Proofs.Grammar.Running
import ScriptSense.Proofs.Grammar.Frame
import ScriptSense.Proofs.Conservation
import ScriptSense.Proofs.Grammar.Budget
import ScriptSense.Proofs.Grammar.Spending
import ScriptSense.Proofs.Grammar.StatementContracts
import ScriptSense.Proofs.Totality
import ScriptSense.Proofs.Record.Outcome
import ScriptSense.Proofs.Syntax.Bare
import ScriptSense.Proofs.Script.Lexical
import ScriptSense.Proofs.Formula.RoundTrip
import ScriptSense.Proofs.Workspace.Globals
import ScriptSense.Proofs.Workspace.Registry
import ScriptSense.Proofs.Workspace.Owners
import ScriptSense.Proofs.Workspace.Coherence
import ScriptSense.Proofs.Editor.References
import ScriptSense.Proofs.Editor.Declarations
import ScriptSense.Proofs.Grammar.Whole
import ScriptSense.Proofs.Grammar.WholeRules
import ScriptSense.Proofs.Script.Complete
import ScriptSense.Proofs.Grammar.Lockstep
import ScriptSense.Proofs.Layout.Editing
import ScriptSense.Proofs.Layout.Recasing
import ScriptSense.Proofs.Script.Placeless
import ScriptSense.Proofs.Json.RoundTrip
import ScriptSense.Proofs.Catalog.Storing
import ScriptSense.Proofs.Syntax.Moved
import ScriptSense.Proofs.Joining
import ScriptSense.Proofs.Grammar.Longer
import ScriptSense.Proofs.Grammar.InLine
import ScriptSense.Proofs.Grammar.Carrying
import ScriptSense.Proofs.Grammar.Prefix
import ScriptSense.Proofs.Grammar.Made
import ScriptSense.Proofs.Script.Likeness
import ScriptSense.Proofs.Casing.Tokens
import ScriptSense.Proofs.Casing.Reading
import ScriptSense.Proofs.Casing.Meaning
import ScriptSense.Proofs.Layout.Strokes
import ScriptSense.Proofs.Layout.Relexing
import ScriptSense.Proofs.Layout.Lines
import ScriptSense.Proofs.Grammar.Tandem
import ScriptSense.Proofs.Grammar.TandemRules
import ScriptSense.Proofs.Grammar.Binding
import ScriptSense.Proofs.Grammar.Hints
import ScriptSense.Proofs.Grammar.Isolation
import ScriptSense.Proofs.Grammar.Anchors
import ScriptSense.Proofs.Grammar.Further
import ScriptSense.Proofs.Grammar.Nested
import ScriptSense.Proofs.Grammar.Skipping
import ScriptSense.Proofs.Grammar.Closed
import ScriptSense.Proofs.Grammar.Exact
import ScriptSense.Proofs.Grammar.Crossing
import ScriptSense.Proofs.Grammar.Opening
import ScriptSense.Proofs.Grammar.Bodies
import ScriptSense.Proofs.Grammar.Filling
import ScriptSense.Proofs.Script.Lookup
import ScriptSense.Proofs.Grammar.Charts
import ScriptSense.Proofs.Grammar.SetAside
import ScriptSense.Proofs.Literals
import ScriptSense.Proofs.Script.Aside
import ScriptSense.Proofs.Grammar.Trimmed
import ScriptSense.Proofs.Workspace.Counting
import ScriptSense.Proofs.Workspace.Ownership
import ScriptSense.Proofs.Workspace.Reloading
import ScriptSense.Proofs.Text.Positions
import ScriptSense.Proofs.Script.Outwards
import ScriptSense.Proofs.Workspace.Paths
import ScriptSense.Proofs.Editor.Completions
