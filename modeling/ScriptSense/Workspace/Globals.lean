/-
Names known to all scripts of a workspace.

A name is global because the catalog has it, because an open script declares it
as its own, or because some open script uses it and declares it nowhere. In the
last case it lives exactly as long as it is used. Each name records the files
that use it, whatever its origin.

A file that goes away is retracted: its uses are forgotten, and a name that it
declared stays only while another file uses it, from then on as a name that
nobody declares.
-/
import ScriptSense.Catalog.Basic
import ScriptSense.Script.Scope
import ScriptSense.Workspace.FileId

set_option autoImplicit false

namespace ScriptSense

/-- Where a global name comes from. -/
inductive GlobalOrigin where
  /-- It is a function of the catalog. -/
  | builtin
  /-- It is a form of the catalog. -/
  | form
  /-- It is the name of a script. -/
  | script (owner : FileId)
  /-- It is used and declared nowhere. -/
  | implicit
deriving DecidableEq, Repr

/-- The name under which an origin is shown. -/
def GlobalOrigin.label : GlobalOrigin → String
  | .builtin => "Builtin"
  | .form => "Form"
  | .script owner => "Script(" ++ toString owner.index ++ ")"
  | .implicit => "Implicit"

/-- A global name. -/
structure GlobalEntry where
  /-- The name as it is shown. -/
  name : String
  /-- What it stands for. -/
  kind : SymbolKind
  /-- What is known of its type. -/
  ty : Ty
  /-- Where it comes from. -/
  origin : GlobalOrigin
  /-- The files that use it. -/
  files : FileSet
deriving DecidableEq

namespace GlobalEntry

/-- The entry of a form of the catalog. -/
def ofForm (f : FormEntry) : GlobalEntry := ⟨f.name, .variable, f.ty, .form, .empty⟩

/-- The entry of a function of the catalog. -/
def ofFunction (f : FunctionEntry) : GlobalEntry :=
  ⟨f.name, .function, f.returnType, .builtin, .empty⟩

/-- The entry of a name that is only used. -/
def ofUse (name : String) : GlobalEntry := ⟨name, .variable, .ambiguous, .implicit, .empty⟩

/-- The entry of the name of a script. -/
def ofScript (name : String) (owner : FileId) : GlobalEntry :=
  ⟨name, .script, .reference, .script owner, .empty⟩

/-- The entry from the catalog is no file's to change. -/
def isBuiltin (e : GlobalEntry) : Bool := e.origin == .builtin || e.origin == .form

/-- The entry once its script has claimed it, if the script may. -/
def claim (e : GlobalEntry) (name : String) (file : FileId) : GlobalEntry :=
  if e.origin = .implicit then { ofScript name file with files := e.files } else e

/-- The entry with a use by a file. -/
def use (e : GlobalEntry) (file : FileId) : GlobalEntry :=
  { e with files := e.files.insert file }

/-- The entry as long as somebody uses it. -/
def whileUsed (e : GlobalEntry) : Option GlobalEntry := if e.files.isEmpty then none else some e

/-- The entry without a file, if anything is left of it. -/
def retract (e : GlobalEntry) (file : FileId) : Option GlobalEntry :=
  let left := { e with files := e.files.erase file }
  match e.origin with
  | .builtin | .form => some left
  | .implicit => left.whileUsed
  | .script owner =>
    if owner = file then whileUsed { ofUse e.name with files := left.files } else some left

end GlobalEntry

/-- The global names. -/
structure Globals where
  /-- The entries by name. -/
  table : NameMap GlobalEntry
deriving DecidableEq

namespace Globals

/-- No global names. -/
def empty : Globals := ⟨.empty⟩

/-- The names of a catalog. A form with the name of a function is hidden by the
function. -/
def ofCatalog (c : Catalog) : Globals :=
  -- Functions are entered last, so they replace forms.
  let forms := c.forms.values.foldl (fun m f => m.insert f.name (.ofForm f)) .empty
  ⟨c.functions.values.foldl (fun m f => m.insert f.name (.ofFunction f)) forms⟩

/-- The entry of a name. -/
def find? (g : Globals) (name : String) : Option GlobalEntry := g.table.find? name

/-- The number of names. -/
def size (g : Globals) : Nat := g.table.size

/-- There are no global names. -/
def isEmpty (g : Globals) : Bool := g.table.isEmpty

/-- The entries in the order of their folded names. -/
def sorted (g : Globals) : List GlobalEntry :=
  (g.table.entries.mergeSort fun a b => a.1 ≤ b.1).map Prod.snd

/-- **Makes a name the one of a script**, unless the catalog or another script
has it. -/
def define (g : Globals) (name : String) (file : FileId) : Globals :=
  match g.find? name with
  | none => ⟨g.table.insert name (.ofScript name file)⟩
  | some e => ⟨g.table.insert name (e.claim name file)⟩

/-- The name can become the one of this script, or is so already. -/
def grants (g : Globals) (name : String) (file : FileId) : Bool :=
  match g.find? name with
  | none => true
  | some e => match e.origin with
    | .builtin | .form => false
    | .script owner => owner == file
    | .implicit => true

/-- The name is the one of this script. -/
def isOwned (g : Globals) (name : String) (file : FileId) : Bool :=
  (g.find? name).any (·.origin == .script file)

/-- **Records that a file uses a name.** -/
def reference (g : Globals) (name : String) (file : FileId) : Globals :=
  ⟨g.table.insert name (((g.find? name).getD (.ofUse name)).use file)⟩

/-- **Forgets all that a file has brought in.** -/
def retract (g : Globals) (file : FileId) : Globals := ⟨g.table.select (·.retract file)⟩

/-- The number of names that go when a file is retracted. -/
def collected (g : Globals) (file : FileId) : Nat := g.size - (g.retract file).size

end Globals

end ScriptSense
