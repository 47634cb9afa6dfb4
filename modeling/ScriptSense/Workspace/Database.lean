/-
The open files of a workspace and what follows from them.

Each file is read as soon as its text is known and again whenever it changes.
Besides the files there are two tables that span them: which file owns a script
name, and the global names.

Several files may declare one script name. The first one owns it, and keeps it
through every edit that keeps the name. When the owner closes or gives the name
up, the name passes to the open file with the smallest number that declares it.

A change first takes back all that the old text brought in and then enters what
the new text brings. The order matters in one point: while the old text is taken
back, the file still counts as one that declares its old name, so a name can not
be handed to the file that gives it up.
-/
import ScriptSense.Catalog.Basic
import ScriptSense.Script.Lowering
import ScriptSense.Syntax.Parse
import ScriptSense.Workspace.Diagnostic
import ScriptSense.Workspace.Globals
import ScriptSense.Workspace.Registry

set_option autoImplicit false

namespace ScriptSense

/-- A text with all that can be read out of it alone. -/
structure SourceFile where
  /-- The text. -/
  text : String
  /-- Its tree. -/
  parse : Parse
  /-- What it means, if it has a name. -/
  script : Option Script

namespace SourceFile

/-- Reads a text, given the functions of a catalog. -/
def read (catalog : Catalog) (text : String) : SourceFile :=
  let parse := parseWith catalog.isFunction text
  ⟨text, parse, parse.script?.bind Script.ofTree?⟩

/-- The tree of the text. -/
def root (f : SourceFile) : Tree := f.parse.root

/-- The name that the script declares. -/
def scriptName? (f : SourceFile) : Option String := f.script.map Script.name

/-- The names from outside that the script uses. -/
def external (f : SourceFile) : List String := (f.script.map Script.external).getD []

/-- The script declares the name. -/
def declares (f : SourceFile) (name : String) : Bool := f.scriptName?.any (sameName name)

/-- Both texts declare one and the same script name. -/
def keepsName (old new : SourceFile) : Bool := new.scriptName?.any old.declares

end SourceFile

/-- The open files and the names that span them. -/
structure Database where
  /-- What is known before any file is read. -/
  catalog : Catalog
  /-- The open files. -/
  sources : Registry SourceFile
  /-- The files that own the script names. -/
  owners : NameMap FileId
  /-- The global names. -/
  globals : Globals

namespace Database

/-- No file is open. -/
def ofCatalog (catalog : Catalog) : Database := ⟨catalog, .empty, .empty, .ofCatalog catalog⟩

/-! ## Looking -/

/-- An open file. -/
def file? (d : Database) (id : FileId) : Option SourceFile :=
  (d.sources.entry? id).map Registered.value

/-- The key of an open file. -/
def key? (d : Database) (id : FileId) : Option SourceKey :=
  (d.sources.entry? id).map Registered.key

/-- The number of the open file with a key. -/
def fileId? (d : Database) (key : SourceKey) : Option FileId := d.sources.id? key

/-- The numbers of the open files, in ascending order. -/
def fileIds (d : Database) : List FileId := d.sources.entries.map Registered.id

/-- The file that owns a script name. -/
def owner? (d : Database) (name : String) : Option FileId := d.owners.find? name

/-- What an open file means. -/
def scriptOf? (d : Database) (id : FileId) : Option Script := (d.file? id).bind SourceFile.script

/-- The script with a name. -/
def script? (d : Database) (name : String) : Option Script := (d.owner? name).bind d.scriptOf?

/-! ## Script names -/

/-- Gives a script name to a file, unless another file has it. -/
def claim (d : Database) (name : String) (id : FileId) : Database :=
  -- The name is entered for this file only if no file has it.
  let owned := { d with owners := d.owners.insertNew name id }
  if owned.owner? name = some id then { owned with globals := d.globals.define name id }
  else owned

/-- The open file with the smallest number, other than the given one, that
declares a name, with the name as it writes it. -/
def heir? (d : Database) (name : String) (id : FileId) : Option (FileId × String) :=
  d.sources.entries.findSome? fun e =>
    if e.id ≠ id ∧ e.value.declares name then e.value.scriptName?.map (Prod.mk e.id) else none

/-- Takes a name from its owner, and hands it on if there is an heir. -/
def disown (d : Database) (name : String) (id : FileId) (handOver : Bool) : Database :=
  let free := { d with owners := d.owners.erase name }
  match if handOver then d.heir? name id else none with
  | none => free
  | some (heir, written) => free.claim written heir

/-- Takes back all that the text of a file has brought in. -/
def release (d : Database) (id : FileId) (handOver : Bool) : Database :=
  let without := { d with globals := d.globals.retract id }
  match (d.file? id).bind SourceFile.scriptName? with
  | none => without
  | some name =>
    if d.owner? name = some id then without.disown name id handOver else without

/-! ## Changes -/

/-- Enters what a text brings in. -/
def enter (d : Database) (id : FileId) (file : SourceFile) : Database :=
  let named := match file.scriptName? with
    | none => d
    | some name => d.claim name id
  { named with globals := file.external.foldl (fun g name => g.reference name id) named.globals }

/-- Gives the file with a key, which may be a new one, what was read of it. -/
def shelve (d : Database) (key : SourceKey) (file : SourceFile) : Database :=
  let id := d.sources.idFor key
  -- A file that keeps its name keeps what it owns.
  let handOver := !(d.file? id).any (·.keepsName file)
  let entered := (d.release id handOver).enter id file
  { entered with sources := entered.sources.put key file }

/-- Gives the file with a key a text. -/
def load (d : Database) (key : SourceKey) (text : String) : Database :=
  d.shelve key (SourceFile.read d.catalog text)

/-- **Opens a file**, or gives another text to the one that is open under the
key. -/
def openFile (d : Database) (key : SourceKey) (text : String) : FileId × Database :=
  (d.sources.idFor key, d.load key text)

/-- **Gives an open file another text.** -/
def changeFile? (d : Database) (id : FileId) (text : String) : Option Database :=
  (d.key? id).map fun key => d.load key text

/-- **Closes an open file.** -/
def closeFile? (d : Database) (id : FileId) : Option Database :=
  (d.key? id).map fun key =>
    let released := d.release id true
    { released with sources := released.sources.erase key }

/-! ## Reports -/

/-- The report that another file has the script name of this one. -/
def duplicateName (d : Database) (script : Script) (owner : FileId) : Diagnostic where
  code := .duplicateScriptName
  span := script.nameSpan
  message := "script name '" ++ script.name ++ "' is already used by another file"
  related := match d.scriptOf? owner, d.key? owner with
    | some first, some key => [⟨first.nameSpan, "first declared in " ++ key.text⟩]
    | _, _ => []

/-- **The reports about a file**: the complaints about its text in their order,
then the one about its name. -/
def diagnostics (d : Database) (id : FileId) : List Diagnostic :=
  match d.file? id with
  | none => []
  | some file =>
    let duplicate := file.script.bind fun script =>
      ((d.owner? script.name).filter (· != id)).map (d.duplicateName script)
    file.parse.complaints.map Diagnostic.ofComplaint ++ duplicate.toList

end Database

end ScriptSense
