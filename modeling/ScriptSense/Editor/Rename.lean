/-
Giving a thing another name.

Every identifier that refers to the thing is replaced. The new name has to be an
identifier and must not be taken. For a symbol of a script this means that from
none of the identifiers to be replaced another symbol is seen under the new
name; for a global name it means that no other global name is the same. What the
catalog has cannot be renamed.
-/
import ScriptSense.Editor.References
import ScriptSense.Text.Edit

set_option autoImplicit false

namespace ScriptSense

/-- Why a name is not changed. -/
inductive RenameError where
  /-- The cursor means nothing that has a name. -/
  | noTarget
  /-- The new name is no identifier. -/
  | invalidName (name : String)
  /-- The name is one of the catalog. -/
  | builtin (name : String)
  /-- The new name is taken. -/
  | conflict (name : String)
deriving DecidableEq, Repr

/-- The name under which an error is shown. -/
def RenameError.label : RenameError → String
  | .noTarget => "NoTarget"
  | .invalidName _ => "InvalidName"
  | .builtin _ => "Builtin"
  | .conflict _ => "Conflict"

/-- The wording of an error. -/
def RenameError.message : RenameError → String
  | .noTarget => "no renameable name at this position"
  | .invalidName name => "'" ++ name ++ "' is not a valid identifier"
  | .builtin name => "'" ++ name ++ "' is defined by the builtin catalog"
  | .conflict name => "'" ++ name ++ "' is already defined"

/-- The edits of several files, each in the order of its text. -/
abbrev FileEdits := List (FileId × List Edit)

namespace Database

/-- The name of the catalog that a thing has. -/
def catalogName? : Definition → Option String
  | .bound _ _ _ => none
  | .global entry => if entry.isBuiltin then some entry.name else none

/-- The place of the name that a cursor means, if it can be changed. -/
def renameableAt? (d : Database) (file : FileId) (offset : Nat) : Option Span :=
  (d.definitionAt? file offset).bind fun (token, definition) =>
    if (catalogName? definition).isSome then none else some token.item.span

/-- From an identifier another symbol than the given one is seen under a name. -/
def isCaptured (d : Database) (symbol : SymbolId) (name : String) (r : Reference) : Bool :=
  (r.token.scope?.bind (d.scopeOf? r.file)).any fun (script, scope) =>
    (script.scopes.resolve? scope name).any (·.2 != symbol)

/-- The new name is taken. -/
def isTaken (d : Database) (definition : Definition) (name : String) : Bool :=
  match definition with
  | .bound _ _ symbol => (d.referencesTo definition).any (d.isCaptured symbol name)
  -- To write a name in another case is no conflict with itself.
  | .global entry => !sameName entry.name name && (d.globals.find? name).isSome

/-- The edits that write a name over all references. -/
def overwrite (d : Database) (definition : Definition) (name : String) : FileEdits :=
  (d.filesOf definition).filterMap fun file =>
    match d.occurrences file definition with
    | [] => none
    | tokens => some (file, tokens.map fun s => ⟨s.item.span, name⟩)

/-- **The edits that give another name to the thing that a cursor means.** -/
def rename (d : Database) (file : FileId) (offset : Nat) (name : String) :
    Except RenameError FileEdits :=
  match d.definitionAt? file offset with
  | none => throw .noTarget
  | some (_, definition) =>
    if !isIdentifier name then throw (.invalidName name)
    else match catalogName? definition with
      | some known => throw (.builtin known)
      | none =>
        if d.isTaken definition name then throw (.conflict name)
        else return d.overwrite definition name

/-- The workspace after the edits of one file. -/
def applyTo (d : Database) (file : FileId) (edits : List Edit) : Database :=
  match d.file? file with
  | none => d
  | some source => (d.changeFile? file (Edit.applyAll source.text edits)).getD d

/-- **The workspace after the edits of several files**, one file after the
other. -/
def apply (d : Database) (edits : FileEdits) : Database :=
  edits.foldl (fun d (file, edits) => d.applyTo file edits) d

end Database

end ScriptSense
