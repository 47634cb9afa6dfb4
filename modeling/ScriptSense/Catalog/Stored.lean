/-
Catalogs as they are stored.

A catalog is kept in two JSON texts. One is a list of functions, each a record
with the fields `name`, `kind`, `returnType` and `origin`, of which all but the
name may be left out. The other is an object that gives each form by its name,
as a record with the fields `type` and `origin`.

Blank space around a name does not belong to it, and a name may not be empty.
Of two functions with one folded name the later one counts, at the place of the
earlier; the same holds of forms. A catalog is stored in its own order, so
reading it back gives the same catalog.
-/
import ScriptSense.Catalog.Basic
import ScriptSense.Json.Layout
import ScriptSense.Json.Record
import ScriptSense.Text.Blank

set_option autoImplicit false

namespace ScriptSense

/-- Why a catalog cannot be read. -/
inductive CatalogError where
  /-- The text of the functions is malformed. -/
  | functions
  /-- The text of the forms is malformed. -/
  | globals
  /-- A function or form has no name. -/
  | emptyName
deriving DecidableEq, Repr

/-- The name under which an error is shown. -/
def CatalogError.label : CatalogError → String
  | .functions => "Functions"
  | .globals => "Globals"
  | .emptyName => "EmptyName"

/-- The wording of an error. -/
def CatalogError.message : CatalogError → String
  | .functions => "invalid functions catalog"
  | .globals => "invalid globals catalog"
  | .emptyName => "catalog entry with an empty name"

/-! ## Fields -/

namespace Ty

/-- The type that a JSON value names. -/
def ofJson? (value : Json) : Option Ty := value.oneOf? all word

end Ty

namespace FunctionEntry

/-- The name of a function. -/
def nameField : Json.Field := ⟨0, "name"⟩

/-- How a function is used. -/
def kindField : Json.Field := ⟨1, "kind"⟩

/-- The type of a function's value. -/
def returnTypeField : Json.Field := ⟨2, "returnType"⟩

/-- Where a function comes from. -/
def originField : Json.Field := ⟨3, "origin"⟩

/-- The function of a record, its name as it is written. -/
def ofJson? (record : Json) : Option FunctionEntry := do
  guard (record.isRecord 4)
  let name ← record.required? nameField Json.string?
  let kind ← record.optional? kindField .function (Json.oneOf? FunctionKind.all FunctionKind.word)
  let returnType ← record.optional? returnTypeField .unknown Ty.ofJson?
  let origin ← record.optional? originField "" Json.string?
  return ⟨name, kind, returnType, origin⟩

/-- The record of a function. -/
def toJson (f : FunctionEntry) : Json :=
  .object [(nameField.key, .string f.name), (kindField.key, .string f.kind.word),
    (returnTypeField.key, .string f.returnType.word), (originField.key, .string f.origin)]

end FunctionEntry

namespace FormEntry

/-- The type of a form. -/
def typeField : Json.Field := ⟨0, "type"⟩

/-- Where a form comes from. -/
def originField : Json.Field := ⟨1, "origin"⟩

/-- The form of a name and a record, the name as it is written. -/
def ofJson? (name : String) (record : Json) : Option FormEntry := do
  guard (record.isRecord 2)
  let ty ← record.optional? typeField .unknown Ty.ofJson?
  let origin ← record.optional? originField "" Json.string?
  return ⟨name, ty, origin⟩

/-- The record of a form. -/
def toJson (f : FormEntry) : Json :=
  .object [(typeField.key, .string f.ty.word), (originField.key, .string f.origin)]

end FormEntry

/-! ## Catalogs -/

namespace Catalog

/-- A name of the catalog: what is written, without the blank space around it. -/
def checkName (written : String) : Except CatalogError String :=
  let name := trimBlank written
  if name.isEmpty then throw .emptyName else return name

/-- The functions of a text, in order. -/
def functionsOf? (text : String) : Option (List FunctionEntry) := do
  (← (← Json.parse? text).items?).mapM FunctionEntry.ofJson?

/-- The forms of a text, in order. A name that is written twice in the very same
way has its last record, at its first place. -/
def formsOf? (text : String) : Option (List FormEntry) := do
  let members ← (← Json.parse? text).members?
  let forms ← members.mapM fun (name, record) => FormEntry.ofJson? name record
  return (forms.foldl (fun known f => Entries.put f.name f known) []).map Prod.snd

/-- **The catalog with the functions of a text added.** -/
def withFunctions (c : Catalog) (text : String) : Except CatalogError Catalog :=
  match functionsOf? text with
  | none => throw .functions
  | some functions => functions.foldlM (fun c f => do
      return c.addFunction { f with name := ← checkName f.name }) c

/-- The catalog with the forms of a text added. -/
def withForms (c : Catalog) (text : String) : Except CatalogError Catalog :=
  match formsOf? text with
  | none => throw .globals
  | some forms => forms.foldlM (fun c f => do
      return c.addForm { f with name := ← checkName f.name }) c

/-- **The catalog of two texts**, the functions and the forms. -/
def load (functions forms : String) : Except CatalogError Catalog := do
  (← empty.withFunctions functions).withForms forms

/-- The text of the functions. -/
def functionsText (c : Catalog) : String :=
  (Json.array (c.functions.values.map FunctionEntry.toJson)).spread

/-- The text of the forms. -/
def formsText (c : Catalog) : String :=
  (Json.object (c.forms.values.map fun f => (f.name, f.toJson))).spread

end Catalog

end ScriptSense
