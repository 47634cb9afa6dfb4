/-
The catalog: functions and forms that are known before any script is read.

A function is called, and is a command if it is called for its effect; a form is
a thing of the game world that scripts name. Both tables are keyed by folded
name and listed in the order of first entry.
-/
import ScriptSense.Text.NameMap
import ScriptSense.Script.Ty

set_option autoImplicit false

namespace ScriptSense

/-- How a function is used. -/
inductive FunctionKind where
  /-- For its value. -/
  | function
  /-- For its effect. -/
  | command
deriving DecidableEq, Repr

namespace FunctionKind

/-- Every kind. -/
def all : List FunctionKind := [.function, .command]

/-- The word for a kind. -/
def word : FunctionKind → String
  | .function => "function"
  | .command => "command"

/-- The name under which a kind is shown. -/
def label : FunctionKind → String
  | .function => "Function"
  | .command => "Command"

end FunctionKind

/-- A function of the catalog. -/
structure FunctionEntry where
  /-- The name as it is best written. -/
  name : String
  /-- How it is used. -/
  kind : FunctionKind
  /-- The type of its value. -/
  returnType : Ty
  /-- Where it comes from. -/
  origin : String
deriving DecidableEq, Repr

/-- A form of the catalog. -/
structure FormEntry where
  /-- The name as it is best written. -/
  name : String
  /-- The type of the form. -/
  ty : Ty
  /-- Where it comes from. -/
  origin : String
deriving DecidableEq, Repr

/-- Functions and forms by name. -/
structure Catalog where
  /-- The functions. -/
  functions : NameMap FunctionEntry
  /-- The forms. -/
  forms : NameMap FormEntry
deriving DecidableEq

namespace Catalog

/-- The catalog in which nothing is known. -/
def empty : Catalog := ⟨.empty, .empty⟩

instance : Inhabited Catalog := ⟨empty⟩

/-- Enters a function under its name. -/
def addFunction (c : Catalog) (f : FunctionEntry) : Catalog :=
  { c with functions := c.functions.insert f.name f }

/-- Enters a form under its name. -/
def addForm (c : Catalog) (f : FormEntry) : Catalog :=
  { c with forms := c.forms.insert f.name f }

/-- The name is one of a function. -/
def isFunction (c : Catalog) (name : String) : Bool := c.functions.contains name

end Catalog

end ScriptSense
