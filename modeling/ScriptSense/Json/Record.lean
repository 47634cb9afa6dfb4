/-
Reading records out of JSON values.

A record has fields in a fixed order. It may be written as an object, where the
order is free and keys without a field are passed over, or as an array of its
fields in order, of which the last ones may be left out. A field given twice, a
field of another type and an array that is too long are all refused. A choice
among named variants may be written as the name alone or as an object with the
name as its only key and null under it.
-/
import ScriptSense.Json.Basic

set_option autoImplicit false

namespace ScriptSense.Json

/-- A field of a record: its key in an object, its place in an array. -/
structure Field where
  /-- The place, from zero. -/
  place : Nat
  /-- The key. -/
  key : String

/-- The value can be a record with a number of fields. -/
def isRecord (size : Nat) : Json → Bool
  | .object _ => true
  | .array items => items.length ≤ size
  | _ => false

/-- What a record holds in a field: nothing if the field is left out, and no
answer if it is given twice. -/
def field? (record : Json) (field : Field) : Option (Option Json) :=
  match record with
  | .array items => some items[field.place]?
  | .object members =>
    match members.filter (·.1 == field.key) with
    | [] => some none
    | [member] => some (some member.2)
    | _ => none
  | _ => none

variable {α : Type}

/-- A field that must be given. -/
def required? (record : Json) (field : Field) (read? : Json → Option α) : Option α := do
  read? (← ← record.field? field)

/-- A field that may be left out. -/
def optional? (record : Json) (field : Field) (default : α) (read? : Json → Option α) :
    Option α := do
  match ← record.field? field with
  | none => return default
  | some value => read? value

/-! ## Values of fields -/

/-- The characters of a string. -/
def string? : Json → Option String
  | .string value => some value
  | _ => none

/-- A truth value. -/
def bool? : Json → Option Bool
  | .bool value => some value
  | _ => none

/-- A natural number, written with digits only. -/
def natural? : Json → Option Nat
  | .number text => if text.toList.all Char.isDigit then some (ofDigits 10 text.toList) else none
  | _ => none

/-- The items of a list. -/
def items? : Json → Option (List Json)
  | .array items => some items
  | _ => none

/-- The members of an object. -/
def members? : Json → Option (List (String × Json))
  | .object members => some members
  | _ => none

/-- The name of a variant. -/
def variant? : Json → Option String
  | .string name => some name
  | .object [(name, .null)] => some name
  | _ => none

/-- One of several values, each a variant under its own name. -/
def oneOf? (all : List α) (name : α → String) (value : Json) : Option α := do
  let wanted ← value.variant?
  all.find? (name · == wanted)

end ScriptSense.Json
