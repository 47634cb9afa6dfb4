/-
Types as far as they are known without running a script.

The language is loosely typed, so a type here only serves to inform. A name from
outside the script is ambiguous; whatever else cannot be told is unknown.
-/
import ScriptSense.Syntax.TokenKind

set_option autoImplicit false

namespace ScriptSense

/-- What is known of the type of a value. -/
inductive Ty where
  | integer | float | string | array | reference
  /-- The value of a name from outside the script. -/
  | ambiguous
  /-- Nothing is known. -/
  | unknown
deriving DecidableEq, Repr, Inhabited

namespace Ty

/-- Every type. -/
def all : List Ty := [.integer, .float, .string, .array, .reference, .ambiguous, .unknown]

/-- The word for a type. -/
def word : Ty → String
  | .integer => "integer"
  | .float => "float"
  | .string => "string"
  | .array => "array"
  | .reference => "reference"
  | .ambiguous => "ambiguous"
  | .unknown => "unknown"

/-- The type that a word of the language declares. -/
def ofToken? : TokenKind → Option Ty
  | .kwShort | .kwInt | .kwLong => some .integer
  | .kwFloat => some .float
  | .kwRef => some .reference
  | .kwStringVar => some .string
  | .kwArrayVar => some .array
  | _ => none

/-- The type of a word. -/
def ofWord? (word : String) : Option Ty := all.find? (·.word == word)

theorem ofWord?_word (t : Ty) : ofWord? t.word = some t := by cases t <;> decide

end Ty

end ScriptSense
