/-
The settings of the editor.

They say in which case the words of the language are written and what one level
of indentation is. A text of settings is a JSON record in which every field may
be left out.
-/
import ScriptSense.Json.Layout
import ScriptSense.Json.Record
import ScriptSense.Text.Casing

set_option autoImplicit false

namespace ScriptSense

/-! ## Keywords -/

/-- How the words of the language are written. -/
inductive KeywordStyle where
  | lower | upper
  /-- With capitals at the start of each part: `EndIf`. -/
  | capitalized
  /-- As they are. -/
  | preserve
deriving DecidableEq, Repr

namespace KeywordStyle

/-- Every style. -/
def all : List KeywordStyle := [.lower, .upper, .capitalized, .preserve]

/-- The word for a style. -/
def word : KeywordStyle → String
  | .lower => "lower"
  | .upper => "upper"
  | .capitalized => "capitalized"
  | .preserve => "preserve"

/-- The name under which a style is shown. -/
def label : KeywordStyle → String
  | .lower => "Lower"
  | .upper => "Upper"
  | .capitalized => "Capitalized"
  | .preserve => "Preserve"

/-- The style of a word. -/
def ofWord? (word : String) : Option KeywordStyle := all.find? (·.word == word)

/-- The words that are made of several parts. -/
def compounds : List String :=
  ["ScriptName", "ElseIf", "EndIf", "ForEach", "String_Var", "Array_Var"]

/-- A word with its first letter as a capital and all others small. -/
def capital (word : String) : String :=
  match (foldCase word).toList with
  | [] => ""
  | c :: cs => String.ofList (c.toUpper :: cs)

/-- A word with a capital at the start of each part. -/
def capitalize (word : String) : String :=
  (compounds.find? (sameName word)).getD (capital word)

/-- **A word in a style.** -/
def apply : KeywordStyle → String → String
  | .lower, word => foldCase word
  | .upper, word => raiseCase word
  | .capitalized, word => capitalize word
  | .preserve, word => word

end KeywordStyle

/-! ## Settings -/

/-- The settings of the editor. -/
structure Settings where
  /-- How the words of the language are written. -/
  keywordStyle : KeywordStyle
  /-- The number of columns of one level of indentation. -/
  indentWidth : Nat
  /-- Indentation is made of spaces. -/
  insertSpaces : Bool
deriving DecidableEq, Repr

/-- Why settings cannot be read. -/
inductive SettingsError where
  /-- The text is malformed. -/
  | json
  /-- A level of indentation would be no indentation. -/
  | zeroIndentWidth
deriving DecidableEq, Repr

/-- The name under which an error is shown. -/
def SettingsError.label : SettingsError → String
  | .json => "Json"
  | .zeroIndentWidth => "ZeroIndentWidth"

/-- The wording of an error. -/
def SettingsError.message : SettingsError → String
  | .json => "invalid workspace configuration"
  | .zeroIndentWidth => "indentWidth must be at least 1"

namespace Settings

/-- What holds unless something else is said. -/
def default : Settings := ⟨.lower, 4, true⟩

instance : Inhabited Settings := ⟨default⟩

/-- The least number of columns that is too large. -/
def widthLimit : Nat := 0x100000000

/-- One level of indentation. -/
def indentUnit (s : Settings) : List Char :=
  if s.insertSpaces then List.replicate s.indentWidth ' ' else ['\t']

/-- A number of levels of indentation. -/
def indentation (s : Settings) (depth : Nat) : String :=
  String.ofList (List.replicate depth s.indentUnit).flatten

/-! ### As they are stored -/

/-- How the words of the language are written. -/
def keywordStyleField : Json.Field := ⟨0, "keywordStyle"⟩

/-- The number of columns. -/
def indentWidthField : Json.Field := ⟨1, "indentWidth"⟩

/-- The choice between spaces and tabs. -/
def insertSpacesField : Json.Field := ⟨2, "insertSpaces"⟩

/-- The number of columns that a JSON value names. -/
def width? (value : Json) : Option Nat := do
  let width ← value.natural?
  if width < widthLimit then return width else none

/-- The settings of a record. -/
def ofJson? (record : Json) : Option Settings := do
  guard (record.isRecord 3)
  let style ← record.optional? keywordStyleField default.keywordStyle
    (Json.oneOf? KeywordStyle.all KeywordStyle.word)
  let width ← record.optional? indentWidthField default.indentWidth width?
  let spaces ← record.optional? insertSpacesField default.insertSpaces Json.bool?
  return ⟨style, width, spaces⟩

/-- **The settings of a text.** -/
def load (text : String) : Except SettingsError Settings :=
  match (Json.parse? text).bind ofJson? with
  | none => throw .json
  | some s => if s.indentWidth = 0 then throw .zeroIndentWidth else return s

/-- The settings of a text, or those that hold by default if it has none. -/
def loadOrDefault (text : String) : Settings :=
  match load text with
  | .ok s => s
  | .error _ => default

/-- The record of the settings. -/
def toJson (s : Settings) : Json :=
  .object [(keywordStyleField.key, .string s.keywordStyle.word),
    (indentWidthField.key, .number (toString s.indentWidth)),
    (insertSpacesField.key, .bool s.insertSpaces)]

/-- The text of the settings. -/
def text (s : Settings) : String := s.toJson.compact

end Settings

end ScriptSense
