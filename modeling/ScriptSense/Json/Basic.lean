/-
JSON values, and reading them from their words.

A value is read by one pass over the words. What is read so far is a stack of
the lists and records that are open, the innermost first, and what may come
next; a word either fits or ends the reading. No recursion is involved: the
depth of a text only shows in the height of the stack.

Records keep all their members, a key that comes twice included, because what a
repetition means is for the reader of the record to say. A string whose escapes
name no characters is a value of its own kind, `illFormed`, and so is a record
with such a key. It may stand where nobody looks.
-/
import ScriptSense.Json.Lexeme

set_option autoImplicit false

namespace ScriptSense

/-- A JSON value. -/
inductive Json where
  | null
  | bool (value : Bool)
  /-- A number as it is written. -/
  | number (text : String)
  | string (value : String)
  | array (items : List Json)
  /-- The members in order, a key as often as it is written. -/
  | object (members : List (String × Json))
  /-- A string, or a record with a key, that names no characters. -/
  | illFormed
deriving Repr, Inhabited

namespace Json

/-! ## Words of a value -/

mutual

/-- The words of a value. -/
def words : Json → List Lexeme
  | .null => [.null]
  | .bool value => [.bool value]
  | .number text => [.number text]
  | .string value => [.string (some value)]
  | .array items => .openList :: wordsOfItems items ++ [.closeList]
  | .object members => .openRecord :: wordsOfMembers members ++ [.closeRecord]
  | .illFormed => [.string none]

/-- The words of the items of a list, with commas between them. -/
def wordsOfItems : List Json → List Lexeme
  | [] => []
  | [item] => item.words
  | item :: items => item.words ++ .comma :: wordsOfItems items

/-- The words of the members of a record, with commas between them. -/
def wordsOfMembers : List (String × Json) → List Lexeme
  | [] => []
  | [(key, value)] => .string (some key) :: .colon :: value.words
  | (key, value) :: members =>
    .string (some key) :: .colon :: value.words ++ .comma :: wordsOfMembers members

end

/-! ## Values of words -/

/-- A list or record that is open. -/
inductive Frame where
  /-- A list with its items so far. -/
  | list (items : List Json)
  /-- A record with its members so far and the key read last. -/
  | record (members : List (Option String × Json)) (key : Option String)

/-- What may come next. -/
inductive Expected where
  | value
  /-- A value, or the end of a list that has none. -/
  | firstItem
  /-- A key, or the end of a record that has none. -/
  | firstKey
  | key
  | colon
  /-- A comma or the end of what is open. -/
  | separator
  /-- Nothing; the text had this value. -/
  | done (value : Json)

/-- A text that is being read. -/
structure Reading where
  /-- What is open, the innermost first. -/
  frames : List Frame
  /-- What may come next. -/
  expected : Expected

namespace Reading

/-- In front of a text. -/
def start : Reading := ⟨[], .value⟩

/-- Behind a value. -/
def supply (value : Json) : List Frame → Reading
  | [] => ⟨[], .done value⟩
  | .list items :: frames => ⟨.list (items ++ [value]) :: frames, .separator⟩
  | .record members key :: frames =>
    ⟨.record (members ++ [(key, value)]) none :: frames, .separator⟩

/-- The value of a string. -/
def ofString : Option String → Json
  | none => .illFormed
  | some value => .string value

/-- The value of a record. -/
def ofMembers (members : List (Option String × Json)) : Json :=
  match members.mapM fun (key, value) => key.map fun k => (k, value) with
  | none => .illFormed
  | some members => .object members

/-- Behind a word with which a value begins. -/
def enter? (frames : List Frame) : Lexeme → Option Reading
  | .openList => some ⟨.list [] :: frames, .firstItem⟩
  | .openRecord => some ⟨.record [] none :: frames, .firstKey⟩
  | .null => some (supply .null frames)
  | .bool value => some (supply (.bool value) frames)
  | .number text => some (supply (.number text) frames)
  | .string value => some (supply (ofString value) frames)
  | _ => none

/-- Behind a word that closes what is open. -/
def leave? : List Frame → Lexeme → Option Reading
  | .list items :: frames, .closeList => some (supply (.array items) frames)
  | .record members _ :: frames, .closeRecord => some (supply (ofMembers members) frames)
  | _, _ => none

/-- Behind the key of a member. -/
def enterKey? : List Frame → Lexeme → Option Reading
  | .record members _ :: frames, .string key => some ⟨.record members key :: frames, .colon⟩
  | _, _ => none

/-- Behind a comma. -/
def separate? : List Frame → Lexeme → Option Reading
  | .list items :: frames, .comma => some ⟨.list items :: frames, .value⟩
  | .record members key :: frames, .comma => some ⟨.record members key :: frames, .key⟩
  | _, _ => none

/-- **Behind one more word**, if it fits. -/
def step? (r : Reading) (word : Lexeme) : Option Reading :=
  match r.expected with
  | .value => enter? r.frames word
  | .firstItem => (leave? r.frames word).or (enter? r.frames word)
  | .firstKey => (leave? r.frames word).or (enterKey? r.frames word)
  | .key => enterKey? r.frames word
  | .colon => if word = .colon then some ⟨r.frames, .value⟩ else none
  | .separator => (leave? r.frames word).or (separate? r.frames word)
  | .done _ => none

/-- The value of the text, if it ends here. -/
def value? (r : Reading) : Option Json :=
  match r.expected with
  | .done value => some value
  | _ => none

end Reading

/-- The value of a run of words. -/
def ofWords? (words : List Lexeme) : Option Json := do
  (← words.foldlM Reading.step? Reading.start).value?

/-- **The value of a text.** -/
def parse? (text : String) : Option Json := do
  ofWords? (← Lexeme.scan? text.toList)

end Json

end ScriptSense
