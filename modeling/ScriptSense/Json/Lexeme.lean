/-
The words of JSON.

Blank space stands between words and means nothing, so a text is first cut into
its words and blank space is gone from then on. A number is kept as it is
written; no one who reads numbers here wants more than a run of digits.
-/
import ScriptSense.Json.Quoted

set_option autoImplicit false

namespace ScriptSense.Json

/-- A word of JSON. -/
inductive Lexeme where
  | openList | closeList | openRecord | closeRecord | comma | colon
  | null
  | bool (value : Bool)
  /-- A number as it is written. -/
  | number (text : String)
  /-- A string; none if its escapes name no characters. -/
  | string (value : Option String)
deriving DecidableEq, Repr

namespace Lexeme

/-! ## Writing -/

/-- The word as it is written. -/
def text : Lexeme → List Char
  | .openList => ['[']
  | .closeList => [']']
  | .openRecord => ['{']
  | .closeRecord => ['}']
  | .comma => [',']
  | .colon => [':']
  | .null => ['n', 'u', 'l', 'l']
  | .bool true => ['t', 'r', 'u', 'e']
  | .bool false => ['f', 'a', 'l', 's', 'e']
  | .number text => text.toList
  | .string (some value) => Quoted.encode value.toList
  | .string none => ['"', '\\', 'u', 'd', '8', '0', '0', '"']

/-! ## Reading -/

/-- A blank character. -/
def isBlank (c : Char) : Bool := c == ' ' || c == '\n' || c == '\t' || c == '\r'

/-- The number of digits at the front, if there are any. -/
def digits? (cs : List Char) : Option Nat :=
  match (cs.takeWhile Char.isDigit).length with
  | 0 => none
  | n => some n

/-- The length of the digits before point and exponent: a zero alone, or digits
that begin with another one. -/
def wholeLength? : List Char → Option Nat
  -- A digit behind the zero is no part of the number.
  | '0' :: _ => some 1
  | cs => digits? cs

/-- The length of a fraction with its point, zero if there is no point. -/
def fractionLength? : List Char → Option Nat
  | '.' :: cs => (digits? cs).map (· + 1)
  | _ => some 0

/-- The length of an exponent, zero if there is none. -/
def exponentLength? : List Char → Option Nat
  | mark :: cs =>
    if mark == 'e' || mark == 'E' then
      match cs with
      | sign :: ds =>
        if sign == '+' || sign == '-' then (digits? ds).map (· + 2)
        else (digits? cs).map (· + 1)
      | [] => none
    else some 0
  | [] => some 0

/-- The length of a number. -/
def numberLength? (cs : List Char) : Option Nat := do
  let sign := if cs.head? == some '-' then 1 else 0
  let whole ← wholeLength? (cs.drop sign)
  let fraction ← fractionLength? (cs.drop (sign + whole))
  let exponent ← exponentLength? (cs.drop (sign + whole + fraction))
  return sign + whole + fraction + exponent

/-- A string, of which the opening quote is gone. -/
def string? (cs : List Char) : Option (Lexeme × Nat) := do
  let n ← Quoted.bodyLength? cs
  let pieces ← Quoted.pieces? (cs.take n)
  -- Both quotes are counted.
  return (.string ((Quoted.join? pieces).map String.ofList), n + 2)

/-- A number. -/
def number? (cs : List Char) : Option (Lexeme × Nat) := do
  let n ← numberLength? cs
  return (.number (String.ofList (cs.take n)), n)

/-- A word made of letters. -/
def letters? (word : Lexeme) (cs : List Char) : Option (Lexeme × Nat) :=
  if word.text.isPrefixOf cs then some (word, word.text.length) else none

/-- **The word at the front of `c :: rest`**, with its length in characters. -/
def next? (c : Char) (rest : List Char) : Option (Lexeme × Nat) :=
  match c with
  | '[' => some (.openList, 1)
  | ']' => some (.closeList, 1)
  | '{' => some (.openRecord, 1)
  | '}' => some (.closeRecord, 1)
  | ',' => some (.comma, 1)
  | ':' => some (.colon, 1)
  | '"' => string? rest
  | 'n' => letters? .null (c :: rest)
  | 't' => letters? (.bool true) (c :: rest)
  | 'f' => letters? (.bool false) (c :: rest)
  | _ => number? (c :: rest)

/-- **The words of a text**, if it has only such. -/
def scan? : List Char → Option (List Lexeme)
  | [] => some []
  | c :: rest =>
    if isBlank c then scan? rest
    else
      match next? c rest with
      | none => none
      | some (word, length) => (scan? (rest.drop (length - 1))).map (word :: ·)
termination_by cs => cs.length
decreasing_by
  all_goals
    simp only [List.length_cons, List.length_drop]
    omega

end Lexeme

end ScriptSense.Json
