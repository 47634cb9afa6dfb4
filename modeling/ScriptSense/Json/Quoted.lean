/-
Strings between quotes.

Between its quotes a string may hold any character but a quote, a backslash and
the controls; those are written as escapes. An escape `\u` names a code of
sixteen bits, and a character beyond those takes two, a high half and a low one.
A text can name a half without the other. Such a text is well formed and still
means no string of characters, so reading has two steps: `pieces?` refuses what
is malformed, `join?` what names no characters.

Writing uses the short escapes where there are any, `\u` with small digits for
the other controls, and nothing else.
-/
import ScriptSense.Number.Digits

set_option autoImplicit false

namespace ScriptSense.Json.Quoted

/-- A character, or half of one. -/
inductive Piece where
  | char (c : Char)
  /-- A code from `0xd800` to `0xdfff`. -/
  | half (code : Nat)
deriving DecidableEq, Repr

/-- Characters below this one are controls. -/
def firstPrintable : Nat := 0x20

/-! ## Reading -/

/-- The number of characters before the closing quote. -/
def bodyLength? : List Char → Option Nat
  | [] => none
  | '"' :: _ => some 0
  -- Whatever follows a backslash, a quote included, ends nothing.
  | '\\' :: _ :: cs => (bodyLength? cs).map (· + 2)
  | _ :: cs => (bodyLength? cs).map (· + 1)

/-- What a code of sixteen bits stands for. -/
def Piece.ofCode (code : Nat) : Piece :=
  if 0xd800 ≤ code && code < 0xe000 then .half code else .char (Char.ofNat code)

/-- The piece that four hexadecimal digits name. -/
def Piece.ofHex? (digits : List Char) : Option Piece :=
  if digits.all isHexDigit then some (.ofCode (ofDigits 16 digits)) else none

/-- The character of a short escape. -/
def shortEscape? : Char → Option Char
  | '"' => some '"'
  | '\\' => some '\\'
  | '/' => some '/'
  | 'b' => some '\x08'
  | 'f' => some '\x0c'
  | 'n' => some '\n'
  | 'r' => some '\r'
  | 't' => some '\t'
  | _ => none

/-- The pieces of what stands between the quotes. -/
def pieces? : List Char → Option (List Piece)
  | [] => some []
  | '\\' :: 'u' :: a :: b :: c :: d :: rest => do
    let piece ← Piece.ofHex? [a, b, c, d]
    return piece :: (← pieces? rest)
  | '\\' :: escaped :: rest => do
    let c ← shortEscape? escaped
    return .char c :: (← pieces? rest)
  | c :: rest =>
    if c == '\\' || c == '"' || c.toNat < firstPrintable then none
    else do return .char c :: (← pieces? rest)

/-- The character of a high and a low half. -/
def ofHalves? (high low : Nat) : Option Char :=
  if high < 0xdc00 && 0xdc00 ≤ low then
    some (Char.ofNat (0x10000 + (high - 0xd800) * 0x400 + (low - 0xdc00)))
  else none

/-- The characters of a run of pieces, if every half has its other half. -/
def join? : List Piece → Option (List Char)
  | [] => some []
  | .char c :: rest => do return c :: (← join? rest)
  | .half high :: .half low :: rest => do return (← ofHalves? high low) :: (← join? rest)
  | .half _ :: _ => none

/-! ## Writing -/

/-- A character as it is written between quotes. -/
def escape (c : Char) : List Char :=
  match c with
  | '"' => ['\\', '"']
  | '\\' => ['\\', '\\']
  | '\x08' => ['\\', 'b']
  | '\t' => ['\\', 't']
  | '\n' => ['\\', 'n']
  | '\x0c' => ['\\', 'f']
  | '\r' => ['\\', 'r']
  | c =>
    if c.toNat < firstPrintable then
      ['\\', 'u', '0', '0', Nat.digitChar (c.toNat / 16), Nat.digitChar (c.toNat % 16)]
    else [c]

/-- A string with its quotes. -/
def encode (cs : List Char) : List Char := '"' :: cs.flatMap escape ++ ['"']

end ScriptSense.Json.Quoted
