/-
The values of literals.

A number with a point is a double, the one nearest to the decimal fraction. A
number without one is an integer as long as it fits into sixty-three bits and
the nearest double beyond that. A hexadecimal number has no such way out: past
the limit it has no value. A string is what stands between its quotes, or
everything after the first quote if it is not closed.
-/
import ScriptSense.Number.Binary64
import ScriptSense.Number.Digits
import ScriptSense.Script.Ty
import ScriptSense.Syntax.Token

set_option autoImplicit false

namespace ScriptSense

/-- A value written in a script. -/
inductive Literal where
  /-- A whole number; literals have no sign. -/
  | integer (value : Nat)
  | float (value : Binary64)
  /-- A string without its quotes. -/
  | string (value : String)
deriving DecidableEq, Repr

namespace Literal

/-- The least number that is no integer of the language. -/
def integerLimit : Nat := 0x8000000000000000

/-- The value of a decimal number. -/
def ofDecimal (cs : List Char) : Literal :=
  match cs.dropWhile (· != '.') with
  | _point :: fraction =>
    -- All digits over a power of ten, one for each digit of the fraction.
    let whole := cs.takeWhile (· != '.')
    .float (.nearest (ofDigits 10 (whole ++ fraction)) (Nat.pow 10 fraction.length))
  | [] =>
    let value := ofDigits 10 cs
    if value < integerLimit then .integer value else .float (.nearest value 1)

/-- The value of a hexadecimal number, whose first two characters announce it. -/
def ofHexadecimal? (cs : List Char) : Option Literal :=
  let value := ofDigits 16 (cs.drop 2)
  if value < integerLimit then some (.integer value) else none

/-- What stands between the quotes; the closing one may be missing. -/
def unquote : List Char → List Char
  | [] => []
  | quote :: rest => if rest.getLast? == some quote then rest.dropLast else rest

/-- **The value of a literal**, if it has one. -/
def ofToken? (t : Token) : Option Literal :=
  match t.kind with
  | .number => some (ofDecimal t.text.toList)
  | .hexNumber => ofHexadecimal? t.text.toList
  | .string => some (.string (String.ofList (unquote t.text.toList)))
  | _ => none

/-- The type of a value. -/
def ty : Literal → Ty
  | .integer _ => .integer
  | .float _ => .float
  | .string _ => .string

end Literal

end ScriptSense
