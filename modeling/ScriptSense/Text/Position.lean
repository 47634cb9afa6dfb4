/-
Lines and columns.

An editor addresses a text by line and column, both from zero, and counts
columns in UTF-16 units. Lines end at line feeds, which belong to the line they
end; a carriage return is a character like any other.

Both directions are one walk over the characters. Going from offsets to
positions, the walk takes every character that starts before the offset; going
back, it first passes the line feeds and then the columns, and stops in front of
a character that would lead beyond the column asked for.
-/
import ScriptSense.Text.Span
import ScriptSense.Text.Bytes

set_option autoImplicit false

namespace ScriptSense

/-- The number of UTF-16 units of a character: two from U+10000 on. -/
def utf16Units (c : Char) : Nat := if c.toNat < 0x10000 then 1 else 2

/-- A place in a text as an editor names it. -/
structure Position where
  /-- The line, from zero. -/
  line : Nat
  /-- The number of UTF-16 units before the place on its line. -/
  column : Nat
deriving DecidableEq, Repr

namespace Position

/-- The position after a character. -/
def next (p : Position) (c : Char) : Position :=
  if c = '\n' then ⟨p.line + 1, 0⟩ else ⟨p.line, p.column + utf16Units c⟩

/-- The position reached from `p` by the characters that start within the next
`bytes` bytes. -/
def advance (p : Position) (bytes : Nat) : List Char → Position
  | [] => p
  | c :: cs => if bytes = 0 then p else (p.next c).advance (bytes - c.utf8Size) cs

/-- **The position of an offset.** Past the end, the position of the end. -/
def ofOffset (text : String) (offset : Nat) : Position :=
  advance ⟨0, 0⟩ offset text.toList

/-- The positions of the two ends of a span. -/
def ofSpan (text : String) (span : Span) : Position × Position :=
  (ofOffset text span.start, ofOffset text span.stop)

/-- The offset at which the line begins that lies `lines` line feeds ahead, and
the text from there on. -/
def seekLine (lines offset : Nat) : List Char → Option (Nat × List Char)
  | [] => if lines = 0 then some (offset, []) else none
  | c :: cs =>
    if lines = 0 then some (offset, c :: cs)
    else seekLine (if c = '\n' then lines - 1 else lines) (offset + c.utf8Size) cs

/-- The last offset of the line whose column is at most `column`. -/
def seekColumn (column offset : Nat) : List Char → Nat
  | [] => offset
  | c :: cs =>
    -- The line ends in front of its line feed.
    if c = '\n' then offset
    else if column < utf16Units c then offset
    else seekColumn (column - utf16Units c) (offset + c.utf8Size) cs

/-- **The offset of a position**, if the text has the line. A column past the end
of the line means the end of the line, one inside a character its start. -/
def offset? (text : String) (p : Position) : Option Nat :=
  (seekLine p.line 0 text.toList).map fun (offset, rest) => seekColumn p.column offset rest

/-- The span between two positions, if both exist in this order. -/
def span? (text : String) (first last : Position) : Option Span := do
  let start ← offset? text first
  let stop ← offset? text last
  if start ≤ stop then some ⟨start, stop⟩ else none

end Position

/-- The number of lines: one more than there are line feeds. -/
def lineCount (text : String) : Nat := text.toList.count '\n' + 1

end ScriptSense
