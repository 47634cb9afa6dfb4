/-
Replacing parts of a text.

Edits are given in the order of their spans. An edit that starts before the end
of the one applied last, or that reaches past the text, is passed over: the
edits that remain (`Edit.kept`) are disjoint and inside the text, so applying
them is one walk from left to right that copies what lies between them.
-/
import ScriptSense.Text.Span
import ScriptSense.Text.Bytes

set_option autoImplicit false

namespace ScriptSense

/-- The replacement of a span of a text. -/
structure Edit where
  /-- What is replaced. -/
  span : Span
  /-- What stands there afterwards. -/
  newText : String
deriving DecidableEq, Repr

namespace Edit

/-- The edits that take part when the last one applied ended at `last` and the
text has `size` bytes. -/
def keptFrom (size last : Nat) : List Edit → List Edit
  | [] => []
  | e :: es =>
    if e.span.start < last || size < e.span.stop then keptFrom size last es
    else e :: keptFrom size e.span.stop es

/-- The edits that take part in editing a text. -/
def kept (text : String) (edits : List Edit) : List Edit := keptFrom text.utf8ByteSize 0 edits

/-- Writes out the text that begins at offset `last`, with the edits in place. -/
def write (last : Nat) (rest : List Char) : List Edit → List Char
  | [] => rest
  | e :: es =>
    takeBytes (e.span.start - last) rest ++ e.newText.toList
      ++ write e.span.stop (dropBytes (e.span.stop - last) rest) es

/-- **The text after the edits.** -/
def applyAll (text : String) (edits : List Edit) : String :=
  String.ofList (write 0 text.toList (kept text edits))

/-- The text after the edits, provided that none of those that take part cuts a
character in two. -/
def applyAll? (text : String) (edits : List Edit) : Option String :=
  let whole := fun e : Edit =>
    isBoundary e.span.start text.toList && isBoundary e.span.stop text.toList
  if (kept text edits).all whole then some (applyAll text edits) else none

@[simp] theorem applyAll_nil (text : String) : applyAll text [] = text := by
  simp [applyAll, kept, keptFrom, write]

end Edit

end ScriptSense
