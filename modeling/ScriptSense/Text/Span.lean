/-
Half-open ranges of byte offsets into a text.

Every length and offset of this library counts UTF-8 bytes, so that a span
points at the same place whatever is written before it is made of. The two
views of an offset that a reader may also want, lines with UTF-16 columns, are
computed from a text in `ScriptSense.Text.Position` and never stored.
-/

set_option autoImplicit false

namespace ScriptSense

/-- A range of byte offsets: `start` is inside, `stop` is the first offset past it. -/
structure Span where
  /-- The first offset of the range. -/
  start : Nat
  /-- The first offset after the range. -/
  stop : Nat
deriving DecidableEq, Repr, Inhabited

namespace Span

/-- The empty span at an offset. -/
def point (offset : Nat) : Span := ⟨offset, offset⟩

/-- The number of bytes covered. -/
def size (s : Span) : Nat := s.stop - s.start

/-- No byte is covered. -/
def isEmpty (s : Span) : Bool := s.stop ≤ s.start

/-- The offset lies in the span or at one of its two ends, as a cursor does
that stands before, inside or after a word. -/
def touches (s : Span) (offset : Nat) : Bool := s.start ≤ offset && offset ≤ s.stop

/-- The other span lies in this one; an empty one may lie at either end. -/
def covers (s other : Span) : Bool := s.start ≤ other.start && other.stop ≤ s.stop

/-- The written form: both offsets in decimal, two dots between them. -/
def text (s : Span) : String := toString s.start ++ ".." ++ toString s.stop

@[simp] theorem size_point (offset : Nat) : (point offset).size = 0 := Nat.sub_self offset

theorem covers_refl (s : Span) : s.covers s = true := by simp [covers]

theorem covers_trans {s t u : Span} (hst : s.covers t = true) (htu : t.covers u = true) :
    s.covers u = true := by
  simp only [covers, Bool.and_eq_true, decide_eq_true_eq] at *
  omega

end Span

end ScriptSense
