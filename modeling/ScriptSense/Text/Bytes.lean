/-
Cutting a text at byte offsets.

Offsets count UTF-8 bytes while a text is a list of characters, so an offset
can fall inside a character. `takeBytes` and `dropBytes` then let the character
go to the front part; what matters is that the two parts always make up the
text again (`takeBytes_append_dropBytes`), and that at a boundary, as
`isBoundary` decides it, the front part has exactly the bytes asked for.
-/

set_option autoImplicit false

namespace ScriptSense

/-- The number of UTF-8 bytes of a run of characters. -/
def byteLength : List Char → Nat
  | [] => 0
  | c :: cs => c.utf8Size + byteLength cs

/-- The characters that start before the offset. -/
def takeBytes (offset : Nat) : List Char → List Char
  | [] => []
  | c :: cs => if offset = 0 then [] else c :: takeBytes (offset - c.utf8Size) cs

/-- The characters that start at the offset or after it. -/
def dropBytes (offset : Nat) : List Char → List Char
  | [] => []
  | c :: cs => if offset = 0 then c :: cs else dropBytes (offset - c.utf8Size) cs

/-- The offset is in the text, its end included, and inside no character. -/
def isBoundary (offset : Nat) : List Char → Bool
  | [] => offset = 0
  | c :: cs => offset = 0 || (c.utf8Size ≤ offset && isBoundary (offset - c.utf8Size) cs)

@[simp] theorem byteLength_nil : byteLength [] = 0 := rfl

@[simp] theorem byteLength_cons (c : Char) (cs : List Char) :
    byteLength (c :: cs) = c.utf8Size + byteLength cs := rfl

@[simp] theorem byteLength_append (cs ds : List Char) :
    byteLength (cs ++ ds) = byteLength cs + byteLength ds := by
  induction cs with
  | nil => simp
  | cons c cs ih => simp [ih, Nat.add_assoc]

theorem takeBytes_append_dropBytes (offset : Nat) (cs : List Char) :
    takeBytes offset cs ++ dropBytes offset cs = cs := by
  induction cs generalizing offset with
  | nil => rfl
  | cons c cs ih =>
    by_cases h : offset = 0
    · simp [takeBytes, dropBytes, h]
    · simp [takeBytes, dropBytes, h, ih]

/-- At a boundary the front part has exactly the bytes asked for. -/
theorem byteLength_takeBytes {offset : Nat} {cs : List Char}
    (h : isBoundary offset cs = true) : byteLength (takeBytes offset cs) = offset := by
  induction cs generalizing offset with
  | nil => simpa [takeBytes, isBoundary] using Eq.symm (by simpa [isBoundary] using h)
  | cons c cs ih =>
    by_cases hz : offset = 0
    · simp [takeBytes, hz]
    · simp only [isBoundary, hz, decide_false, Bool.false_or, Bool.and_eq_true,
        decide_eq_true_eq] at h
      simp only [takeBytes, hz, if_false, byteLength_cons, ih h.2]
      omega

end ScriptSense
