/-
Texts line by line.

What a layout keeps of a text is seen in its strokes: its tokens without their places,
the words of the language in small letters, and line breaks character by character.
Blank space and comments are strokes too, so two texts with the same strokes differ in
the case of words at most. Two texts with the same line breaks, and between them the
same lines but for blank space at the edges (`Relaid`), are the same to a reader: the
grammar sees neither blank space nor how many line breaks stand in a row.
-/
import Mathlib.Data.List.DropRight
import ScriptSense.Proofs.Grammar.Lockstep
import ScriptSense.Proofs.Script.Placeless

set_option autoImplicit false

namespace ScriptSense

open Grammar (isLineBreak squeeze squeeze_break squeeze_word afterBreaks afterBreaks_break
  afterBreaks_afterBreaks)

/-! ## Strokes -/

/-- A character of a line break. -/
def breakStroke (c : Char) : Glyph := (.newline, String.ofList [c])

/-- The stroke is blank space. -/
def isBlankStroke (g : Glyph) : Bool := g.1 == .whitespace

/-- A line without the blank space at its edges. -/
def trimmed (line : List Glyph) : List Glyph :=
  (line.dropWhile isBlankStroke).rdropWhile isBlankStroke

/-- Two lines are the same but for the blank space at their edges. -/
structure SameLine (line line' : List Glyph) : Prop where
  whole : ∀ g ∈ line, isLineBreak g = false
  whole' : ∀ g ∈ line', isLineBreak g = false
  content : trimmed line = trimmed line'

/-- **Two texts have the same lines but for the blank space at their edges**, and the
same line breaks between them. -/
inductive Relaid : List Glyph → List Glyph → Prop
  | last {line line' : List Glyph} (h : SameLine line line') : Relaid line line'
  | line {line line' gs gs' : List Glyph} {g : Glyph} (h : SameLine line line')
      (hbreak : isLineBreak g = true) (hrest : Relaid gs gs') :
      Relaid (line ++ g :: gs) (line' ++ g :: gs')

/-- What a reader sees of strokes: no blank space and no comments. -/
def seen (gs : List Glyph) : List Glyph := gs.filter (!·.1.isTrivia)

theorem seen_dropWhile (gs : List Glyph) : seen (gs.dropWhile isBlankStroke) = seen gs := by
  induction gs with
  | nil => rfl
  | cons g gs ih =>
    cases hg : isBlankStroke g with
    | true =>
      have htrivia : g.1.isTrivia = true := by rw [eq_of_beq hg]; rfl
      rw [List.dropWhile_cons_of_pos hg, ih, seen, seen,
        List.filter_cons_of_neg (by simp [htrivia])]
    | false => rw [List.dropWhile_cons_of_neg (by simp [hg])]

end ScriptSense
