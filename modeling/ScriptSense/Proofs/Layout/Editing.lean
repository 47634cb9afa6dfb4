/-
Edits that lie side by side.

Applying edits to a text passes over those that start too early or reach too far.
Edits that lie side by side (`Edit.Fits`) are all applied, and then the text may be
thought of in pieces: what the edits of a piece turn it into does not depend on the
pieces around it (`Edit.Turns`), and pieces are put together one after the other.
Edits begin and end between characters of their piece, so none is cut in two.
-/
import ScriptSense.Proofs.Lexemes
import ScriptSense.Text.Edit

set_option autoImplicit false

namespace ScriptSense

/-! ## Cutting behind a run of characters -/

@[simp] theorem takeBytes_zero (cs : List Char) : takeBytes 0 cs = [] := by
  cases cs <;> rfl

@[simp] theorem dropBytes_zero (cs : List Char) : dropBytes 0 cs = cs := by
  cases cs <;> rfl

theorem takeBytes_append (cs ds : List Char) (n : Nat) :
    takeBytes (byteLength cs + n) (cs ++ ds) = cs ++ takeBytes n ds := by
  induction cs with
  | nil => simp
  | cons c cs ih =>
    have hpos : c.utf8Size + byteLength cs + n ≠ 0 := by
      have := c.utf8Size_pos
      omega
    have hrest : c.utf8Size + byteLength cs + n - c.utf8Size = byteLength cs + n := by omega
    rw [byteLength_cons, List.cons_append, takeBytes, if_neg hpos, hrest, ih, List.cons_append]

theorem dropBytes_append (cs ds : List Char) (n : Nat) :
    dropBytes (byteLength cs + n) (cs ++ ds) = dropBytes n ds := by
  induction cs with
  | nil => simp
  | cons c cs ih =>
    have hpos : c.utf8Size + byteLength cs + n ≠ 0 := by
      have := c.utf8Size_pos
      omega
    have hrest : c.utf8Size + byteLength cs + n - c.utf8Size = byteLength cs + n := by omega
    rw [byteLength_cons, List.cons_append, dropBytes, if_neg hpos, hrest, ih]

namespace Edit

/-! ## Edits in order -/

/-- **The edits lie side by side between two offsets**, one starting where the last
one ended or later. -/
inductive Fits : Nat → List Edit → Nat → Prop
  | nil {a b : Nat} (h : a ≤ b) : Fits a [] b
  | cons {a b : Nat} {e : Edit} {es : List Edit} (hstart : a ≤ e.span.start)
      (hspan : e.span.start ≤ e.span.stop) (hes : Fits e.span.stop es b) : Fits a (e :: es) b

namespace Fits

variable {a b c : Nat} {es fs : List Edit}

theorem le (h : Fits a es b) : a ≤ b := by
  induction h with
  | nil h => exact h
  | cons hstart hspan _ ih => omega

theorem from_le (h : Fits b es c) (hle : a ≤ b) : Fits a es c := by
  cases h with
  | nil h => exact .nil (Nat.le_trans hle h)
  | cons hstart hspan hes => exact .cons (Nat.le_trans hle hstart) hspan hes

theorem append (hes : Fits a es b) (hfs : Fits b fs c) : Fits a (es ++ fs) c := by
  induction hes with
  | nil h => exact hfs.from_le h
  | cons hstart hspan _ ih => exact .cons hstart hspan (ih hfs)

/-- Each edit lies between the two offsets. -/
theorem of_mem (h : Fits a es b) {e : Edit} (he : e ∈ es) :
    a ≤ e.span.start ∧ e.span.start ≤ e.span.stop ∧ e.span.stop ≤ b := by
  induction h with
  | nil => cases he
  | cons hstart hspan hes ih =>
    rcases List.mem_cons.1 he with rfl | he
    · exact ⟨hstart, hspan, hes.le⟩
    · have := ih he
      omega

/-- Each edit ends where the next one starts or before. -/
theorem pairwise (h : Fits a es b) : es.Pairwise fun e f => e.span.stop ≤ f.span.start := by
  induction h with
  | nil => exact .nil
  | cons _ _ hes ih => exact .cons (fun f hf => (hes.of_mem hf).1) ih

/-- None of the edits is passed over. -/
theorem keptFrom_eq {size : Nat} (h : Fits a es b) (hsize : b ≤ size) :
    keptFrom size a es = es := by
  induction h with
  | nil => rfl
  | cons hstart hspan hes ih =>
    have hin : ¬ (_ < _ ∨ size < _) :=
      not_or.2 ⟨Nat.not_lt.2 hstart, Nat.not_lt.2 (Nat.le_trans hes.le hsize)⟩
    rw [keptFrom, if_neg (by simpa using hin), ih hsize]

end Fits

/-! ## Texts in pieces -/

/-- What stands in front of the first edit is copied. -/
theorem write_append {a b : Nat} {cs : List Char} (rest : List Char) {es : List Edit}
    (h : Fits (a + byteLength cs) es b) :
    write a (cs ++ rest) es = cs ++ write (a + byteLength cs) rest es := by
  cases h with
  | nil => rfl
  | @cons _ _ e es hstart hspan _ =>
    have htake : e.span.start - a = byteLength cs + (e.span.start - (a + byteLength cs)) := by omega
    have hdrop : e.span.stop - a = byteLength cs + (e.span.stop - (a + byteLength cs)) := by omega
    rw [write, write, htake, hdrop, takeBytes_append, dropBytes_append]
    simp only [List.append_assoc]

/-- An offset between two characters of a piece that begins at another one, or at its
ends. -/
def Between (a : Nat) (cs : List Char) (n : Nat) : Prop :=
  ∃ front back, cs = front ++ back ∧ n = a + byteLength front

theorem Between.start (a : Nat) (cs : List Char) : Between a cs a := ⟨[], cs, rfl, rfl⟩

theorem Between.stop (a : Nat) (cs : List Char) : Between a cs (a + byteLength cs) :=
  ⟨cs, [], (List.append_nil cs).symm, rfl⟩

/-- **The edits turn a piece of a text into another one.** The piece begins at an
offset; what follows it and the edits there do not matter. -/
structure Turns (a : Nat) (cs : List Char) (es : List Edit) (out : List Char) : Prop where
  fits : Fits a es (a + byteLength cs)
  between : ∀ e ∈ es, Between a cs e.span.start ∧ Between a cs e.span.stop
  written : ∀ (rest : List Char) (later : List Edit) (b : Nat),
    Fits (a + byteLength cs) later b →
      write a (cs ++ rest) (es ++ later) = out ++ write (a + byteLength cs) rest later

namespace Turns

variable {a : Nat} {cs ds out out' : List Char} {es fs : List Edit}

/-- Without an edit the piece stays as it is. -/
theorem keep (a : Nat) (cs : List Char) : Turns a cs [] cs where
  fits := .nil (Nat.le_add_right _ _)
  between := by simp
  written rest _ _ h := write_append rest h

/-- One edit may replace the whole piece. -/
theorem replace (a : Nat) (cs : List Char) (new : String) :
    Turns a cs [⟨⟨a, a + byteLength cs⟩, new⟩] new.toList where
  fits := .cons (Nat.le_refl _) (Nat.le_add_right _ _) (.nil (Nat.le_refl _))
  between := List.forall_mem_singleton.2 ⟨.start a cs, .stop a cs⟩
  written rest _ _ _ := by
    have hdrop := dropBytes_append cs rest 0
    rw [dropBytes_zero, Nat.add_zero] at hdrop
    simp [write, hdrop]

/-- Two pieces are turned one after the other. -/
theorem append (h : Turns a cs es out) (h' : Turns (a + byteLength cs) ds fs out') :
    Turns a (cs ++ ds) (es ++ fs) (out ++ out') := by
  have hend : a + byteLength (cs ++ ds) = a + byteLength cs + byteLength ds := by
    rw [byteLength_append, Nat.add_assoc]
  -- A place between the characters of one part is one between those of the whole.
  have hfront : ∀ {n : Nat}, Between a cs n → Between a (cs ++ ds) n := by
    rintro _ ⟨front, back, rfl, rfl⟩
    exact ⟨front, back ++ ds, List.append_assoc .., rfl⟩
  have hback : ∀ {n : Nat}, Between (a + byteLength cs) ds n → Between a (cs ++ ds) n := by
    rintro _ ⟨front, back, rfl, rfl⟩
    exact ⟨cs ++ front, back, (List.append_assoc ..).symm, by rw [byteLength_append, Nat.add_assoc]⟩
  refine ⟨hend ▸ h.fits.append h'.fits, fun e he => ?_, fun rest later b hlater => ?_⟩
  · rcases List.mem_append.1 he with he | he
    · exact (h.between e he).imp hfront hfront
    · exact (h'.between e he).imp hback hback
  · rw [hend] at hlater ⊢
    rw [List.append_assoc, List.append_assoc, h.written _ _ _ (h'.fits.append hlater),
      h'.written _ _ _ hlater, List.append_assoc]

end Turns

/-- **The edits lie side by side in a text**: in order, apart, inside the text and between
its characters, so that all of them are applied. -/
structure SideBySide (text : String) (edits : List Edit) : Prop where
  apart : edits.Pairwise fun e f => e.span.stop ≤ f.span.start
  inside : ∀ e ∈ edits, e.span.start ≤ e.span.stop ∧ e.span.stop ≤ text.utf8ByteSize
  kept : Edit.kept text edits = edits
  whole : Edit.applyAll? text edits = some (Edit.applyAll text edits)

/-- The edits of a whole text are all applied. -/
theorem Turns.applyAll {text : String} {es : List Edit} {out : List Char}
    (h : Turns 0 text.toList es out) :
    SideBySide text es ∧ Edit.applyAll text es = String.ofList out := by
  have hsize : 0 + byteLength text.toList = text.utf8ByteSize := by
    rw [utf8ByteSize_eq, Nat.zero_add]
  have hfits : Fits 0 es text.utf8ByteSize := hsize ▸ h.fits
  -- No two edits overlap, so none of them is left out.
  have hkept : Edit.kept text es = es := hfits.keptFrom_eq (Nat.le_refl _)
  have hboundary : ∀ {n : Nat}, Between 0 text.toList n → isBoundary n text.toList = true := by
    rintro n ⟨front, back, htext, rfl⟩
    rw [htext, Nat.zero_add]
    exact isBoundary_byteLength front back
  have hwritten := h.written [] [] _ (.nil (Nat.le_refl _))
  rw [List.append_nil, List.append_nil, write, List.append_nil] at hwritten
  refine ⟨⟨hfits.pairwise, fun e he => (hfits.of_mem he).2, hkept, ?_⟩, ?_⟩
  · refine if_pos (List.all_eq_true.2 fun e he => ?_)
    rw [hkept] at he
    obtain ⟨hstart, hstop⟩ := h.between e he
    exact Bool.and_eq_true_iff.2 ⟨hboundary hstart, hboundary hstop⟩
  · rw [Edit.applyAll, hkept, hwritten]

end Edit

end ScriptSense
