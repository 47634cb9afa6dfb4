/-
**Offsets and positions are two names of the same places.**

A place in a text is between two characters, and what stands in front of it says all
about it: the number of bytes is its offset, and `Position.reach` walks through it to
the position. A longer front leads to a later position, since every character leads on,
either along the line or to the next one. So both names order the places alike, and a
place has one of each.

The way back finds, for any position on a line of the text, the front after which one
character more would lead beyond it (`offset?_spec`). All that is said about clamping
follows from that one fact: no place behind it can be at the position or before it.
-/
import Mathlib.Algebra.GroupWithZero.Nat
import Mathlib.Data.List.Induction
import Mathlib.Data.Prod.Lex
import Mathlib.Order.Bounds.Basic
import ScriptSense.Proofs.Lexemes
import ScriptSense.Text.Position

set_option autoImplicit false

namespace ScriptSense

/-! ## Fronts -/

/-- The boundaries are the ends of the fronts. -/
theorem isBoundary_iff {offset : Nat} {cs : List Char} :
    isBoundary offset cs = true ↔ ∃ front rest, cs = front ++ rest ∧ byteLength front = offset := by
  constructor
  · intro h
    exact ⟨takeBytes offset cs, dropBytes offset cs, (takeBytes_append_dropBytes offset cs).symm,
      byteLength_takeBytes h⟩
  · rintro ⟨front, rest, rfl, rfl⟩
    exact isBoundary_byteLength front rest

/-- Of two fronts of one text the one with more bytes goes on where the other ends. -/
theorem exists_longer {front rest front' rest' : List Char} (h : front ++ rest = front' ++ rest')
    (hlt : byteLength front < byteLength front') :
    ∃ c more, front' = front ++ c :: more ∧ rest = c :: more ++ rest' := by
  rcases List.append_eq_append_iff.1 h with ⟨more, hfront, hrest⟩ | ⟨more, hfront, -⟩
  · cases more with
    | nil =>
      rw [List.append_nil] at hfront
      exact absurd hlt (hfront ▸ Nat.lt_irrefl _)
    | cons c more => exact ⟨c, more, hfront, hrest⟩
  · rw [hfront, byteLength_append] at hlt
    omega

theorem utf16Units_pos (c : Char) : 0 < utf16Units c := by
  rw [utf16Units]
  split <;> decide

namespace Position

/-! ## The order of positions -/

/-- Positions are ordered by line and then by column. -/
instance : LinearOrder Position :=
  LinearOrder.lift' (fun p => toLex (p.line, p.column)) fun p q h => by
    obtain ⟨line, column⟩ := p
    obtain ⟨line', column'⟩ := q
    simpa using h

theorem lt_iff {p q : Position} : p < q ↔ p.line < q.line ∨ p.line = q.line ∧ p.column < q.column :=
  Prod.Lex.toLex_lt_toLex

theorem le_iff {p q : Position} : p ≤ q ↔ p.line < q.line ∨ p.line = q.line ∧ p.column ≤ q.column :=
  Prod.Lex.toLex_le_toLex

/-- **Every character leads on.** -/
theorem lt_next (p : Position) (c : Char) : p < p.next c := by
  rw [next, lt_iff]
  split
  · exact .inl (Nat.lt_succ_self _)
  · exact .inr ⟨rfl, Nat.lt_add_of_pos_right (utf16Units_pos c)⟩

/-! ## Walking through a front -/

/-- The position behind some characters. -/
def reach (p : Position) (cs : List Char) : Position := cs.foldl next p

@[simp] theorem reach_nil (p : Position) : p.reach [] = p := rfl

@[simp] theorem reach_cons (p : Position) (c : Char) (cs : List Char) :
    p.reach (c :: cs) = (p.next c).reach cs := rfl

theorem reach_append (p : Position) (cs ds : List Char) :
    p.reach (cs ++ ds) = (p.reach cs).reach ds := List.foldl_append

theorem le_reach (p : Position) (cs : List Char) : p ≤ p.reach cs := by
  induction cs generalizing p with
  | nil => exact le_refl p
  | cons c cs ih => exact (p.lt_next c).le.trans (ih (p.next c))

theorem next_le_reach (p : Position) (c : Char) (cs : List Char) :
    p.next c ≤ p.reach (c :: cs) := le_reach _ cs

theorem line_reach (p : Position) (cs : List Char) :
    (p.reach cs).line = p.line + cs.count '\n' := by
  induction cs generalizing p with
  | nil => rfl
  | cons c cs ih =>
    rw [reach_cons, ih, next]
    by_cases hc : c = '\n'
    · rw [if_pos hc, hc, List.count_cons_self]
      exact Nat.succ_add_eq_add_succ _ _
    · rw [if_neg hc, List.count_cons_of_ne hc]

/-- The place behind some characters: as many lines down as they have line feeds, and
behind the units of those after the last line feed. -/
def ofFront (front : List Char) : Position :=
  ⟨front.count '\n', ((front.reverse.takeWhile (· ≠ '\n')).map utf16Units).sum⟩

theorem reach_eq_ofFront (front : List Char) : reach ⟨0, 0⟩ front = ofFront front := by
  induction front using List.reverseRecOn with
  | nil => rfl
  | append_singleton front c ih =>
    rw [reach_append, ih, reach_cons, reach_nil, next, ofFront, ofFront]
    by_cases hc : c = '\n'
    · simp [hc]
    · simp [hc, Nat.add_comm]

/-- Through a front the walk goes as a whole. -/
theorem advance_append (p : Position) (bytes : Nat) (front rest : List Char) :
    p.advance (byteLength front + bytes) (front ++ rest) = (p.reach front).advance bytes rest := by
  induction front generalizing p with
  | nil =>
    rw [byteLength_nil, Nat.zero_add]
    rfl
  | cons c front ih =>
    have hpos : c.utf8Size + byteLength front + bytes ≠ 0 := by
      have := c.utf8Size_pos
      omega
    have hleft : c.utf8Size + byteLength front + bytes - c.utf8Size = byteLength front + bytes := by omega
    rw [List.cons_append, byteLength_cons, advance, if_neg hpos, hleft, ih, reach_cons]

@[simp] theorem advance_zero (p : Position) (cs : List Char) : p.advance 0 cs = p := by
  cases cs <;> rfl

theorem advance_eq_reach (p : Position) (front rest : List Char) :
    p.advance (byteLength front) (front ++ rest) = p.reach front := by
  have h := p.advance_append 0 front rest
  rwa [Nat.add_zero, advance_zero] at h

/-- **The position of a boundary** is the one that its front leads to. -/
theorem ofOffset_byteLength {text : String} {front rest : List Char}
    (h : text.toList = front ++ rest) :
    ofOffset text (byteLength front) = reach ⟨0, 0⟩ front := by
  rw [ofOffset, h, advance_eq_reach]

/-- **An offset inside a character has the position behind the character**, and not the
one in front of it: the walk takes every character that starts before the offset. -/
theorem ofOffset_inside {text : String} {front rest : List Char} {c : Char}
    (h : text.toList = front ++ c :: rest) {bytes : Nat} (hpos : 0 < bytes) (hle : bytes ≤ c.utf8Size) :
    ofOffset text (byteLength front + bytes) = reach ⟨0, 0⟩ (front ++ [c]) := by
  rw [ofOffset, h, advance_append, advance, if_neg (Nat.ne_of_gt hpos), Nat.sub_eq_zero_of_le hle,
    advance_zero, reach_append, reach_cons, reach_nil]

/-! ## The way back -/

/-- Passing line feeds leads to the start of a line. -/
theorem seekLine_eq_some (lines offset : Nat) (cs : List Char) (h : lines ≤ cs.count '\n') :
    ∃ front rest, cs = front ++ rest ∧
      seekLine lines offset cs = some (offset + byteLength front, rest) ∧
      ∀ p : Position, p.reach front = if lines = 0 then p else ⟨p.line + lines, 0⟩ := by
  induction cs generalizing lines offset with
  | nil =>
    obtain rfl : lines = 0 := Nat.le_zero.1 h
    exact ⟨[], [], rfl, rfl, fun _ => rfl⟩
  | cons c cs ih =>
    by_cases hlines : lines = 0
    · exact ⟨[], c :: cs, rfl, by rw [seekLine, if_pos hlines]; rfl, fun p => by rw [if_pos hlines]; rfl⟩
    -- A line break brings the search one line further, any other character only one place.
    · by_cases hc : c = '\n'
      · subst hc
        rw [List.count_cons_self] at h
        obtain ⟨front, rest, hsplit, hseek, hreach⟩ :=
          ih (lines - 1) (offset + Char.utf8Size '\n') (by omega)
        refine ⟨'\n' :: front, rest, by rw [hsplit]; rfl, ?_, fun p => ?_⟩
        · rw [seekLine, if_neg hlines, if_pos rfl, hseek, byteLength_cons, Nat.add_assoc]
        · rw [reach_cons, hreach, if_neg hlines, next, if_pos rfl]
          split
          · next hlast =>
            have hone : lines = 1 := by omega
            rw [hone]
          · next hmore =>
            have hsum : p.line + 1 + (lines - 1) = p.line + lines := by omega
            rw [hsum]
      · rw [List.count_cons_of_ne hc] at h
        obtain ⟨front, rest, hsplit, hseek, hreach⟩ := ih lines (offset + c.utf8Size) h
        refine ⟨c :: front, rest, by rw [hsplit]; rfl, ?_, fun p => ?_⟩
        · rw [seekLine, if_neg hlines, if_neg hc, hseek, byteLength_cons, Nat.add_assoc]
        · rw [reach_cons, hreach, if_neg hlines, if_neg hlines, next, if_neg hc]

theorem seekLine_eq_none {lines : Nat} (offset : Nat) {cs : List Char} (h : cs.count '\n' < lines) :
    seekLine lines offset cs = none := by
  have hlines : lines ≠ 0 := Nat.ne_of_gt (Nat.zero_lt_of_lt h)
  induction cs generalizing lines offset with
  | nil => rw [seekLine, if_neg hlines]
  | cons c cs ih =>
    rw [seekLine, if_neg hlines]
    by_cases hc : c = '\n'
    · rw [hc, List.count_cons_self] at h
      rw [if_pos hc]
      exact ih _ (by omega) (by omega)
    · rw [List.count_cons_of_ne hc] at h
      rw [if_neg hc]
      exact ih _ h hlines

/-- Passing columns stays on the line and stops in front of the character that would
lead beyond the column, or beyond the line. -/
theorem seekColumn_spec (column offset : Nat) (cs : List Char) :
    ∃ front rest, cs = front ++ rest ∧ seekColumn column offset cs = offset + byteLength front ∧
      ∀ p : Position, (p.reach front).line = p.line ∧
        p.reach front ≤ ⟨p.line, p.column + column⟩ ∧
        ∀ c more, rest = c :: more → ⟨p.line, p.column + column⟩ < (p.reach front).next c := by
  induction cs generalizing column offset with
  | nil =>
    exact ⟨[], [], rfl, rfl, fun p => ⟨rfl, le_iff.2 (.inr ⟨rfl, Nat.le_add_right _ _⟩),
      fun _ _ h => by cases h⟩⟩
  | cons c cs ih =>
    -- The walk stops here if the character leads beyond.
    have hstop : (∀ p : Position, ⟨p.line, p.column + column⟩ < p.next c) →
        seekColumn column offset (c :: cs) = offset →
        ∃ front rest, c :: cs = front ++ rest ∧
          seekColumn column offset (c :: cs) = offset + byteLength front ∧
          ∀ p : Position, (p.reach front).line = p.line ∧
            p.reach front ≤ ⟨p.line, p.column + column⟩ ∧
            ∀ d more, rest = d :: more → ⟨p.line, p.column + column⟩ < (p.reach front).next d := by
      intro hbeyond hseek
      refine ⟨[], c :: cs, rfl, hseek, fun p => ⟨rfl, le_iff.2 (.inr ⟨rfl, Nat.le_add_right _ _⟩), ?_⟩⟩
      rintro d more ⟨⟩
      exact hbeyond p
    by_cases hc : c = '\n'
    · refine hstop (fun p => ?_) (by rw [seekColumn, if_pos hc])
      rw [next, if_pos hc]
      exact lt_iff.2 (.inl (Nat.lt_succ_self _))
    · by_cases hcolumn : column < utf16Units c
      · refine hstop (fun p => ?_) (by rw [seekColumn, if_neg hc, if_pos hcolumn])
        rw [next, if_neg hc]
        exact lt_iff.2 (.inr ⟨rfl, Nat.add_lt_add_left hcolumn _⟩)
      · obtain ⟨front, rest, hsplit, hseek, hreach⟩ :=
          ih (column - utf16Units c) (offset + c.utf8Size)
        refine ⟨c :: front, rest, by rw [hsplit]; rfl, ?_, fun p => ?_⟩
        · rw [seekColumn, if_neg hc, if_neg hcolumn, hseek, byteLength_cons, Nat.add_assoc]
        · have hp := hreach (p.next c)
          have hsum : p.column + utf16Units c + (column - utf16Units c) = p.column + column := by
            omega
          rw [reach_cons]
          rw [next, if_neg hc] at hp ⊢
          rwa [hsum] at hp

/-- **The place that a position finds**: it is on the line, not behind the position, and
one character more leads beyond. -/
theorem offset?_spec {text : String} {p : Position} (h : p.line < lineCount text) :
    ∃ front rest, text.toList = front ++ rest ∧ offset? text p = some (byteLength front) ∧
      (reach ⟨0, 0⟩ front).line = p.line ∧ reach ⟨0, 0⟩ front ≤ p ∧
      ∀ c more, rest = c :: more → p < (reach ⟨0, 0⟩ front).next c := by
  obtain ⟨above, below, hlines, hline, hstart⟩ :=
    seekLine_eq_some p.line 0 text.toList (Nat.lt_succ_iff.1 h)
  obtain ⟨front, rest, hcolumns, hcolumn, hplace⟩ :=
    seekColumn_spec p.column (byteLength above) below
  -- Behind the lines above, the place is the start of the line that was sought.
  have hfirst : reach ⟨0, 0⟩ above = ⟨p.line, 0⟩ := by
    rw [hstart]
    split
    · next hzero => rw [hzero]
    · rw [Nat.zero_add]
  -- The column is counted from there.
  have hwhole : reach ⟨0, 0⟩ (above ++ front) = reach ⟨p.line, 0⟩ front := by
    rw [reach_append, hfirst]
  have hp := hplace ⟨p.line, 0⟩
  simp only [Nat.zero_add] at hp
  refine ⟨above ++ front, rest, by rw [hlines, hcolumns, List.append_assoc], ?_, ?_⟩
  · simp only [offset?, hline, Option.map_some, Nat.zero_add, hcolumn, byteLength_append]
  · rw [hwhole]
    exact hp

/-! ## Both ways -/

variable {text : String}

/-- **Both names order the places alike.** -/
theorem ofOffset_lt_ofOffset {o o' : Nat} (h : isBoundary o text.toList = true)
    (h' : isBoundary o' text.toList = true) (hlt : o < o') : ofOffset text o < ofOffset text o' := by
  obtain ⟨front, rest, htext, rfl⟩ := isBoundary_iff.1 h
  obtain ⟨front', rest', htext', rfl⟩ := isBoundary_iff.1 h'
  obtain ⟨c, more, rfl, -⟩ := exists_longer (htext.symm.trans htext') hlt
  rw [ofOffset_byteLength htext, ofOffset_byteLength htext', reach_append]
  exact (lt_next _ c).trans_le (next_le_reach _ c more)

/-- **The last place** that is not behind a position is the one that the position
finds. -/
theorem offset?_greatest {p : Position} (h : p.line < lineCount text) :
    ∃ o, offset? text p = some o ∧ (ofOffset text o).line = p.line ∧
      IsGreatest {b | isBoundary b text.toList = true ∧ ofOffset text b ≤ p} o := by
  obtain ⟨front, rest, htext, hoffset, hline, hle, hbeyond⟩ := offset?_spec h
  have hplace := ofOffset_byteLength htext
  refine ⟨byteLength front, hoffset, by rw [hplace, hline],
    ⟨isBoundary_iff.2 ⟨front, rest, htext, rfl⟩, by rw [hplace]; exact hle⟩, ?_⟩
  rintro b ⟨hb, hbp⟩
  by_contra hlt
  -- A place behind it is behind one character more, and that is beyond the position.
  obtain ⟨front', rest', htext', rfl⟩ := isBoundary_iff.1 hb
  obtain ⟨c, more, rfl, hrest⟩ := exists_longer (htext.symm.trans htext') (Nat.not_le.1 hlt)
  rw [ofOffset_byteLength htext', reach_append] at hbp
  exact absurd ((hbeyond c _ hrest).trans_le (next_le_reach _ c more)) hbp.not_gt

/-- The line of a place is a line of the text. -/
theorem line_ofOffset_lt {o : Nat} (h : isBoundary o text.toList = true) :
    (ofOffset text o).line < lineCount text := by
  obtain ⟨front, rest, htext, rfl⟩ := isBoundary_iff.1 h
  rw [ofOffset_byteLength htext, line_reach, lineCount, htext, List.count_append]
  simp only
  omega

/-- **There and back again.** -/
theorem offset?_ofOffset {o : Nat} (h : isBoundary o text.toList = true) :
    offset? text (ofOffset text o) = some o := by
  obtain ⟨found, hfound, -, ⟨hboundary, hle⟩, hgreatest⟩ := offset?_greatest (line_ofOffset_lt h)
  have hnot : ¬ o < found := fun hlt => (ofOffset_lt_ofOffset h hboundary hlt).not_ge hle
  rw [hfound, Nat.le_antisymm (Nat.not_lt.1 hnot) (hgreatest ⟨h, le_refl _⟩)]

/-- From inside a character the way there and back leads behind it. -/
theorem offset?_ofOffset_inside {front rest : List Char} {c : Char} (h : text.toList = front ++ c :: rest)
    {bytes : Nat} (hpos : 0 < bytes) (hle : bytes ≤ c.utf8Size) :
    offset? text (ofOffset text (byteLength front + bytes)) = some (byteLength (front ++ [c])) := by
  have hsplit : text.toList = (front ++ [c]) ++ rest := by rw [h, List.append_assoc, List.singleton_append]
  rw [ofOffset_inside h hpos hle, ← ofOffset_byteLength hsplit]
  exact offset?_ofOffset (isBoundary_iff.2 ⟨front ++ [c], rest, hsplit, rfl⟩)

/-- The two names of the places of a text: offsets and positions. -/
structure Exact (text : String) : Prop where
  /-- The position of a place counts line feeds and then units. -/
  place : ∀ o, isBoundary o text.toList = true →
    ofOffset text o = ofFront (takeBytes o text.toList)
  /-- The position of a place leads back to it. -/
  back : ∀ o, isBoundary o text.toList = true → offset? text (ofOffset text o) = some o
  /-- A place that is further on has a position that is further on. -/
  ordered : ∀ o o', isBoundary o text.toList = true → isBoundary o' text.toList = true → o < o' →
    ofOffset text o < ofOffset text o'
  /-- A position on a line of the text finds the last place of the line that is in no
  later column. It is that position or before it, and it is that one exactly if that
  one is a place. -/
  found : ∀ p, p.line < lineCount text → ∃ o, offset? text p = some o ∧
    IsGreatest {b | isBoundary b text.toList = true ∧ (ofOffset text b).line = p.line ∧
      (ofOffset text b).column ≤ p.column} o ∧
    ofOffset text o ≤ p ∧
    (ofOffset text o = p ↔ ∃ b, isBoundary b text.toList = true ∧ ofOffset text b = p)
  /-- A position on no line of the text finds nothing. -/
  beyond : ∀ p, lineCount text ≤ p.line → offset? text p = none

/-- **Offsets and positions are inverse and ordered** in every text. -/
theorem offsets_exact (text : String) : Exact text := by
  refine
    { place := fun o ho => ?_
      back := fun o => offset?_ofOffset
      ordered := fun o o' => ofOffset_lt_ofOffset
      found := fun p hp => ?_
      beyond := fun p hp => ?_ }
  · have hfront := ofOffset_byteLength (takeBytes_append_dropBytes o text.toList).symm
    rwa [byteLength_takeBytes ho, reach_eq_ofFront] at hfront
  · obtain ⟨o, hoffset, hline, ⟨hboundary, hle⟩, hgreatest⟩ := offset?_greatest hp
    -- The greatest boundary up to the position lies in the line of the position.
    have hcolumn : (ofOffset text o).column ≤ p.column := by
      rcases le_iff.1 hle with hlt | ⟨-, hcolumn⟩
      · exact absurd hline (Nat.ne_of_lt hlt)
      · exact hcolumn
    refine ⟨o, hoffset, ⟨⟨hboundary, hline, hcolumn⟩, ?_⟩, hle, ?_⟩
    · rintro b ⟨hb, hbline, hbcolumn⟩
      exact hgreatest ⟨hb, le_iff.2 (.inr ⟨hbline, hbcolumn⟩)⟩
    · refine ⟨fun h => ⟨o, hboundary, h⟩, ?_⟩
      rintro ⟨b, hb, rfl⟩
      rw [Option.some.inj (hoffset.symm.trans (offset?_ofOffset hb))]
  · rw [offset?, seekLine_eq_none 0 (Nat.lt_of_succ_le hp), Option.map_none]

/-- A column inside a character finds the start of the character. -/
example : offset? "a😀b\n" ⟨0, 2⟩ = some 1 ∧ ofOffset "a😀b\n" 1 = ⟨0, 1⟩ := by decide

end Position

end ScriptSense
