/-
Texts in pieces.

A text is cut from left to right, so the tokens of a text that begins with a piece
are those of the piece followed by those of the rest, whenever the scanner takes
just the piece. That depends on little of the rest, mostly on its first character.
Here stand the general laws of cutting off a piece and the pieces whose end is seen
by the next character: blank space, words and whole numbers.

What is compared are the tokens as the grammar sees them (`sighted`), which have no
offsets, so that a piece is worth the same wherever it stands.
-/
import ScriptSense.Proofs.Lexing
import ScriptSense.Proofs.Syntax.Bare

set_option autoImplicit false

namespace ScriptSense

/-! ## Tokens as the grammar sees them -/

/-- What the grammar sees of a token. -/
def Token.sighted (t : Token) : Option Glyph :=
  if t.kind.isTrivia || t.kind == .eof then none else some t.glyph

/-- What the grammar sees of a text. -/
def sighted (cs : List Char) : List Glyph := (tokensFrom 0 cs).filterMap Token.sighted

/-- Offsets are not seen. -/
theorem sighted_tokensFrom (offset : Nat) (cs : List Char) :
    (tokensFrom offset cs).filterMap Token.sighted = sighted cs := by
  unfold sighted
  -- What is seen does not depend on the offset, by induction on the length of the text.
  suffices h : ∀ n, ∀ cs : List Char, cs.length = n → ∀ a b,
      (tokensFrom a cs).filterMap Token.sighted = (tokensFrom b cs).filterMap Token.sighted from
    h _ cs rfl offset 0
  intro n
  induction n using Nat.strongRecOn with
  | _ n ih =>
    intro cs hlen a b
    cases cs with
    | nil => simp [tokensFrom, Token.sighted]
    | cons c rest =>
      have hshort : ((c :: rest).drop (Scan.next c rest).2).length < n := by
        have := (Scan.next_sound c rest).pos
        rw [List.length_drop, ← hlen]
        simp only [List.length_cons]
        omega
      rw [tokensFrom_cons, tokensFrom_cons, List.filterMap_cons, List.filterMap_cons,
        ih _ hshort _ rfl _ (b + _)]
      rfl

@[simp] theorem sighted_nil : sighted [] = [] := by
  simp [sighted, tokensFrom, Token.sighted]

/-- What is seen of a token of a kind and a text. -/
def piece (kind : TokenKind) (cs : List Char) : List Glyph :=
  (Token.sighted ⟨kind, 0, String.ofList cs⟩).toList

/-- **A piece that the scanner takes is cut off.** -/
theorem sighted_append {kind : TokenKind} {c : Char} {cs rest : List Char}
    (h : Scan.next c (cs ++ rest) = (kind, cs.length + 1)) :
    sighted (c :: cs ++ rest) = piece kind (c :: cs) ++ sighted rest := by
  have htake : (c :: (cs ++ rest)).take (cs.length + 1) = c :: cs := by simp
  have hdrop : (c :: (cs ++ rest)).drop (cs.length + 1) = rest := by simp
  rw [List.cons_append, sighted, tokensFrom_cons, h]
  simp only [htake, hdrop]
  rw [List.filterMap_cons, sighted_tokensFrom, piece]
  cases Token.sighted ⟨kind, 0, String.ofList (c :: cs)⟩ <;> simp

/-! ## Blank space -/

namespace Scan

theorem take_run (p : Char → Bool) (cs : List Char) : cs.take (run p cs) = cs.takeWhile p :=
  (List.prefix_iff_eq_take.1 (List.takeWhile_prefix p)).symm

theorem drop_run (p : Char → Bool) (cs : List Char) : cs.drop (run p cs) = cs.dropWhile p := by
  have hsplit := List.take_append_drop (run p cs) cs
  rw [take_run] at hsplit
  exact List.append_cancel_left (hsplit.trans (List.takeWhile_append_dropWhile (p := p)).symm)

theorem run_append_of_all {p : Char → Bool} {cs rest : List Char} (h : ∀ c ∈ cs, p c = true) :
    run p (cs ++ rest) = cs.length + run p rest := by
  rw [run, run, List.takeWhile_append_of_pos h, List.length_append]

theorem run_eq_zero {p : Char → Bool} {cs : List Char} (h : cs.head?.all (!p ·) = true) :
    run p cs = 0 := by
  cases cs with
  | nil => rfl
  | cons c cs =>
    have hc : p c = false := by simpa using h
    simp [run, hc]

end Scan

/-- Blank space at the front is not seen. -/
theorem sighted_dropWhile_isGap (cs : List Char) : sighted (cs.dropWhile isGap) = sighted cs := by
  cases cs with
  | nil => rfl
  | cons c rest =>
    by_cases hc : isGap c = true
    -- The whole gap is one token, and it is not seen.
    · have hnext : Scan.next c (rest.takeWhile isGap ++ rest.dropWhile isGap)
          = (.whitespace, (rest.takeWhile isGap).length + 1) := by
        rw [List.takeWhile_append_dropWhile, Scan.next, Lead.of, if_pos hc]
        rfl
      have hcut := sighted_append hnext
      rw [List.cons_append, List.takeWhile_append_dropWhile] at hcut
      rw [List.dropWhile_cons_of_pos hc, hcut]
      rfl
    · rw [List.dropWhile_cons_of_neg hc]

theorem sighted_gap {gap rest : List Char} (h : ∀ c ∈ gap, isGap c = true) :
    sighted (gap ++ rest) = sighted rest := by
  rw [← sighted_dropWhile_isGap (gap ++ rest), List.dropWhile_append_of_pos h,
    sighted_dropWhile_isGap]

/-- A line break is cut off where no other follows. -/
theorem sighted_line {rest : List Char} (h : rest.head?.all (!isBreak ·) = true) :
    sighted ('\n' :: rest) = (.newline, "\n") :: sighted rest := by
  have hnext : Scan.next '\n' ([] ++ rest) = (.newline, 1) := by
    rw [Scan.next, List.nil_append]
    simp [Lead.of, isGap, isBreak, Scan.run_eq_zero h]
  exact sighted_append hnext

/-! ## Words -/

/-- A letter or an underscore begins a word. -/
theorem lead_of_letter {c : Char} (h : isWordChar c = true) (hdigit : c.isDigit = false) :
    Lead.of c = .letter := by
  -- The other leading characters are no word characters.
  have hne : ∀ d : Char, isWordChar d = false → c ≠ d := by
    rintro d hd rfl
    rw [h] at hd
    cases hd
  have hgap : isGap c = false := by
    simp [isGap, hne ' ' (by decide), hne '\t' (by decide), hne '\x0c' (by decide)]
  have hbreak : isBreak c = false := by
    simp [isBreak, hne '\r' (by decide), hne '\n' (by decide)]
  simp [Lead.of, hgap, hbreak, hne ';' (by decide), hne '"' (by decide), hne '\'' (by decide),
    hdigit, h]

/-- No word goes on here. -/
def EndsWord (rest : List Char) : Prop := Scan.wordFollows rest = false

theorem endsWord_iff {rest : List Char} :
    EndsWord rest ↔ rest.head?.all (!isWordChar ·) = true := by
  cases rest <;> simp [EndsWord, Scan.wordFollows]

/-- A word is cut off where it ends. -/
theorem next_word {c : Char} {cs rest : List Char} (hdigit : c.isDigit = false)
    (hword : ∀ d ∈ c :: cs, isWordChar d = true) (hrest : EndsWord rest) :
    Scan.next c (cs ++ rest) = (TokenKind.ofWord (String.ofList (c :: cs)), cs.length + 1) := by
  have hrun : Scan.run isWordChar (c :: cs ++ rest) = cs.length + 1 := by
    rw [Scan.run_append_of_all hword, Scan.run_eq_zero (endsWord_iff.1 hrest)]
    rfl
  rw [Scan.next, lead_of_letter (hword c List.mem_cons_self) hdigit]
  simp only [Scan.word]
  rw [← List.cons_append, hrun]
  simp

/-- A word that is one token is cut off where it ends. -/
theorem sighted_word {c : Char} {cs rest : List Char} {g : Glyph} (hdigit : c.isDigit = false)
    (hword : (c :: cs).all isWordChar = true)
    (hpiece : piece (TokenKind.ofWord (String.ofList (c :: cs))) (c :: cs) = [g])
    (hrest : EndsWord rest) : sighted (c :: cs ++ rest) = g :: sighted rest := by
  rw [sighted_append (next_word hdigit (List.all_eq_true.1 hword) hrest), hpiece]
  rfl

/-! ## Whole numbers -/

theorem isWordChar_of_isHexDigit {c : Char} (h : isHexDigit c = true) : isWordChar c = true := by
  -- The letters among the digits lie in the alphabet.
  have hletter : ∀ low high : Char, ('a' ≤ low ∧ high ≤ 'z' ∨ 'A' ≤ low ∧ high ≤ 'Z') →
      low ≤ c → c ≤ high → c.isAlpha = true := by
    intro low high hrange hlow hhigh
    change (decide (c.val ≥ 'A'.val ∧ c.val ≤ 'Z'.val)
      || (decide (c.val ≥ 'a'.val) && decide (c.val ≤ 'z'.val))) = true
    simp only [Bool.or_eq_true, Bool.and_eq_true, decide_eq_true_eq]
    simp only [Char.le_def, UInt32.le_iff_toNat_le, ge_iff_le] at *
    omega
  simp only [isHexDigit, Bool.or_eq_true, Bool.and_eq_true, decide_eq_true_eq] at h
  simp only [isWordChar, Char.isAlphanum, Bool.or_eq_true]
  rcases h with (h | h) | h
  · exact .inl (.inr h)
  · exact .inl (.inl (hletter 'a' 'f' (.inl (by decide)) h.1 h.2))
  · exact .inl (.inl (hletter 'A' 'F' (.inr (by decide)) h.1 h.2))

theorem lead_of_isDigit {c : Char} (h : c.isDigit = true) : Lead.of c = .digit := by
  have hne : ∀ d : Char, d.isDigit = false → c ≠ d := by
    rintro d hd rfl
    rw [h] at hd
    cases hd
  have hgap : isGap c = false := by
    simp [isGap, hne ' ' (by decide), hne '\t' (by decide), hne '\x0c' (by decide)]
  have hbreak : isBreak c = false := by
    simp [isBreak, hne '\r' (by decide), hne '\n' (by decide)]
  simp [Lead.of, hgap, hbreak, hne ';' (by decide), hne '"' (by decide), hne '\'' (by decide), h]

variable {c : Char} {cs rest : List Char}

/-- What follows a word is no character of a kind that is a kind of character of
words. -/
theorem EndsWord.run_eq_zero (h : EndsWord rest) {p : Char → Bool}
    (hp : ∀ c, p c = true → isWordChar c = true) : Scan.run p rest = 0 := by
  refine Scan.run_eq_zero ?_
  cases rest with
  | nil => rfl
  | cons d rest =>
    have hd : isWordChar d = false := by simpa [EndsWord, Scan.wordFollows] using h
    -- What would go on is a word character, and none follows.
    have hpd : p d = false := by
      by_contra hpd
      rw [hp d (by simpa using hpd)] at hd
      cases hd
    simp [hpd]

/-- A decimal number is cut off where no word and no fraction goes on. -/
theorem next_decimal (hdigit : ∀ d ∈ c :: cs, d.isDigit = true) (hrest : EndsWord rest)
    (hpoint : rest.head? ≠ some '.') : Scan.next c (cs ++ rest) = (.number, cs.length + 1) := by
  have hrun : Scan.run Char.isDigit (c :: cs ++ rest) = cs.length + 1 := by
    rw [Scan.run_append_of_all hdigit, hrest.run_eq_zero fun _ => Scan.isWordChar_of_isDigit]
    rfl
  have hhex : Scan.hexLength? (c :: cs ++ rest) = none := by
    unfold Scan.hexLength?
    split
    · next x tail heq =>
      refine if_neg ?_
      -- A second character is a digit or ends the word, so it does not mark a hexadecimal
      -- number.
      have hx : x ≠ 'x' ∧ x ≠ 'X' := by
        cases cs with
        | cons d cs =>
          simp only [List.cons_append, List.cons.injEq] at heq
          have hd := hdigit d (by simp)
          rw [heq.2.1] at hd
          constructor <;> rintro rfl <;> exact absurd hd (by decide)
        | nil =>
          simp only [List.cons_append, List.nil_append, List.cons.injEq] at heq
          have hd : isWordChar x = false := by
            simpa [EndsWord, Scan.wordFollows, heq.2] using hrest
          constructor <;> rintro rfl <;> exact absurd hd (by decide)
      simp [hx.1, hx.2]
    · rfl
  have hlength : Scan.decimalLength (c :: cs ++ rest) = cs.length + 1 := by
    have hdrop : (c :: cs ++ rest).drop (cs.length + 1) = rest := by simp
    unfold Scan.decimalLength
    rw [hrun]
    simp only [hdrop]
    split
    · next fraction => exact absurd rfl hpoint
    · rfl
  have hdrop : (c :: cs ++ rest).drop (cs.length + 1) = rest := by simp
  rw [Scan.next, lead_of_isDigit (hdigit c List.mem_cons_self)]
  simp only [Scan.digits]
  rw [← List.cons_append, hhex]
  simp only [hlength, hdrop]
  exact if_neg (by simpa [EndsWord] using hrest)

/-- A hexadecimal number is cut off where no word goes on. -/
theorem next_hexadecimal {mark : Char} (hmark : mark = 'x' ∨ mark = 'X') (hsome : cs ≠ [])
    (hdigit : ∀ d ∈ cs, isHexDigit d = true) (hrest : EndsWord rest) :
    Scan.next '0' (mark :: cs ++ rest) = (.hexNumber, (mark :: cs).length + 1) := by
  have hrun : Scan.run isHexDigit (cs ++ rest) = cs.length := by
    rw [Scan.run_append_of_all hdigit, hrest.run_eq_zero fun _ => isWordChar_of_isHexDigit,
      Nat.add_zero]
  have hpos : 0 < cs.length := List.length_pos_iff.2 hsome
  -- Digits follow the mark, so the number is a hexadecimal one.
  have hhex : Scan.hexLength? ('0' :: (mark :: cs ++ rest)) = some (cs.length + 2) := by
    simp only [List.cons_append, Scan.hexLength?, hrun]
    refine if_pos ?_
    rcases hmark with rfl | rfl <;> simp [hpos]
  rw [Scan.next, lead_of_isDigit (by decide)]
  simp only [Scan.digits, hhex]
  rfl

end ScriptSense
