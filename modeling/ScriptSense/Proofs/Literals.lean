/-
What the literals of a text are worth.

The lexer gives a literal one of five forms, and each form has its own rule (`Worth`). The
rules see the digits only as the number that they write, so leading zeros make no difference
(`ofDigits_zeros`), nor does the case of hexadecimal digits (`ofDigits_map_toLower`). All
forms are worth something but one: a hexadecimal number past the limit is worth nothing,
where a decimal one becomes the nearest double.
-/
import Mathlib.Algebra.Group.Nat.Defs
import ScriptSense.Proofs.Casing.Meaning

set_option autoImplicit false

namespace ScriptSense

/-! ## Digits -/

/-- Zeros in front change nothing. -/
theorem ofDigits_zeros (base count : Nat) (digits : List Char) :
    ofDigits base (List.replicate count '0' ++ digits) = ofDigits base digits := by
  induction count with
  | zero => rfl
  | succ count ih =>
    rw [List.replicate_succ, List.cons_append, ← ih, ofDigits, List.foldl_cons]
    simp [ofDigits, digitValue]

/-! ## Literals -/

/-- **What a literal is worth** by its form. -/
inductive Worth : TokenKind → List Char → Option Literal → Prop
  /-- A whole number below the limit is an integer. -/
  | integer {ds : List Char} (digits : IsDigits ds)
      (small : ofDigits 10 ds < Literal.integerLimit) :
      Worth .number ds (some (.integer (ofDigits 10 ds)))
  /-- Past the limit it is the nearest double. -/
  | large {ds : List Char} (digits : IsDigits ds) (large : Literal.integerLimit ≤ ofDigits 10 ds) :
      Worth .number ds (some (.float (.nearest (ofDigits 10 ds) 1)))
  /-- With a fraction it is the double nearest to the quotient. -/
  | fraction {ds es : List Char} (digits : ∀ c ∈ ds, c.isDigit = true) (more : IsDigits es) :
      Worth .number (ds ++ '.' :: es)
        (some (.float (.nearest (ofDigits 10 (ds ++ es)) (10 ^ es.length))))
  /-- A hexadecimal number below the limit is an integer. -/
  | hexadecimal {mark : Char} {ds : List Char} (digits : ∀ c ∈ ds, isHexDigit c = true)
      (small : ofDigits 16 ds < Literal.integerLimit) :
      Worth .hexNumber ('0' :: mark :: ds) (some (.integer (ofDigits 16 ds)))
  /-- Past the limit it is nothing. -/
  | excess {mark : Char} {ds : List Char} (digits : ∀ c ∈ ds, isHexDigit c = true)
      (large : Literal.integerLimit ≤ ofDigits 16 ds) : Worth .hexNumber ('0' :: mark :: ds) none
  /-- A string is what stands between its quotes. -/
  | closed {quote : Char} {cs : List Char} (inside : quote ∉ cs) :
      Worth .string (quote :: (cs ++ [quote])) (some (.string (String.ofList cs)))
  /-- A string that is not closed is everything behind its quote. -/
  | unclosed {quote : Char} {cs : List Char} (inside : quote ∉ cs) :
      Worth .string (quote :: cs) (some (.string (String.ofList cs)))

namespace Literal

theorem ofDecimal_whole {ds : List Char} (h : IsDigits ds) : ofDecimal ds
    = if ofDigits 10 ds < integerLimit then .integer (ofDigits 10 ds)
      else .float (.nearest (ofDigits 10 ds) 1) := by
  have hpoint : ds.dropWhile (· != '.') = [] :=
    List.dropWhile_eq_nil_iff.2 fun c hc => by
      have hdigit := h.all c hc
      simp only [bne_iff_ne, ne_eq]
      rintro rfl
      exact absurd hdigit (by decide)
  rw [ofDecimal, hpoint]

theorem ofDecimal_fraction {ds es : List Char} (h : ∀ c ∈ ds, c.isDigit = true) :
    ofDecimal (ds ++ '.' :: es) = .float (.nearest (ofDigits 10 (ds ++ es)) (10 ^ es.length)) := by
  have hwhole : ∀ c ∈ ds, (c != '.') = true := fun c hc => by
    have hdigit := h c hc
    simp only [bne_iff_ne, ne_eq]
    rintro rfl
    exact absurd hdigit (by decide)
  rw [ofDecimal, List.dropWhile_append_of_pos hwhole]
  simp only [List.dropWhile_cons, bne_self_eq_false, Bool.false_eq_true, if_false]
  rw [List.takeWhile_append_of_pos hwhole]
  simp

theorem unquote_closed (quote : Char) (cs : List Char) :
    unquote (quote :: (cs ++ [quote])) = cs := by
  simp [unquote]

theorem unquote_unclosed {quote : Char} {cs : List Char} (h : quote ∉ cs) :
    unquote (quote :: cs) = cs := by
  rw [unquote, if_neg fun hlast => ?_]
  exact h (List.mem_of_getLast? (eq_of_beq hlast))

end Literal

namespace Lexeme

variable {cs rest : List Char}

theorem worth_number (h : Lexeme .number cs rest) :
    Worth .number cs (Option.some (Literal.ofDecimal cs)) := by
  cases h with
  | number form _ =>
    cases form with
    | whole digits _ =>
      rw [Literal.ofDecimal_whole digits]
      split
      · next hsmall => exact .integer digits hsmall
      · next hlarge => exact .large digits (Nat.le_of_not_lt hlarge)
    | fraction digits more =>
      rw [Literal.ofDecimal_fraction digits.all]
      exact .fraction digits.all more
    | @point es _ digits =>
      -- The point stands in front: the digits before it are none.
      have hnone : ∀ c ∈ ([] : List Char), c.isDigit = true := by simp
      rw [← List.nil_append ('.' :: es), Literal.ofDecimal_fraction hnone]
      exact .fraction hnone digits
  | keyword _ entry => exact absurd (TokenKind.isWord_of_mem_wordTable entry) (by decide)
  | sign spelling _ _ => cases spelling

theorem worth_hexNumber (h : Lexeme .hexNumber cs rest) :
    Worth .hexNumber cs (Literal.ofHexadecimal? cs) := by
  cases h with
  | hexNumber sort digits =>
    rw [Literal.ofHexadecimal?, List.drop_succ_cons, List.drop_succ_cons, List.drop_zero]
    split
    · next hsmall => exact .hexadecimal digits.all hsmall
    · next hlarge => exact .excess digits.all (Nat.le_of_not_lt hlarge)
  | keyword _ entry => exact absurd (TokenKind.isWord_of_mem_wordTable entry) (by decide)
  | sign spelling _ _ => cases spelling

theorem worth_string (h : Lexeme .string cs rest) :
    Worth .string cs (Option.some (Literal.string (String.ofList (Literal.unquote cs)))) := by
  cases h with
  | closed _ inside =>
    rw [Literal.unquote_closed]
    exact .closed inside
  | unclosed _ inside =>
    rw [Literal.unquote_unclosed inside]
    exact .unclosed inside
  | keyword _ entry => exact absurd (TokenKind.isWord_of_mem_wordTable entry) (by decide)
  | sign spelling _ _ => cases spelling

end Lexeme

/-- **Every literal of a text is worth what its form says.** -/
theorem worth_ofToken? {text : String} {t : Token} (ht : t ∈ tokens text)
    (hkind : t.kind = .number ∨ t.kind = .hexNumber ∨ t.kind = .string) :
    Worth t.kind t.text.toList (Literal.ofToken? t) := by
  obtain ⟨before, after, hsplit⟩ := List.append_of_mem ht
  have hlexeme := (tokens_wellCut text).shape before t after hsplit (by
    rcases hkind with h | h | h <;> simp [h])
  rcases hkind with h | h | h <;> rw [h] at hlexeme ⊢ <;> rw [Literal.ofToken?, h]
  · exact hlexeme.worth_number
  · exact hlexeme.worth_hexNumber
  · exact hlexeme.worth_string

/-- A literal has a value unless it is a hexadecimal number past the limit. -/
theorem ofToken?_eq_none_iff {text : String} {t : Token} (ht : t ∈ tokens text)
    (hkind : t.kind = .number ∨ t.kind = .hexNumber ∨ t.kind = .string) :
    Literal.ofToken? t = none ↔ t.kind = .hexNumber
      ∧ Literal.integerLimit ≤ ofDigits 16 (t.text.toList.drop 2) := by
  have hworth := worth_ofToken? ht hkind
  generalize t.kind = kind, t.text.toList = cs, Literal.ofToken? t = value at hworth
  cases hworth <;> simp_all

end ScriptSense
