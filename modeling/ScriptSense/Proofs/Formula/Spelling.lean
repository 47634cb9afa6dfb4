/-
The tokens of a written formula.

The text of a formula falls into the tokens it was put together from. Each piece is
cut off by what comes after it: a name or a number by a character that is in no
word, an operator by the blank behind it, a bracket by nothing. The one place where
two pieces could run together is a number in front of a point, and no number is
accessed without parentheses.
-/
import ScriptSense.Proofs.Formula.Basic
import ScriptSense.Proofs.Scanning

set_option autoImplicit false

namespace ScriptSense

/-! ## Names -/

theorem Scan.operator_ne_ident (c : Char) (rest : List Char) : (Scan.operator c rest).1 ≠ .ident := by
  -- No operator is spelled as an identifier, with one character or with two.
  have hpair : ∀ a b, Scan.pair? a b ≠ some .ident := by
    intro a b
    unfold Scan.pair?
    split <;> simp
  have hsingle : ∀ a, Scan.single? a ≠ some .ident := by
    intro a
    unfold Scan.single?
    split <;> simp
  unfold Scan.operator
  split
  · next kind h =>
    obtain ⟨b, -, hkind⟩ := Option.bind_eq_some_iff.1 h
    exact fun heq => hpair c b (heq ▸ hkind)
  · cases h : Scan.single? c with
    | none => simp
    | some kind => exact fun heq => hsingle c (by rw [h, ← heq]; rfl)

/-- An identifier is a token that begins with a letter, an underscore or a digit. -/
theorem lead_of_ident {c : Char} {rest : List Char} (h : (Scan.next c rest).1 = .ident) :
    Lead.of c = .letter ∨ Lead.of c = .digit := by
  unfold Scan.next at h
  cases hlead : Lead.of c with
  | letter => exact .inl rfl
  | digit => exact .inr rfl
  | other =>
    rw [hlead] at h
    exact absurd h (Scan.operator_ne_ident c rest)
  | point =>
    rw [hlead] at h
    simp only [Scan.point] at h
    split at h <;> cases h
  | gap | lineBreak | semicolon | quote =>
    rw [hlead] at h
    cases h

/-- A name is a word. -/
theorem Name.word (n : Name) : ∃ c cs, n.text.toList = c :: cs ∧ c.isDigit = false
    ∧ (∀ d ∈ c :: cs, isWordChar d = true) ∧ TokenKind.ofWord n.text = .ident := by
  have hidentifier := n.identifier
  have hletter := n.letter
  unfold isIdentifier tokens at hidentifier
  cases hchars : n.text.toList with
  | nil =>
    rw [hchars, tokensFrom] at hidentifier
    exact absurd hidentifier (by decide)
  | cons c rest =>
    rw [hchars] at hidentifier hletter
    have hdigit : c.isDigit = false := hletter c rfl
    rw [tokensFrom_cons, List.map_cons] at hidentifier
    simp only [beq_iff_eq, List.cons.injEq] at hidentifier
    obtain ⟨hkind, hrest⟩ := hidentifier
    -- The name is one token, so nothing is left behind it.
    have hdrop : (c :: rest).drop (Scan.next c rest).2 = [] := by
      cases hleft : (c :: rest).drop (Scan.next c rest).2 with
      | nil => rfl
      | cons d ds =>
        rw [hleft, tokensFrom_cons, List.map_cons, List.cons.injEq] at hrest
        exact absurd hrest.1 (Scan.next_sound d ds).kind
    -- An identifier begins with a letter or with a digit, and a name with no digit.
    have hlead : Lead.of c = .letter := by
      rcases lead_of_ident hkind with h | h
      · exact h
      · rw [Lead.isDigit_of h] at hdigit
        cases hdigit
    have hnext : Scan.next c rest = Scan.word (c :: rest) := by rw [Scan.next, hlead]
    have hrun : Scan.run isWordChar (c :: rest) = (c :: rest).length := by
      have hle : (c :: rest).length ≤ (Scan.next c rest).2 := List.drop_eq_nil_iff.1 hdrop
      rw [hnext] at hle
      exact Nat.le_antisymm (Scan.run_le _ _) hle
    -- The word takes in the whole text.
    have hword : (c :: rest).takeWhile isWordChar = c :: rest :=
      (List.takeWhile_prefix _).eq_of_length hrun
    refine ⟨c, rest, rfl, hdigit, fun d hd => ?_, ?_⟩
    · rw [← hword] at hd
      exact List.mem_takeWhile_imp hd
    · rw [hnext] at hkind
      simp only [Scan.word] at hkind
      rwa [hrun, List.take_length, ← hchars, String.ofList_toList] at hkind

/-! ## Pieces of a formula -/

variable {rest : List Char}

theorem sighted_name (n : Name) (hrest : EndsWord rest) :
    sighted (n.text.toList ++ rest) = (.ident, n.text) :: sighted rest := by
  obtain ⟨c, cs, hchars, hdigit, hword, hkind⟩ := n.word
  have hnext := next_word hdigit hword hrest
  rw [← hchars, String.ofList_toList, hkind] at hnext
  rw [hchars, sighted_append hnext, ← hchars, piece, String.ofList_toList]
  rfl

theorem sighted_number (n : Numeral) (hrest : EndsWord rest) (hpoint : rest.head? ≠ some '.') :
    sighted (n.chars ++ rest) = (n.kind, String.ofList n.chars) :: sighted rest := by
  cases n with
  | decimal digits hsome hdigit hsmall =>
    obtain ⟨c, cs, rfl⟩ := List.exists_cons_of_ne_nil hsome
    exact sighted_append (next_decimal hdigit hrest hpoint)
  | hexadecimal mark hmark digits hsome hdigit hsmall =>
    exact sighted_append (next_hexadecimal hmark hsome hdigit hrest)

/-- The sign of a token is cut off where the scanner takes just that. -/
theorem sighted_sign {kind : TokenKind}
    (hnext : ∃ c cs, kind.sign.toList = c :: cs ∧ Scan.next c (cs ++ rest) = (kind, cs.length + 1))
    (hseen : piece kind kind.sign.toList = [(kind, kind.sign)]) :
    sighted (kind.sign.toList ++ rest) = (kind, kind.sign) :: sighted rest := by
  obtain ⟨c, cs, hsign, hnext⟩ := hnext
  rw [hsign] at hseen ⊢
  rw [sighted_append hnext, hseen]
  rfl

theorem sighted_space : sighted (' ' :: rest) = sighted rest := by
  have hgap : ∀ c ∈ [' '], isGap c = true := List.all_eq_true.1 rfl
  exact sighted_gap hgap

/-- An operator is cut off by the blank behind it. -/
theorem sighted_unary (op : UnaryOp) :
    sighted (op.token.sign.toList ++ ' ' :: rest) = (op.token, op.token.sign) :: sighted rest := by
  have hspace : sighted (' ' :: rest) = sighted rest := sighted_space
  rw [← hspace]
  refine sighted_sign ?_ ?_
  · cases op <;> exact ⟨_, _, rfl, rfl⟩
  · cases op <;> rfl

theorem sighted_binary (op : BinaryOp) :
    sighted (op.token.sign.toList ++ ' ' :: rest) = (op.token, op.token.sign) :: sighted rest := by
  have hspace : sighted (' ' :: rest) = sighted rest := sighted_space
  rw [← hspace]
  refine sighted_sign ?_ ?_
  · cases op <;> exact ⟨_, _, rfl, rfl⟩
  · cases op <;> rfl

/-- A point and an arrow are cut off by the name behind them. -/
theorem sighted_reach (reach : Reach) (n : Name) :
    sighted (reach.token.sign.toList ++ (n.text.toList ++ rest))
      = (reach.token, reach.token.sign) :: sighted (n.text.toList ++ rest) := by
  obtain ⟨c, cs, hchars, hdigit, -, -⟩ := n.word
  rw [hchars]
  refine sighted_sign ?_ ?_
  · cases reach with
    | arrow => exact ⟨_, _, rfl, rfl⟩
    -- A point in front of a letter is no fraction.
    | dot =>
      refine ⟨'.', [], rfl, ?_⟩
      have hrun : Scan.run Char.isDigit (c :: cs ++ rest) = 0 :=
        Scan.run_eq_zero (by simp [hdigit])
      have hlead : Lead.of '.' = .point := rfl
      rw [List.nil_append, Scan.next, hlead]
      simp only [Scan.point, hrun]
      rfl
  · cases reach <;> rfl

/-- A bracket is cut off by anything. -/
theorem sighted_bracket {kind : TokenKind}
    (h : kind = .lParen ∨ kind = .rParen ∨ kind = .lBracket ∨ kind = .rBracket) :
    sighted (kind.sign.toList ++ rest) = (kind, kind.sign) :: sighted rest := by
  refine sighted_sign ?_ ?_
  · rcases h with rfl | rfl | rfl | rfl <;> refine ⟨_, _, rfl, ?_⟩ <;> cases rest <;> rfl
  · rcases h with rfl | rfl | rfl | rfl <;> rfl

/-! ## Whole formulas -/

namespace Written

/-- The tokens of a written formula. -/
def glyphs : Written → List Glyph
  | .number n => [(n.kind, String.ofList n.chars)]
  | .name n => [(.ident, n.text)]
  | .paren inner => (.lParen, "(") :: (inner.glyphs ++ [(.rParen, ")")])
  | .unary op operand => (op.token, op.token.sign) :: operand.glyphs
  | .binary op left right => left.glyphs ++ (op.token, op.token.sign) :: right.glyphs
  | .field reach base member =>
    base.glyphs ++ [(reach.token, reach.token.sign), (.ident, member.text)]
  | .index base member =>
    base.glyphs ++ (.lBracket, "[") :: (member.glyphs ++ [(.rBracket, "]")])

/-- **The text of a formula falls into its tokens**, if nothing behind it runs into
them. -/
theorem sighted_text {blank : String} (hblank : ∀ c ∈ blank.toList, isGap c = true) {w : Written}
    (hw : w.Fits) (hrest : EndsWord rest) (hpoint : rest.head? = some '.' → w.isBase = true) :
    sighted ((w.text blank).toList ++ rest) = w.glyphs ++ sighted rest := by
  -- A blank in front of an expression leaves no glyph.
  have hlead : ∀ (inner : Written) (rest : List Char),
      sighted ((inner.lead blank).toList ++ rest) = sighted rest := by
    intro inner rest
    unfold lead
    split
    · exact sighted_gap hblank
    · rfl
  induction w generalizing rest with
  | number n =>
    rw [text, String.toList_ofList]
    exact sighted_number n hrest fun h => absurd (hpoint h) (by simp [isBase])
  | name n => exact sighted_name n hrest
  | paren inner ih =>
    have hclose : EndsWord (")".toList ++ rest) := rfl
    have hclosed : sighted (")".toList ++ rest) = (.rParen, ")") :: sighted rest :=
      sighted_bracket (.inr (.inl rfl))
    calc sighted (((Written.paren inner).text blank).toList ++ rest)
        = sighted ("(".toList ++ ((inner.lead blank).toList
            ++ ((inner.text blank).toList ++ (")".toList ++ rest)))) := by
          simp [text]
      _ = (.lParen, "(") :: sighted ((inner.lead blank).toList
            ++ ((inner.text blank).toList ++ (")".toList ++ rest))) := sighted_bracket (.inl rfl)
      _ = (.lParen, "(") :: (inner.glyphs ++ sighted (")".toList ++ rest)) := by
          rw [hlead, ih hw hclose (by simp)]
      _ = (Written.paren inner).glyphs ++ sighted rest := by
          rw [hclosed, glyphs, List.cons_append, List.append_assoc]
          rfl
  | unary op operand ih =>
    calc sighted (((Written.unary op operand).text blank).toList ++ rest)
        = sighted (op.token.sign.toList ++ ' ' :: ((operand.text blank).toList ++ rest)) := by
          simp [text]
      _ = (op.token, op.token.sign) :: sighted ((operand.text blank).toList ++ rest) :=
          sighted_unary op
      _ = (Written.unary op operand).glyphs ++ sighted rest := by
          rw [ih hw.1 hrest (fun h => absurd (hpoint h) (by simp [isBase]))]
          rfl
  | binary op left right ihl ihr =>
    have hspace : EndsWord (' ' :: (op.token.sign.toList ++ ' ' :: ((right.text blank).toList ++ rest))) :=
      rfl
    calc sighted (((Written.binary op left right).text blank).toList ++ rest)
        = sighted ((left.text blank).toList
            ++ ' ' :: (op.token.sign.toList ++ ' ' :: ((right.text blank).toList ++ rest))) := by
          simp [text]
      _ = left.glyphs ++ (op.token, op.token.sign) :: sighted ((right.text blank).toList ++ rest) := by
          rw [ihl hw.1 hspace (by simp), sighted_space, sighted_binary]
      _ = (Written.binary op left right).glyphs ++ sighted rest := by
          rw [ihr hw.2.1 hrest (fun h => absurd (hpoint h) (by simp [isBase])), glyphs,
            List.append_assoc, List.cons_append]
  | field reach base member ih =>
    have hreach : EndsWord (reach.token.sign.toList ++ (member.text.toList ++ rest)) := by
      cases reach <;> rfl
    calc sighted (((Written.field reach base member).text blank).toList ++ rest)
        = sighted ((base.text blank).toList
            ++ (reach.token.sign.toList ++ (member.text.toList ++ rest))) := by
          simp [text]
      _ = base.glyphs ++ (reach.token, reach.token.sign) :: (.ident, member.text) :: sighted rest := by
          rw [ih hw.1 hreach (fun _ => hw.2), sighted_reach, sighted_name member hrest]
      _ = (Written.field reach base member).glyphs ++ sighted rest := by
          rw [glyphs, List.append_assoc]
          rfl
  | index base member ihb ihm =>
    have hopen : sighted ("[".toList ++ ((member.lead blank).toList
        ++ ((member.text blank).toList ++ ("]".toList ++ rest)))) = (.lBracket, "[") ::
          sighted ((member.lead blank).toList
            ++ ((member.text blank).toList ++ ("]".toList ++ rest))) :=
      sighted_bracket (.inr (.inr (.inl rfl)))
    have hclosed : sighted ("]".toList ++ rest) = (.rBracket, "]") :: sighted rest :=
      sighted_bracket (.inr (.inr (.inr rfl)))
    have hbehindBase : EndsWord ("[".toList ++ ((member.lead blank).toList
        ++ ((member.text blank).toList ++ ("]".toList ++ rest)))) := rfl
    have hbehindMember : EndsWord ("]".toList ++ rest) := rfl
    calc sighted (((Written.index base member).text blank).toList ++ rest)
        = sighted ((base.text blank).toList ++ ("[".toList ++ ((member.lead blank).toList
            ++ ((member.text blank).toList ++ ("]".toList ++ rest))))) := by
          simp [text]
      _ = base.glyphs ++ (.lBracket, "[") :: sighted ((member.lead blank).toList
            ++ ((member.text blank).toList ++ ("]".toList ++ rest))) := by
          rw [ihb hw.1 hbehindBase (fun _ => hw.2.2), hopen]
      _ = base.glyphs ++ (.lBracket, "[") :: (member.glyphs ++ sighted ("]".toList ++ rest)) := by
          rw [hlead, ihm hw.2.1 hbehindMember (by simp)]
      _ = (Written.index base member).glyphs ++ sighted rest := by
          rw [hclosed, glyphs, List.append_assoc, List.cons_append, List.append_assoc]
          rfl

end Written

end ScriptSense
