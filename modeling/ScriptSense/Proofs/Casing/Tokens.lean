/-
The tokens of a text in another case.

Folding a token writes its capitals small and leaves its kind and its place, because a
letter has as many bytes in either case. Two texts that differ in the case of letters
only fall into tokens that fold to the same: the scanner takes pieces of the same kind
and length from both, blank space, comments and strings included.
-/
import ScriptSense.Proofs.Layout.Recasing

set_option autoImplicit false

namespace ScriptSense

/-! ## Folding -/

/-- The token with its capitals written small. -/
def Token.folded (t : Token) : Token := { t with text := foldCase t.text }

theorem utf8Size_toLower (c : Char) : c.toLower.utf8Size = c.utf8Size := by
  by_cases hc : c.isUpper = true
  · have hsmall : ∀ d : Char, d.val.toNat ≤ 127 → d.utf8Size = 1 := fun d hd => by
      have hone : d.val ≤ 127 := UInt32.le_iff_toNat_le.2 hd
      exact if_pos hone
    have hval := val_toLower hc
    rw [isUpper_iff] at hc
    rw [hsmall c (by omega), hsmall c.toLower (by omega)]
  · rw [toLower_of_not_isUpper hc]

theorem byteLength_map_toLower (cs : List Char) : byteLength (cs.map Char.toLower) = byteLength cs := by
  induction cs with
  | nil => rfl
  | cons c cs ih => rw [List.map_cons, byteLength_cons, byteLength_cons, utf8Size_toLower, ih]

/-- A name has as many bytes in either case. -/
@[simp] theorem utf8ByteSize_foldCase (name : String) :
    (foldCase name).utf8ByteSize = name.utf8ByteSize := by
  rw [utf8ByteSize_eq, utf8ByteSize_eq, toList_foldCase, byteLength_map_toLower]

/-- Two texts that differ in the case of letters only. -/
theorem foldCase_eq_iff {a b : String} :
    foldCase a = foldCase b ↔ a.toList.map Char.toLower = b.toList.map Char.toLower := by
  rw [← String.toList_inj, toList_foldCase, toList_foldCase]

namespace Token

variable (t : Token)

@[simp] theorem kind_folded : t.folded.kind = t.kind := rfl

@[simp] theorem start_folded : t.folded.start = t.start := rfl

@[simp] theorem text_folded : t.folded.text = foldCase t.text := rfl

@[simp] theorem stop_folded : t.folded.stop = t.stop := by
  rw [stop, text_folded, utf8ByteSize_foldCase, start_folded, stop]

@[simp] theorem span_folded : t.folded.span = t.span := by
  rw [span, stop_folded, start_folded, span]

variable {t} {t' : Token}

theorem folded_eq_iff : t.folded = t'.folded
    ↔ t.kind = t'.kind ∧ t.start = t'.start ∧ foldCase t.text = foldCase t'.text := by
  simp only [folded, Token.mk.injEq]

/-- Tokens that fold to the same are of one kind. -/
theorem kind_of_folded (h : t.folded = t'.folded) : t.kind = t'.kind := (folded_eq_iff.1 h).1

/-- Tokens that fold to the same stand in the same place. -/
theorem span_of_folded (h : t.folded = t'.folded) : t.span = t'.span := by
  rw [← span_folded t, h, span_folded t']

end Token

/-! ## Blank space, comments and strings -/

section Scanner

variable {c c' : Char} {cs cs' : List Char}

/-- A run of characters of a sort is as long in another case. -/
theorem IsCaseless.run_eq {p : Char → Bool} (hp : IsCaseless p)
    (h : cs.map Char.toLower = cs'.map Char.toLower) : Scan.run p cs = Scan.run p cs' := by
  induction cs generalizing cs' with
  | nil =>
    rw [List.map_nil, eq_comm, List.map_eq_nil_iff] at h
    rw [h]
  | cons c cs ih =>
    cases cs' with
    | nil => cases h
    | cons c' cs' =>
      rw [List.map_cons, List.map_cons, List.cons.injEq] at h
      have hc := hp.congr h.1
      have hrest : (cs.takeWhile p).length = (cs'.takeWhile p).length := ih h.2
      rw [Scan.run, Scan.run, List.takeWhile_cons, List.takeWhile_cons, hc]
      split
      · rw [List.length_cons, List.length_cons, hrest]
      · rfl

theorem IsCaseless.not {p : Char → Bool} (hp : IsCaseless p) : IsCaseless (!p ·) :=
  fun c => congrArg (!·) (hp c)

theorem Lead.eq_quote {c : Char} (h : Lead.of c = .quote) : c = '"' ∨ c = '\'' := by
  unfold Lead.of at h
  split_ifs at h with _ _ _ hc
  simpa using hc

/-- Quotes have one case. -/
theorem quoted_eq (hquote : c = '"' ∨ c = '\'') (h : cs.map Char.toLower = cs'.map Char.toLower) :
    Scan.quoted c cs = Scan.quoted c cs' := by
  have hmark : c.isAlpha = false := by rcases hquote with rfl | rfl <;> decide
  have hrun : Scan.run (· != c) cs = Scan.run (· != c) cs' := (isCaseless_beq hmark).not.run_eq h
  have hlength := congrArg List.length h
  rw [List.length_map, List.length_map] at hlength
  have hends : (cs.drop (Scan.run (· != c) cs')).isEmpty
      = (cs'.drop (Scan.run (· != c) cs')).isEmpty := by
    rw [Bool.eq_iff_iff, List.isEmpty_iff_length_eq_zero, List.isEmpty_iff_length_eq_zero,
      List.length_drop, List.length_drop, hlength]
  unfold Scan.quoted
  dsimp only
  rw [hrun, hends]

/-- **The scanner takes a piece of the same kind and length in another case.** -/
theorem next_eq_of_map_toLower (hcase : c.toLower = c'.toLower)
    (h : cs.map Char.toLower = cs'.map Char.toLower) : Scan.next c cs = Scan.next c' cs' := by
  by_cases hlead : Lead.of c ∈ [.gap, .lineBreak, .semicolon, .quote]
  · have hmark : c.isAlpha = false := by
      by_contra hletter
      rw [lead_of_isAlpha (by simpa using hletter)] at hlead
      exact absurd hlead (by decide)
    obtain rfl : c' = c := eq_of_toLower_eq hcase.symm hmark
    rw [Scan.next, Scan.next]
    cases hof : Lead.of c' with
    | gap => exact congrArg (fun n => (TokenKind.whitespace, n + 1)) (isCaseless_isGap.run_eq h)
    | lineBreak => exact congrArg (fun n => (TokenKind.newline, n + 1)) (isCaseless_isBreak.run_eq h)
    | semicolon => exact congrArg (fun n => (TokenKind.comment, n + 1)) (isCaseless_isBreak.not.run_eq h)
    | quote => exact quoted_eq (Lead.eq_quote hof) h
    | digit | letter | point | other => simp [hof] at hlead
  · have hnear : Near (cs ++ []) (cs' ++ []) := Near.append h (.refl [])
    rw [List.append_nil, List.append_nil] at hnear
    exact next_eq hcase hlead hnear

end Scanner

/-! ## Texts -/

theorem map_folded_tokensFrom (offset : Nat) {cs cs' : List Char}
    (h : cs.map Char.toLower = cs'.map Char.toLower) :
    (tokensFrom offset cs).map Token.folded = (tokensFrom offset cs').map Token.folded := by
  induction hlength : cs.length using Nat.strongRecOn generalizing offset cs cs' with
  | ind n ih =>
    cases cs with
    | nil =>
      rw [List.map_nil, eq_comm, List.map_eq_nil_iff] at h
      rw [h]
    | cons c cs =>
      cases cs' with
      | nil => cases h
      | cons c' cs' =>
        have hparts := h
        rw [List.map_cons, List.map_cons, List.cons.injEq] at hparts
        have hnext := next_eq_of_map_toLower hparts.1 hparts.2
        rw [tokensFrom_cons, tokensFrom_cons, ← hnext]
        have htaken : ((c :: cs).take (Scan.next c cs).2).map Char.toLower
            = ((c' :: cs').take (Scan.next c cs).2).map Char.toLower := by
          rw [List.map_take, h, List.map_take]
        have hsize := congrArg byteLength htaken
        rw [byteLength_map_toLower, byteLength_map_toLower] at hsize
        have hrest : ((c :: cs).drop (Scan.next c cs).2).map Char.toLower
            = ((c' :: cs').drop (Scan.next c cs).2).map Char.toLower := by
          rw [List.map_drop, h, List.map_drop]
        have hshort : ((c :: cs).drop (Scan.next c cs).2).length < n := by
          have := (Scan.next_sound c cs).pos
          rw [List.length_drop, ← hlength]
          simp only [List.length_cons]
          omega
        rw [List.map_cons, List.map_cons, hsize, ih _ hshort _ hrest rfl]
        refine congrArg (· :: _) (Token.folded_eq_iff.2 ⟨rfl, rfl, ?_⟩)
        rw [foldCase_eq_iff, String.toList_ofList, String.toList_ofList, htaken]

/-- **Texts that differ in the case of letters only fall into the same tokens, up to
case.** -/
theorem map_folded_tokens {text text' : String} (h : foldCase text = foldCase text') :
    (tokens text).map Token.folded = (tokens text').map Token.folded :=
  map_folded_tokensFrom 0 (foldCase_eq_iff.1 h)

end ScriptSense
