/-
Scanning a text in another case.

Where a token holds no blank space, the scanner does not look beyond the next blank:
every run that it measures ends there. Nor does it tell capitals from small letters.
So two texts that agree up to the case of letters as far as the next blank (`Near`)
begin with tokens of one kind and one length.
-/
import Mathlib.Tactic.SplitIfs
import ScriptSense.Editor.Settings
import ScriptSense.Proofs.Scanning

set_option autoImplicit false

namespace ScriptSense

/-! ## Characters -/

/-- Capitals by their numbers. -/
theorem isUpper_iff {c : Char} : c.isUpper = true ↔ 65 ≤ c.val.toNat ∧ c.val.toNat ≤ 90 := by
  change decide (c.val ≥ 'A'.val ∧ c.val ≤ 'Z'.val) = true ↔ _
  simp only [decide_eq_true_eq, ge_iff_le, UInt32.le_iff_toNat_le]
  exact Iff.rfl

/-- Small letters by their numbers. -/
theorem isLower_iff {c : Char} : c.isLower = true ↔ 97 ≤ c.val.toNat ∧ c.val.toNat ≤ 122 := by
  change (decide (c.val ≥ 'a'.val) && decide (c.val ≤ 'z'.val)) = true ↔ _
  simp only [Bool.and_eq_true, decide_eq_true_eq, ge_iff_le, UInt32.le_iff_toNat_le]
  exact Iff.rfl

/-- A letter is a capital or a small one. -/
theorem isAlpha_iff {c : Char} : c.isAlpha = true ↔ c.isUpper = true ∨ c.isLower = true := by
  change (c.isUpper || c.isLower) = true ↔ _
  exact Iff.of_eq (Bool.or_eq_true _ _)

/-- A capital and its small letter. -/
theorem val_toLower {c : Char} (h : c.isUpper = true) :
    c.toLower.val.toNat = c.val.toNat + 32 := by
  have hbounds := isUpper_iff.1 h
  have hrange : 'A'.val ≤ c.val ∧ c.val ≤ 'Z'.val := by
    simp only [UInt32.le_iff_toNat_le]
    exact hbounds
  have hval : c.toLower.val = c.val + 32 := congrArg Char.val (dif_pos hrange)
  have h32 : (32 : UInt32).toNat = 32 := rfl
  rw [hval, UInt32.toNat_add]
  omega

/-- Only capitals are lowered. -/
theorem toLower_of_not_isUpper {c : Char} (h : ¬ c.isUpper = true) : c.toLower = c := by
  have hrange : ¬ ('A'.val ≤ c.val ∧ c.val ≤ 'Z'.val) := by
    simp only [UInt32.le_iff_toNat_le]
    exact fun hrange => h (isUpper_iff.2 hrange)
  exact dif_neg hrange

/-- A capital is lowered to a small letter. -/
theorem isLower_toLower {c : Char} (h : c.isUpper = true) : c.toLower.isLower = true := by
  have hval := val_toLower h
  rw [isUpper_iff] at h
  rw [isLower_iff]
  omega

/-- A small letter and its capital. -/
theorem toLower_toUpper (c : Char) : c.toUpper.toLower = c.toLower := by
  by_cases h : 'a'.val ≤ c.val ∧ c.val ≤ 'z'.val
  · have hraised : c.toUpper = _ := dif_pos h
    have hval : c.toUpper.val = c.val + ('A'.val - 'a'.val) := by rw [hraised]
    -- Raising a letter is adding a number that wraps around, which takes thirty-two away.
    have hstep : 'A'.val - 'a'.val = (4294967264 : UInt32) := rfl
    have hdown : (4294967264 : UInt32).toNat = 4294967264 := rfl
    simp only [UInt32.le_iff_toNat_le] at h
    have hbounds : 97 ≤ c.val.toNat ∧ c.val.toNat ≤ 122 := h
    have hup : c.toUpper.val.toNat = c.val.toNat - 32 := by
      rw [hval, hstep, UInt32.toNat_add, hdown]
      omega
    have hupper : c.toUpper.isUpper = true := isUpper_iff.2 (by omega)
    have hlower : c.toLower = c := toLower_of_not_isUpper fun hc => by
      rw [isUpper_iff] at hc
      omega
    rw [hlower]
    refine Char.ext (UInt32.toNat_inj.1 ?_)
    rw [val_toLower hupper]
    omega
  · have hkept : c.toUpper = c := dif_neg h
    rw [hkept]

/-- A property of characters that does not depend on the case of letters. -/
def IsCaseless (p : Char → Bool) : Prop := ∀ c : Char, p c.toLower = p c

/-- What all letters have in common does not depend on their case. -/
theorem isCaseless_of_isAlpha {p : Char → Bool} {b : Bool} (h : ∀ c : Char, c.isAlpha = true → p c = b) :
    IsCaseless p := by
  intro c
  by_cases hc : c.isUpper = true
  · rw [h c (isAlpha_iff.2 (.inl hc)), h c.toLower (isAlpha_iff.2 (.inr (isLower_toLower hc)))]
  · rw [toLower_of_not_isUpper hc]

/-- Two characters that differ in case at most have a caseless property both or
neither. -/
theorem IsCaseless.congr {p : Char → Bool} (hp : IsCaseless p) {c d : Char}
    (h : c.toLower = d.toLower) : p c = p d := by
  rw [← hp c, h, hp d]

/-- Being a certain character is a matter of case only for letters. -/
theorem isCaseless_beq {d : Char} (h : d.isAlpha = false) : IsCaseless (· == d) := by
  refine isCaseless_of_isAlpha (b := false) fun c hc => ?_
  rw [beq_eq_false_iff_ne]
  rintro rfl
  rw [h] at hc
  cases hc

/-- A character that is no letter has one case only. -/
theorem eq_of_toLower_eq {c d : Char} (h : c.toLower = d.toLower) (hd : d.isAlpha = false) :
    c = d := by
  have hbeq := (isCaseless_beq hd).congr h
  simpa using hbeq

/-- A letter is no digit. -/
theorem isDigit_of_isAlpha {c : Char} (hc : c.isAlpha = true) : c.isDigit = false := by
  rw [isAlpha_iff, isUpper_iff, isLower_iff] at hc
  have hnine : '9'.val.toNat = 57 := rfl
  by_contra hdigit
  simp only [Char.isDigit, Bool.not_eq_false, Bool.and_eq_true, decide_eq_true_eq, ge_iff_le,
    UInt32.le_iff_toNat_le] at hdigit
  omega

/-- Digits have no case. -/
theorem isCaseless_isDigit : IsCaseless Char.isDigit :=
  isCaseless_of_isAlpha fun _ => isDigit_of_isAlpha

/-- Capitals and small letters both stand in words. -/
theorem isCaseless_isWordChar : IsCaseless isWordChar :=
  isCaseless_of_isAlpha (b := true) fun c hc => by simp [isWordChar, Char.isAlphanum, hc]

/-- Of two tests without regard to case, either may succeed. -/
theorem IsCaseless.or {p q : Char → Bool} (hp : IsCaseless p) (hq : IsCaseless q) :
    IsCaseless fun c => p c || q c := fun c => by
  change (p c.toLower || q c.toLower) = (p c || q c)
  rw [hp c, hq c]

/-- Line breaks have no case. -/
theorem isCaseless_isBreak : IsCaseless isBreak :=
  (isCaseless_beq (by decide)).or (isCaseless_beq (by decide))

/-- Gaps have no case. -/
theorem isCaseless_isGap : IsCaseless isGap :=
  ((isCaseless_beq (by decide)).or (isCaseless_beq (by decide))).or (isCaseless_beq (by decide))

/-- The digits of a hexadecimal number may be capitals or small letters. -/
theorem isCaseless_isHexDigit : IsCaseless isHexDigit := by
  intro c
  by_cases hc : c.isUpper = true
  · have hval := val_toLower hc
    have hdigit : c.toLower.isDigit = c.isDigit := isCaseless_isDigit c
    rw [isUpper_iff] at hc
    -- The bounds are compared as numbers, since upper and lower case differ by a fixed
    -- distance.
    have ha : 'a'.val.toNat = 97 := rfl
    have hf : 'f'.val.toNat = 102 := rfl
    have hA : 'A'.val.toNat = 65 := rfl
    have hF : 'F'.val.toNat = 70 := rfl
    rw [isHexDigit, isHexDigit, hdigit, Bool.eq_iff_iff]
    simp only [Bool.or_eq_true, Bool.and_eq_true, decide_eq_true_eq, Char.le_def,
      UInt32.le_iff_toNat_le]
    by_cases hd : c.isDigit = true
    · simp [hd]
    · simp only [hd, Bool.false_eq_true, false_or]
      omega
  · rw [toLower_of_not_isUpper hc]

/-! ## Words in another case -/

namespace KeywordStyle

/-- A word in capitals is the same word. -/
theorem foldCase_raiseCase (word : String) : foldCase (raiseCase word) = foldCase word := by
  rw [foldCase, raiseCase, String.toList_ofList, List.map_map, foldCase]
  exact congrArg String.ofList (List.map_congr_left fun c _ => toLower_toUpper c)

/-- A word with its first letter raised is the same word. -/
theorem foldCase_capital (word : String) : foldCase (capital word) = foldCase word := by
  have hfold := foldCase_foldCase word
  unfold capital
  split
  · next hnil =>
    rw [← hfold, foldCase, foldCase, hnil]
    rfl
  · next c cs hcons =>
    rw [← hfold, foldCase, foldCase, String.toList_ofList, hcons, List.map_cons, List.map_cons,
      toLower_toUpper]

/-- **A style changes nothing but the case of letters.** -/
theorem foldCase_apply (style : KeywordStyle) (word : String) :
    foldCase (style.apply word) = foldCase word := by
  cases style with
  | lower => exact foldCase_foldCase word
  | upper => exact foldCase_raiseCase word
  | capitalized =>
    rw [apply, capitalize]
    cases hfound : compounds.find? (sameName word) with
    | none => exact foldCase_capital word
    | some compound => exact ((sameName_iff _ _).1 (List.find?_some hfound)).symm
  | preserve => rfl

end KeywordStyle

/-! ## Texts that agree as far as the next blank -/

/-- Horizontal blank space or a line break. -/
def isSpace (c : Char) : Bool := isGap c || isBreak c

/-- A blank stands here, or the text ends. -/
def EndsHere (cs : List Char) : Prop := cs.head?.all isSpace = true

/-- **Two texts agree up to the case of letters as far as the next blank.** -/
inductive Near : List Char → List Char → Prop
  | stop {cs cs' : List Char} (h : EndsHere cs) (h' : EndsHere cs') : Near cs cs'
  | cons {c c' : Char} {cs cs' : List Char} (hc : isSpace c = false)
      (hcase : c.toLower = c'.toLower) (h : Near cs cs') : Near (c :: cs) (c' :: cs')

/-- Blank characters have no case. -/
theorem isCaseless_isSpace : IsCaseless isSpace := isCaseless_isGap.or isCaseless_isBreak

/-- The characters with a property are told apart from blanks, and not by case. -/
structure IsInk (p : Char → Bool) : Prop where
  caseless : IsCaseless p
  ink : ∀ c, p c = true → isSpace c = false

/-- No blank stands in a word. -/
theorem isInk_isWordChar : IsInk isWordChar where
  caseless := isCaseless_isWordChar
  ink c hc := by
    by_contra hspace
    simp only [isSpace, isGap, isBreak, Bool.not_eq_false, Bool.or_eq_true, beq_iff_eq] at hspace
    rcases hspace with ((rfl | rfl) | rfl) | rfl | rfl <;> exact absurd hc (by decide)

/-- No blank stands in a number. -/
theorem isInk_isDigit : IsInk Char.isDigit where
  caseless := isCaseless_isDigit
  ink c hc := isInk_isWordChar.ink c (Scan.isWordChar_of_isDigit hc)

/-- No blank stands in a hexadecimal number. -/
theorem isInk_isHexDigit : IsInk isHexDigit where
  caseless := isCaseless_isHexDigit
  ink c hc := isInk_isWordChar.ink c (isWordChar_of_isHexDigit hc)

namespace Near

variable {cs cs' ds ds' : List Char} {p : Char → Bool}

/-- A text agrees with itself. -/
theorem refl (cs : List Char) : Near cs cs := by
  induction cs with
  | nil => exact .stop rfl rfl
  | cons c cs ih =>
    cases hc : isSpace c with
    | true => exact .stop (by simp [EndsHere, hc]) (by simp [EndsHere, hc])
    | false => exact .cons hc rfl ih

/-- A text in front of both, in whatever case. -/
theorem append (hcase : ds.map Char.toLower = ds'.map Char.toLower) (h : Near cs cs') :
    Near (ds ++ cs) (ds' ++ cs') := by
  induction ds generalizing ds' with
  | nil =>
    rw [List.map_nil, eq_comm, List.map_eq_nil_iff] at hcase
    rw [hcase]
    exact h
  | cons d ds ih =>
    cases ds' with
    | nil => cases hcase
    | cons d' ds' =>
      simp only [List.map_cons, List.cons.injEq] at hcase
      cases hd : isSpace d with
      -- A space ends both texts as far as the scan looks.
      | true =>
        have hd' : isSpace d' = true := (isCaseless_isSpace.congr hcase.1) ▸ hd
        exact .stop (by simp [EndsHere, hd]) (by simp [EndsHere, hd'])
      | false => exact .cons hd hcase.1 (ih hcase.2)

/-- At a blank every run is over. -/
theorem takeWhile_of_endsHere (hp : IsInk p) (h : EndsHere cs) :
    cs.takeWhile p = [] ∧ cs.dropWhile p = cs := by
  cases cs with
  | nil => exact ⟨rfl, rfl⟩
  | cons c cs =>
    have hspace : isSpace c = true := by simpa [EndsHere] using h
    have hc : ¬ p c = true := fun hc => by simp [hp.ink c hc] at hspace
    exact ⟨List.takeWhile_cons_of_neg hc, List.dropWhile_cons_of_neg hc⟩

/-- A run of characters of a sort is the same in both texts, up to the case of letters,
and behind it the texts still agree. -/
theorem runs (hp : IsInk p) (h : Near cs cs') :
    (cs.takeWhile p).map Char.toLower = (cs'.takeWhile p).map Char.toLower
      ∧ Near (cs.dropWhile p) (cs'.dropWhile p) := by
  induction h with
  | stop h h' =>
    obtain ⟨htake, hdrop⟩ := takeWhile_of_endsHere hp h
    obtain ⟨htake', hdrop'⟩ := takeWhile_of_endsHere hp h'
    rw [htake, htake', hdrop, hdrop']
    exact ⟨rfl, .stop h h'⟩
  -- A test that does not tell the case goes on for both texts or stops for both.
  | @cons c c' cs cs' hc hcase h ih =>
    have hpc := hp.caseless.congr hcase
    cases hp' : p c with
    | true =>
      rw [hp'] at hpc
      rw [List.takeWhile_cons_of_pos hp', List.takeWhile_cons_of_pos hpc.symm,
        List.dropWhile_cons_of_pos hp', List.dropWhile_cons_of_pos hpc.symm, List.map_cons,
        List.map_cons, hcase, ih.1]
      exact ⟨rfl, ih.2⟩
    | false =>
      rw [hp'] at hpc
      rw [List.takeWhile_cons_of_neg (by simp [hp']),
        List.takeWhile_cons_of_neg (by simp [← hpc]), List.dropWhile_cons_of_neg (by simp [hp']),
        List.dropWhile_cons_of_neg (by simp [← hpc])]
      exact ⟨rfl, .cons hc hcase h⟩

/-- Texts that agree begin with runs of one length. -/
theorem run_eq (hp : IsInk p) (h : Near cs cs') : Scan.run p cs = Scan.run p cs' := by
  have hlength := congrArg List.length (h.runs hp).1
  rwa [List.length_map, List.length_map] at hlength

/-- Behind these runs the texts agree as well. -/
theorem of_drop_run (hp : IsInk p) (h : Near cs cs') :
    Near (cs.drop (Scan.run p cs)) (cs'.drop (Scan.run p cs')) := by
  rw [Scan.drop_run, Scan.drop_run]
  exact (h.runs hp).2

/-- Whether a word follows is the same for both texts. -/
theorem wordFollows_eq (h : Near cs cs') : Scan.wordFollows cs = Scan.wordFollows cs' := by
  have hnone : ∀ {cs : List Char}, EndsHere cs → Scan.wordFollows cs = false := fun {cs} hcs => by
    cases cs with
    | nil => rfl
    | cons c cs =>
      have hspace : isSpace c = true := by simpa [EndsHere] using hcs
      cases hc : isWordChar c with
      | true => simp [isInk_isWordChar.ink c hc] at hspace
      | false => simp [Scan.wordFollows, hc]
  cases h with
  | stop h h' => rw [hnone h, hnone h']
  | cons _ hcase _ =>
    simpa [Scan.wordFollows] using isCaseless_isWordChar.congr hcase

/-! ### The parts of the scanner -/

/-- Both texts begin with words of one length. -/
theorem word_eq (h : Near cs cs') : Scan.word cs = Scan.word cs' := by
  have htaken := (h.runs isInk_isWordChar).1
  have hkind : TokenKind.ofWord (String.ofList (cs.take (Scan.run isWordChar cs)))
      = TokenKind.ofWord (String.ofList (cs'.take (Scan.run isWordChar cs'))) := by
    refine TokenKind.ofWord_congr ?_
    rw [Scan.take_run, Scan.take_run, foldCase, foldCase, String.toList_ofList, String.toList_ofList, htaken]
  unfold Scan.word
  dsimp only
  rw [hkind, h.run_eq isInk_isWordChar]

/-- The mark of a hexadecimal number may be a capital. -/
theorem isCaseless_hexMark : IsCaseless fun c => c == 'x' || c == 'X' := by
  intro c
  by_cases hc : c.isUpper = true
  · have hval := val_toLower hc
    rw [isUpper_iff] at hc
    rw [Bool.eq_iff_iff]
    simp only [Bool.or_eq_true, beq_iff_eq, Char.ext_iff, ← UInt32.toNat_inj, hval]
    have hx : 'x'.val.toNat = 120 := rfl
    have hX : 'X'.val.toNat = 88 := rfl
    omega
  · rw [toLower_of_not_isUpper hc]

/-- A hexadecimal number begins with a zero. -/
theorem hexLength?_of_ne {c : Char} (hc : c ≠ '0') (cs : List Char) :
    Scan.hexLength? (c :: cs) = none := by
  unfold Scan.hexLength?
  split
  · next heq => exact absurd (List.cons.inj heq).1 hc
  · rfl

/-- A zero alone is no hexadecimal number. -/
theorem hexLength?_of_endsHere (h : EndsHere cs) : Scan.hexLength? ('0' :: cs) = none := by
  cases cs with
  | nil => rfl
  | cons x cs =>
    have hx : (x == 'x' || x == 'X') = false := by
      have hspace : isSpace x = true := by simpa [EndsHere] using h
      by_contra hmark
      simp only [Bool.not_eq_false, Bool.or_eq_true, beq_iff_eq] at hmark
      rcases hmark with rfl | rfl <;> exact absurd hspace (by decide)
    exact if_neg (by simp [hx])

/-- Both texts begin with hexadecimal numbers of one length, or neither does. -/
theorem hexLength?_eq (h : Near cs cs') : Scan.hexLength? cs = Scan.hexLength? cs' := by
  have hnone : ∀ {cs : List Char}, EndsHere cs → Scan.hexLength? cs = none := fun {cs} hcs => by
    cases cs with
    | nil => rfl
    | cons c cs =>
      refine hexLength?_of_ne ?_ cs
      rintro rfl
      have hspace : isSpace '0' = true := hcs
      exact absurd hspace (by decide)
  cases h with
  | stop h h' => rw [hnone h, hnone h']
  | @cons c c' cs cs' hc hcase h =>
    by_cases hzero : c = '0'
    · subst hzero
      -- A zero has no other case, so both texts begin with it.
      obtain rfl : c' = '0' := eq_of_toLower_eq hcase.symm (by decide)
      cases h with
      | stop h h' => rw [hexLength?_of_endsHere h, hexLength?_of_endsHere h']
      | @cons x x' cs cs' hx hxcase h =>
        have hmark := isCaseless_hexMark.congr hxcase
        have hrun := h.run_eq isInk_isHexDigit
        simp only [Scan.hexLength?, hmark, hrun]
    · have hzero' : c' ≠ '0' := by
        rintro rfl
        exact hzero (eq_of_toLower_eq hcase (by decide))
      rw [hexLength?_of_ne hzero, hexLength?_of_ne hzero']

/-- The length of the fraction that begins with a point, none without digits. -/
def fractionLength : List Char → Nat
  | '.' :: cs => if 0 < Scan.run Char.isDigit cs then 1 + Scan.run Char.isDigit cs else 0
  | _ => 0

/-- A decimal number is its digits with the fraction behind them. -/
theorem decimalLength_eq_add (cs : List Char) : Scan.decimalLength cs
    = Scan.run Char.isDigit cs + fractionLength (cs.drop (Scan.run Char.isDigit cs)) := by
  unfold Scan.decimalLength
  dsimp only
  split
  · next fraction hdrop =>
    rw [hdrop, fractionLength]
    split <;> omega
  · next hpoint =>
    have hnone : fractionLength (cs.drop (Scan.run Char.isDigit cs)) = 0 := by
      unfold fractionLength
      split
      · next fraction hdrop => exact absurd hdrop (hpoint fraction)
      · rfl
    rw [hnone, Nat.add_zero]

/-- A fraction begins with a point. -/
theorem fractionLength_of_ne {c : Char} (hc : c ≠ '.') (cs : List Char) :
    fractionLength (c :: cs) = 0 := by
  unfold fractionLength
  split
  · next heq => exact absurd (List.cons.inj heq).1 hc
  · rfl

/-- Both texts begin with fractions of one length, and agree behind them. -/
theorem fractionLength_eq (h : Near cs cs') : fractionLength cs = fractionLength cs'
    ∧ Near (cs.drop (fractionLength cs)) (cs'.drop (fractionLength cs')) := by
  have hnone : ∀ {cs : List Char}, EndsHere cs → fractionLength cs = 0 := fun {cs} hcs => by
    cases cs with
    | nil => rfl
    | cons c cs =>
      refine fractionLength_of_ne ?_ cs
      rintro rfl
      have hspace : isSpace '.' = true := hcs
      exact absurd hspace (by decide)
  cases h with
  | stop h h' =>
    rw [hnone h, hnone h']
    exact ⟨rfl, .stop h h'⟩
  | @cons c c' cs cs' hc hcase h =>
    by_cases hpoint : c = '.'
    · subst hpoint
      -- A point has no other case, so both texts begin with it.
      obtain rfl : c' = '.' := eq_of_toLower_eq hcase.symm (by decide)
      have hrun := h.run_eq isInk_isDigit
      rw [fractionLength, fractionLength, ← hrun]
      split
      · refine ⟨rfl, ?_⟩
        rw [Nat.add_comm, List.drop_succ_cons, List.drop_succ_cons]
        have hrest := h.of_drop_run isInk_isDigit
        rwa [← hrun] at hrest
      · exact ⟨rfl, .cons hc rfl h⟩
    · have hpoint' : c' ≠ '.' := by
        rintro rfl
        exact hpoint (eq_of_toLower_eq hcase (by decide))
      rw [fractionLength_of_ne hpoint, fractionLength_of_ne hpoint']
      exact ⟨rfl, .cons hc hcase h⟩

/-- Both texts begin with decimal numbers of one length, and agree behind them. -/
theorem decimalLength_eq (h : Near cs cs') :
    Scan.decimalLength cs = Scan.decimalLength cs'
      ∧ Near (cs.drop (Scan.decimalLength cs)) (cs'.drop (Scan.decimalLength cs')) := by
  obtain ⟨hlength, hrest⟩ := (h.of_drop_run isInk_isDigit).fractionLength_eq
  rw [decimalLength_eq_add, decimalLength_eq_add, ← List.drop_drop, ← List.drop_drop, hlength,
    h.run_eq isInk_isDigit]
  rw [hlength, h.run_eq isInk_isDigit] at hrest
  exact ⟨rfl, hrest⟩

/-- At a digit both texts have numbers of one kind and one length. -/
theorem digits_eq (h : Near cs cs') : Scan.digits cs = Scan.digits cs' := by
  obtain ⟨hlength, hrest⟩ := h.decimalLength_eq
  unfold Scan.digits
  dsimp only
  rw [h.hexLength?_eq, hrest.wordFollows_eq, h.word_eq, hlength]

/-- At a point both texts have the same token. -/
theorem point_eq (h : Near cs cs') : Scan.point cs = Scan.point cs' := by
  unfold Scan.point
  dsimp only
  rw [(h.of_drop_run isInk_isDigit).wordFollows_eq, h.run_eq isInk_isDigit]

/-- The second character of an operator is neither a letter nor a blank. -/
theorem pair?_eq_none (c : Char) {d : Char} (h : d.isAlpha = true ∨ isSpace d = true) :
    Scan.pair? c d = none := by
  cases hpair : Scan.pair? c d with
  | none => rfl
  | some kind =>
    unfold Scan.pair? at hpair
    split at hpair <;> first | exact absurd h (by decide) | cases hpair

/-- At an operator both texts have the same token. -/
theorem operator_eq (c : Char) (h : Near cs cs') : Scan.operator c cs = Scan.operator c cs' := by
  have hpair : cs.head?.bind (Scan.pair? c) = cs'.head?.bind (Scan.pair? c) := by
    have hnone : ∀ {cs : List Char}, EndsHere cs → cs.head?.bind (Scan.pair? c) = none :=
      fun {cs} hcs => by
        cases cs with
        | nil => rfl
        | cons d cs => exact pair?_eq_none c (.inr (by simpa [EndsHere] using hcs))
    cases h with
    | stop h h' => rw [hnone h, hnone h']
    | @cons d d' cs cs' hd hcase h =>
      change Scan.pair? c d = Scan.pair? c d'
      -- A character that is no letter is the same in both, and a letter makes no operator.
      cases hletter : d.isAlpha with
      | false => rw [eq_of_toLower_eq hcase.symm hletter]
      | true =>
        cases hletter' : d'.isAlpha with
        | false => rw [eq_of_toLower_eq hcase hletter']
        | true => rw [pair?_eq_none c (.inl hletter), pair?_eq_none c (.inl hletter')]
  rw [Scan.operator, Scan.operator, hpair]

end Near

/-! ## The scanner -/

/-- A letter leads to a word. -/
theorem lead_of_isAlpha {c : Char} (hc : c.isAlpha = true) : Lead.of c = .letter :=
  lead_of_letter (by simp [isWordChar, Char.isAlphanum, hc]) (isDigit_of_isAlpha hc)

/-- A letter in another case begins a token in the same way. -/
theorem lead_eq {c c' : Char} (h : c.toLower = c'.toLower) : Lead.of c = Lead.of c' := by
  cases hc : c.isAlpha with
  | false => rw [eq_of_toLower_eq h.symm hc]
  | true =>
    cases hc' : c'.isAlpha with
    | false => rw [eq_of_toLower_eq h hc']
    | true => rw [lead_of_isAlpha hc, lead_of_isAlpha hc']

/-- **The scanner sees neither the case of letters nor what stands behind the next
blank**, unless what it reads may hold blanks itself. -/
theorem next_eq {c c' : Char} {cs cs' : List Char} (hcase : c.toLower = c'.toLower)
    (hlead : Lead.of c ∉ [.gap, .lineBreak, .semicolon, .quote]) (h : Near cs cs') :
    Scan.next c cs = Scan.next c' cs' := by
  have hlead' := lead_eq hcase
  rw [Scan.next, Scan.next, ← hlead']
  cases hof : Lead.of c with
  | gap | lineBreak | semicolon | quote => simp [hof] at hlead
  | digit =>
    have hdigit := Lead.isDigit_of hof
    exact (Near.cons (isInk_isDigit.ink c hdigit) hcase h).digits_eq
  | letter =>
    have hword := Lead.isWordChar_of hof
    exact (Near.cons (isInk_isWordChar.ink c hword) hcase h).word_eq
  | point => exact h.point_eq
  | other =>
    -- What is no letter has one case only, so the characters are the same.
    have hsame : c = c' := by
      refine eq_of_toLower_eq hcase (Bool.eq_false_iff.2 fun hletter => ?_)
      rw [hlead', lead_of_isAlpha hletter] at hof
      cases hof
    rw [← hsame]
    exact h.operator_eq c

end ScriptSense
