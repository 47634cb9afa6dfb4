/-
What a token is, said without the scanner.

`Lexeme kind cs rest` says that `cs` has the shape of its kind where `rest` follows
it: the classes of characters it is made of, and where it may end. The operators are
read off one table of spellings, `TokenKind.sign?`, and the rule for them is that
the longest spelling wins. Nothing here takes or counts characters, so the shapes
can be compared with a description of the language line by line.

The scanner is then shown to answer lexemes only, one lemma for each of its parts,
and a text is shown to be cut into lexemes by induction on what is left of it. That
no two tokens of certain kinds touch follows from where a lexeme ends.
-/
import ScriptSense.Proofs.Scanning

set_option autoImplicit false

namespace ScriptSense

/-! ## Spellings -/

namespace TokenKind

/-- The spelling of an operator or of punctuation. -/
def sign? : TokenKind → Option (List Char)
  | .colonEq => some [':', '=']
  | .plusEq => some ['+', '=']
  | .minusEq => some ['-', '=']
  | .starEq => some ['*', '=']
  | .slashEq => some ['/', '=']
  | .caretEq => some ['^', '=']
  | .pipeEq => some ['|', '=']
  | .ampEq => some ['&', '=']
  | .percentEq => some ['%', '=']
  | .pipePipe => some ['|', '|']
  | .ampAmp => some ['&', '&']
  | .eqEq => some ['=', '=']
  | .bangEq => some ['!', '=']
  | .gtEq => some ['>', '=']
  | .ltEq => some ['<', '=']
  | .shl => some ['<', '<']
  | .shr => some ['>', '>']
  | .arrow => some ['-', '>']
  | .lArrow => some ['<', '-']
  | .plus => some ['+']
  | .minus => some ['-']
  | .star => some ['*']
  | .slash => some ['/']
  | .percent => some ['%']
  | .caret => some ['^']
  | .bang => some ['!']
  | .dollar => some ['$']
  | .hash => some ['#']
  | .amp => some ['&']
  | .pipe => some ['|']
  | .lt => some ['<']
  | .gt => some ['>']
  | .dot => some ['.']
  | .comma => some [',']
  | .colon => some [':']
  | .lParen => some ['(']
  | .rParen => some [')']
  | .lBracket => some ['[']
  | .rBracket => some [']']
  | .lBrace => some ['{']
  | .rBrace => some ['}']
  | _ => none

/-- The kinds that a run of word characters can have. -/
def isWord (k : TokenKind) : Bool := k == .ident || k.isKeyword || k.isTypeName

theorem isWord_of_mem_wordTable {word : String} {k : TokenKind} (h : (word, k) ∈ wordTable) :
    k.isWord = true := by
  have hall : ∀ entry ∈ wordTable, entry.2.isWord = true := by decide
  exact hall _ h

/-- A word is of a kind of the table, or it is an identifier and not in the table. -/
theorem ofWord_cases (word : String) :
    (foldCase word, ofWord word) ∈ wordTable
      ∨ ofWord word = .ident ∧ ∀ entry ∈ wordTable, entry.1 ≠ foldCase word := by
  unfold ofWord
  cases h : wordTable.lookup (foldCase word) with
  | none =>
    refine .inr ⟨rfl, fun entry hentry heq => ?_⟩
    have hne := List.lookup_eq_none_iff.1 h entry hentry
    simp [heq] at hne
  | some kind =>
    obtain ⟨before, after, hsplit, -⟩ := List.lookup_eq_some_iff.1 h
    left
    rw [hsplit]
    simp

/-- An operator has one or two characters. -/
theorem sign?_cases {k : TokenKind} {cs : List Char} (h : k.sign? = some cs) :
    (∃ a, cs = [a]) ∨ ∃ a b, cs = [a, b] := by
  cases k <;> simp [sign?] at h <;> subst h <;> simp

/-- No operator is a word. -/
theorem isWord_of_sign? {k : TokenKind} {cs : List Char} (h : k.sign? = some cs) :
    k.isWord = false := by
  cases k <;> first | rfl | cases h

end TokenKind

/-! ## Shapes -/

/-- All the characters with a property that there are in front, and at least one. -/
structure IsRun (p : Char → Bool) (cs rest : List Char) : Prop where
  some : cs ≠ []
  all : ∀ c ∈ cs, p c = true
  ends : rest.head?.all (!p ·) = true

/-- At least one digit, and nothing but digits. -/
structure IsDigits (cs : List Char) : Prop where
  some : cs ≠ []
  all : ∀ c ∈ cs, c.isDigit = true

/-- The forms of a decimal number, with what follows it. -/
inductive Decimal : List Char → List Char → Prop
  /-- Digits, which no fraction follows. -/
  | whole {ds rest : List Char} (digits : IsDigits ds)
      (ends : ∀ es after, IsDigits es → rest ≠ '.' :: (es ++ after)) : Decimal ds rest
  /-- Digits, the point, and digits. -/
  | fraction {ds es rest : List Char} (digits : IsDigits ds) (more : IsDigits es) :
      Decimal (ds ++ '.' :: es) rest
  /-- The point and digits. -/
  | point {es rest : List Char} (digits : IsDigits es) : Decimal ('.' :: es) rest

/-- A fraction stands here that runs into a word, so that it is none. -/
def BrokenFraction (cs : List Char) : Prop :=
  ∃ ds c after, cs = '.' :: (ds ++ c :: after) ∧ IsDigits ds ∧ isWordChar c = true

/-- The character alone decides on the token that it begins. -/
def isTelling (c : Char) : Bool :=
  isGap c || isBreak c || c == ';' || c == '"' || c == '\'' || isWordChar c

/-- No operator that stands in front of `cs` is longer than `size`. -/
def LongestSign (size : Nat) (cs : List Char) : Prop :=
  ∀ kind sign, TokenKind.sign? kind = some sign → sign <+: cs → sign.length ≤ size

/-- **The shapes of tokens.** `Lexeme kind cs rest` says that `cs` is a token of the
kind where `rest` follows. -/
inductive Lexeme : TokenKind → List Char → List Char → Prop
  /-- Blank space, all of it. -/
  | whitespace {cs rest : List Char} (run : IsRun isGap cs rest) : Lexeme .whitespace cs rest
  /-- Line breaks, all of them. -/
  | newline {cs rest : List Char} (run : IsRun isBreak cs rest) : Lexeme .newline cs rest
  /-- The semicolon and the rest of the line. -/
  | comment {cs rest : List Char} (line : ∀ c ∈ cs, isBreak c = false)
      (ends : rest.head?.all isBreak = true) : Lexeme .comment (';' :: cs) rest
  /-- A string that ends with the quote it begins with. -/
  | closed {quote : Char} {cs rest : List Char} (sort : quote = '"' ∨ quote = '\'')
      (inside : quote ∉ cs) : Lexeme .string (quote :: (cs ++ [quote])) rest
  /-- A string that nothing ends but the text. -/
  | unclosed {quote : Char} {cs : List Char} (sort : quote = '"' ∨ quote = '\'')
      (inside : quote ∉ cs) : Lexeme .string (quote :: cs) []
  /-- A decimal number, which runs into no word. -/
  | number {cs rest : List Char} (form : Decimal cs rest) (ends : EndsWord rest) :
      Lexeme .number cs rest
  /-- A zero, an `x` and all the hexadecimal digits that follow. -/
  | hexNumber {mark : Char} {cs rest : List Char} (sort : mark = 'x' ∨ mark = 'X')
      (digits : IsRun isHexDigit cs rest) : Lexeme .hexNumber ('0' :: mark :: cs) rest
  /-- A word of the table. -/
  | keyword {kind : TokenKind} {cs rest : List Char} (run : IsRun isWordChar cs rest)
      (entry : (foldCase (String.ofList cs), kind) ∈ TokenKind.wordTable) : Lexeme kind cs rest
  /-- A word that is not in the table. One of digits only is what is left of a number
  that runs into a word. -/
  | ident {cs rest : List Char} (run : IsRun isWordChar cs rest)
      (absent : ∀ entry ∈ TokenKind.wordTable, entry.1 ≠ foldCase (String.ofList cs))
      (broken : IsDigits cs → BrokenFraction rest) : Lexeme .ident cs rest
  /-- An operator or punctuation, where no longer one stands. A point that a number
  can be read from is none. -/
  | sign {kind : TokenKind} {cs rest : List Char} (spelling : kind.sign? = some cs)
      (longest : LongestSign cs.length (cs ++ rest))
      (point : kind = .dot → ∀ es after, rest = es ++ after → IsDigits es → EndsWord after → False) :
      Lexeme kind cs rest
  /-- A character that begins nothing, and where no operator stands. -/
  | unknown {c : Char} {rest : List Char} (plain : isTelling c = false)
      (unsigned : LongestSign 0 (c :: rest)) : Lexeme .unknown [c] rest

/-! ## The scanner answers lexemes -/

theorem IsRun.head {p : Char → Bool} {cs rest : List Char} (h : IsRun p cs rest) :
    ∃ c ds, cs = c :: ds ∧ p c = true := by
  obtain ⟨c, ds, rfl⟩ := List.exists_cons_of_ne_nil h.some
  exact ⟨c, ds, rfl, h.all c List.mem_cons_self⟩

theorem IsRun.isDigits {cs rest : List Char} (h : IsRun Char.isDigit cs rest) : IsDigits cs :=
  ⟨h.some, h.all⟩

namespace Scan

/-- An answer for the text `cs`: what it takes of the text is a lexeme of its kind. -/
def Right (cs : List Char) (answer : TokenKind × Nat) : Prop :=
  Lexeme answer.1 (cs.take answer.2) (cs.drop answer.2)

/-- Behind a run stands nothing that could be part of it. -/
theorem ends_run (p : Char → Bool) (cs : List Char) :
    (cs.drop (run p cs)).head?.all (!p ·) = true := by
  rw [drop_run]
  cases hleft : cs.dropWhile p with
  | nil => rfl
  | cons d ds =>
    have hd := List.head_dropWhile_not (p := p) (l := cs) (by simp [hleft])
    simpa [hleft] using hd

theorem all_take_run (p : Char → Bool) (cs : List Char) :
    ∀ c ∈ cs.take (run p cs), p c = true := by
  rw [take_run]
  exact List.all_eq_true.1 List.all_takeWhile

/-- A run is taken where one begins. -/
theorem isRun_run {p : Char → Bool} {cs : List Char} (hpos : 0 < run p cs) :
    IsRun p (cs.take (run p cs)) (cs.drop (run p cs)) := by
  refine ⟨fun h => ?_, all_take_run p cs, ends_run p cs⟩
  have hlen := congrArg List.length h
  rw [List.length_take, List.length_nil, Nat.min_eq_left (run_le p cs)] at hlen
  omega

theorem run_cons {p : Char → Bool} {c : Char} {rest : List Char} (hc : p c = true) :
    run p (c :: rest) = run p rest + 1 := by
  simp [run, hc]

theorem endsWord_run {cs : List Char} : EndsWord (cs.drop (run isWordChar cs)) :=
  endsWord_iff.2 (ends_run isWordChar cs)

/-! ### Words and numbers -/

/-- A word is right where it is not the front of a number. -/
theorem word_right {cs : List Char} (hpos : 0 < run isWordChar cs)
    (hbroken : IsDigits (cs.take (run isWordChar cs)) →
      BrokenFraction (cs.drop (run isWordChar cs))) : Right cs (word cs) := by
  have hrun := isRun_run hpos
  simp only [Right, word]
  rcases TokenKind.ofWord_cases (String.ofList (cs.take (run isWordChar cs))) with
    hentry | ⟨hident, habsent⟩
  · exact .keyword hrun hentry
  · rw [hident]
    exact .ident hrun habsent hbroken

/-- What a hexadecimal number is read from. -/
theorem hexLength?_some {cs : List Char} {n : Nat} (h : hexLength? cs = some n) :
    Right cs (.hexNumber, n) := by
  unfold hexLength? at h
  split at h
  · next mark cs =>
    simp only [Option.ite_none_right_eq_some, Option.some.injEq, Bool.and_eq_true, Bool.or_eq_true,
      beq_iff_eq, decide_eq_true_eq] at h
    obtain ⟨⟨hmark, hpos⟩, rfl⟩ := h
    exact .hexNumber hmark (isRun_run hpos)
  · cases h

/-- The forms of what is measured as a decimal number. -/
theorem decimal_decimalLength {cs : List Char} (hpos : 0 < run Char.isDigit cs) :
    Decimal (cs.take (decimalLength cs)) (cs.drop (decimalLength cs)) := by
  have hdigits := (isRun_run hpos).isDigits
  unfold decimalLength
  simp only
  split
  · next fraction hpoint =>
    split
    -- Digits stand behind the point, so that it belongs to the number.
    · next hmore =>
      have htake : cs.take (run Char.isDigit cs + 1 + run Char.isDigit fraction)
          = cs.take (run Char.isDigit cs) ++ '.' :: fraction.take (run Char.isDigit fraction) := by
        rw [Nat.add_assoc, List.take_add, hpoint, Nat.add_comm 1, List.take_succ_cons]
      rw [htake]
      exact .fraction hdigits (isRun_run hmore).isDigits
    · next hnone =>
      -- A point without digits behind it is left to the next token.
      refine .whole hdigits fun es after hes heq => hnone ?_
      rw [hpoint, List.cons.injEq] at heq
      obtain ⟨e, es, rfl⟩ := List.exists_cons_of_ne_nil hes.some
      rw [heq.2]
      exact run_pos (hes.all e List.mem_cons_self)
  · next hpoint =>
    exact .whole hdigits fun es after _ heq => hpoint _ heq

/-- A word of digits only in front of which no number ends: a fraction follows it that
runs into a word. -/
theorem brokenFraction_of_wordFollows {cs : List Char}
    (hfollows : wordFollows (cs.drop (decimalLength cs)) = true)
    (hall : IsDigits (cs.take (run isWordChar cs))) :
    BrokenFraction (cs.drop (run isWordChar cs)) := by
  -- The word is made of digits alone, so the number starts with the same digits.
  have hsame : run isWordChar cs = run Char.isDigit cs := by
    have hsplit := List.take_append_drop (run isWordChar cs) cs
    have hends : run Char.isDigit (cs.drop (run isWordChar cs)) = 0 :=
      endsWord_run.run_eq_zero fun _ => isWordChar_of_isDigit
    have hlen : (cs.take (run isWordChar cs)).length = run isWordChar cs :=
      List.length_take_of_le (run_le _ _)
    conv_rhs => rw [← hsplit, run_append_of_all hall.all, hends, hlen, Nat.add_zero]
  have hword : EndsWord (cs.drop (run isWordChar cs)) := endsWord_run
  rw [hsame] at hword ⊢
  unfold decimalLength at hfollows
  simp only at hfollows
  split at hfollows
  · next fraction hpoint =>
    split at hfollows
    · next hmore =>
      have hdrop : cs.drop (run Char.isDigit cs + 1 + run Char.isDigit fraction)
          = fraction.drop (run Char.isDigit fraction) := by
        rw [Nat.add_assoc, ← List.drop_drop, hpoint, Nat.add_comm 1, List.drop_succ_cons]
      rw [hdrop] at hfollows
      have hdigits := (isRun_run hmore).isDigits
      have hsplit := List.take_append_drop (run Char.isDigit fraction) fraction
      -- A letter must follow the fraction, as none follows the whole number.
      cases hleft : fraction.drop (run Char.isDigit fraction) with
      | nil => simp [wordFollows, hleft] at hfollows
      | cons c after =>
        have hc : isWordChar c = true := by simpa [wordFollows, hleft] using hfollows
        rw [hleft] at hsplit
        exact ⟨_, c, after, by rw [hpoint, hsplit], hdigits, hc⟩
    -- Without a fraction the number ends with the word, and no letter follows a word.
    · exact absurd (hword.symm.trans hfollows) (by decide)
  · exact absurd (hword.symm.trans hfollows) (by decide)

theorem digits_right {c : Char} {rest : List Char} (hc : c.isDigit = true) :
    Right (c :: rest) (digits (c :: rest)) := by
  unfold digits
  split
  · next n hhex => exact hexLength?_some hhex
  · simp only
    split
    · next hfollows =>
      exact word_right (run_pos (isWordChar_of_isDigit hc))
        (brokenFraction_of_wordFollows hfollows)
    · next hends =>
      exact .number (decimal_decimalLength (run_pos hc)) (by simpa [EndsWord] using hends)

/-! ### Strings -/

theorem quoted_right {quote : Char} (hquote : quote = '"' ∨ quote = '\'') (rest : List Char) :
    Right (quote :: rest) (quoted quote rest) := by
  have hinside : quote ∉ rest.take (run (· != quote) rest) := fun hmem => by
    have hne := all_take_run (· != quote) rest quote hmem
    simp at hne
  unfold quoted
  simp only [Right]
  cases hleft : rest.drop (run (· != quote) rest) with
  -- No second quote: the text runs to the end of the input.
  | nil =>
    have hall : rest.take (run (· != quote) rest) = rest := by
      have hsplit := List.take_append_drop (run (· != quote) rest) rest
      rwa [hleft, List.append_nil] at hsplit
    rw [hall] at hinside
    simp only [List.isEmpty_nil, if_true, List.take_succ_cons, List.drop_succ_cons, hall, hleft]
    exact .unclosed hquote hinside
  | cons d after =>
    -- The run has stopped at the first quote.
    have hd : d = quote := by
      have hends := ends_run (· != quote) rest
      simpa [hleft] using hends
    have htake : rest.take (run (· != quote) rest + 1)
        = rest.take (run (· != quote) rest) ++ [quote] := by
      rw [List.take_add, hleft, hd]
      rfl
    simp only [List.isEmpty_cons, Bool.false_eq_true, if_false, List.take_succ_cons, htake]
    exact .closed hquote hinside

/-! ### Operators -/

theorem pair?_eq_some_iff {a b : Char} {kind : TokenKind} :
    pair? a b = some kind ↔ kind.sign? = some [a, b] := by
  constructor
  · intro h
    unfold pair? at h
    split at h <;> cases h <;> rfl
  · intro h
    cases kind <;> simp [TokenKind.sign?] at h <;> obtain ⟨rfl, rfl⟩ := h <;> rfl

theorem single?_eq_some_iff {a : Char} {kind : TokenKind} (hpoint : a ≠ '.') :
    single? a = some kind ↔ kind.sign? = some [a] := by
  constructor
  · intro h
    unfold single? at h
    split at h <;> cases h <;> rfl
  · intro h
    cases kind <;> simp [TokenKind.sign?] at h <;> subst h <;> first | rfl | exact absurd rfl hpoint

/-- An operator of one character stands where none of two does. -/
theorem longestSign_of_pair?_eq_none {c : Char} {rest : List Char}
    (h : rest.head?.bind (pair? c) = none) : LongestSign 1 (c :: rest) := by
  rintro kind sign hsign hpre
  rcases TokenKind.sign?_cases hsign with ⟨a, rfl⟩ | ⟨a, b, rfl⟩
  · simp
  · obtain ⟨after, hafter⟩ := hpre
    simp only [List.cons_append, List.nil_append, List.cons.injEq] at hafter
    obtain ⟨rfl, rfl⟩ := hafter
    rw [List.head?_cons, Option.bind_some, pair?_eq_some_iff.2 hsign] at h
    cases h

theorem operator_right {c : Char} {rest : List Char} (htelling : isTelling c = false)
    (hpoint : c ≠ '.') : Right (c :: rest) (operator c rest) := by
  unfold operator
  split
  · next kind hpair =>
    obtain ⟨b, hhead, hkind⟩ := Option.bind_eq_some_iff.1 hpair
    obtain ⟨after, rfl⟩ : ∃ after, rest = b :: after := by
      cases rest with
      | nil => cases hhead
      | cons d after => exact ⟨after, by rw [Option.some.inj hhead]⟩
    have hsign := pair?_eq_some_iff.1 hkind
    refine .sign hsign (fun other sign hother _ => ?_) fun hdot => ?_
    · -- No operator has more than two characters.
      rcases TokenKind.sign?_cases hother with ⟨a, rfl⟩ | ⟨a, b, rfl⟩ <;> simp
    · obtain rfl : kind = .dot := hdot
      simp [TokenKind.sign?] at hsign
  · next hpair =>
    have hlongest := longestSign_of_pair?_eq_none hpair
    cases hsingle : single? c with
    | some kind =>
      have hsign := (single?_eq_some_iff hpoint).1 hsingle
      refine .sign hsign hlongest fun hdot => ?_
      obtain rfl : kind = .dot := hdot
      simp only [TokenKind.sign?, Option.some.injEq, List.cons.injEq, and_true] at hsign
      exact absurd hsign.symm hpoint
    | none =>
      -- Nothing starts here, so a sign in front of the text would be one character that is no
      -- operator.
      refine .unknown htelling fun kind sign hsign hpre => ?_
      have hone := hlongest kind sign hsign hpre
      rcases TokenKind.sign?_cases hsign with ⟨a, rfl⟩ | ⟨a, b, rfl⟩
      · obtain ⟨after, hafter⟩ := hpre
        rw [List.singleton_append, List.cons.injEq] at hafter
        rw [hafter.1, ← single?_eq_some_iff hpoint, hsingle] at hsign
        cases hsign
      · simp at hone

/-- A point in front of digits that end a word is part of a number, and else it stands
alone. -/
theorem point_right (rest : List Char) : Right ('.' :: rest) (point rest) := by
  unfold point
  simp only
  split
  · next hnumber =>
    simp only [Bool.and_eq_true, decide_eq_true_eq, Bool.not_eq_true'] at hnumber
    exact .number (.point (isRun_run hnumber.1).isDigits) hnumber.2
  · next hnone =>
    -- The point stands for itself, which needs that no fraction starts with it.
    refine .sign rfl ?_ fun _ es after heq hes hends => hnone ?_
    · refine longestSign_of_pair?_eq_none ?_
      cases rest <;> rfl
    · simp only [List.drop_succ_cons, List.drop_zero] at heq
      have hzero : run Char.isDigit after = 0 := hends.run_eq_zero fun _ => isWordChar_of_isDigit
      have hrun : run Char.isDigit rest = es.length := by
        rw [heq, run_append_of_all hes.all, hzero, Nat.add_zero]
      have hpos : 0 < es.length := List.length_pos_iff.2 hes.some
      rw [hrun, heq, List.drop_left, hends]
      simp [hpos]

end Scan

/-! ### All of them -/

namespace Lead

/-- What the first character of a token is, for each way of beginning. -/
theorem cases_of (c : Char) :
    match Lead.of c with
    | .gap => isGap c = true
    | .lineBreak => isBreak c = true
    | .semicolon => c = ';'
    | .quote => c = '"' ∨ c = '\''
    | .digit => c.isDigit = true
    | .letter => isWordChar c = true ∧ c.isDigit = false
    | .point => c = '.'
    | .other => isTelling c = false ∧ c ≠ '.' := by
  unfold Lead.of
  split_ifs <;> simp_all [isTelling]

end Lead

namespace Scan

/-- **What the scanner takes is a lexeme.** -/
theorem next_right (c : Char) (rest : List Char) : Right (c :: rest) (next c rest) := by
  have hc := Lead.cases_of c
  unfold next
  cases hlead : Lead.of c with
  | gap =>
    rw [hlead] at hc
    rw [← run_cons hc]
    exact .whitespace (isRun_run (run_pos hc))
  | lineBreak =>
    rw [hlead] at hc
    rw [← run_cons hc]
    exact .newline (isRun_run (run_pos hc))
  | semicolon =>
    rw [hlead] at hc
    obtain rfl : c = ';' := hc
    refine .comment (fun d hd => ?_) ?_
    · simpa using all_take_run (!isBreak ·) rest d hd
    · simpa using ends_run (!isBreak ·) rest
  | quote =>
    rw [hlead] at hc
    exact quoted_right hc rest
  | digit =>
    rw [hlead] at hc
    exact digits_right hc
  | letter =>
    rw [hlead] at hc
    refine word_right (run_pos hc.1) fun hdigits => ?_
    -- A word of digits would begin with one.
    have hmem : c ∈ (c :: rest).take (run isWordChar (c :: rest)) := by
      rw [take_run, List.takeWhile_cons_of_pos hc.1]
      exact List.mem_cons_self
    exact absurd (hdigits.all c hmem) (by simp [hc.2])
  | point =>
    rw [hlead] at hc
    obtain rfl : c = '.' := hc
    exact point_right rest
  | other =>
    rw [hlead] at hc
    exact operator_right hc.1 hc.2

end Scan

/-! ## Where a lexeme ends -/

namespace Lexeme

variable {kind : TokenKind} {cs rest : List Char}

theorem some (h : Lexeme kind cs rest) : cs ≠ [] := by
  cases h with
  | whitespace run => exact run.some
  | newline run => exact run.some
  | number form _ =>
    cases form with
    | whole digits _ => exact digits.some
    | fraction _ _ => simp
    | point _ => simp
  | keyword run _ => exact run.some
  | ident run _ _ => exact run.some
  | sign spelling _ _ => rcases TokenKind.sign?_cases spelling with ⟨a, rfl⟩ | ⟨a, b, rfl⟩ <;> simp
  | _ => simp

/-- A lexeme of these kinds is all the characters of a sort. -/
theorem isRun_isGap (h : Lexeme .whitespace cs rest) : IsRun isGap cs rest := by
  cases h with
  | whitespace run => exact run
  | keyword _ entry => exact absurd (TokenKind.isWord_of_mem_wordTable entry) (by decide)
  | sign spelling _ _ => cases spelling

theorem isRun_isBreak (h : Lexeme .newline cs rest) : IsRun isBreak cs rest := by
  cases h with
  | newline run => exact run
  | keyword _ entry => exact absurd (TokenKind.isWord_of_mem_wordTable entry) (by decide)
  | sign spelling _ _ => cases spelling

theorem isRun_isWordChar (h : Lexeme kind cs rest) (hkind : kind.isWord = true) :
    IsRun isWordChar cs rest := by
  cases h with
  | keyword run _ => exact run
  | ident run _ _ => exact run
  | sign spelling _ _ =>
    rw [TokenKind.isWord_of_sign? spelling] at hkind
    cases hkind
  | _ => exact absurd hkind (by decide)

/-- The first character of a lexeme tells that a token begins, or an operator stands
there. -/
theorem head_cases (h : Lexeme kind cs rest) (hkind : kind ≠ .unknown) :
    (∃ c ds, cs = c :: ds ∧ isTelling c = true)
      ∨ ∃ kind' sign, TokenKind.sign? kind' = Option.some sign ∧ sign <+: cs := by
  -- A run of some kind of character and a row of digits tell by their first character.
  have of_run {p : Char → Bool} (hp : ∀ c, p c = true → isTelling c = true) (run : IsRun p cs rest) :
      ∃ c ds, cs = c :: ds ∧ isTelling c = true := by
    obtain ⟨c, ds, rfl, hc⟩ := run.head
    exact ⟨c, ds, rfl, hp c hc⟩
  have of_digits {ds : List Char} (hds : IsDigits ds) :
      ∃ c es, ds = c :: es ∧ isTelling c = true := by
    obtain ⟨c, es, rfl⟩ := List.exists_cons_of_ne_nil hds.some
    refine ⟨c, es, rfl, ?_⟩
    simp [isTelling, Scan.isWordChar_of_isDigit (hds.all c List.mem_cons_self)]
  have hword (c : Char) (hc : isWordChar c = true) : isTelling c = true := by
    simp [isTelling, hc]
  cases h with
  | whitespace run => exact .inl (of_run (fun c hc => by simp [isTelling, hc]) run)
  | newline run => exact .inl (of_run (fun c hc => by simp [isTelling, hc]) run)
  | comment _ _ => exact .inl ⟨_, _, rfl, rfl⟩
  | closed sort _ => exact .inl ⟨_, _, rfl, by rcases sort with rfl | rfl <;> rfl⟩
  | unclosed sort _ => exact .inl ⟨_, _, rfl, by rcases sort with rfl | rfl <;> rfl⟩
  | number form _ =>
    cases form with
    | whole digits _ => exact .inl (of_digits digits)
    | fraction digits _ =>
      obtain ⟨c, es, rfl, hc⟩ := of_digits digits
      exact .inl ⟨c, _, rfl, hc⟩
    | point _ => exact .inr ⟨.dot, ['.'], rfl, List.prefix_append ['.'] _⟩
  | hexNumber _ _ => exact .inl ⟨_, _, rfl, rfl⟩
  | keyword run _ => exact .inl (of_run hword run)
  | ident run _ _ => exact .inl (of_run hword run)
  | sign spelling _ _ => exact .inr ⟨kind, cs, spelling, List.prefix_rfl⟩
  | unknown _ _ => exact absurd rfl hkind

/-- **Where an unknown character stands begins no lexeme of another kind.** -/
theorem of_unknown (h : Lexeme .unknown cs rest) :
    ∃ c, cs = [c] ∧ ∀ kind ds after, kind ≠ .unknown → ds ++ after = c :: rest →
      ¬ Lexeme kind ds after := by
  cases h with
  | keyword _ entry => exact absurd (TokenKind.isWord_of_mem_wordTable entry) (by decide)
  | sign spelling _ _ => cases spelling
  | @unknown c _ plain unsigned =>
    refine ⟨c, rfl, fun kind ds after hkind hsplit hlexeme => ?_⟩
    -- Another lexeme from the same place would begin with a telling character or with an
    -- operator.
    rcases hlexeme.head_cases hkind with ⟨d, es, rfl, hd⟩ | ⟨kind', sign, hsign, hpre⟩
    · rw [List.cons_append, List.cons.injEq] at hsplit
      rw [hsplit.1, plain] at hd
      cases hd
    · have hlength := unsigned kind' sign hsign
        (hsplit ▸ hpre.trans (List.prefix_append ds after))
      rcases TokenKind.sign?_cases hsign with ⟨a, rfl⟩ | ⟨a, b, rfl⟩ <;> simp at hlength

end Lexeme

/-- Tokens of these kinds would be one if they touched. -/
def TokenKind.Merges (k l : TokenKind) : Prop :=
  k = .whitespace ∧ l = .whitespace ∨ k = .newline ∧ l = .newline
    ∨ k.isWord = true ∧ l.isWord = true

/-- Runs of one sort do not follow each other. -/
theorem IsRun.apart {p : Char → Bool} {cs ds rest : List Char} (h : IsRun p cs (ds ++ rest))
    (h' : IsRun p ds rest) : False := by
  obtain ⟨c, es, rfl, hc⟩ := h'.head
  have hends : p c = false := by simpa using h.ends
  rw [hc] at hends
  cases hends

theorem Lexeme.not_merges {k l : TokenKind} {cs ds rest : List Char}
    (h : Lexeme k cs (ds ++ rest)) (h' : Lexeme l ds rest) : ¬ k.Merges l := by
  rintro (⟨rfl, rfl⟩ | ⟨rfl, rfl⟩ | ⟨hk, hl⟩)
  · exact h.isRun_isGap.apart h'.isRun_isGap
  · exact h.isRun_isBreak.apart h'.isRun_isBreak
  · exact (h.isRun_isWordChar hk).apart (h'.isRun_isWordChar hl)

/-! ## A text is cut into lexemes -/

/-- Every token is a lexeme in front of the text of those that follow it. -/
theorem lexeme_of_tokensFrom {before after : List Token} {t : Token} (offset : Nat)
    (cs : List Char) (h : tokensFrom offset cs = before ++ t :: after) (ht : t.kind ≠ .eof) :
    Lexeme t.kind t.text.toList (Token.spell after).toList := by
  -- The tokens in front are those of a longer text, which ends with this one.
  induction before generalizing offset cs with
  | nil =>
    cases cs with
    | nil =>
      rw [tokensFrom, List.nil_append, List.cons.injEq] at h
      rw [← h.1] at ht
      exact absurd rfl ht
    | cons c rest =>
      rw [tokensFrom_cons, List.nil_append, List.cons.injEq] at h
      obtain ⟨body, hbody, hrest⟩ := tokensFrom_tiling
        (offset + byteLength ((c :: rest).take (Scan.next c rest).2))
        ((c :: rest).drop (Scan.next c rest).2)
      have hspell : (Token.spell after).toList = (c :: rest).drop (Scan.next c rest).2 := by
        have htext := congrArg String.toList hbody.spell
        rw [Token.toList_spell, String.toList_ofList] at htext
        rw [← h.2, hrest, Token.toList_spell, List.flatMap_append, htext]
        simp
      rw [hspell, ← h.1, String.toList_ofList]
      exact Scan.next_right c rest
  | cons u before ih =>
    cases cs with
    | nil => simp [tokensFrom] at h
    | cons c rest =>
      rw [tokensFrom_cons, List.cons_append, List.cons.injEq] at h
      exact ih _ _ h.2

theorem isBoundary_byteLength (before after : List Char) :
    isBoundary (byteLength before) (before ++ after) = true := by
  induction before with
  | nil => cases after <;> rfl
  | cons c cs ih =>
    simp only [byteLength_cons, List.cons_append, isBoundary, Nat.add_sub_cancel_left, ih]
    simp

/-- A token of a chain begins behind the bytes of those in front of it. -/
theorem Token.Chain.start_eq {offset : Nat} {before after : List Token} {t : Token}
    (h : Token.Chain offset (before ++ t :: after)) :
    t.start = offset + byteLength (Token.spell before).toList := by
  induction before generalizing offset with
  | nil => exact h.1
  | cons u before ih =>
    obtain ⟨hstart, hchain⟩ := h
    rw [ih hchain, Token.stop, hstart, Token.toList_spell, Token.toList_spell, List.flatMap_cons,
      byteLength_append, utf8ByteSize_eq, Nat.add_assoc]

/-- **A text cut well.** The tokens are a chain from its start that spells it, cut at
the boundaries of characters and closed by the one empty `eof` at its end; each other
one is a lexeme, and no two that touch would be one. -/
structure WellCut (text : String) (ts : List Token) : Prop where
  ends : ∃ body, ts = body ++ [⟨.eof, text.utf8ByteSize, ""⟩]
    ∧ ∀ t ∈ body, t.kind ≠ .eof ∧ t.text ≠ ""
  chain : Token.Chain 0 ts
  spell : Token.spell ts = text
  boundary : ∀ t ∈ ts,
    isBoundary t.start text.toList = true ∧ isBoundary t.stop text.toList = true
  shape : ∀ before t after, ts = before ++ t :: after → t.kind ≠ .eof →
    Lexeme t.kind t.text.toList (Token.spell after).toList
  unknown : ∀ before t after, ts = before ++ t :: after → t.kind = .unknown →
    ∃ c, t.text.toList = [c] ∧ ∀ kind cs rest, kind ≠ .unknown →
      cs ++ rest = c :: (Token.spell after).toList → ¬ Lexeme kind cs rest
  apart : ∀ before t u after, ts = before ++ t :: u :: after → ¬ t.kind.Merges u.kind

/-- **Every text is cut well.** -/
theorem tokens_wellCut (text : String) : WellCut text (tokens text) := by
  obtain ⟨body, hbody, heq⟩ := tokensFrom_tiling 0 text.toList
  rw [Nat.zero_add, ← utf8ByteSize_eq] at heq
  have htokens : tokens text = body ++ [⟨.eof, text.utf8ByteSize, ""⟩] := heq
  have hspell : Token.spell (tokens text) = text := by
    rw [htokens, Token.spell, List.flatMap_append]
    simpa [Token.spell] using hbody.spell
  have hchain : Token.Chain 0 (tokens text) := by
    rw [htokens]
    refine Token.chain_append hbody.chain ⟨?_, trivial⟩
    rw [hbody.spell, String.ofList_toList, utf8ByteSize_eq, Nat.zero_add]
  -- Each token but the last is a lexeme in front of the text behind it.
  have hshape (before : List Token) (t : Token) (after : List Token)
      (hsplit : tokens text = before ++ t :: after) (ht : t.kind ≠ .eof) :
      Lexeme t.kind t.text.toList (Token.spell after).toList :=
    lexeme_of_tokensFrom 0 text.toList hsplit ht
  refine ⟨⟨body, htokens, hbody.significant⟩, hchain, hspell, fun t ht => ?_, hshape,
    fun before t after hsplit hkind => ?_, fun before t u after hsplit => ?_⟩
  · obtain ⟨before, after, hsplit⟩ := List.append_of_mem ht
    have hstart : t.start = byteLength (Token.spell before).toList := by
      rw [Token.Chain.start_eq (hsplit ▸ hchain), Nat.zero_add]
    have hparts : text.toList
        = (Token.spell before).toList ++ (t.text.toList ++ (Token.spell after).toList) := by
      have hlist := congrArg String.toList hspell
      rw [← hlist, hsplit]
      simp [Token.toList_spell]
    have hstop : t.stop = byteLength ((Token.spell before).toList ++ t.text.toList) := by
      rw [Token.stop, hstart, utf8ByteSize_eq, byteLength_append]
    refine ⟨?_, ?_⟩
    · rw [hstart, hparts]
      exact isBoundary_byteLength _ _
    · rw [hstop, hparts, ← List.append_assoc]
      exact isBoundary_byteLength _ _
  · have hlexeme := hshape before t after hsplit (by simp [hkind])
    rw [hkind] at hlexeme
    exact hlexeme.of_unknown
  · intro hmerges
    -- The end of the text merges with nothing, so both tokens are lexemes.
    have heof : t.kind ≠ .eof ∧ u.kind ≠ .eof := by
      rcases hmerges with ⟨ht, hu⟩ | ⟨ht, hu⟩ | ⟨ht, hu⟩
      · simp [ht, hu]
      · simp [ht, hu]
      · constructor <;> rintro h <;> simp [h, TokenKind.isWord, TokenKind.isKeyword,
          TokenKind.isTypeName, TokenKind.family] at ht hu
    have hfirst := hshape before t (u :: after) hsplit heof.1
    have hsecond := hshape (before ++ [t]) u after (by simp [hsplit]) heof.2
    rw [Token.toList_spell, List.flatMap_cons, ← Token.toList_spell] at hfirst
    exact hfirst.not_merges hsecond hmerges

end ScriptSense
