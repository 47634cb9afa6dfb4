/-
Blocks in blocks, line by line.

A block holds lines that each are a statement of one line, or the first or the last line of
a block in it, or of one of its branches. `Nested` says how they follow each other; what
stands within the lines may be malformed, as long as no word of a block and no opening
parenthesis is among it.

Such lines are in balance for whoever counts words only: passing over them, as the grammar
does beyond the limit of nesting, leaves as many blocks open as there were
(`Nested.passed`).
-/
import ScriptSense.Syntax.Grammar.Rules

set_option autoImplicit false

namespace ScriptSense

namespace Grammar

/-! ## Lines -/

/-- The token may stand anywhere within a line of a block: it does not end the line, opens no
parenthesis and is no word of a block. -/
def staysInLine : TokenKind → Bool
  | .newline | .eof | .lParen | .kwBegin | .kwIf | .kwWhile | .kwForeach | .kwEnd | .kwEndIf
  | .kwElseIf | .kwElse | .kwLoop => false
  | _ => true

/-- The tokens of a line up to its line break. -/
def IsPlain (ts : List Token) : Prop :=
  ∃ words ending, ts = words ++ [ending] ∧ (∀ t ∈ words, staysInLine t.kind = true)
    ∧ ending.kind = .newline

/-- The tokens of a line that begins with a word of a block. -/
def IsHeaded (word : TokenKind) (ts : List Token) : Prop :=
  ∃ blank t line, ts = blank ++ t :: line ∧ (∀ u ∈ blank, u.kind.isTrivia = true)
    ∧ t.kind = word ∧ IsPlain line

/-! ## Blocks -/

/-- What the lines of a block belong to. -/
inductive Passage where
  /-- The statements of a block. -/
  | body
  /-- The branches of an `if` after the first. -/
  | branches

/-- **The lines of blocks that are nested well**, to any depth. -/
inductive Nested : Passage → List Token → Prop
  /-- An empty block. -/
  | empty : Nested .body []
  /-- A statement of one line, or an empty line. -/
  | line {line body : List Token} : IsPlain line → Nested .body body → Nested .body (line ++ body)
  /-- A `while` or a `foreach` statement. -/
  | loop {word : TokenKind} {header inner closer body : List Token} :
      word = .kwWhile ∨ word = .kwForeach → IsHeaded word header → Nested .body inner →
      IsHeaded .kwLoop closer → Nested .body body →
      Nested .body (header ++ (inner ++ (closer ++ body)))
  /-- An `if` statement. -/
  | choice {header inner branches closer body : List Token} :
      IsHeaded .kwIf header → Nested .body inner → Nested .branches branches →
      IsHeaded .kwEndIf closer → Nested .body body →
      Nested .body (header ++ (inner ++ (branches ++ (closer ++ body))))
  /-- No more branches. -/
  | unbranched : Nested .branches []
  /-- The last branch. -/
  | otherwise {header inner : List Token} :
      IsHeaded .kwElse header → Nested .body inner → Nested .branches (header ++ inner)
  /-- A branch with others behind it. -/
  | elseIf {header inner branches : List Token} :
      IsHeaded .kwElseIf header → Nested .body inner → Nested .branches branches →
      Nested .branches (header ++ (inner ++ branches))

/-- The last of the lines is one. -/
theorem Nested.last {part : Passage} {ts : List Token} (h : Nested part ts) :
    ∀ t ∈ ts.getLast?, t.kind = .newline := by
  -- The last token of two passages is that of the second, unless it is empty.
  have happend {ts us : List Token} (hts : ∀ t ∈ ts.getLast?, t.kind = .newline)
      (hus : ∀ t ∈ us.getLast?, t.kind = .newline) :
      ∀ t ∈ (ts ++ us).getLast?, t.kind = .newline := by
    intro t ht
    rw [List.getLast?_append] at ht
    rcases Option.or_eq_some_iff.1 ht with ht | ⟨-, ht⟩
    · exact hus t ht
    · exact hts t ht
  have hplain {ts : List Token} (h : IsPlain ts) : ∀ t ∈ ts.getLast?, t.kind = .newline := by
    obtain ⟨words, last, rfl, -, hlast⟩ := h
    intro t ht
    rw [List.getLast?_concat, Option.mem_some_iff] at ht
    exact ht ▸ hlast
  have hheaded {word : TokenKind} {ts : List Token} (h : IsHeaded word ts) :
      ∀ t ∈ ts.getLast?, t.kind = .newline := by
    obtain ⟨blank, u, line, rfl, -, -, hline⟩ := h
    obtain ⟨words, last, rfl, -, hlast⟩ := id hline
    rw [← List.cons_append, ← List.append_assoc, List.getLast?_concat]
    rintro t ht
    rw [Option.mem_some_iff] at ht
    exact ht ▸ hlast
  -- Every passage is made of lines, and each line ends with a line break.
  induction h with
  | empty | unbranched => simp
  | line hline _ ih => exact happend (hplain hline) ih
  | loop _ hheader _ hcloser _ ihinner ihbody =>
    exact happend (hheaded hheader) (happend ihinner (happend (hheaded hcloser) ihbody))
  | choice hheader _ _ hcloser _ ihinner ihbranches ihbody =>
    exact happend (hheaded hheader) (happend ihinner (happend ihbranches
      (happend (hheaded hcloser) ihbody)))
  | otherwise hheader _ ih => exact happend (hheaded hheader) ih
  | elseIf hheader _ _ ihinner ihbranches =>
    exact happend (hheaded hheader) (happend ihinner ihbranches)

/-! ## Passing over words -/

/-- The blocks that are open behind a token, of which `opened` were in front of it; none if
the token or the text ends the block that they are in. -/
def opensTo (opened : Nat) : TokenKind → Option Nat
  | .eof => none
  | .kwIf | .kwWhile | .kwForeach | .kwBegin => some (opened + 1)
  | kind =>
    if opened = 0 then if closesBlock kind then none else some opened
    else if kind = .kwEndIf ∨ kind = .kwLoop ∨ kind = .kwEnd then some (opened - 1)
    else some opened

/-- The blocks that are open behind some tokens. -/
def passed : Nat → List Token → Option Nat
  | opened, [] => some opened
  | opened, t :: ts =>
    if t.kind.isTrivia then passed opened ts else (opensTo opened t.kind).bind (passed · ts)

theorem passed_append (opened : Nat) (ts us : List Token) :
    passed opened (ts ++ us) = (passed opened ts).bind (passed · us) := by
  induction ts generalizing opened with
  | nil => rfl
  | cons t ts ih =>
    rw [List.cons_append, passed, passed]
    split
    · exact ih opened
    · rw [Option.bind_assoc]
      exact congrArg _ (funext fun n => ih n)

theorem passed_trivia {opened : Nat} {ts : List Token} (h : ∀ t ∈ ts, t.kind.isTrivia = true) :
    passed opened ts = some opened := by
  induction ts with
  | nil => rfl
  | cons t ts ih =>
    rw [passed, if_pos (h t List.mem_cons_self), ih fun u hu => h u (List.mem_cons_of_mem _ hu)]

/-- A token that is no word of a block opens none and closes none. -/
theorem opensTo_of_plain {kind : TokenKind} (h : staysInLine kind = true ∨ kind = .newline)
    (opened : Nat) : opensTo opened kind = some opened := by
  cases kind
  case newline => simp [opensTo, closesBlock, Closer.ofToken?]
  case eof | lParen | kwBegin | kwIf | kwWhile | kwForeach | kwEnd | kwEndIf | kwElseIf | kwElse
      | kwLoop => simp [staysInLine] at h
  all_goals simp [opensTo, closesBlock, Closer.ofToken?]

/-- A word that begins a branch opens none and closes none, inside an `if`. -/
theorem opensTo_of_branch {kind : TokenKind} (h : kind = .kwElse ∨ kind = .kwElseIf) {opened : Nat}
    (hopened : 1 ≤ opened) : opensTo opened kind = some opened := by
  have hinside : opened ≠ 0 := Nat.one_le_iff_ne_zero.1 hopened
  rcases h with rfl | rfl <;> simp [opensTo, hinside]

theorem IsPlain.passed {ts : List Token} (h : IsPlain ts) (opened : Nat) :
    passed opened ts = some opened := by
  obtain ⟨words, ending, rfl, hwords, hending⟩ := h
  -- No word of a plain line opens or closes a block.
  have hall : ∀ t ∈ words ++ [ending], staysInLine t.kind = true ∨ t.kind = .newline := by
    intro t ht
    rcases List.mem_append.1 ht with ht | ht
    · exact .inl (hwords t ht)
    · exact .inr (List.mem_singleton.1 ht ▸ hending)
  generalize words ++ [ending] = ts at hall
  induction ts with
  | nil => rfl
  | cons t ts ih =>
    have htail := ih fun u hu => hall u (List.mem_cons_of_mem _ hu)
    rw [Grammar.passed, opensTo_of_plain (hall t List.mem_cons_self), Option.bind_some, htail,
      ite_self]

theorem IsHeaded.passed {word : TokenKind} {ts : List Token} (h : IsHeaded word ts)
    (hword : word.isTrivia = false) (opened : Nat) : passed opened ts = opensTo opened word := by
  obtain ⟨blank, t, line, rfl, hblank, rfl, hline⟩ := h
  have htail : (fun n => Grammar.passed n line) = some := funext hline.passed
  rw [passed_append, passed_trivia hblank, Option.bind_some, Grammar.passed,
    if_neg (by simp [hword]), htail]
  cases opensTo opened t.kind <;> rfl

/-- The blocks that are open around the lines, at least: branches stand in an `if`. -/
def Passage.depth : Passage → Nat
  | .body => 0
  | .branches => 1

/-- **Lines that are nested well leave as many blocks open as there were.** -/
theorem Nested.passed {part : Passage} {ts : List Token} (h : Nested part ts) {opened : Nat}
    (hopened : part.depth ≤ opened) : passed opened ts = some opened := by
  induction h generalizing opened with
  | empty | unbranched => rfl
  | line hline _ ih =>
    rw [passed_append, hline.passed, Option.bind_some, ih hopened]
  | @loop word _ _ _ _ hword hheader _ hcloser _ ihinner ihbody =>
    have hkind : word.isTrivia = false := by rcases hword with rfl | rfl <;> rfl
    -- The header opens one block more, and the closing word ends it.
    have hopen : opensTo opened word = some (opened + 1) := by rcases hword with rfl | rfl <;> rfl
    have hclose : opensTo (opened + 1) .kwLoop = some opened := by simp [opensTo]
    rw [passed_append, hheader.passed hkind, hopen,
      Option.bind_some, passed_append, ihinner (Nat.zero_le _), Option.bind_some, passed_append,
      hcloser.passed rfl, hclose, Option.bind_some, ihbody hopened]
  | choice hheader _ _ hcloser _ ihinner ihbranches ihbody =>
    have hopen : opensTo opened .kwIf = some (opened + 1) := rfl
    have hclose : opensTo (opened + 1) .kwEndIf = some opened := by simp [opensTo]
    rw [passed_append, hheader.passed rfl, hopen, Option.bind_some, passed_append,
      ihinner (Nat.zero_le _), Option.bind_some, passed_append,
      ihbranches (Nat.le_add_left 1 opened), Option.bind_some, passed_append, hcloser.passed rfl,
      hclose, Option.bind_some, ihbody hopened]
  | otherwise hheader _ ih =>
    rw [passed_append, hheader.passed rfl, opensTo_of_branch (.inl rfl) hopened, Option.bind_some,
      ih (Nat.zero_le _)]
  | elseIf hheader _ _ ihinner ihbranches =>
    rw [passed_append, hheader.passed rfl, opensTo_of_branch (.inr rfl) hopened, Option.bind_some,
      passed_append, ihinner (Nat.zero_le _), Option.bind_some, ihbranches hopened]

end Grammar

end ScriptSense
