/-
What is written is read back.

Reading undoes writing in three steps, which are taken one by one. A string comes
back from between its quotes, because every escape that is written is one that is
read. The words of a text come back from their lines, because blank space between
words is passed over and every word ends where it does whatever follows. And a value
comes back from its words, because a value that is complete is supplied to what is
open around it.

Numbers are written as they were read, which need not be a number to a reader, and an
ill-formed string has no characters to write; a value without either is `IsPlain`.
-/
import Mathlib.Tactic.SplitIfs
import ScriptSense.Json.Layout

set_option autoImplicit false

namespace ScriptSense.Json

/-- A list comes back where each of its elements does. -/
theorem mapM_map_of_inverse {α β : Type} {f : α → β} {g : β → Option α}
    (h : ∀ a, g (f a) = some a) (as : List α) : (as.map f).mapM g = some as := by
  induction as with
  | nil => rfl
  | cons a as ih =>
    rw [List.map_cons, List.mapM_cons, h, ih]
    rfl

/-! ## Strings -/

namespace Quoted

/-- The ways in which a character is written. -/
inductive Escaped : Char → List Char → Prop
  /-- By itself. -/
  | plain {c : Char} (quote : c ≠ '"') (escape : c ≠ '\\')
      (printable : firstPrintable ≤ c.toNat) : Escaped c [c]
  /-- By a backslash and a letter or sign. -/
  | short {c mark : Char} (name : shortEscape? mark = some c) (mark_ne : mark ≠ 'u') :
      Escaped c ['\\', mark]
  /-- By its code. -/
  | code {c : Char} (control : c.toNat < firstPrintable) :
      Escaped c ['\\', 'u', '0', '0', Nat.digitChar (c.toNat / 16), Nat.digitChar (c.toNat % 16)]

theorem escaped_escape (c : Char) : Escaped c (escape c) := by
  unfold escape
  split
  · exact .short rfl (by decide)
  · exact .short rfl (by decide)
  · exact .short rfl (by decide)
  · exact .short rfl (by decide)
  · exact .short rfl (by decide)
  · exact .short rfl (by decide)
  · exact .short rfl (by decide)
  · next hquote hslash _ _ _ _ _ =>
    split
    · next hcontrol => exact .code hcontrol
    · next hprintable => exact .plain (by rintro rfl; simp at hquote) (by rintro rfl; simp at hslash) (by omega)

/-- The digits of the code of a control end no string. -/
theorem digitChar_ne {n : Nat} (h : n < 16) : Nat.digitChar n ≠ '"' ∧ Nat.digitChar n ≠ '\\' := by
  have hall : ∀ n < 16, Nat.digitChar n ≠ '"' ∧ Nat.digitChar n ≠ '\\' := by decide
  exact hall n h

/-- The digits of the code of a control name it. -/
theorem ofHex?_control {c : Char} (h : c.toNat < firstPrintable) :
    Piece.ofHex? ['0', '0', Nat.digitChar (c.toNat / 16), Nat.digitChar (c.toNat % 16)]
      = some (.char c) := by
  have hall : ∀ n < 32, Piece.ofHex? ['0', '0', Nat.digitChar (n / 16), Nat.digitChar (n % 16)]
      = some (.char (Char.ofNat n)) := by
    decide
  rw [hall c.toNat h, Char.ofNat_toNat]

/-- No character as it is written ends the string. -/
theorem Escaped.bodyLength?_append {c : Char} {written : List Char} (h : Escaped c written)
    (rest : List Char) :
    bodyLength? (written ++ rest) = (bodyLength? rest).map (· + written.length) := by
  cases h with
  | plain hquote hslash _ =>
    rw [List.singleton_append, bodyLength?]
    · rfl
    · exact fun h => hquote h
    · exact fun _ _ h _ => hslash h
  | short _ _ => rfl
  | code hcontrol =>
    have hcode : c.toNat < 32 := hcontrol
    -- The two digits of the code are no quotes and no slashes, so they count as they are.
    have hhigh := digitChar_ne (n := c.toNat / 16) (by omega)
    have hlow := digitChar_ne (n := c.toNat % 16) (by omega)
    simp [bodyLength?, hhigh, hlow, Function.comp_def]

/-- A string ends at the quote behind its characters. -/
theorem bodyLength?_encode (cs rest : List Char) :
    bodyLength? (cs.flatMap escape ++ '"' :: rest) = some (cs.flatMap escape).length := by
  induction cs with
  | nil => rfl
  | cons c cs ih =>
    rw [List.flatMap_cons, List.append_assoc, (escaped_escape c).bodyLength?_append, ih,
      List.length_append, Option.map_some, Nat.add_comm]

/-- A character as it is written is one piece. -/
theorem Escaped.pieces?_append {c : Char} {written : List Char} (h : Escaped c written)
    (rest : List Char) : pieces? (written ++ rest) = (pieces? rest).map (.char c :: ·) := by
  cases h with
  | plain hquote hslash hprintable =>
    rw [List.singleton_append, pieces?]
    -- A character that stands for itself is neither a quote nor a slash nor a control
    -- character.
    · rw [if_neg (by simp [hquote, hslash, hprintable])]
      cases pieces? rest <;> rfl
    · exact fun _ _ _ _ _ h _ => hslash h
    · exact fun _ _ h _ => hslash h
  | short hname hmark =>
    rw [List.cons_append, List.singleton_append, pieces?]
    · rw [hname]
      cases pieces? rest <;> rfl
    · exact fun _ _ _ _ _ h _ => hmark h
  | code hcontrol =>
    simp only [List.cons_append, List.nil_append, pieces?]
    rw [ofHex?_control hcontrol]
    cases pieces? rest <;> rfl

theorem pieces?_encode (cs : List Char) : pieces? (cs.flatMap escape) = some (cs.map .char) := by
  induction cs with
  | nil => rfl
  | cons c cs ih =>
    rw [List.flatMap_cons, (escaped_escape c).pieces?_append, ih, Option.map_some, List.map_cons]

theorem join?_char (cs : List Char) : join? (cs.map .char) = some cs := by
  induction cs with
  | nil => rfl
  | cons c cs ih =>
    rw [List.map_cons, join?, ih]
    rfl

end Quoted

/-! ## Words -/

namespace Lexeme

/-- The word is no number and no ill-formed string. -/
def isPlain : Lexeme → Bool
  | .number _ => false
  | .string none => false
  | _ => true

/-- A string is read up to its end. -/
theorem string?_encode (text : String) (rest : List Char) :
    string? (text.toList.flatMap Quoted.escape ++ '"' :: rest)
      = some (.string (some text), (text.toList.flatMap Quoted.escape).length + 2) := by
  rw [string?, Quoted.bodyLength?_encode]
  simp [Quoted.pieces?_encode, Quoted.join?_char]

/-- **A plain word is read back, whatever follows it.** -/
theorem scan?_text (word : Lexeme) (h : word.isPlain = true) (rest : List Char) :
    scan? (word.text ++ rest) = (scan? rest).map (word :: ·) := by
  -- What is read has the length of the word, and the first character is not blank.
  have hread (c : Char) (cs : List Char) (htext : word.text = c :: cs) (hblank : isBlank c = false)
      (hnext : next? c (cs ++ rest) = some (word, word.text.length)) :
      scan? (word.text ++ rest) = (scan? rest).map (word :: ·) := by
    rw [htext, List.cons_append, scan?, if_neg (by simp [hblank]), hnext]
    simp [htext]
  cases word with
  | openList => exact hread _ _ rfl rfl rfl
  | closeList => exact hread _ _ rfl rfl rfl
  | openRecord => exact hread _ _ rfl rfl rfl
  | closeRecord => exact hread _ _ rfl rfl rfl
  | comma => exact hread _ _ rfl rfl rfl
  | colon => exact hread _ _ rfl rfl rfl
  | null => exact hread 'n' ['u', 'l', 'l'] rfl rfl (by simp [next?, letters?, text])
  | bool value =>
    cases value with
    | true => exact hread 't' ['r', 'u', 'e'] rfl rfl (by simp [next?, letters?, text])
    | false => exact hread 'f' ['a', 'l', 's', 'e'] rfl rfl (by simp [next?, letters?, text])
  | number text => cases h
  | string value =>
    cases value with
    | none => cases h
    | some value =>
      refine hread '"' (value.toList.flatMap Quoted.escape ++ ['"']) rfl rfl ?_
      rw [List.append_assoc, List.singleton_append, next?, string?_encode]
      simp [text, Quoted.encode]

theorem scan?_blank {blank : List Char} (h : ∀ c ∈ blank, isBlank c = true) (rest : List Char) :
    scan? (blank ++ rest) = scan? rest := by
  induction blank with
  | nil => rfl
  | cons c blank ih =>
    rw [List.cons_append, scan?, if_pos (h c List.mem_cons_self),
      ih fun d hd => h d (List.mem_cons_of_mem c hd)]

end Lexeme

theorem scan?_newLine (depth : Nat) (rest : List Char) :
    Lexeme.scan? (newLine depth ++ rest) = Lexeme.scan? rest := by
  refine Lexeme.scan?_blank (fun c hc => ?_) rest
  rcases List.mem_cons.1 hc with rfl | hc
  · rfl
  · rw [List.eq_of_mem_replicate hc]
    rfl

/-- **Words come back from their lines.** -/
theorem scan?_spreadWords {words : List Lexeme} (h : ∀ word ∈ words, word.isPlain = true)
    (depth : Nat) : Lexeme.scan? (spreadWords depth words) = some words := by
  induction depth, words using spreadWords.induct with
  | case1 => rw [spreadWords, Lexeme.scan?]
  -- An empty list and an empty record are written without a line break inside.
  | case2 depth rest ih =>
    have hrest := ih fun word hword => h word (by simp [hword])
    rw [spreadWords]
    refine (Lexeme.scan?_text .openList rfl _).trans ?_
    refine (congrArg _ (Lexeme.scan?_text .closeList rfl _)).trans ?_
    rw [hrest]
    rfl
  | case3 depth rest ih =>
    have hrest := ih fun word hword => h word (by simp [hword])
    rw [spreadWords]
    refine (Lexeme.scan?_text .openRecord rfl _).trans ?_
    refine (congrArg _ (Lexeme.scan?_text .closeRecord rfl _)).trans ?_
    rw [hrest]
    rfl
  -- The other words are written with a line break, a blank or nothing beside them, which the
  -- scan passes.
  | case4 depth rest hlist hrecord ih | case5 depth rest hlist hrecord ih =>
    rw [spreadWords]
    · rw [List.append_assoc, Lexeme.scan?_text _ rfl, scan?_newLine,
        ih fun word hword => h word (List.mem_cons_of_mem _ hword), Option.map_some]
    · exact hlist
    · exact hrecord
  | case6 depth rest _ _ ih | case7 depth rest _ _ ih =>
    rw [spreadWords, List.append_assoc, scan?_newLine, Lexeme.scan?_text _ rfl,
      ih fun word hword => h word (List.mem_cons_of_mem _ hword), Option.map_some]
  | case8 depth rest _ _ ih =>
    rw [spreadWords, List.append_assoc, Lexeme.scan?_text _ rfl, scan?_newLine,
      ih fun word hword => h word (List.mem_cons_of_mem _ hword), Option.map_some]
  | case9 depth rest _ _ ih =>
    have hblank : Lexeme.scan? (' ' :: spreadWords depth rest)
        = Lexeme.scan? (spreadWords depth rest) :=
      Lexeme.scan?_blank (List.forall_mem_singleton.2 rfl) _
    rw [spreadWords, Lexeme.scan?_text _ rfl, hblank,
      ih fun word hword => h word (List.mem_cons_of_mem _ hword), Option.map_some]
  | case10 depth word rest _ _ hl hr hl' hr' hcomma hcolon ih =>
    rw [spreadWords, Lexeme.scan?_text word (h word List.mem_cons_self),
      ih fun word hword => h word (List.mem_cons_of_mem _ hword), Option.map_some]
    all_goals assumption

/-! ## Values -/

namespace Reading

/-- Reads a run of words. -/
abbrev through? (r : Reading) (words : List Lexeme) : Option Reading := words.foldlM step? r

theorem through?_cons (r : Reading) (word : Lexeme) (words : List Lexeme) :
    r.through? (word :: words) = (r.step? word).bind (·.through? words) := rfl

/-- The first word of a value closes nothing. -/
theorem exists_head (value : Json) :
    ∃ word words, value.words = word :: words ∧ ∀ frames, leave? frames word = none := by
  have hleave (word : Lexeme) (hlist : word ≠ .closeList) (hrecord : word ≠ .closeRecord)
      (frames : List Frame) : leave? frames word = none := by
    unfold leave?
    split
    · exact absurd rfl hlist
    · exact absurd rfl hrecord
    · rfl
  cases value with
  | array items => exact ⟨.openList, _, by rw [words]; rfl, hleave _ (by simp) (by simp)⟩
  | object members => exact ⟨.openRecord, _, by rw [words]; rfl, hleave _ (by simp) (by simp)⟩
  | _ => exact ⟨_, [], by rw [words], hleave _ (by simp) (by simp)⟩

/-- A list that has an item begins with the item. -/
theorem through?_firstItem (frames : List Frame) (value : Json) (rest : List Lexeme) :
    through? ⟨frames, .firstItem⟩ (value.words ++ rest)
      = through? ⟨frames, .value⟩ (value.words ++ rest) := by
  obtain ⟨word, words, hwords, hleave⟩ := exists_head value
  rw [hwords, List.cons_append, through?_cons, through?_cons]
  simp only [step?, hleave frames, Option.none_or]

/-- The members of a record as they are kept while it is open. -/
def kept (members : List (String × Json)) : List (Option String × Json) :=
  members.map fun member => (some member.1, member.2)

theorem ofMembers_kept (members : List (String × Json)) :
    ofMembers (kept members) = .object members := by
  rw [ofMembers, kept, mapM_map_of_inverse]
  exact fun _ => rfl

/-- Behind the words of the value it is supplied. -/
def Reads (value : Json) : Prop :=
  ∀ frames rest, through? ⟨frames, .value⟩ (value.words ++ rest)
    = (supply value frames).through? rest

/-- Behind the items of a list and its end the list is supplied. -/
theorem through?_wordsOfItems {item : Json} {items : List Json}
    (h : ∀ value ∈ item :: items, Reads value) (read : List Json) (frames : List Frame)
    (rest : List Lexeme) :
    through? ⟨.list read :: frames, .value⟩ (wordsOfItems (item :: items) ++ .closeList :: rest)
      = (supply (.array (read ++ item :: items)) frames).through? rest := by
  induction items generalizing item read with
  | nil =>
    rw [wordsOfItems, h item List.mem_cons_self]
    rfl
  | cons next items ih =>
    have hmore := ih (fun value hvalue => h value (List.mem_cons_of_mem item hvalue))
      (read ++ [item])
    rw [List.append_assoc, List.singleton_append] at hmore
    -- The first item is read, then the comma, and the list has one more item in front of the
    -- rest.
    rw [wordsOfItems, List.append_assoc, h item List.mem_cons_self]
    · exact hmore
    · simp

/-- Behind the members of a record and its end the record is supplied. -/
theorem through?_wordsOfMembers {member : String × Json} {members : List (String × Json)}
    (h : ∀ m ∈ member :: members, Reads m.2) (read : List (String × Json)) (frames : List Frame)
    (rest : List Lexeme) :
    through? ⟨.record (kept read) none :: frames, .key⟩
        (wordsOfMembers (member :: members) ++ .closeRecord :: rest)
      = (supply (.object (read ++ member :: members)) frames).through? rest := by
  -- A member whose value has been supplied is a member that was read before.
  have hkept (key : String) (value : Json) (read : List (String × Json)) :
      kept read ++ [(some key, value)] = kept (read ++ [(key, value)]) := by
    simp [kept]
  induction members generalizing member read with
  | nil =>
    obtain ⟨key, value⟩ := member
    have hclosed : (supply value (.record (kept read) (some key) :: frames)).through?
          (.closeRecord :: rest)
        = (supply (ofMembers (kept read ++ [(some key, value)])) frames).through? rest := rfl
    rw [hkept, ofMembers_kept] at hclosed
    rw [wordsOfMembers]
    exact (h (key, value) List.mem_cons_self _ _).trans hclosed
  | cons next members ih =>
    obtain ⟨key, value⟩ := member
    have hmore := ih (fun m hm => h m (List.mem_cons_of_mem _ hm)) (read ++ [(key, value)])
    rw [← hkept, List.append_assoc, List.singleton_append] at hmore
    rw [wordsOfMembers]
    · rw [List.cons_append, List.cons_append, List.append_assoc]
      exact (h (key, value) List.mem_cons_self _ _).trans hmore
    · simp

/-- **Behind the words of any value it is supplied.** -/
theorem reads (value : Json) : Reads value := by
  intro frames rest
  match value with
  | .null => rw [words]; rfl
  | .bool _ => rw [words]; rfl
  | .number _ => rw [words]; rfl
  | .string _ => rw [words]; rfl
  | .illFormed => rw [words]; rfl
  | .array [] => rw [words, wordsOfItems]; rfl
  | .array (item :: items) =>
    have hitems := through?_wordsOfItems (fun v (_ : v ∈ item :: items) => reads v) [] frames rest
    -- The first word of a list decides whether it is empty, so the first item is brought to the
    -- front.
    obtain ⟨_, hhead⟩ : ∃ after, wordsOfItems (item :: items) = item.words ++ after := by
      cases items with
      | nil => exact ⟨[], by rw [wordsOfItems, List.append_nil]⟩
      | cons next items => exact ⟨_, by rw [wordsOfItems]; simp⟩
    rw [hhead, List.append_assoc] at hitems
    rw [words, hhead, List.append_assoc, List.cons_append, through?_cons, List.append_assoc]
    exact (through?_firstItem _ _ _).trans hitems
  | .object [] => rw [words, wordsOfMembers]; rfl
  | .object (member :: members) =>
    have hmembers := through?_wordsOfMembers (fun m (_ : m ∈ member :: members) => reads m.2) []
      frames rest
    -- A record with members begins with the first key.
    obtain ⟨_, hhead⟩ : ∃ after, wordsOfMembers (member :: members)
        = .string (some member.1) :: after := by
      cases members with
      | nil => exact ⟨_, by rw [wordsOfMembers]⟩
      | cons next members =>
        refine ⟨(wordsOfMembers (member :: next :: members)).tail, ?_⟩
        rw [wordsOfMembers]
        · rfl
        · simp
    rw [hhead] at hmembers
    rw [words, hhead, List.append_assoc, List.cons_append, through?_cons]
    exact hmembers
termination_by sizeOf value
decreasing_by
  · have := List.sizeOf_lt_of_mem ‹v ∈ item :: items›
    simp only [array.sizeOf_spec]
    omega
  · have := List.sizeOf_lt_of_mem ‹m ∈ member :: members›
    have hpair : sizeOf m = 1 + sizeOf m.1 + sizeOf m.2 := by cases m; rfl
    simp only [object.sizeOf_spec]
    omega

end Reading

/-- **A value comes back from its words.** -/
theorem ofWords?_words (value : Json) : ofWords? value.words = some value := by
  have hread := Reading.reads value [] []
  rw [List.append_nil] at hread
  simp only [Reading.through?, List.foldlM_nil] at hread
  rw [ofWords?, Reading.start, hread]
  rfl

/-- The value has no number and no ill-formed string in it. -/
def IsPlain (value : Json) : Prop := ∀ word ∈ value.words, word.isPlain = true

/-- **A plain value comes back from its text.** -/
theorem parse?_spread {value : Json} (h : value.IsPlain) : parse? value.spread = some value := by
  rw [parse?, spread, String.toList_ofList, scan?_spreadWords h]
  exact ofWords?_words value

/-! ## Plain values -/

@[simp] theorem isPlain_string (text : String) : IsPlain (.string text) := by
  simp [IsPlain, words, Lexeme.isPlain]

theorem isPlain_array {items : List Json} (h : ∀ item ∈ items, item.IsPlain) :
    IsPlain (.array items) := by
  have hitems : ∀ word ∈ wordsOfItems items, word.isPlain = true := by
    induction items with
    | nil => simp [wordsOfItems]
    | cons item items ih =>
      have hitem := h item List.mem_cons_self
      have hmore := ih fun next hnext => h next (List.mem_cons_of_mem item hnext)
      -- A comma stands between two items only.
      cases items with
      | nil => rwa [wordsOfItems]
      | cons next items =>
        intro word hword
        rw [wordsOfItems, List.mem_append, List.mem_cons] at hword
        · rcases hword with hword | rfl | hword
          · exact hitem word hword
          · rfl
          · exact hmore word hword
        · simp
  intro word hword
  rw [words, List.mem_append, List.mem_cons, List.mem_singleton] at hword
  rcases hword with (rfl | hword) | rfl
  · rfl
  · exact hitems word hword
  · rfl

theorem isPlain_object {members : List (String × Json)} (h : ∀ m ∈ members, m.2.IsPlain) :
    IsPlain (.object members) := by
  have hmembers : ∀ word ∈ wordsOfMembers members, word.isPlain = true := by
    induction members with
    | nil => simp [wordsOfMembers]
    | cons member members ih =>
      obtain ⟨key, value⟩ := member
      have hvalue : value.IsPlain := h (key, value) List.mem_cons_self
      have hmore := ih fun next hnext => h next (List.mem_cons_of_mem _ hnext)
      intro word hword
      -- A comma stands between two members only.
      cases members with
      | nil =>
        rw [wordsOfMembers, List.mem_cons, List.mem_cons] at hword
        rcases hword with rfl | rfl | hword
        · rfl
        · rfl
        · exact hvalue word hword
      | cons next members =>
        rw [wordsOfMembers, List.cons_append, List.cons_append, List.mem_cons, List.mem_cons,
          List.mem_append, List.mem_cons] at hword
        · rcases hword with rfl | rfl | hword | rfl | hword
          · rfl
          · rfl
          · exact hvalue word hword
          · rfl
          · exact hmore word hword
        · simp
  intro word hword
  rw [words, List.mem_append, List.mem_cons, List.mem_singleton] at hword
  rcases hword with (rfl | hword) | rfl
  · rfl
  · exact hmembers word hword
  · rfl

end ScriptSense.Json
