/-
The cut of a text into tokens is exact.

The scanner answers a kind and a length, and everything here rests on two facts
about them: the length is at least one and at most what is left of the text, and
the kind is never `eof`. So the list of tokens is a chain from the first offset
of the text to its last, which spells the text, followed by the one token of
kind `eof` that ends every list.
-/
import Mathlib.Tactic.Set
import Mathlib.Tactic.SplitIfs
import ScriptSense.Syntax.Token

set_option autoImplicit false

namespace ScriptSense

/-! ## Texts as lists of characters -/

/-- The bytes of a text are those of its characters. -/
@[simp] theorem utf8ByteSize_ofList (cs : List Char) :
    (String.ofList cs).utf8ByteSize = byteLength cs := by
  induction cs with
  | nil => rfl
  | cons c cs ih =>
    have hc : String.ofList (c :: cs) = String.singleton c ++ String.ofList cs := by
      rw [String.singleton_eq_ofList, ← String.ofList_append, List.singleton_append]
    rw [hc, String.utf8ByteSize_append, String.utf8ByteSize_singleton, ih, byteLength_cons]

theorem utf8ByteSize_eq (text : String) : text.utf8ByteSize = byteLength text.toList := by
  rw [← utf8ByteSize_ofList, String.ofList_toList]

/-! ## The answers of the scanner -/

namespace TokenKind

/-- A word is never the end of the text. -/
theorem ofWord_ne_eof (word : String) : ofWord word ≠ .eof := by
  have hall : ∀ entry ∈ wordTable, entry.2 ≠ .eof := by decide
  unfold ofWord
  cases h : wordTable.lookup (foldCase word) with
  | none => simp
  | some kind =>
    obtain ⟨before, after, hsplit, -⟩ := List.lookup_eq_some_iff.1 h
    have hin : (foldCase word, kind) ∈ wordTable := by rw [hsplit]; simp
    exact hall _ hin

end TokenKind

namespace Lead

theorem isDigit_of {c : Char} (h : Lead.of c = .digit) : c.isDigit = true := by
  unfold Lead.of at h
  split_ifs at h
  assumption

theorem isWordChar_of {c : Char} (h : Lead.of c = .letter) : isWordChar c = true := by
  unfold Lead.of at h
  split_ifs at h
  assumption

end Lead

namespace Scan

theorem run_le (p : Char → Bool) (cs : List Char) : run p cs ≤ cs.length :=
  (List.takeWhile_sublist p).length_le

theorem run_pos {p : Char → Bool} {c : Char} {cs : List Char} (h : p c = true) :
    0 < run p (c :: cs) := by
  simp [run, h]

/-- An answer of the scanner in front of `size` characters: it takes some of them
and does not say that there are none. -/
structure Sound (size : Nat) (answer : TokenKind × Nat) : Prop where
  pos : 0 < answer.2
  le : answer.2 ≤ size
  kind : answer.1 ≠ .eof

theorem word_sound {c : Char} {cs : List Char} (h : isWordChar c = true) :
    Sound (c :: cs).length (word (c :: cs)) := by
  have hpos : 0 < run isWordChar (c :: cs) := run_pos h
  have hle : run isWordChar (c :: cs) ≤ (c :: cs).length := run_le _ _
  refine ⟨hpos, hle, ?_⟩
  -- The pair has to be opened first, or the table of words is searched.
  dsimp only [word]
  exact TokenKind.ofWord_ne_eof _

theorem hexLength?_bounds {cs : List Char} {n : Nat} (h : hexLength? cs = some n) :
    0 < n ∧ n ≤ cs.length := by
  unfold hexLength? at h
  split at h
  · next x cs =>
    have hle : run isHexDigit cs ≤ cs.length := run_le _ _
    simp only [Option.ite_none_right_eq_some, Option.some.injEq] at h
    simp only [List.length_cons]
    omega
  · simp at h

theorem decimalLength_le (cs : List Char) : decimalLength cs ≤ cs.length := by
  have hle : run Char.isDigit cs ≤ cs.length := run_le _ _
  unfold decimalLength
  simp only
  split
  · next fraction hdrop =>
    have hlen : (cs.drop (run Char.isDigit cs)).length = fraction.length + 1 := by rw [hdrop]; rfl
    have hfrac : run Char.isDigit fraction ≤ fraction.length := run_le _ _
    rw [List.length_drop] at hlen
    split <;> omega
  · exact hle

theorem run_le_decimalLength (cs : List Char) : run Char.isDigit cs ≤ decimalLength cs := by
  unfold decimalLength
  simp only
  split
  · split <;> omega
  · exact Nat.le_refl _

theorem isWordChar_of_isDigit {c : Char} (h : c.isDigit = true) : isWordChar c = true := by
  simp [isWordChar, Char.isAlphanum, h]

theorem digits_sound {c : Char} {cs : List Char} (h : c.isDigit = true) :
    Sound (c :: cs).length (digits (c :: cs)) := by
  unfold digits
  split
  · next n hhex =>
    obtain ⟨hpos, hle⟩ := hexLength?_bounds hhex
    exact ⟨hpos, hle, by simp⟩
  · simp only
    split
    · exact word_sound (isWordChar_of_isDigit h)
    · have hrun : 0 < run Char.isDigit (c :: cs) := run_pos h
      exact ⟨Nat.lt_of_lt_of_le hrun (run_le_decimalLength _), decimalLength_le _, by simp⟩

theorem point_sound (c : Char) (rest : List Char) : Sound (c :: rest).length (point rest) := by
  have hle : run Char.isDigit rest ≤ rest.length := run_le _ _
  unfold point
  simp only
  split
  · exact ⟨by simp, by simp only [List.length_cons]; omega, by simp⟩
  · exact ⟨by simp, by simp, by simp⟩

theorem quoted_sound (quote c : Char) (rest : List Char) :
    Sound (c :: rest).length (quoted quote rest) := by
  have hle : run (· != quote) rest ≤ rest.length := run_le _ _
  unfold quoted
  refine ⟨?_, ?_, by simp⟩
  · simp only; split <;> omega
  · simp only [List.length_cons]
    split
    · omega
    · next hrest =>
      -- The closing quote is one of the characters left.
      have hlt : run (· != quote) rest < rest.length := by
        simpa [List.isEmpty_iff] using hrest
      omega

theorem pair?_ne_eof (a b : Char) : pair? a b ≠ some .eof := by
  unfold pair?
  split <;> simp

theorem single?_ne_eof (c : Char) : single? c ≠ some .eof := by
  unfold single?
  split <;> simp

theorem operator_sound (c : Char) (rest : List Char) :
    Sound (c :: rest).length (operator c rest) := by
  unfold operator
  split
  · next kind hpair =>
    obtain ⟨b, hhead, hkind⟩ := Option.bind_eq_some_iff.1 hpair
    have hrest : rest ≠ [] := by rintro rfl; simp at hhead
    have hlen : 0 < rest.length := List.length_pos_iff.2 hrest
    exact ⟨by simp, by simp only [List.length_cons]; omega, fun h => pair?_ne_eof c b (h ▸ hkind)⟩
  · refine ⟨by simp, by simp, ?_⟩
    cases hs : single? c with
    | none => simp
    | some kind => exact fun h => single?_ne_eof c (by rw [hs]; simpa using h)

/-- **The scanner always takes something.** -/
theorem next_sound (c : Char) (rest : List Char) : Sound (c :: rest).length (next c rest) := by
  have hrun (p : Char → Bool) : run p rest + 1 ≤ (c :: rest).length := by
    have := run_le p rest
    simp only [List.length_cons]
    omega
  unfold next
  cases hlead : Lead.of c with
  | gap => exact ⟨by simp, hrun _, by simp⟩
  | lineBreak => exact ⟨by simp, hrun _, by simp⟩
  | semicolon => exact ⟨by simp, hrun _, by simp⟩
  | quote => exact quoted_sound c c rest
  | digit => exact digits_sound (Lead.isDigit_of hlead)
  | letter => exact word_sound (Lead.isWordChar_of hlead)
  | point => exact point_sound c rest
  | other => exact operator_sound c rest

end Scan

/-! ## The tokens of a text -/

namespace Token

/-- The tokens follow each other without gap or overlap, the first one at an
offset. -/
def Chain : Nat → List Token → Prop
  | _, [] => True
  | offset, t :: ts => t.start = offset ∧ Chain t.stop ts

@[simp] theorem spell_nil : spell [] = "" := rfl

theorem toList_spell (ts : List Token) : (spell ts).toList = ts.flatMap fun t => t.text.toList :=
  String.toList_ofList

theorem chain_append {offset : Nat} {ts us : List Token} (hts : Chain offset ts)
    (hus : Chain (offset + byteLength (spell ts).toList) us) : Chain offset (ts ++ us) := by
  induction ts generalizing offset with
  | nil => simpa using hus
  | cons t ts ih =>
    obtain ⟨hstart, hts⟩ := hts
    refine ⟨hstart, ih hts ?_⟩
    rw [toList_spell, List.flatMap_cons, byteLength_append, ← utf8ByteSize_eq] at hus
    rw [toList_spell]
    have hsum : t.stop + byteLength (ts.flatMap fun t => t.text.toList)
        = offset + (t.text.utf8ByteSize + byteLength (ts.flatMap fun t => t.text.toList)) := by
      simp only [stop, hstart]
      omega
    rw [hsum]
    exact hus

end Token

/-- The first token of a text, and the rest of the text. -/
theorem tokensFrom_cons (offset : Nat) (c : Char) (rest : List Char) :
    tokensFrom offset (c :: rest)
      = ⟨(Scan.next c rest).1, offset, String.ofList ((c :: rest).take (Scan.next c rest).2)⟩
        :: tokensFrom (offset + byteLength ((c :: rest).take (Scan.next c rest).2))
            ((c :: rest).drop (Scan.next c rest).2) := by
  have hpos := (Scan.next_sound c rest).pos
  rw [tokensFrom]
  simp only [utf8ByteSize_ofList]
  congr 2
  obtain ⟨n, hn⟩ : ∃ n, (Scan.next c rest).2 = n + 1 := ⟨_, (Nat.sub_add_cancel hpos).symm⟩
  rw [hn]
  rfl

/-- What the tokens of a text are, but for the last one. -/
structure Tiling (offset : Nat) (cs : List Char) (body : List Token) : Prop where
  chain : Token.Chain offset body
  spell : Token.spell body = String.ofList cs
  significant : ∀ t ∈ body, t.kind ≠ .eof ∧ t.text ≠ ""

/-- **The tokens tile the text**: a chain of tokens that spells it, and `eof`. -/
theorem tokensFrom_tiling (offset : Nat) (cs : List Char) :
    ∃ body, Tiling offset cs body
      ∧ tokensFrom offset cs = body ++ [⟨.eof, offset + byteLength cs, ""⟩] := by
  -- The scanner takes at least one character, so what is left is shorter.
  induction hlen : cs.length using Nat.strongRecOn generalizing offset cs with
  | _ n ih =>
    cases cs with
    | nil => exact ⟨[], ⟨trivial, rfl, by simp⟩, by rw [tokensFrom]; rfl⟩
    | cons c rest =>
      have hsound := Scan.next_sound c rest
      set taken := (c :: rest).take (Scan.next c rest).2 with htaken
      set left := (c :: rest).drop (Scan.next c rest).2 with hleft
      have hsplit : taken ++ left = c :: rest := List.take_append_drop _ _
      have hshort : left.length < n := by
        have := hsound.pos
        rw [hleft, List.length_drop, ← hlen]
        simp only [List.length_cons]
        omega
      obtain ⟨body, htiling, heq⟩ := ih _ hshort (offset + byteLength taken) left rfl
      refine ⟨⟨(Scan.next c rest).1, offset, String.ofList taken⟩ :: body, ⟨?_, ?_, ?_⟩, ?_⟩
      · refine ⟨rfl, ?_⟩
        simpa [Token.stop] using htiling.chain
      · have hbody := htiling.spell
        simp only [Token.spell] at hbody ⊢
        rw [List.flatMap_cons, String.ofList_append, hbody, String.toList_ofList,
          ← String.ofList_append, hsplit]
      · intro t ht
        rcases List.mem_cons.1 ht with rfl | ht
        · refine ⟨hsound.kind, fun h => ?_⟩
          have hnil : taken = [] := String.ofList_eq_empty_iff.1 h
          have := hsound.pos
          simp only [htaken, List.take_eq_nil_iff, List.cons_ne_nil, or_false] at hnil
          omega
        · exact htiling.significant t ht
      · have hlength : byteLength (c :: rest) = byteLength taken + byteLength left := by
          rw [← hsplit, byteLength_append]
        rw [tokensFrom_cons, heq, hlength, Nat.add_assoc]
        rfl

/-- The tokens of a text without the last one, which is the only one of kind
`eof`. -/
theorem tokens_tiling (text : String) :
    Tiling 0 text.toList ((tokens text).filter (·.kind != .eof))
      ∧ (tokens text).filter (·.kind != .eof) = (tokens text).dropLast := by
  obtain ⟨body, htiling, heq⟩ := tokensFrom_tiling 0 text.toList
  have hbody : body.filter (·.kind != .eof) = body :=
    List.filter_eq_self.2 fun t ht => by simpa using (htiling.significant t ht).1
  have hfilter : (tokens text).filter (·.kind != .eof) = body := by
    rw [tokens, heq, List.filter_append, hbody]
    simp
  rw [hfilter, tokens, heq, List.dropLast_concat]
  exact ⟨htiling, rfl⟩

end ScriptSense
