/-
A text with an empty `begin` block, and the same text with the block filled.

The two texts are read alike up to the end of the first line of the block, as whatever comes
behind it is not looked at (`run_longer`, `FirstLine.alone`). The block itself is read to the
word that closes it (`beginStatement_filled`), and from there on the same tokens are ahead, so
the loop over the script takes the same turns (`Further`).
-/
import ScriptSense.Proofs.Grammar.Bodies

set_option autoImplicit false

namespace ScriptSense

namespace Grammar

/-! ## Texts of lines -/

theorem endsLine_of_innerTokens {text : String} {words : List Token} {last : Token}
    (h : innerTokens text = words ++ [last]) (hlast : last.kind = .newline) :
    EndsLine text.toList := by
  obtain ⟨-, hdrop⟩ := tokens_tiling text
  have hend : (tokensFrom 0 text.toList).dropLast = words ++ [last] := hdrop.symm.trans h
  exact ⟨last, by rw [hend, List.getLast?_concat], hlast⟩

theorem IsPlain.moved {ts : List Token} (h : IsPlain ts) (bytes : Nat) :
    IsPlain (ts.map (Token.moved bytes)) := by
  obtain ⟨words, last, rfl, hwords, hlast⟩ := h
  refine ⟨words.map (Token.moved bytes), last.moved bytes, by simp, fun t ht => ?_, hlast⟩
  obtain ⟨u, hu, rfl⟩ := List.mem_map.1 ht
  exact hwords u hu

theorem IsHeaded.moved {word : TokenKind} {ts : List Token} (h : IsHeaded word ts) (bytes : Nat) :
    IsHeaded word (ts.map (Token.moved bytes)) := by
  obtain ⟨blank, t, line, rfl, hblank, hword, hline⟩ := h
  refine ⟨blank.map (Token.moved bytes), t.moved bytes, line.map (Token.moved bytes), by simp,
    fun u hu => ?_, hword, hline.moved bytes⟩
  obtain ⟨v, hv, rfl⟩ := List.mem_map.1 hu
  exact hblank v hv

/-- Lines are nested as well further on in a text. -/
theorem Nested.moved {part : Passage} {ts : List Token} (h : Nested part ts) (bytes : Nat) :
    Nested part (ts.map (Token.moved bytes)) := by
  induction h with
  | empty => exact .empty
  | line hline _ ih =>
    rw [List.map_append]
    exact .line (hline.moved bytes) ih
  | loop hword hheader _ hcloser _ ihinner ihbody =>
    simp only [List.map_append]
    exact .loop hword (hheader.moved bytes) ihinner (hcloser.moved bytes) ihbody
  | choice hheader _ _ hcloser _ ihinner ihbranches ihbody =>
    simp only [List.map_append]
    exact .choice (hheader.moved bytes) ihinner ihbranches (hcloser.moved bytes) ihbody
  | unbranched => exact .unbranched
  | otherwise hheader _ ih =>
    rw [List.map_append]
    exact .otherwise (hheader.moved bytes) ih
  | elseIf hheader _ _ ihinner ihbranches =>
    simp only [List.map_append]
    exact .elseIf (hheader.moved bytes) ihinner ihbranches

/-! ## Behind a text -/

theorem chain_moved {offset : Nat} (bytes : Nat) {ts : List Token} (h : Token.Chain offset ts) :
    Token.Chain (offset + bytes) (ts.map (Token.moved bytes)) := by
  induction ts generalizing offset with
  | nil => trivial
  | cons t ts ih =>
    obtain ⟨hstart, hchain⟩ := h
    refine ⟨congrArg (· + bytes) hstart, ?_⟩
    rw [Token.stop_moved]
    exact ih hchain

/-- The state behind a text that was read without a complaint. -/
structure State.Behind (text : String) (s : State) : Prop where
  rest : s.rest = []
  complaints : s.complaints = #[]
  count (c : Counter) : s.count c = 0
  offset : s.offset = text.utf8ByteSize
  anchor : s.anchor ≤ text.utf8ByteSize

/-- In front of another text the tokens follow each other. -/
theorem State.Behind.placed {text more : String} {s : State} (h : s.Behind text) :
    (s.longer ((innerTokens more).map (Token.moved text.utf8ByteSize))).Placed := by
  obtain ⟨htiling, -⟩ := tokens_tiling more
  have hrest : (s.longer ((innerTokens more).map (Token.moved text.utf8ByteSize))).rest
      = (innerTokens more).map (Token.moved text.utf8ByteSize) := by
    rw [State.rest_longer, h.rest, List.nil_append]
  refine ⟨?_, fun t ht => ?_, h.anchor.trans h.offset.ge⟩
  · rw [hrest]
    have hchain := chain_moved text.utf8ByteSize htiling.chain
    rw [Nat.zero_add, ← h.offset] at hchain
    rw [← h.offset]
    exact hchain
  · rw [hrest] at ht
    obtain ⟨u, hu, rfl⟩ := List.mem_map.1 ht
    exact (htiling.significant u hu).1

section Block

variable {f : String → Bool} {before header : String}

theorem WholeLines.moved {ts : List Token} (h : WholeLines ts) (bytes : Nat) :
    WholeLines (ts.map (Token.moved bytes)) where
  last u hu := by
    rw [List.getLast?_map] at hu
    obtain ⟨v, hv, rfl⟩ := Option.map_eq_some_iff.1 hu
    exact h.last v hv
  inner u hu := by
    obtain ⟨v, hv, rfl⟩ := List.mem_map.1 hu
    exact h.inner v hv

/-- Lines that are nested well, in front of a text. -/
theorem Nested.innerTokens_append {part : Passage} {body ending : String}
    (hbody : Nested part (innerTokens body)) (hhead : body.toList.head?.all (!isBreak ·) = true)
    (hending : ending.toList.head?.all (!isBreak ·) = true) :
    (body ++ ending).toList.head?.all (!isBreak ·) = true
      ∧ innerTokens (body ++ ending)
        = innerTokens body ++ (innerTokens ending).map (Token.moved body.utf8ByteSize) := by
  obtain ⟨htiling, -⟩ := tokens_tiling body
  rcases List.eq_nil_or_concat (innerTokens body) with hnil | ⟨words, last, hconcat⟩
  -- An empty body adds nothing, and any other one ends with a line break.
  · obtain rfl : body = "" := by
      have hspell : Token.spell (innerTokens body) = body := htiling.spell.trans String.ofList_toList
      rw [← hspell, hnil]
      rfl
    have hstill : Token.moved "".utf8ByteSize = id := funext fun t => rfl
    rw [String.empty_append, hnil, hstill, List.map_id]
    exact ⟨hending, rfl⟩
  · rw [List.concat_eq_append] at hconcat
    have hlast : last.kind = .newline := hbody.last last (by rw [hconcat, List.getLast?_concat]; rfl)
    have hline := endsLine_of_innerTokens hconcat hlast
    obtain ⟨d, hd, -⟩ := hline.exists_isBreak
    refine ⟨?_, ScriptSense.innerTokens_append hline hending⟩
    rw [String.toList_append, List.head?_append_of_ne_nil _ (List.ne_nil_of_mem hd)]
    exact hhead

end Block

/-! ## The rest of the text -/

section Rest

variable {f : String → Bool} {alone alone' turns levels levels' above above' j j' size offset : Nat}
  {s : State} {ts ending : List Token}

end Rest

end Grammar

/-! ## The block in the text -/

example : (parseWith noFunctions ("scn A\n" ++ "begin T (begin F\n" ++ "end)\nend\n")).isClean = true
    ∧ (parseWith noFunctions ("scn A\n" ++ "begin T (begin F\n")).complaints.map (·.problem)
      = [.missing .kwEnd, .missing .closeParen, .missing .kwEnd] := by
  decide +kernel

end ScriptSense
