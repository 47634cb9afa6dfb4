/-
No reading loses, doubles or reorders a token.

Tokens move by `State.shift` only, from the front of what is ahead to the end of
what is built, and a node is closed around children that are already there. So
the leaves built so far followed by the tokens ahead are the same list all the
time (`advances_frame`), and since the rest of the text goes to the root, the
leaves of the root are the tokens of the text. Nothing is said here about the
rules: the frame holds for whatever is made of the makings of the grammar.
-/
import ScriptSense.Proofs.Grammar.Shape
import ScriptSense.Proofs.Lexing
import ScriptSense.Syntax.Parse

set_option autoImplicit false

namespace ScriptSense

open ScriptSense.Tree (leavesOfAll)

namespace Grammar

/-! ## Places -/

/-- If the tokens ahead follow each other from the offset on, they still do so and
end where they ended. -/
def StaysChained (s t : State) : Prop :=
  Token.Chain s.offset s.rest →
    Token.Chain t.offset t.rest ∧ t.offset + byteLength (Token.spell t.rest).toList
      = s.offset + byteLength (Token.spell s.rest).toList

theorem staysChained_moves : Moves StaysChained where
  same hrest _ hoffset h := by
    rw [← hrest, ← hoffset]
    exact ⟨h, rfl⟩
  trans hst htu h := by
    obtain ⟨ht, hend⟩ := hst h
    obtain ⟨hu, hend'⟩ := htu ht
    exact ⟨hu, hend'.trans hend⟩
  shift s h := by
    cases hrest : s.rest with
    | nil =>
      have hsame : s.shift = s := by simp [State.shift, hrest]
      rw [hsame, hrest]
      exact ⟨hrest ▸ h, rfl⟩
    | cons t ts =>
      rw [hrest] at h
      obtain ⟨hstart, hchain⟩ := h
      rw [State.shift_of_rest hrest]
      refine ⟨hchain, ?_⟩
      simp only [Token.toList_spell, List.flatMap_cons, byteLength_append, Token.stop, hstart,
        utf8ByteSize_eq]
      omega
  enclose _ _ _ _ _ _ _ h := h

/-! ## Whole readings -/

/-- The root takes all that is left. -/
theorem leaves_root (kind : NodeKind) (s : State) :
    (s.root kind).leaves = leavesOfAll s.out.toList ++ s.rest := by
  obtain ⟨moved, hrest, hout⟩ := advances_moves.shiftMany s.rest.length s
  rw [State.rest_shiftMany, List.drop_length, List.append_nil] at hrest
  rw [State.root, Tree.leaves_node, hout, hrest]

/-- The root spans the text. -/
theorem span_root (kind : NodeKind) {s : State} (h : Token.Chain s.offset s.rest) :
    (s.root kind).span = ⟨0, s.offset + byteLength (Token.spell s.rest).toList⟩ := by
  obtain ⟨-, hend⟩ := staysChained_moves.shiftMany s.rest.length s h
  rw [State.rest_shiftMany, List.drop_length] at hend
  simp only [Token.spell_nil, String.toList_empty, byteLength_nil, Nat.add_zero] at hend
  rw [State.root, Tree.span, hend]

end Grammar

/-- A tree over a text: it spans the text, and its leaves are the tokens of the
text without the last one, which is the only one of kind `eof`. -/
structure Covers (root : Tree) (text : String) : Prop where
  leaves : root.leaves = (tokens text).dropLast
  eof : tokens text = root.leaves ++ [⟨.eof, text.utf8ByteSize, ""⟩]
  span : root.span = ⟨0, text.utf8ByteSize⟩
  text : root.text = text

open Grammar in
/-- **A reading keeps every token**, whatever content it reads, as long as that is
made of the makings of the grammar. -/
theorem covers_ofContent {content : Rules → Step Unit} {i : Sync} {o : Unit → Sync}
    (hcontent : ∀ R : Rules, R.Alike R → Alike i o (content R) (content R)) (kind : NodeKind)
    (isFunction : String → Bool) (text : String) :
    Covers (Parse.ofContent kind content isFunction text).root text := by
  obtain ⟨htiling, hbody⟩ := tokens_tiling text
  set start := State.initial (tokens text) with hstart
  have hrest : start.rest = (tokens text).dropLast := hbody
  have hchain : Token.Chain start.offset start.rest := htiling.chain
  have hspell : Token.spell start.rest = text := by
    rw [hstart, State.initial, htiling.spell, String.ofList_toList]
  have halike := hcontent _ (rules_alike_self isFunction (levelsFor start.rest.length))
  set s := run isFunction content (tokens text) with hs
  have hleaves : (s.root kind).leaves = (tokens text).dropLast := by
    obtain ⟨moved, hmoved, hout⟩ := halike.frame advances_frame start
    have hnil : leavesOfAll start.out.toList = [] := Tree.leavesOfAll_nil
    rw [hnil, List.nil_append] at hout
    calc (s.root kind).leaves = leavesOfAll s.out.toList ++ s.rest := leaves_root kind s
      _ = moved ++ s.rest := by rw [← hout]; rfl
      _ = start.rest := hmoved.symm
      _ = (tokens text).dropLast := hrest
  have hspan : (s.root kind).span = ⟨0, text.utf8ByteSize⟩ := by
    obtain ⟨hend, hsum⟩ := halike.frame staysChained_moves.frame start hchain
    rw [hspell, ← utf8ByteSize_eq text] at hsum
    rw [span_root kind (s := s) hend]
    exact congrArg (Span.mk 0) (hsum.trans (Nat.zero_add _))
  refine ⟨hleaves, ?_, hspan, ?_⟩
  · obtain ⟨body, -, htokens⟩ := tokensFrom_tiling 0 text.toList
    rw [Nat.zero_add, ← utf8ByteSize_eq] at htokens
    have hsplit : (tokens text).dropLast = body := by
      rw [tokens, htokens, List.dropLast_concat]
    change tokens text = (s.root kind).leaves ++ _
    rw [hleaves, hsplit, tokens, htokens]
  · change Token.spell (s.root kind).leaves = text
    rw [hleaves, ← hrest, hspell]

end ScriptSense
