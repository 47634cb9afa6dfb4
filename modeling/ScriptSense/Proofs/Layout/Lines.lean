/-
A layout keeps what a text means.

The edits of a layout are gone through line by line. Those of a line turn its
indentation, the words in it and the blank space at its end into what they should be,
piece by piece, so they lie side by side (`Edit.Turns`). What a line is turned into is
scanned into the same tokens but for the blank space at its edges, and the line breaks
are kept. So the text that was laid out has the same lines (`Relaid`), and whoever reads
it learns the same.
-/
import ScriptSense.Editor.Layout
import ScriptSense.Proofs.Layout.Editing
import ScriptSense.Proofs.Layout.Relexing

set_option autoImplicit false

namespace ScriptSense

open Token (chars)
open Edit (Turns)
open Grammar (isLineBreak)

/-! ## Lines of tokens -/

namespace Line

end Line

/-! ## The parts of a line -/

/-- The token is blank space. -/
def Token.isBlank (t : Token) : Bool := t.kind == .whitespace

theorem Token.kind_of_isBlank {t : Token} (h : t.isBlank = true) : t.kind = .whitespace :=
  eq_of_beq h

/-- Blank space is one token. -/
theorem Cut.isBlank_next {t u : Token} {ts : List Token} {rest : List Char}
    (h : Cut (t :: u :: ts) rest) (ht : t.isBlank = true) : u.isBlank = false := by
  by_contra hu
  have hfirst := h.lexeme
  rw [Token.chars_cons, List.append_assoc] at hfirst
  have hsecond := h.tail.lexeme
  exact hfirst.not_merges hsecond (.inl ⟨Token.kind_of_isBlank ht,
    Token.kind_of_isBlank (eq_true_of_ne_false hu)⟩)

/-- **The parts of a line with content**: behind the blank space in front a first token
and more, which are a body without blank space at its edges and blank space. -/
structure Line.Parts (l : Line) (first : TokenSite) (more : List TokenSite)
    (body back : List Token) : Prop where
  content : l.content = first :: more
  items : (first :: more).map Site.item = body ++ back
  begins : body.head? = some first.item
  head : first.item.isBlank = false
  last : body.getLast?.all (!·.isBlank) = true
  back : back = [] ∨ ∃ t, back = [t] ∧ t.isBlank = true

namespace Line

variable {l : Line} {rest : List Char}

theorem indent?_append_content (l : Line) :
    l.tokens.map Site.item = l.indent?.toList ++ l.content.map Site.item := by
  unfold content indent?
  cases l.tokens with
  | nil => rfl
  | cons s tokens =>
    change _ = (Option.filter _ (some s.item)).toList ++ _
    rw [List.head?_cons, Option.map_some, Option.filter_some]
    cases s.item.kind == .whitespace <;> rfl

theorem isBlank_of_indent? {t : Token} (h : l.indent? = some t) : t.isBlank = true :=
  (Option.filter_eq_some_iff.1 h).2

/-- The content does not begin with blank space. -/
theorem isBlank_content (h : Cut (l.tokens.map Site.item) rest) {s : TokenSite}
    {more : List TokenSite} (hs : l.content = s :: more) : s.item.isBlank = false := by
  cases hindent : l.indent? with
  | some blank =>
    rw [l.indent?_append_content, hindent, hs] at h
    exact h.isBlank_next (isBlank_of_indent? hindent)
  | none =>
    have hsame : l.tokens = s :: more := by
      rw [← hs, content, hindent]
      rfl
    -- A blank token at the front would have been the indentation.
    by_contra hblank
    have hfound : l.indent? = some s.item := by
      rw [indent?, hsame]
      exact Option.filter_eq_some_iff.2 ⟨rfl, eq_true_of_ne_false hblank⟩
    rw [hindent] at hfound
    cases hfound

/-- **A line has no content, or it has its parts.** -/
theorem parts (h : Cut (l.tokens.map Site.item) rest) :
    l.content = [] ∨ ∃ first more body back, l.Parts first more body back := by
  cases hcontent : l.content with
  | nil => exact .inl rfl
  | cons first more =>
    refine .inr ⟨first, more, ?_⟩
    have hhead := isBlank_content h hcontent
    have hcut : Cut ((first :: more).map Site.item) rest := by
      rw [l.indent?_append_content, hcontent] at h
      exact h.split.2
    obtain ⟨front, last, hsplit⟩ : ∃ front last, (first :: more).map Site.item = front ++ [last] :=
      ⟨_, _, (List.dropLast_concat_getLast (List.cons_ne_nil _ _)).symm⟩
    cases hlast : last.isBlank with
    | false =>
      have hbody : (first :: more).map Site.item = (front ++ [last]) ++ [] := by
        rw [hsplit, List.append_nil]
      refine ⟨front ++ [last], [], hcontent, hbody, ?_, hhead, ?_, .inl rfl⟩
      · rw [← hsplit]
        rfl
      · rw [List.getLast?_concat]
        simpa using hlast
    | true =>
      have hbegins : front.head? = some first.item := by
        cases front with
        | nil =>
          have hfirst : first.item = last := (List.cons.inj hsplit).1
          rw [hfirst, hlast] at hhead
          cases hhead
        | cons t front => exact congrArg some (List.cons.inj hsplit).1.symm
      refine ⟨front, [last], hcontent, hsplit, hbegins, hhead, ?_, .inr ⟨last, rfl, hlast⟩⟩
      -- Blank space would be one token with the last one.
      rcases List.eq_nil_or_concat front with rfl | ⟨before, t, rfl⟩
      · rfl
      · rw [hsplit, List.concat_eq_append, List.append_assoc] at hcut
        have hpair := hcut.split.2
        rw [List.concat_eq_append, List.getLast?_concat, Option.all_some]
        by_contra hblank
        rw [hpair.isBlank_next (by simpa using hblank)] at hlast
        cases hlast

end Line

/-! ## The edits of a line -/

namespace Layout

/-- An edit may replace a token. -/
theorem turns_token (t : Token) (new : String) :
    Turns t.start t.text.toList [⟨t.span, new⟩] new.toList := by
  have hspan : t.span = ⟨t.start, t.start + byteLength t.text.toList⟩ := by
    rw [← utf8ByteSize_eq]
    rfl
  rw [hspan]
  exact .replace _ _ new

theorem turns_word (style : KeywordStyle) (t : Token) :
    Turns t.start t.text.toList (caseEdits style t) (t.styled style).text.toList := by
  unfold caseEdits Token.styled
  split
  · dsimp only
    split
    · next hsame =>
      rw [hsame]
      exact .keep _ _
    · exact turns_token t _
  · exact .keep _ _

/-- The words of a run of tokens. -/
theorem turns_words (style : KeywordStyle) {a : Nat} {ts : List Token} (h : Token.Chain a ts) :
    Turns a (chars ts) (ts.flatMap (caseEdits style)) (chars (ts.map (Token.styled style))) := by
  induction ts generalizing a with
  | nil => exact .keep a []
  | cons t ts ih =>
    obtain ⟨rfl, hts⟩ := h
    rw [Token.stop, utf8ByteSize_eq] at hts
    exact (turns_word style t).append (ih hts)

/-- The blank space in front of a line. -/
theorem turns_indent (wanted : String) {a : Nat} {indent : Option Token}
    (h : ∀ t ∈ indent, t.start = a) {start : Nat}
    (hstart : start = a + byteLength (chars indent.toList)) :
    Turns a (chars indent.toList) (indentEdits wanted indent start) wanted.toList := by
  cases indent with
  | none =>
    have hnone : chars (none : Option Token).toList = [] := rfl
    rw [hnone, byteLength_nil, Nat.add_zero] at hstart
    rw [hnone, hstart, indentEdits]
    -- Where the indentation is as wanted nothing is edited.
    split
    · next hempty =>
      rw [String.isEmpty_iff.1 hempty]
      exact .keep a []
    · exact .replace a [] wanted
  | some t =>
    obtain rfl := h t rfl
    have hchars : chars (some t).toList = t.text.toList := List.append_nil _
    rw [hchars, indentEdits]
    split
    · next hsame =>
      rw [hsame]
      exact .keep _ _
    · exact turns_token t wanted

/-- The blank space at the end of a line. -/
theorem turns_trailing {a : Nat} {last : Token} {back : List Token} (hchain : Token.Chain a back)
    (hback : back = [] ∧ last.isBlank = false ∨ back = [last] ∧ last.isBlank = true) {stop : Nat}
    (hstop : stop = a + byteLength (chars back)) :
    Turns a (chars back) (trailingEdits last stop) [] := by
  rcases hback with ⟨rfl, hlast⟩ | ⟨rfl, hlast⟩
  · rw [trailingEdits, if_neg (by simpa [Token.isBlank] using hlast)]
    exact .keep a []
  · obtain ⟨rfl, -⟩ := hchain
    have hchars : chars [last] = last.text.toList := List.append_nil _
    rw [hchars] at hstop ⊢
    rw [trailingEdits, if_pos (by simpa [Token.isBlank] using hlast), hstop]
    exact .replace _ _ ""

end Layout

theorem Token.Chain.split {a : Nat} {ts us : List Token} (h : Token.Chain a (ts ++ us)) :
    Token.Chain a ts ∧ Token.Chain (a + byteLength (chars ts)) us := by
  induction ts generalizing a with
  | nil => exact ⟨trivial, h⟩
  | cons t ts ih =>
    obtain ⟨rfl, hrest⟩ := h
    obtain ⟨hts, hus⟩ := ih hrest
    refine ⟨⟨rfl, hts⟩, ?_⟩
    rwa [Token.stop, utf8ByteSize_eq, Nat.add_assoc, ← byteLength_append] at hus

namespace Line.Parts

variable {l : Line} {first : TokenSite} {more : List TokenSite} {body back : List Token}

theorem tokens (h : l.Parts first more body back) :
    l.tokens.map Site.item = l.indent?.toList ++ (body ++ back) := by
  rw [l.indent?_append_content, h.content, h.items]

/-- The last token is blank space if anything is behind the body. -/
theorem getLast (h : l.Parts first more body back) :
    back = [] ∧ ((first :: more).getLast (List.cons_ne_nil _ _)).item.isBlank = false
      ∨ back = [((first :: more).getLast (List.cons_ne_nil _ _)).item]
        ∧ ((first :: more).getLast (List.cons_ne_nil _ _)).item.isBlank = true := by
  have hlast : (body ++ back).getLast?
      = some ((first :: more).getLast (List.cons_ne_nil _ _)).item := by
    rw [← h.items, List.getLast?_map, List.getLast?_eq_getLast_of_ne_nil (List.cons_ne_nil _ _)]
    rfl
  -- The line ends with a blank token or with none.
  rcases h.back with rfl | ⟨t, rfl, ht⟩
  · have hinked := h.last
    rw [List.append_nil] at hlast
    rw [hlast] at hinked
    exact .inl ⟨rfl, by simpa using hinked⟩
  · rw [List.getLast?_concat, Option.some_inj] at hlast
    rw [← hlast]
    exact .inr ⟨rfl, ht⟩

/-- The edits of a line with content: those in front of it, those of its body, and those
behind it. -/
theorem lineEdits_eq (settings : Settings) (h : l.Parts first more body back) :
    Layout.lineEdits settings l
      = Layout.indentEdits (settings.indentation first.blockDepth) l.indent? first.item.start
        ++ body.flatMap (Layout.caseEdits settings.keywordStyle)
        ++ Layout.trailingEdits ((first :: more).getLast (List.cons_ne_nil _ _)).item l.stop := by
  -- The blank at the end of the line is no word, so its case is not edited.
  have hnone : back.flatMap (Layout.caseEdits settings.keywordStyle) = [] := by
    rcases h.back with rfl | ⟨t, rfl, ht⟩
    · rfl
    · have hkind := Token.kind_of_isBlank ht
      have hword : ¬ (TokenKind.whitespace.isKeyword || TokenKind.whitespace.isTypeName) = true := by
        decide
      rw [List.flatMap_singleton, Layout.caseEdits, hkind, if_neg hword]
  have hwords : (first :: more).flatMap (fun s => Layout.caseEdits settings.keywordStyle s.item)
      = body.flatMap (Layout.caseEdits settings.keywordStyle) := by
    rw [← List.flatMap_map Site.item, h.items, List.flatMap_append, hnone, List.append_nil]
  rw [Layout.lineEdits, h.content, ← hwords]

/-- **The edits of a line with content** make the blank space in front of it the wanted
one, recase its words and remove the blank space behind it. -/
theorem turns (settings : Settings) (h : l.Parts first more body back) {a : Nat}
    (hchain : Token.Chain a (l.tokens.map Site.item))
    (hstop : l.stop = a + byteLength (chars (l.tokens.map Site.item))) :
    Turns a (chars (l.tokens.map Site.item)) (Layout.lineEdits settings l)
      ((settings.indentation first.blockDepth).toList
        ++ chars (body.map (Token.styled settings.keywordStyle))) := by
  rw [h.tokens] at hchain hstop ⊢
  obtain ⟨hindent, hchain⟩ := hchain.split
  obtain ⟨hbody, hback⟩ := hchain.split
  -- The first word begins where the indentation ends.
  have hstart : first.item.start = a + byteLength (chars l.indent?.toList) := by
    obtain ⟨more, rfl⟩ := List.head?_eq_some_iff.1 h.begins
    exact hbody.1
  have hfirst : ∀ t ∈ l.indent?, t.start = a := by
    intro t ht
    rw [Option.mem_def] at ht
    rw [ht] at hindent
    exact hindent.1
  have hend : l.stop
      = a + byteLength (chars l.indent?.toList ++ chars body) + byteLength (chars back) := by
    rw [hstop, Token.chars_append, Token.chars_append]
    simp only [byteLength_append]
    omega
  have hfront := (Layout.turns_indent (settings.indentation first.blockDepth) hfirst hstart).append
    (Layout.turns_words settings.keywordStyle hbody)
  -- Three pieces side by side: the indentation, the words, and the blank at the end.
  have hpieces := hfront.append
    (Layout.turns_trailing (by rwa [byteLength_append, ← Nat.add_assoc]) h.getLast hend)
  rw [h.lineEdits_eq, Token.chars_append, Token.chars_append, ← List.append_assoc]
  rwa [List.append_nil] at hpieces

end Line.Parts

/-! ## What a line is turned into -/

/-- What comes behind a line, and behind what it is turned into. -/
structure BreakOff (rest rest' : List Char) : Prop where
  breaks : rest.head?.all isBreak = true
  breaks' : rest'.head?.all isBreak = true
  ends : rest = [] → rest' = []

namespace Line.Parts

variable {l : Line} {first : TokenSite} {more : List TokenSite} {body back : List Token}
  {rest rest' : List Char}

/-- The end of a line: blank space, if anything, and what is behind the line. -/
theorem lineEnd (h : l.Parts first more body back) (hcut : Cut back rest)
    (hoff : BreakOff rest rest') : LineEnd (chars back ++ rest) rest' := by
  refine ⟨?_, hoff.breaks', fun hnil => hoff.ends (List.append_eq_nil_iff.1 hnil).2⟩
  rcases h.back with rfl | ⟨t, rfl, ht⟩
  · exact endsHere_of_isBreak hoff.breaks
  · have hlexeme := hcut.lexeme
    rw [Token.kind_of_isBlank ht] at hlexeme
    obtain ⟨c, cs, htext, hc⟩ := hlexeme.isRun_isGap.head
    simp [EndsHere, htext, isSpace, hc]

end Line.Parts

/-- Line breaks in a row are kept. -/
theorem Relaid.breaks {gs gs' : List Glyph} (h : Relaid gs gs') (cs : List Char) :
    Relaid (cs.map breakStroke ++ gs) (cs.map breakStroke ++ gs') := by
  induction cs with
  | nil => exact h
  | cons c cs ih =>
    have hempty : SameLine [] [] := ⟨by simp, by simp, rfl⟩
    exact .line hempty rfl ih

end ScriptSense
