/-
Scanning a line that was laid out.

The tokens of a text are taken one after the other by the scanner, each in front of the
text of those that follow (`Cut`). When words of the language are recased and the blank
space behind a line is removed, the scanner takes the same tokens once more: most of
them end at the next blank at the latest, where the two texts agree (`next_eq`); blank
space is followed by no blank space and a comment by a line break in both; and a string
ends with its quote, or with the text. Line breaks are taken character by character,
because those around a line of blank space become one token.
-/
import ScriptSense.Proofs.Casing.Tokens
import ScriptSense.Proofs.Joining
import ScriptSense.Proofs.Layout.Strokes

set_option autoImplicit false

namespace ScriptSense

/-! ## Runs at the front -/

namespace Scan

end Scan

theorem lead_of_isBreak {c : Char} (h : isBreak c = true) : Lead.of c = .lineBreak := by
  have hgap : ¬ isGap c = true := by
    simp only [isBreak, Bool.or_eq_true, beq_iff_eq] at h
    rcases h with rfl | rfl <;> decide
  rw [Lead.of, if_neg hgap, if_pos h]

/-! ## Blank space and line breaks -/

/-- Behind a comment the line ends. -/
theorem Lexeme.ends_comment {cs rest : List Char} (h : Lexeme .comment cs rest) :
    rest.head?.all isBreak = true := by
  cases h with
  | comment _ ends => exact ends
  | keyword _ entry => exact absurd (TokenKind.isWord_of_mem_wordTable entry) (by decide)
  | sign spelling _ _ => cases spelling

/-! ## Tokens in a row -/

/-- The characters of a run of tokens. -/
def Token.chars (ts : List Token) : List Char := ts.flatMap fun t => t.text.toList

namespace Token

@[simp] theorem chars_nil : chars [] = [] := rfl

@[simp] theorem chars_cons (t : Token) (ts : List Token) :
    chars (t :: ts) = t.text.toList ++ chars ts := rfl

@[simp] theorem chars_append (ts us : List Token) : chars (ts ++ us) = chars ts ++ chars us :=
  List.flatMap_append

end Token

open Token (chars)

/-- **The tokens are what the scanner takes in front of a text**, one after the
other. -/
inductive Cut : List Token → List Char → Prop
  | nil (rest : List Char) : Cut [] rest
  | cons {t : Token} {ts : List Token} {c : Char} {cs rest : List Char}
      (htext : t.text.toList = c :: cs)
      (hnext : Scan.next c (cs ++ (chars ts ++ rest)) = (t.kind, cs.length + 1))
      (hts : Cut ts rest) : Cut (t :: ts) rest

namespace Cut

variable {t : Token} {ts us : List Token} {rest : List Char}

theorem split (h : Cut (ts ++ us) rest) : Cut ts (chars us ++ rest) ∧ Cut us rest := by
  induction ts with
  | nil => exact ⟨.nil _, h⟩
  | cons t ts ih =>
    rw [List.cons_append] at h
    cases h with
    | cons htext hnext hts =>
      refine ⟨.cons htext ?_ (ih hts).1, (ih hts).2⟩
      rwa [Token.chars_append, List.append_assoc] at hnext

theorem tail (h : Cut (t :: ts) rest) : Cut ts rest := by
  cases h with
  | cons _ _ hts => exact hts

/-- The first token is a lexeme. -/
theorem lexeme (h : Cut (t :: ts) rest) : Lexeme t.kind t.text.toList (chars ts ++ rest) := by
  cases h with
  | @cons _ _ c cs _ htext hnext _ =>
    have hright := Scan.next_right c (cs ++ (chars ts ++ rest))
    rw [Scan.Right, hnext] at hright
    simp only [List.take_succ_cons, List.drop_succ_cons, List.take_left, List.drop_left] at hright
    rwa [htext]

theorem chars_ne_nil (h : Cut (t :: ts) rest) : chars (t :: ts) ≠ [] := by
  rw [Token.chars_cons]
  exact List.append_ne_nil_of_left_ne_nil h.lexeme.some _

/-- Only a line break begins with a character of one. -/
theorem isBreak_head (h : Cut ts rest) (hline : ∀ t ∈ ts, t.kind ≠ .newline) :
    (chars ts).head?.all (!isBreak ·) = true := by
  cases h with
  | nil => rfl
  | @cons t ts c cs rest htext hnext _ =>
    have hc : isBreak c = false := by
      by_contra hbreak
      rw [Scan.next, lead_of_isBreak (by simpa using hbreak)] at hnext
      exact hline t List.mem_cons_self (congrArg Prod.fst hnext).symm
    rw [Token.chars_cons, htext]
    simpa using hc

end Cut

/-- The token in a style: the words of the language are recased, all others are kept. -/
def Token.styled (style : KeywordStyle) (t : Token) : Token :=
  if t.kind.isKeyword || t.kind.isTypeName then { t with text := style.apply t.text } else t

namespace Token

variable (style : KeywordStyle) (t : Token)

/-- Only case is changed. -/
theorem map_toLower_styled :
    (t.styled style).text.toList.map Char.toLower = t.text.toList.map Char.toLower := by
  unfold styled
  split
  · exact foldCase_eq_iff.1 (KeywordStyle.foldCase_apply style t.text)
  · rfl

theorem map_toLower_chars_styled (ts : List Token) :
    (chars (ts.map (styled style))).map Char.toLower = (chars ts).map Char.toLower := by
  induction ts with
  | nil => rfl
  | cons t ts ih =>
    rw [List.map_cons, chars_cons, chars_cons, List.map_append, List.map_append,
      map_toLower_styled, ih]

end Token

/-- What may follow a token in place of what follows it. -/
structure MayFollow (kind : TokenKind) (rest rest' : List Char) : Prop where
  near : Near rest rest'
  gap : kind = .whitespace → rest'.head?.all (!isGap ·) = true
  comment : kind = .comment → rest'.head?.all isBreak = true
  ends : rest = [] → rest' = []

/-- Two texts that agree in front up to case begin with characters of one sort. -/
theorem IsCaseless.head_eq {p : Char → Bool} (hp : IsCaseless p) {cs cs' rest rest' : List Char}
    (h : cs.map Char.toLower = cs'.map Char.toLower) (hsome : cs ≠ []) :
    (cs ++ rest).head?.all p = (cs' ++ rest').head?.all p := by
  cases cs with
  | nil => exact absurd rfl hsome
  | cons c cs =>
    cases cs' with
    | nil => cases h
    | cons d cs' => simpa using hp.congr (List.cons.inj h).1

theorem endsHere_of_isBreak {rest : List Char} (h : rest.head?.all isBreak = true) :
    EndsHere rest := by
  cases rest with
  | nil => rfl
  | cons c rest =>
    have hc : isBreak c = true := by simpa using h
    simp [EndsHere, isSpace, hc]

/-- The end of a line in place of another one. -/
structure LineEnd (rest rest' : List Char) : Prop where
  blank : EndsHere rest
  breaks : rest'.head?.all isBreak = true
  ends : rest = [] → rest' = []

theorem LineEnd.near {rest rest' : List Char} (h : LineEnd rest rest') : Near rest rest' :=
  .stop h.blank (endsHere_of_isBreak h.breaks)

/-- **What follows a token of a line**: the rest of the line in another case, and another
end of the line. -/
theorem Cut.follows (style : KeywordStyle) {t : Token} {ts : List Token} {rest rest' : List Char}
    (h : Cut (t :: ts) rest) (hline : ∀ u ∈ t :: ts, u.kind ≠ .newline)
    (hlast : (t :: ts).getLast?.all (·.kind != .whitespace) = true) (hend : LineEnd rest rest') :
    MayFollow t.kind (chars ts ++ rest) (chars (ts.map (Token.styled style)) ++ rest') := by
  have hlexeme := h.lexeme
  have hts := h.tail
  have hcase := (Token.map_toLower_chars_styled style ts).symm
  refine ⟨hend.near.append hcase, fun hkind => ?_, fun hkind => ?_, fun hnil => ?_⟩
  · cases ts with
    | nil => simp [hkind] at hlast
    | cons u us =>
      -- Blank space does not end the line, and no other follows it.
      rw [hkind] at hlexeme
      rw [← isCaseless_isGap.not.head_eq hcase hts.chars_ne_nil]
      exact hlexeme.isRun_isGap.ends
  · cases ts with
    | nil => exact hend.breaks
    | cons u us =>
      -- A comment takes all of the line.
      exfalso
      have hbreak : (chars (u :: us) ++ rest).head?.all isBreak = true := by
        rw [hkind] at hlexeme
        exact hlexeme.ends_comment
      have hno := hts.isBreak_head fun v hv => hline v (List.mem_cons_of_mem _ hv)
      cases hfirst : chars (u :: us) with
      | nil => exact hts.chars_ne_nil hfirst
      | cons c cs =>
        rw [hfirst] at hbreak hno
        have hc : isBreak c = true := by simpa using hbreak
        simp [hc] at hno
  · obtain ⟨hchars, hrest⟩ := List.append_eq_nil_iff.1 hnil
    rw [hend.ends hrest]
    cases ts with
    | nil => rfl
    | cons u us => exact absurd hchars hts.chars_ne_nil

end ScriptSense
