/-
The meaning of a text in another case.

Trees that fold to the same are a likeness: the views look at kinds and places, which
folding keeps. Names come out the same up to case, numbers have the same value whatever
the case of their digits, and the contents of strings are the same up to case, because
the quote a string begins with is no letter. So a text means the same in another case,
up to the case of names and of the contents of strings.
-/
import Mathlib.Data.List.Forall2
import ScriptSense.Proofs.Casing.Reading
import ScriptSense.Proofs.Conservation
import ScriptSense.Proofs.Lexemes
import ScriptSense.Proofs.Script.Likeness

set_option autoImplicit false

namespace ScriptSense

/-- **Everything is seen but the case of letters.** -/
def Lens.caseless : Lens where
  word := foldCase
  place span := span
  folds := foldCase_foldCase

/-! ## Literals -/

theorem digitValue_toLower (c : Char) : digitValue c.toLower = digitValue c := by
  rw [digitValue, digitValue, isCaseless_isDigit c, toLower_toLower]
  split
  · next hdigit =>
    have hletter : ¬ c.isUpper = true := fun hc => by
      have hnone := isDigit_of_isAlpha (isAlpha_iff.2 (.inl hc))
      rw [hdigit] at hnone
      cases hnone
    rw [toLower_of_not_isUpper hletter]
  · rfl

theorem ofDigits_map_toLower (base : Nat) (cs : List Char) :
    ofDigits base (cs.map Char.toLower) = ofDigits base cs := by
  rw [ofDigits, ofDigits, List.foldl_map]
  exact congrArg (fun g : Nat → Char → Nat => cs.foldl g 0)
    (funext fun n => funext fun c => congrArg (n * base + ·) (digitValue_toLower c))

namespace Literal

theorem ofDecimal_map_toLower (cs : List Char) :
    ofDecimal (cs.map Char.toLower) = ofDecimal cs := by
  have hpoint : (fun c : Char => c != '.') ∘ Char.toLower = fun c => c != '.' :=
    funext (isCaseless_beq (by decide)).not
  unfold ofDecimal
  rw [List.dropWhile_map, List.takeWhile_map, hpoint]
  cases cs.dropWhile (· != '.') with
  | nil => simp only [List.map_nil, ofDigits_map_toLower]
  | cons c fraction =>
    simp only [List.map_cons, List.length_map, ← List.map_append, ofDigits_map_toLower]

theorem ofHexadecimal?_map_toLower (cs : List Char) :
    ofHexadecimal? (cs.map Char.toLower) = ofHexadecimal? cs := by
  unfold ofHexadecimal?
  rw [← List.map_drop, ofDigits_map_toLower]

/-- The quote is no letter, so it closes the string in either case. -/
theorem map_toLower_unquote {quote : Char} (hquote : quote.isAlpha = false) {cs cs' : List Char}
    (h : cs.map Char.toLower = cs'.map Char.toLower) :
    (unquote (quote :: cs)).map Char.toLower = (unquote (quote :: cs')).map Char.toLower := by
  -- The quote is no letter, so the last characters are quotes together.
  have hlast : (cs.getLast? == some quote) = (cs'.getLast? == some quote) := by
    have hsame : cs.getLast?.map Char.toLower = cs'.getLast?.map Char.toLower := by
      rw [← List.getLast?_map, h, List.getLast?_map]
    cases hlast : cs.getLast? with
    | none =>
      rw [hlast, Option.map_none, eq_comm, Option.map_eq_none_iff] at hsame
      rw [hsame]
    | some c =>
      rw [hlast, Option.map_some, eq_comm, Option.map_eq_some_iff] at hsame
      obtain ⟨c', hlast', hcase⟩ := hsame
      rw [hlast']
      exact (isCaseless_beq hquote).congr hcase.symm
  simp only [unquote, hlast]
  split
  · rw [List.map_dropLast, h, List.map_dropLast]
  · exact h

end Literal

/-- A string begins with a quote. -/
def Token.IsQuoted (t : Token) : Prop :=
  t.kind = .string → ∃ quote cs, t.text.toList = quote :: cs ∧ quote.isAlpha = false

/-- **A literal has the same value in another case**, up to the case of a string. -/
theorem Literal.through_ofToken? {t t' : Token} (h : t.folded = t'.folded) (hquoted : t.IsQuoted) :
    (Literal.ofToken? t).map (Literal.through .caseless)
      = (Literal.ofToken? t').map (Literal.through .caseless) := by
  obtain ⟨hkind, -, htext⟩ := Token.folded_eq_iff.1 h
  rw [foldCase_eq_iff] at htext
  unfold Literal.ofToken?
  rw [← hkind]
  cases hof : t.kind
  case number =>
    dsimp only
    rw [← Literal.ofDecimal_map_toLower, htext, Literal.ofDecimal_map_toLower]
  case hexNumber =>
    dsimp only
    rw [← Literal.ofHexadecimal?_map_toLower, htext, Literal.ofHexadecimal?_map_toLower]
  case string =>
    obtain ⟨quote, cs, hcs, hquote⟩ := hquoted hof
    rw [hcs, List.map_cons] at htext
    obtain ⟨quote', cs', hcs', hcase, hrest⟩ := List.map_eq_cons_iff.1 htext.symm
    obtain rfl : quote' = quote := eq_of_toLower_eq hcase hquote
    dsimp only
    rw [hcs, hcs', Option.map_some, Option.map_some, Literal.through, Literal.through]
    refine congrArg (some ∘ Literal.string) (foldCase_eq_iff.2 ?_)
    rw [String.toList_ofList, String.toList_ofList]
    exact Literal.map_toLower_unquote hquote hrest.symm
  -- No other token has a value.
  all_goals rfl

/-! ## Trees -/

namespace Tree

variable {t t' : Tree}

@[simp] theorem kind_folded (t : Tree) : t.folded.kind = t.kind := by
  cases t <;> simp [kind]

@[simp] theorem span_folded (t : Tree) : t.folded.span = t.span := by
  cases t <;> simp [span]

@[simp] theorem children_folded (t : Tree) : t.folded.children = t.children.map folded := by
  cases t <;> simp [children]

theorem token?_folded (t : Tree) : t.folded.token? = t.token?.map Token.folded := by
  cases t <;> simp [token?]

theorem tokenWhere?_folded (q : TokenKind → Bool) (t : Tree) :
    t.folded.tokenWhere? q = (t.tokenWhere? q).map Token.folded := by
  have htokens : (t.children.map folded).filterMap token?
      = (t.children.filterMap token?).map Token.folded := by
    rw [List.filterMap_map, List.map_filterMap]
    exact List.filterMap_congr fun c _ => token?_folded c
  rw [tokenWhere?, tokenWhere?, children_folded, htokens, List.find?_map]
  rfl

/-- **Two trees differ in the case of letters only.** Strings begin with quotes. -/
structure Recased (t t' : Tree) : Prop where
  folded : t.folded = t'.folded
  quoted : ∀ m ∈ t.leaves, m.IsQuoted

theorem leaves_subset_of_mem_children {c : Tree} (hc : c ∈ t.children) : c.leaves ⊆ t.leaves := by
  cases t with
  | leaf => cases hc
  | node k s cs =>
    obtain ⟨before, after, rfl⟩ := List.append_of_mem (show c ∈ cs from hc)
    simp

/-! ### Children of two trees in step -/

section Children

variable {R : Tree → Tree → Prop}

theorem rel_find? {p p' : Tree → Bool} (hp : ∀ c c', R c c' → p c = p' c') {cs cs' : List Tree}
    (h : List.Forall₂ R cs cs') : Option.Rel R (cs.find? p) (cs'.find? p') := by
  induction h with
  | nil => exact .none
  | @cons c c' cs cs' hc _ ih =>
    rw [List.find?_cons, List.find?_cons, ← hp c c' hc]
    cases p c with
    | true => exact .some hc
    | false => exact ih

end Children

namespace Recased

theorem kind (h : Recased t t') : t.kind = t'.kind := by
  rw [← kind_folded t, h.folded, kind_folded]

theorem span (h : Recased t t') : t.span = t'.span := by
  rw [← span_folded t, h.folded, span_folded]

theorem isNode (h : Recased t t') (p : NodeKind → Bool) : t.isNode p = t'.isNode p :=
  congrArg (ElementKind.isNode p) h.kind

theorem children (h : Recased t t') : List.Forall₂ Recased t.children t'.children := by
  -- The folded children are the children of the folded tree, and each is compared with its own.
  have hfolded := congrArg Tree.children h.folded
  rw [children_folded, children_folded] at hfolded
  have hquoted : ∀ c ∈ t.children, ∀ m ∈ c.leaves, m.IsQuoted := fun c hc m hm =>
    h.quoted m (leaves_subset_of_mem_children hc hm)
  generalize t.children = cs, t'.children = cs' at hfolded hquoted
  induction cs generalizing cs' with
  | nil =>
    rw [List.map_nil, eq_comm, List.map_eq_nil_iff] at hfolded
    rw [hfolded]
    exact .nil
  | cons c cs ih =>
    obtain ⟨c', cs', rfl, hc, hcs⟩ := List.map_eq_cons_iff.1 hfolded.symm
    exact .cons ⟨hc.symm, hquoted c List.mem_cons_self⟩
      (ih cs' hcs.symm fun d hd => hquoted d (List.mem_cons_of_mem _ hd))

theorem token (h : Recased t t') (q : TokenKind → Bool) :
    (t.tokenWhere? q).map Token.folded = (t'.tokenWhere? q).map Token.folded := by
  rw [← tokenWhere?_folded, h.folded, tokenWhere?_folded]

/-- The first token of a sort is the same up to case. -/
theorem rel_token (h : Recased t t') (q : TokenKind → Bool) :
    Option.Rel (fun m m' : Token => m.folded = m'.folded ∧ m.IsQuoted) (t.tokenWhere? q)
      (t'.tokenWhere? q) := by
  have hsame := h.token q
  cases hm : t.tokenWhere? q with
  | none =>
    rw [hm, Option.map_none, eq_comm, Option.map_eq_none_iff] at hsame
    rw [hsame]
    exact .none
  | some m =>
    rw [hm, Option.map_some, eq_comm, Option.map_eq_some_iff] at hsame
    obtain ⟨m', hm', hfolded⟩ := hsame
    obtain ⟨-, before, after, hsplit, -⟩ := tokenWhere?_eq_some hm
    -- The token is a leaf of the tree, so the condition on quotes speaks of it.
    have hleaf : m ∈ t.leaves :=
      leaves_subset_of_mem_children (c := .leaf m) (by simp [hsplit]) (by simp)
    rw [hm']
    exact .some ⟨hfolded.symm, h.quoted m hleaf⟩

/-- The first node in front of a token of a sort. -/
theorem nodeBefore? (h : Recased t t') (q : TokenKind → Bool) (p : NodeKind → Bool) :
    Option.Rel Recased ((t.nodeBefore? (t.tokenWhere? q) p).map Subtype.val)
      ((t'.nodeBefore? (t'.tokenWhere? q) p).map Subtype.val) := by
  have hmark := h.rel_token q
  generalize t.tokenWhere? q = m, t'.tokenWhere? q = m' at hmark
  -- The search looks at kinds and places only, and both are the same in the other tree.
  have hfound : ∀ (u : Tree) (mark : Option Token), (u.nodeBefore? mark p).map Subtype.val
      = u.children.find? fun c => c.isNode p && mark.all fun m => c.span.stop ≤ m.start :=
    fun u mark => map_val_find?_attach u.children
      fun c => c.isNode p && mark.all fun m : Token => decide (c.span.stop ≤ m.start)
  rw [hfound, hfound]
  refine rel_find? (fun c c' hc => ?_) h.children
  rw [hc.isNode, hc.span]
  cases hmark with
  | none => rfl
  | some hm => rw [Option.all_some, Option.all_some, (Token.folded_eq_iff.1 hm.1).2.1]

/-- The first node behind a token of a sort. -/
theorem nodeAfter? (h : Recased t t') (q : TokenKind → Bool) (p : NodeKind → Bool) :
    Option.Rel Recased ((t.nodeAfter? (t.tokenWhere? q) p).map Subtype.val)
      ((t'.nodeAfter? (t'.tokenWhere? q) p).map Subtype.val) := by
  have hmark := h.rel_token q
  generalize t.tokenWhere? q = m, t'.tokenWhere? q = m' at hmark
  cases hmark with
  | none => exact .none
  | @some m m' hm =>
    have hfound : ∀ (u : Tree) (m : Token), (u.nodeAfter? (some m) p).map Subtype.val
        = u.children.find? fun c => c.isNode p && m.stop ≤ c.span.start :=
      fun u m => map_val_find?_attach u.children fun c => c.isNode p && decide (m.stop ≤ c.span.start)
    have hstop : m.stop = m'.stop := congrArg Span.stop (Token.span_of_folded hm.1)
    rw [hfound, hfound]
    refine rel_find? (fun c c' hc => ?_) h.children
    rw [hc.isNode, hc.span, hstop]

/-- **Differing in the case of letters only is a likeness.** -/
def likeness : Likeness .caseless where
  Same := Recased
  kind := kind
  span := span
  nodeWhere? h p _ := rel_child (by
    rw [map_val_nodeWhere?, map_val_nodeWhere?]
    exact rel_find? (fun _ _ hc => hc.isNode p) h.children)
  nodesWhere h p _ := by
    rw [← List.forall₂_map_right_iff, ← List.forall₂_map_left_iff, map_val_nodesWhere,
      map_val_nodesWhere]
    exact List.rel_filter (fun _ _ hc => Bool.eq_iff_iff.1 (hc.isNode p)) h.children
  nodeBefore? h _ p _ := rel_child (h.nodeBefore? _ p)
  nodeAfter? h _ p _ := rel_child (h.nodeAfter? _ p)
  tokenKind h _ := map_eq_of_rel (h.rel_token _) fun _ _ _ hm => Token.kind_of_folded hm.1
  name {t t'} h := by
    have hrel := h.rel_token (· == .ident)
    change Option.Rel _ (t.tokenWhere? (· == .ident)) (t'.tokenWhere? (· == .ident))
    generalize t.tokenWhere? (· == .ident) = m, t'.tokenWhere? (· == .ident) = m' at hrel
    cases hrel with
    | none => exact .none
    | some hm =>
      exact .some ⟨(Token.folded_eq_iff.1 hm.1).2.2, Token.span_of_folded hm.1⟩
  literal h := by
    rw [Option.map_bind, Option.map_bind]
    exact bind_eq_of_rel (h.rel_token TokenKind.isLiteral) fun _ _ _ hm =>
      Literal.through_ofToken? hm.1 hm.2

end Recased

end Tree

/-! ## Texts -/

theorem isQuoted_of_mem_tokens {text : String} {t : Token} (ht : t ∈ tokens text) : t.IsQuoted := by
  intro hkind
  obtain ⟨before, after, hsplit⟩ := List.append_of_mem ht
  have hlexeme := lexeme_of_tokensFrom 0 text.toList hsplit (by simp [hkind])
  rw [hkind] at hlexeme
  have hmark : ∀ {quote : Char}, quote = '"' ∨ quote = '\'' → quote.isAlpha = false := by
    rintro quote (rfl | rfl) <;> decide
  have hword : ∀ entry ∈ TokenKind.wordTable, entry.2 ≠ .string := by decide
  generalize t.text.toList = cs, (Token.spell after).toList = rest at hlexeme
  cases hlexeme with
  | closed sort _ => exact ⟨_, _, rfl, hmark sort⟩
  | unclosed sort _ => exact ⟨_, _, rfl, hmark sort⟩
  | keyword _ entry => exact absurd rfl (hword _ entry)
  | sign hsign _ => cases hsign

/-- Texts that differ in the case of letters only have trees that do. -/
theorem recased_parseWith {f : String → Bool} (hf : ∀ name, f (foldCase name) = f name)
    {text text' : String} (h : foldCase text = foldCase text') :
    Tree.Recased (parseWith f text).root (parseWith f text').root where
  folded := (Grammar.parseWith_uncased hf h).1
  quoted m hm := by
    have hcovers : Covers (parseWith f text).root text :=
      covers_ofContent (fun _ => Grammar.script_alike) .script f text
    rw [hcovers.leaves] at hm
    exact isQuoted_of_mem_tokens ((List.dropLast_subset _) hm)

/-- **Two texts are the same up to case**: they have the same tokens in the same places,
trees of the same shape, the same complaints, and the same meaning but for the case of
names and of the contents of strings. -/
structure SameUpToCase (f : String → Bool) (text text' : String) : Prop where
  tokens : (tokens text).map (fun t => (t.kind, t.span))
    = (tokens text').map fun t => (t.kind, t.span)
  tree : (parseWith f text).root.folded = (parseWith f text').root.folded
  complaints : (parseWith f text).complaints = (parseWith f text').complaints
  meaning : (Script.ofTree? (parseWith f text).root).map (Script.through .caseless)
    = (Script.ofTree? (parseWith f text').root).map (Script.through .caseless)

/-- **The language does not see the case of letters**, if functions are known regardless
of case. -/
theorem reading_ignores_case {f : String → Bool}
    (hf : ∀ a b, foldCase a = foldCase b → f a = f b) {text text' : String}
    (h : foldCase text = foldCase text') : SameUpToCase f text text' := by
  have hfold : ∀ name, f (foldCase name) = f name := fun name => hf _ _ (foldCase_foldCase name)
  have hseen : (fun t : Token => (t.kind, t.span)) ∘ Token.folded = fun t => (t.kind, t.span) :=
    funext fun t => congrArg (Prod.mk t.kind) t.span_folded
  have htokens := congrArg (List.map fun t : Token => (t.kind, t.span)) (map_folded_tokens h)
  rw [List.map_map, List.map_map, hseen] at htokens
  exact {
    tokens := htokens
    tree := (Grammar.parseWith_uncased hfold h).1
    complaints := (Grammar.parseWith_uncased hfold h).2
    meaning := Tree.Recased.likeness.ofTree?_congr (recased_parseWith hfold h) rfl }

/-- A text that is written in two ways, with a function known by name. -/
theorem reading_ignores_case_at_call :
    (∀ a b, foldCase a = foldCase b → (foldCase a == "getname") = (foldCase b == "getname"))
      ∧ foldCase "scn Ab\nint X\nset x to GetName\n" = foldCase "SCN aB\nInt x\nSET X TO getname\n"
      ∧ SameUpToCase (fun name => foldCase name == "getname")
        "scn Ab\nint X\nset x to GetName\n" "SCN aB\nInt x\nSET X TO getname\n" := by
  have hf : ∀ a b, foldCase a = foldCase b → (foldCase a == "getname") = (foldCase b == "getname") :=
    fun a b hab => by rw [hab]
  have htexts : foldCase "scn Ab\nint X\nset x to GetName\n"
      = foldCase "SCN aB\nInt x\nSET X TO getname\n" := by decide +kernel
  exact ⟨hf, htexts, reading_ignores_case hf htexts⟩

end ScriptSense
