/-
What is left of a tree without its layout.

Blank space, comments and line breaks stand in a tree but mean nothing, and the
words of the language may be written in any case. The bare tree leaves out the
one, writes the other in small letters, and has no offsets. Every view of a tree
is answered by its bare tree: those that look for a kind by the kind, and those
that compare offsets by the order of the children, because the elements of the
tree lie side by side. So whoever goes through a tree along the views sees no
more than the bare tree.
-/
import Mathlib.Data.List.TakeWhile
import ScriptSense.Proofs.Syntax.Tiled

set_option autoImplicit false

namespace ScriptSense

/-! ## Tokens without layout -/

/-- A token without its place: its kind and its text, with the words of the language
in small letters. -/
abbrev Glyph := TokenKind × String

/-- The token without its place. -/
def Token.glyph (t : Token) : Glyph :=
  (t.kind, if t.kind.isKeyword || t.kind.isTypeName then foldCase t.text else t.text)

@[simp] theorem Token.glyph_fst (t : Token) : t.glyph.1 = t.kind := rfl

/-- Other tokens than the words of the language keep their text. -/
theorem Token.glyph_snd {t : Token} (hkeyword : t.kind.isKeyword = false)
    (htype : t.kind.isTypeName = false) : t.glyph.2 = t.text := by
  simp [glyph, hkeyword, htype]

namespace TokenKind

/-! Tokens that views look for mean something. -/

theorem isSignificant_of_isLiteral (k : TokenKind) (h : k.isLiteral = true) :
    k.isSignificant = true := by
  cases k <;> first | rfl | cases h

theorem isSignificant_of_isOperator (k : TokenKind) (h : k.isOperator = true) :
    k.isSignificant = true := by
  cases k <;> first | rfl | cases h

theorem isSignificant_of_isTypeName (k : TokenKind) (h : k.isTypeName = true) :
    k.isSignificant = true := by
  cases k <;> first | rfl | cases h

/-- The token of an access to a member. -/
def isAccess (k : TokenKind) : Bool := k == .dot || k == .arrow || k == .lBracket

theorem isSignificant_of_isAccess (k : TokenKind) (h : k.isAccess = true) :
    k.isSignificant = true := by
  cases k <;> first | rfl | cases h

theorem isSignificant_of_beq (wanted : TokenKind) (hwanted : wanted.isSignificant = true)
    (k : TokenKind) (h : (k == wanted) = true) : k.isSignificant = true := by
  rwa [beq_iff_eq.1 h]

end TokenKind

/-! ## Trees without layout -/

/-- A tree without its layout. -/
inductive Bare where
  /-- A token that means something. -/
  | leaf (glyph : Glyph)
  /-- A node over its children. -/
  | node (kind : NodeKind) (children : List Bare)

namespace Bare

/-- The element is a node of a kind with the property. -/
def isNode (p : NodeKind → Bool) : Bare → Bool
  | .leaf _ => false
  | .node k _ => p k

@[simp] theorem isNode_node (p : NodeKind → Bool) (k : NodeKind) (bs : List Bare) :
    (node k bs).isNode p = p k := rfl

@[simp] theorem isNode_leaf (p : NodeKind → Bool) (g : Glyph) : (leaf g).isNode p = false := rfl

/-- The token, if the element is one. -/
def glyph? : Bare → Option Glyph
  | .leaf g => some g
  | .node _ _ => none

/-- The element is a token of a kind with the property. -/
def isMark (p : TokenKind → Bool) (b : Bare) : Bool := b.glyph?.any fun g => p g.1

/-- The elements in front of the first token with the property, all of them if there
is none. -/
def inFront (p : TokenKind → Bool) (bs : List Bare) : List Bare := bs.takeWhile (!·.isMark p)

/-- The elements behind the first token with the property. -/
def behind (p : TokenKind → Bool) (bs : List Bare) : List Bare :=
  (bs.dropWhile (!·.isMark p)).tail

/-- The first token with the property. -/
def mark? (p : TokenKind → Bool) (bs : List Bare) : Option Glyph :=
  (bs.filterMap glyph?).find? (p ·.1)

end Bare

namespace Tree

mutual

/-- The tree without its layout; nothing is left of a token that means nothing. -/
def bare : Tree → List Bare
  | .leaf t => if t.kind.isSignificant then [.leaf t.glyph] else []
  | .node k _ cs => [.node k (bareOfAll cs)]

/-- The trees of a list without their layout. -/
def bareOfAll : List Tree → List Bare
  | [] => []
  | t :: ts => t.bare ++ bareOfAll ts

end

@[simp] theorem bare_node (k : NodeKind) (s : Span) (cs : List Tree) :
    (node k s cs).bare = [.node k (bareOfAll cs)] := by simp [bare]

theorem bare_leaf (t : Token) :
    (leaf t).bare = if t.kind.isSignificant then [.leaf t.glyph] else [] := by simp [bare]

@[simp] theorem bareOfAll_nil : bareOfAll [] = [] := by simp [bareOfAll]

@[simp] theorem bareOfAll_cons (t : Tree) (ts : List Tree) :
    bareOfAll (t :: ts) = t.bare ++ bareOfAll ts := by simp [bareOfAll]

@[simp] theorem bareOfAll_append (ts us : List Tree) :
    bareOfAll (ts ++ us) = bareOfAll ts ++ bareOfAll us := by
  induction ts with
  | nil => simp
  | cons t ts ih => simp [ih]

theorem bareOfAll_singleton (t : Tree) : bareOfAll [t] = t.bare := by simp

/-- A tree that is left as a node is a node. -/
theorem eq_node_of_bare {t : Tree} {k : NodeKind} {bs : List Bare} (h : t.bare = [.node k bs]) :
    ∃ span cs, t = .node k span cs ∧ bareOfAll cs = bs := by
  cases t with
  | leaf t =>
    rw [bare_leaf] at h
    split at h <;> cases h
  | node k' span cs =>
    rw [bare_node] at h
    simp only [List.cons.injEq, Bare.node.injEq, and_true] at h
    exact ⟨span, cs, by rw [h.1], h.2⟩

/-! ## Children by kind -/

variable {cs : List Tree} {p : NodeKind → Bool} {q : TokenKind → Bool}

theorem bare_of_isNode {t : Tree} (h : t.isNode p = true) :
    ∃ b, t.bare = [b] ∧ b.isNode p = true := by
  cases t with
  | leaf => simp [isNode, kind, ElementKind.isNode] at h
  | node k span cs => exact ⟨_, bare_node k span cs, by simpa [isNode, kind, ElementKind.isNode] using h⟩

theorem not_isNode_of_bare {t : Tree} (h : t.isNode p = false) {b : Bare} (hb : b ∈ t.bare) :
    b.isNode p = false := by
  cases t with
  | leaf t =>
    rw [bare_leaf] at hb
    split at hb
    · rw [List.mem_singleton.1 hb]
      rfl
    · cases hb
  | node k span cs =>
    rw [bare_node, List.mem_singleton] at hb
    subst hb
    simpa [isNode, kind, ElementKind.isNode] using h

/-- The nodes with a property are those of the bare tree. -/
theorem bareOfAll_filter (cs : List Tree) (p : NodeKind → Bool) :
    bareOfAll (cs.filter (·.isNode p)) = (bareOfAll cs).filter (·.isNode p) := by
  induction cs with
  | nil => simp
  | cons c cs ih =>
    rw [bareOfAll_cons, List.filter_append, ← ih]
    cases hc : c.isNode p with
    | true =>
      -- A node stays one node of the same kind without its trivia.
      obtain ⟨b, hb, hnode⟩ := bare_of_isNode hc
      rw [List.filter_cons_of_pos hc, bareOfAll_cons, hb, List.filter_cons_of_pos hnode,
        List.filter_nil]
    | false =>
      -- What is no such node leaves none behind.
      have hnone : c.bare.filter (·.isNode p) = [] :=
        List.filter_eq_nil_iff.2 fun b hb => by simp [not_isNode_of_bare hc hb]
      rw [List.filter_cons_of_neg (by simp [hc]), hnone, List.nil_append]

/-- The first node with a property is that of the bare tree. -/
theorem bareOfAll_find? (cs : List Tree) (p : NodeKind → Bool) :
    bareOfAll (cs.find? (·.isNode p)).toList = ((bareOfAll cs).find? (·.isNode p)).toList := by
  induction cs with
  | nil => simp
  | cons c cs ih =>
    rw [bareOfAll_cons, List.find?_append]
    cases hc : c.isNode p with
    | true =>
      obtain ⟨b, hb, hnode⟩ := bare_of_isNode hc
      rw [List.find?_cons_of_pos hc, hb, List.find?_cons_of_pos hnode]
      simp [hb]
    | false =>
      have hnone : c.bare.find? (·.isNode p) = none :=
        List.find?_eq_none.2 fun b hb => by simp [not_isNode_of_bare hc hb]
      rw [List.find?_cons_of_neg (by simp [hc]), hnone, Option.none_or, ih]

/-- The first token with a property is that of the bare tree, if tokens that mean
nothing do not have the property. -/
theorem map_glyph_find? (hq : ∀ k, q k = true → k.isSignificant = true) (cs : List Tree) :
    ((cs.filterMap token?).find? (q ·.kind)).map Token.glyph = Bare.mark? q (bareOfAll cs) := by
  unfold Bare.mark?
  induction cs with
  | nil => simp
  | cons c cs ih =>
    rw [bareOfAll_cons, List.filterMap_append, List.find?_append]
    cases c with
    | node k span ds => simpa [token?, Bare.glyph?] using ih
    | leaf t =>
      -- A token that is sought is significant, so it is still there without the trivia.
      have htoken : (Tree.leaf t).token? = some t := rfl
      rw [List.filterMap_cons_some htoken]
      cases ht : q t.kind with
      | true =>
        rw [List.find?_cons_of_pos (by simpa using ht), bare_leaf, if_pos (hq _ ht)]
        simp [Bare.glyph?, ht]
      | false =>
        have hnone : ((Tree.leaf t).bare.filterMap Bare.glyph?).find? (q ·.1) = none := by
          rw [bare_leaf]
          split
          · simp [Bare.glyph?, ht]
          · rfl
        rw [List.find?_cons_of_neg (by simp [ht]), hnone, Option.none_or, ih]

/-! ## Children by place -/

theorem not_isMark_of_bare {c : Tree} (hc : c.token?.all (fun u => !q u.kind) = true) {b : Bare}
    (hb : b ∈ c.bare) : b.isMark q = false := by
  cases c with
  | leaf t =>
    rw [bare_leaf] at hb
    split at hb
    · rw [List.mem_singleton.1 hb]
      simpa [Bare.isMark, Bare.glyph?, token?] using hc
    · cases hb
  | node k span cs =>
    rw [bare_node, List.mem_singleton] at hb
    subst hb
    rfl

theorem not_isMark_of_bareOfAll (hcs : ∀ c ∈ cs, c.token?.all (fun u => !q u.kind) = true)
    {b : Bare} (hb : b ∈ bareOfAll cs) : b.isMark q = false := by
  induction cs with
  | nil => simp at hb
  | cons c cs ih =>
    rw [bareOfAll_cons, List.mem_append] at hb
    rcases hb with hb | hb
    · exact not_isMark_of_bare (hcs c List.mem_cons_self) hb
    · exact ih (fun d hd => hcs d (List.mem_cons_of_mem _ hd)) hb

/-- Around the first token with a property, the children stand as in the bare tree. -/
theorem bareOfAll_around {before after : List Tree} {m : Token} (hm : q m.kind = true)
    (hsig : m.kind.isSignificant = true)
    (hbefore : ∀ c ∈ before, c.token?.all (fun u => !q u.kind) = true) :
    Bare.inFront q (bareOfAll (before ++ .leaf m :: after)) = bareOfAll before
      ∧ Bare.behind q (bareOfAll (before ++ .leaf m :: after)) = bareOfAll after := by
  have hnone : ∀ b ∈ bareOfAll before, (!b.isMark q) = true := fun b hb => by
    simp [not_isMark_of_bareOfAll hbefore hb]
  have hmark : (Bare.leaf m.glyph).isMark q = true := by simpa [Bare.isMark, Bare.glyph?] using hm
  have hsplit : bareOfAll (before ++ .leaf m :: after)
      = bareOfAll before ++ .leaf m.glyph :: bareOfAll after := by
    rw [bareOfAll_append, bareOfAll_cons, bare_leaf, if_pos hsig, List.singleton_append]
  rw [hsplit, Bare.inFront, Bare.behind, List.takeWhile_append_of_pos hnone,
    List.dropWhile_append_of_pos hnone]
  simp [hmark]

/-- Without a token with a property, all children stand in front of it. -/
theorem bareOfAll_unmarked (h : (cs.filterMap token?).find? (q ·.kind) = none) :
    Bare.inFront q (bareOfAll cs) = bareOfAll cs ∧ Bare.behind q (bareOfAll cs) = [] := by
  have hall : ∀ b ∈ bareOfAll cs, (!b.isMark q) = true := fun b hb => by
    refine congrArg (!·) (not_isMark_of_bareOfAll (fun c hc => ?_) hb)
    cases htoken : c.token? with
    | none => rfl
    | some u =>
      have hu := List.find?_eq_none.1 h u (List.mem_filterMap.2 ⟨c, hc, htoken⟩)
      simpa using hu
  exact ⟨List.takeWhile_eq_self_iff.2 hall,
    by rw [Bare.behind, List.dropWhile_eq_nil_iff.2 hall, List.tail_nil]⟩

variable {t : Tree}

/-- The node in front of a token is the one that stands in front of it in the bare
tree. -/
theorem bare_nodeBefore? (ht : t.Tiled) (hq : ∀ k, q k = true → k.isSignificant = true)
    (p : NodeKind → Bool) :
    bareOfAll ((t.nodeBefore? (t.tokenWhere? q) p).map Subtype.val).toList
      = ((Bare.inFront q (bareOfAll t.children)).find? (·.isNode p)).toList := by
  cases hmark : t.tokenWhere? q with
  | none =>
    have hall : (t.nodeBefore? none p).map Subtype.val = t.children.find? (·.isNode p) := by
      rw [← map_val_find?_attach, nodeBefore?]
      simp
    rw [hall, bareOfAll_find?, (bareOfAll_unmarked hmark).1]
  | some m =>
    obtain ⟨hm, before, after, hsplit, hbefore⟩ := tokenWhere?_eq_some hmark
    rw [map_val_nodeBefore? ht hsplit, bareOfAll_find?, hsplit,
      (bareOfAll_around hm (hq _ hm) hbefore).1]

/-- The node behind a token is the one that stands behind it in the bare tree. -/
theorem bare_nodeAfter? (ht : t.Tiled) (hq : ∀ k, q k = true → k.isSignificant = true)
    (p : NodeKind → Bool) :
    bareOfAll ((t.nodeAfter? (t.tokenWhere? q) p).map Subtype.val).toList
      = ((Bare.behind q (bareOfAll t.children)).find? (·.isNode p)).toList := by
  cases hmark : t.tokenWhere? q with
  | none => simp [nodeAfter?, (bareOfAll_unmarked hmark).2]
  | some m =>
    obtain ⟨hm, before, after, hsplit, hbefore⟩ := tokenWhere?_eq_some hmark
    rw [map_val_nodeAfter? ht hsplit, bareOfAll_find?, hsplit,
      (bareOfAll_around hm (hq _ hm) hbefore).2]

theorem bare_nodeWhere? (t : Tree) (p : NodeKind → Bool) :
    bareOfAll ((t.nodeWhere? p).map Subtype.val).toList
      = ((bareOfAll t.children).find? (·.isNode p)).toList := by
  rw [map_val_nodeWhere?, bareOfAll_find?]

theorem bare_nodesWhere (t : Tree) (p : NodeKind → Bool) :
    bareOfAll ((t.nodesWhere p).map Subtype.val) = (bareOfAll t.children).filter (·.isNode p) := by
  rw [map_val_nodesWhere, bareOfAll_filter]

theorem glyph_tokenWhere? (hq : ∀ k, q k = true → k.isSignificant = true) (t : Tree) :
    (t.tokenWhere? q).map Token.glyph = Bare.mark? q (bareOfAll t.children) :=
  map_glyph_find? hq t.children

end Tree

end ScriptSense
