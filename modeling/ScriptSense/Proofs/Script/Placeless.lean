/-
What a script means does not depend on its layout.

Erased of its places, the meaning of a script has no spans: what is left are the
statements and expressions, the names and values in them, the scopes and symbols with
their numbers, and the names from outside. Two trees that are the same but for their
layout mean the same in this sense. They are a likeness, because the views of a tree are
answered by the tree without its layout.
-/
import ScriptSense.Proofs.Script.Likeness

set_option autoImplicit false

namespace ScriptSense

open ScriptSense.Tree (bareOfAll)

/-! ## Meaning without places -/

/-- **Everything is seen but places.** -/
def Lens.placeless : Lens where
  word name := name
  place _ := ⟨0, 0⟩
  folds _ := rfl

/-! ## Trees that are the same but for their layout -/

namespace Tree

/-- **Two nodes are the same but for their layout.** -/
structure Twins (t t' : Tree) : Prop where
  same : ∃ kind span span' cs cs', t = .node kind span cs ∧ t' = .node kind span' cs'
    ∧ bareOfAll cs = bareOfAll cs'
  tiled : t.Tiled
  tiled' : t'.Tiled

/-- Two children are the same but for their layout. -/
def TwinChildren {t t' : Tree} (c : t.Child) (c' : t'.Child) : Prop := Twins c.val c'.val

namespace Twins

variable {t t' : Tree} {p : NodeKind → Bool} {q : TokenKind → Bool}

theorem kind (h : Twins t t') : t.kind = t'.kind := by
  obtain ⟨kind, span, span', cs, cs', rfl, rfl, -⟩ := h.same
  rfl

theorem children (h : Twins t t') : bareOfAll t.children = bareOfAll t'.children := by
  obtain ⟨kind, span, span', cs, cs', rfl, rfl, hcs⟩ := h.same
  exact hcs

/-- What is left of two nodes without their layout tells whether they are the same. -/
theorem of_bare (ht : t.Tiled) (ht' : t'.Tiled) (hnode : t.isNode p = true)
    (h : t.bare = t'.bare) : Twins t t' := by
  cases t with
  | leaf => cases hnode
  | node kind span cs =>
    rw [bare_node] at h
    obtain ⟨span', cs', rfl, hcs⟩ := eq_node_of_bare h.symm
    exact ⟨⟨kind, span, span', cs, cs', rfl, rfl, hcs.symm⟩, ht, ht'⟩

theorem rel_of_bare (h : Twins t t') {o : Option t.Child} {o' : Option t'.Child}
    (ho : ∀ c ∈ o, c.val.isNode p = true) (ho' : ∀ c ∈ o', c.val.isNode p = true)
    (hbare : bareOfAll (o.map Subtype.val).toList = bareOfAll (o'.map Subtype.val).toList) :
    Option.Rel TwinChildren o o' := by
  -- A node does not vanish with the trivia, so both are found or none.
  have hsingle : ∀ {u : Tree}, u.isNode p = true → u.bare ≠ [] := fun hu hnone => by
    obtain ⟨b, hb, -⟩ := bare_of_isNode hu
    rw [hnone] at hb
    cases hb
  cases o with
  | none =>
    cases o' with
    | none => exact .none
    | some c' => exact absurd (by simpa using hbare.symm) (hsingle (ho' c' rfl))
  | some c =>
    cases o' with
    | none => exact absurd (by simpa using hbare) (hsingle (ho c rfl))
    | some c' =>
      exact .some (of_bare (h.tiled.of_mem_children c.property)
        (h.tiled'.of_mem_children c'.property) (ho c rfl) (by simpa using hbare))

theorem forall₂_of_bare (h : Twins t t') {cs : List t.Child} {cs' : List t'.Child}
    (hcs : ∀ c ∈ cs, c.val.isNode p = true) (hcs' : ∀ c ∈ cs', c.val.isNode p = true)
    (hbare : bareOfAll (cs.map Subtype.val) = bareOfAll (cs'.map Subtype.val)) :
    List.Forall₂ TwinChildren cs cs' := by
  -- Each of the trees stays one node, so the lists are compared one by one.
  have hcons : ∀ (us : List Tree) {u : Tree}, u.isNode p = true →
      ∃ b, u.bare = [b] ∧ bareOfAll (u :: us) = b :: bareOfAll us := fun us u hu => by
    obtain ⟨b, hb, -⟩ := bare_of_isNode hu
    exact ⟨b, hb, by rw [bareOfAll_cons, hb, List.singleton_append]⟩
  induction cs generalizing cs' with
  | nil =>
    cases cs' with
    | nil => exact .nil
    | cons c' cs' =>
      obtain ⟨b, -, hb⟩ := hcons (cs'.map Subtype.val) (hcs' c' List.mem_cons_self)
      rw [List.map_cons, hb] at hbare
      cases hbare
  | cons c cs ih =>
    obtain ⟨b, hc, hb⟩ := hcons (cs.map Subtype.val) (hcs c List.mem_cons_self)
    rw [List.map_cons, hb] at hbare
    cases cs' with
    | nil => cases hbare
    | cons c' cs' =>
      obtain ⟨b', hc', hb'⟩ := hcons (cs'.map Subtype.val) (hcs' c' List.mem_cons_self)
      rw [List.map_cons, hb', List.cons.injEq] at hbare
      refine .cons ?_ (ih (fun d hd => hcs d (List.mem_cons_of_mem _ hd))
        (fun d hd => hcs' d (List.mem_cons_of_mem _ hd)) hbare.2)
      exact of_bare (h.tiled.of_mem_children c.property) (h.tiled'.of_mem_children c'.property)
        (hcs c List.mem_cons_self) (by rw [hc, hc', hbare.1])

/-- The views of a node by kind. -/
theorem nodeWhere? (h : Twins t t') (p : NodeKind → Bool) :
    Option.Rel TwinChildren (t.nodeWhere? p) (t'.nodeWhere? p) :=
  h.rel_of_bare (p := p) (fun _ => List.find?_some (p := fun c : t.Child => c.val.isNode p))
    (fun _ => List.find?_some (p := fun c : t'.Child => c.val.isNode p))
    (by rw [bare_nodeWhere?, bare_nodeWhere?, h.children])

theorem tokenWhere? (h : Twins t t') (hq : ∀ k, q k = true → k.isSignificant = true) :
    Option.Rel (fun m m' : Token => m.glyph = m'.glyph) (t.tokenWhere? q) (t'.tokenWhere? q) := by
  have hglyph : (t.tokenWhere? q).map Token.glyph = (t'.tokenWhere? q).map Token.glyph := by
    rw [glyph_tokenWhere? hq, glyph_tokenWhere? hq, h.children]
  cases hm : t.tokenWhere? q with
  | none =>
    rw [hm, Option.map_none, eq_comm, Option.map_eq_none_iff] at hglyph
    rw [hglyph]
    exact .none
  | some m =>
    rw [hm, Option.map_some, eq_comm, Option.map_eq_some_iff] at hglyph
    obtain ⟨m', hm', hsame⟩ := hglyph
    rw [hm']
    exact .some hsame.symm

/-- The views of a node by place. -/
theorem nodeBefore? (h : Twins t t') (hq : ∀ k, q k = true → k.isSignificant = true)
    (p : NodeKind → Bool) :
    Option.Rel TwinChildren (t.nodeBefore? (t.tokenWhere? q) p)
      (t'.nodeBefore? (t'.tokenWhere? q) p) := by
  have hnode : ∀ {u : Tree} {mark : Option Token}, ∀ c ∈ u.nodeBefore? mark p,
      c.val.isNode p = true := fun c hc => by
    have hboth := List.find?_some hc
    exact (Bool.and_eq_true_iff.1 hboth).1
  refine h.rel_of_bare hnode hnode ?_
  rw [bare_nodeBefore? h.tiled hq, bare_nodeBefore? h.tiled' hq, h.children]

theorem nodeAfter? (h : Twins t t') (hq : ∀ k, q k = true → k.isSignificant = true)
    (p : NodeKind → Bool) :
    Option.Rel TwinChildren (t.nodeAfter? (t.tokenWhere? q) p)
      (t'.nodeAfter? (t'.tokenWhere? q) p) := by
  have hnode : ∀ {u : Tree} {mark : Option Token}, ∀ c ∈ u.nodeAfter? mark p,
      c.val.isNode p = true := fun c hc => by
    obtain ⟨m, -, hfound⟩ := Option.bind_eq_some_iff.1 hc
    have hboth := List.find?_some hfound
    exact (Bool.and_eq_true_iff.1 hboth).1
  refine h.rel_of_bare hnode hnode ?_
  rw [bare_nodeAfter? h.tiled hq, bare_nodeAfter? h.tiled' hq, h.children]

theorem nodesWhere (h : Twins t t') (p : NodeKind → Bool) :
    List.Forall₂ TwinChildren (t.nodesWhere p) (t'.nodesWhere p) :=
  h.forall₂_of_bare (fun _ => isNode_of_mem_nodesWhere) (fun _ => isNode_of_mem_nodesWhere)
    (by rw [bare_nodesWhere, bare_nodesWhere, h.children])

/-- A name is written in the same way. -/
theorem name (h : Twins t t') :
    Option.Rel (Token.SameName .placeless) (View.Identifier.token? t)
      (View.Identifier.token? t') := by
  have hkind : ∀ {u : Tree} {m : Token}, u.tokenWhere? (· == .ident) = some m →
      m.glyph.2 = m.text := fun hm => by
    have hident := eq_of_beq (tokenWhere?_eq_some hm).1
    exact Token.glyph_snd (by rw [hident]; rfl) (by rw [hident]; rfl)
  have hrel := h.tokenWhere? (TokenKind.isSignificant_of_beq .ident rfl)
  change Option.Rel _ (t.tokenWhere? (· == .ident)) (t'.tokenWhere? (· == .ident))
  generalize hm : t.tokenWhere? (· == .ident) = m, hm' : t'.tokenWhere? (· == .ident) = m' at hrel
  cases hrel with
  | none => exact .none
  | @some m m' hglyph =>
    have htext : m.text = m'.text := by rw [← hkind hm, ← hkind hm', hglyph]
    exact .some ⟨htext, rfl⟩

/-- The value of a literal. -/
theorem literal (h : Twins t t') : (View.Literal.token? t).bind Literal.ofToken?
    = (View.Literal.token? t').bind Literal.ofToken? := by
  refine bind_eq_of_rel (h.tokenWhere? TokenKind.isSignificant_of_isLiteral)
    fun m m' hm hglyph => ?_
  have hliteral : m.kind.isLiteral = true := (tokenWhere?_eq_some hm).1
  have hplain : ∀ k : TokenKind, k.isLiteral = true → k.isKeyword = false ∧ k.isTypeName = false :=
    fun k hk => by cases k <;> first | exact ⟨rfl, rfl⟩ | cases hk
  have hkind : m.kind = m'.kind := congrArg Prod.fst hglyph
  have htext : m.text = m'.text := by
    obtain ⟨hkeyword, htype⟩ := hplain _ hliteral
    rw [← Token.glyph_snd hkeyword htype, hglyph, Token.glyph_snd (hkind ▸ hkeyword)
      (hkind ▸ htype)]
  rw [Literal.ofToken?, Literal.ofToken?, hkind, htext]

/-- **Being the same but for the layout is a likeness.** -/
def likeness : Likeness .placeless where
  Same := Twins
  kind := kind
  span _ := rfl
  nodeWhere? h p _ := h.nodeWhere? p
  nodesWhere h p _ := h.nodesWhere p
  nodeBefore? h hq p _ := h.nodeBefore? hq p
  nodeAfter? h hq p _ := h.nodeAfter? hq p
  tokenKind h hq := map_eq_of_rel (h.tokenWhere? hq) fun _ _ _ hglyph => congrArg Prod.fst hglyph
  name := name
  literal h := congrArg _ h.literal

end Twins

end Tree

end ScriptSense
