/-
Nested `begin` blocks.

A `begin` block in the list of statements of another one, or of a lambda, is parsed and
set aside in an error. The grammar knows where it stands by counting, so what is shown of
a course of the grammar is read off the tree here: a block is enclosed by such a list of
statements if and only if the node right above it is an error, and the complaints about
nesting name the `begin` words of these blocks one by one.

What is set aside means nothing. The views ask for the nodes of a kind, and none of them
asks for errors, so a tree in which each block that was set aside is replaced by
something else is alike to the tree itself, and means the same.
-/
import ScriptSense.Proofs.Grammar.SetAside
import ScriptSense.Proofs.Script.Placeless
import ScriptSense.Proofs.Syntax.Sites

set_option autoImplicit false

namespace ScriptSense

/-! ## Sites -/

/-- The lists of statements that are counted are those of blocks and lambdas. -/
theorem NodeKind.isCounted_lists (kind : NodeKind) :
    kind.lists.isCounted = (kind == .beginStmt || kind == .lambdaExpr) := by
  cases kind <;> rfl

/-- Among the elements, from the inside out, there is a list of statements right in a
`begin` block or a lambda. -/
def HoldsList (chain : List Tree) : Prop :=
  ∃ near list owner far, chain = near ++ list :: owner :: far
    ∧ list.isNode (· == .stmtList) = true
    ∧ owner.isNode (fun kind => kind == .beginStmt || kind == .lambdaExpr) = true

namespace NodeSite

/-- The node stands in the list of statements of a `begin` block or a lambda. -/
def IsEnclosed (s : NodeSite) : Prop := HoldsList s.above

/-- The node was set aside: the one right above is an error. -/
def isSetAside (s : NodeSite) : Bool := s.parent?.any (·.item.isNode (· == .error))

/-- The node is a `begin` block. -/
def isBegin (s : NodeSite) : Bool := s.item.isNode (· == .beginStmt)

/-- A site is set aside when an error stands right above it. -/
theorem isSetAside_eq (t : Tree) (above : List Tree) :
    NodeSite.isSetAside ⟨t, above⟩ = above.head?.any (·.isNode (· == .error)) := by
  cases above <;> rfl

end NodeSite

/-- A chain holds such a list at its front or further up. -/
theorem holdsList_cons {t n : Tree} {above : List Tree} : HoldsList (t :: n :: above)
    ↔ (t.isNode (· == .stmtList) = true
        ∧ n.isNode (fun kind => kind == .beginStmt || kind == .lambdaExpr) = true)
      ∨ HoldsList (n :: above) := by
  constructor
  · rintro ⟨near, list, owner, far, hchain, hlist, howner⟩
    cases near with
    | nil =>
      obtain ⟨rfl, hrest⟩ := List.cons.inj hchain
      obtain ⟨rfl, -⟩ := List.cons.inj hrest
      exact .inl ⟨hlist, howner⟩
    | cons _ near => exact .inr ⟨near, list, owner, far, (List.cons.inj hchain).2, hlist, howner⟩
  · rintro (⟨hlist, howner⟩ | ⟨near, list, owner, far, hchain, hlist, howner⟩)
    · exact ⟨[], t, n, above, rfl, hlist, howner⟩
    · exact ⟨t :: near, list, owner, far, congrArg (t :: ·) hchain, hlist, howner⟩

/-- A list and the node above it make two. -/
theorem HoldsList.two_le_length {chain : List Tree} (h : HoldsList chain) : 2 ≤ chain.length := by
  obtain ⟨near, list, owner, far, rfl, -⟩ := h
  simp only [List.length_append, List.length_cons]
  omega

namespace Tree

/-- **In a tree that is housed, a `begin` block is enclosed if and only if it is set aside.** -/
theorem Housed.site {inside aside : Bool} {t : Tree} (h : Housed inside aside t) {above : List Tree}
    (hinside : inside = true ↔ HoldsList (t :: above))
    (haside : aside = above.head?.any (·.isNode (· == .error))) {s : NodeSite}
    (hs : s ∈ t.nodeSitesBelow above) (hbegin : s.isBegin = true) :
    s.IsEnclosed ↔ s.isSetAside = true := by
  -- Induction on how the tree is housed. What is above grows with every step down.
  induction h generalizing above with
  | leaf => simp [nodeSitesBelow] at hs
  | @node inside aside kind span children h _ ih =>
    rw [nodeSitesBelow, List.mem_cons, mem_nodeSitesOfAllBelow] at hs
    rcases hs with rfl | ⟨c, hc, hs⟩
    · obtain rfl : kind = .beginStmt := eq_of_beq hbegin
      rw [NodeSite.isSetAside_eq, ← haside, h rfl, hinside]
      change HoldsList above ↔ _
      cases above with
      | nil =>
        -- With nothing above there is neither a list nor an error.
        have hnone {chain : List Tree} (hshort : chain.length < 2) : ¬ HoldsList chain := fun h =>
          absurd h.two_le_length (Nat.not_le.2 hshort)
        exact iff_of_false (hnone (by simp)) (hnone (by simp))
      | cons n above => simp [holdsList_cons, isNode, Tree.kind, ElementKind.isNode]
    · refine ih c hc ?_ rfl hs
      rw [holdsList_cons, ← hinside, Bool.or_eq_true, Bool.and_eq_true, NodeKind.isCounted_lists,
        or_comm, and_comm]
      rfl

mutual

/-- The blocks that are set aside are found by going through the sites in order. -/
theorem asides_eq (above : List Tree) (t : Tree) :
    ((t.nodeSitesBelow above).filter fun s => s.isBegin && s.isSetAside).map
        (fun s => s.item.tokenOf? .kwBegin)
      = t.asides (above.head?.any (·.isNode (· == .error))) := by
  cases t with
  | leaf => simp [nodeSitesBelow]
  | node kind span cs =>
    have hbelow := asidesOfAll_eq (.node kind span cs :: above) cs
    have hself : NodeSite.isBegin ⟨.node kind span cs, above⟩ = (kind == .beginStmt) := rfl
    rw [nodeSitesBelow, List.filter_cons, hself, NodeSite.isSetAside_eq, Bool.and_comm, asides]
    split
    · exact congrArg (_ :: ·) hbelow
    · exact hbelow

/-- The `begin` blocks set aside where they stand. -/
theorem asidesOfAll_eq (above : List Tree) (ts : List Tree) :
    ((nodeSitesOfAllBelow above ts).filter fun s => s.isBegin && s.isSetAside).map
        (fun s => s.item.tokenOf? .kwBegin)
      = asidesOfAll (above.head?.any (·.isNode (· == .error))) ts := by
  cases ts with
  | nil => simp [nodeSitesOfAllBelow]
  | cons t ts =>
    simp [nodeSitesOfAllBelow, asides_eq above t, asidesOfAll_eq above ts]

end

end Tree

/-! ## What a text is turned into -/

namespace Grammar

open ScriptSense.Tree (Housed asidesOfAll)

/-- What a text is turned into is housed. -/
theorem housed_parseWith (f : String → Bool) (text : String) :
    Housed false false (parseWith f text).root := by
  have hcourse := course_script f (tokens text)
  have hbuilt := hcourse.housed rfl fun c hc => absurd hc List.not_mem_nil
  refine .node (absurd · (by decide)) fun c hc => ?_
  rw [State.toList_out_shiftMany, List.mem_append] at hc
  rcases hc with hc | hc
  · exact (hbuilt c hc).congr (by simp [hcourse.begins, State.initial]) rfl
  · obtain ⟨m, -, rfl⟩ := List.mem_map.1 hc
    exact .leaf _ _ m

/-- The complaints about blocks inside one another are about those set aside. -/
theorem asides_parseWith (f : String → Bool) (text : String) :
    ((parseWith f text).complaints.filter (·.problem == .nestedBegin)).map (fun c => some c.span)
      = ((parseWith f text).root.asides false).map (Option.map Token.span) := by
  obtain ⟨words, hwords, hasides⟩ := (course_script f (tokens text)).reports
  have hroot : (parseWith f text).root.asides false = words.map some := by
    refine (Tree.asides_node _ rfl).trans ?_
    rw [State.toList_out_shiftMany, Tree.asidesOfAll_append, Tree.asidesOfAll_leaves,
      List.append_nil]
    exact hasides
  have hreported : ((parseWith f text).complaints.filter (·.problem == .nestedBegin)).map
      Complaint.span = words.map Token.span := hwords
  calc ((parseWith f text).complaints.filter (·.problem == .nestedBegin)).map (fun c => some c.span)
      = (words.map Token.span).map some := by rw [← hreported, List.map_map]; rfl
    _ = (words.map some).map (Option.map Token.span) := by rw [List.map_map, List.map_map]; rfl
    _ = ((parseWith f text).root.asides false).map (Option.map Token.span) := by rw [hroot]

end Grammar

/-- The wording tells the complaint about nesting from every other. -/
theorem Problem.message_eq_nestedBegin (problem : Problem) :
    (problem.message == "nested begin blocks not allowed") = (problem == .nestedBegin) := by
  cases problem with
  | missing wanted => cases wanted <;> decide +kernel
  | unopened closer => cases closer <;> decide +kernel
  | _ => decide +kernel

/-! ## Other things set aside -/

namespace Tree

mutual

/-- The tree in which each `begin` block that was set aside is replaced by the trees that
`g` gives for it. -/
def withAsides (g : Tree → List Tree) : Tree → Tree
  | .leaf m => .leaf m
  | .node kind span cs => .node kind span (withAsidesAll g (kind == .error) cs)

/-- The trees with what is set aside replaced. The trees may themselves stand right in an
error. -/
def withAsidesAll (g : Tree → List Tree) (aside : Bool) : List Tree → List Tree
  | [] => []
  | t :: ts =>
    (if aside && t.isNode (· == .beginStmt) then g t else [t.withAsides g])
      ++ withAsidesAll g aside ts

end

variable (g : Tree → List Tree) {t t' : Tree}

/-- Outside of errors every tree keeps its place. -/
theorem withAsidesAll_false (ts : List Tree) :
    withAsidesAll g false ts = ts.map (withAsides g) := by
  induction ts with
  | nil => simp [withAsidesAll]
  | cons t ts ih => simp [withAsidesAll, ih]

/-- A tree keeps its kind. -/
@[simp] theorem kind_withAsides (t : Tree) : (t.withAsides g).kind = t.kind := by
  cases t <;> simp [withAsides, kind]

/-- A tree keeps its place in the text. -/
@[simp] theorem span_withAsides (t : Tree) : (t.withAsides g).span = t.span := by
  cases t <;> simp [withAsides, span]

/-- A tree stays a node of the same kinds. -/
@[simp] theorem isNode_withAsides (p : NodeKind → Bool) (t : Tree) :
    (t.withAsides g).isNode p = t.isNode p :=
  congrArg (ElementKind.isNode p) (t.kind_withAsides g)

/-- A token stays a token. -/
@[simp] theorem token?_withAsides (t : Tree) : (t.withAsides g).token? = t.token? := by
  cases t <;> simp [withAsides, token?]

/-- Outside of errors the children are those of before, one by one. -/
theorem children_withAsides (h : t.isNode (· == .error) = false) :
    (t.withAsides g).children = t.children.map (withAsides g) := by
  cases t with
  | leaf => simp [withAsides, children]
  | node kind span cs =>
    have hkind : (kind == .error) = false := h
    simp [withAsides, children, hkind, withAsidesAll_false]

/-- **The second tree is the first with other things set aside**, and they are no errors
themselves. -/
structure Spared (t t' : Tree) : Prop where
  kept : t.isNode (· == .error) = false
  eq : t' = t.withAsides g

namespace Spared

variable {g} (h : Spared g t t')

include h

/-- A tree that is spared has the children of before, one by one. -/
theorem children : t'.children = t.children.map (withAsides g) := by
  rw [h.eq, children_withAsides g h.kept]

/-- A tree that is spared has the tokens of before. -/
theorem tokenWhere? (q : TokenKind → Bool) : t'.tokenWhere? q = t.tokenWhere? q := by
  have htokens : (t.children.map (withAsides g)).filterMap token?
      = t.children.filterMap token? := by
    rw [List.filterMap_map]
    exact List.filterMap_congr fun c _ => token?_withAsides g c
  rw [Tree.tokenWhere?, Tree.tokenWhere?, h.children, htokens]

omit h in
/-- What is found by a property that errors do not have is no error. -/
theorem of_isNode {p : NodeKind → Bool} (hp : p .error = false) {c : Tree}
    (hc : c.isNode p = true) : Spared g c (c.withAsides g) where
  kept := by
    cases c with
    | leaf => rfl
    | node kind span cs =>
      refine Bool.eq_false_iff.2 fun hkind => ?_
      rw [eq_of_beq hkind] at hc
      exact absurd hc (Bool.eq_false_iff.1 hp)
  eq := rfl

/-- What is found among the children, told by kind and place, is found in either tree. -/
theorem find? {p : NodeKind → Bool} (hp : p .error = false) (near : Span → Bool) :
    Option.Rel (Spared g) (t.children.find? fun c => c.isNode p && near c.span)
      (t'.children.find? fun c => c.isNode p && near c.span) := by
  have hseen : (fun c : Tree => c.isNode p && near c.span) ∘ withAsides g
      = fun c => c.isNode p && near c.span :=
    funext fun c => by simp
  rw [h.children, List.find?_map, hseen]
  cases hfound : t.children.find? fun c => c.isNode p && near c.span with
  | none => exact .none
  | some c =>
    have hc : c.isNode p = true ∧ near c.span = true := by
      simpa only [Bool.and_eq_true] using List.find?_some hfound
    exact .some (of_isNode hp hc.1)

/-- A node other than an error is found where it was. -/
theorem nodeWhere? {p : NodeKind → Bool} (hp : p .error = false) :
    Option.Rel (fun c c' => Spared g c.val c'.val) (t.nodeWhere? p) (t'.nodeWhere? p) := by
  refine rel_child ?_
  rw [map_val_nodeWhere?, map_val_nodeWhere?]
  simpa only [Bool.and_true] using h.find? hp fun _ => true

/-- So are all nodes of a kind. -/
theorem nodesWhere {p : NodeKind → Bool} (hp : p .error = false) :
    List.Forall₂ (fun c c' => Spared g c.val c'.val) (t.nodesWhere p) (t'.nodesWhere p) := by
  rw [← List.forall₂_map_right_iff, ← List.forall₂_map_left_iff, map_val_nodesWhere,
    map_val_nodesWhere, h.children, List.filter_map, List.forall₂_map_right_iff]
  have hseen : (fun c : Tree => c.isNode p) ∘ withAsides g = fun c => c.isNode p :=
    funext fun c => isNode_withAsides g p c
  rw [hseen, List.forall₂_same]
  exact fun c hc => of_isNode hp (List.mem_filter.1 hc).2

/-- So is the last node in front of a token. -/
theorem nodeBefore? {p : NodeKind → Bool} (hp : p .error = false) (mark : Option Token) :
    Option.Rel (fun c c' => Spared g c.val c'.val) (t.nodeBefore? mark p)
      (t'.nodeBefore? mark p) := by
  have hfound (u : Tree) : (u.nodeBefore? mark p).map Subtype.val
      = u.children.find? fun c => c.isNode p && mark.all fun m => c.span.stop ≤ m.start :=
    map_val_find?_attach u.children
      fun c => c.isNode p && mark.all fun m : Token => decide (c.span.stop ≤ m.start)
  refine rel_child ?_
  rw [hfound, hfound]
  exact h.find? hp fun span => mark.all fun m => span.stop ≤ m.start

/-- So is the first node behind a token. -/
theorem nodeAfter? {p : NodeKind → Bool} (hp : p .error = false) (mark : Option Token) :
    Option.Rel (fun c c' => Spared g c.val c'.val) (t.nodeAfter? mark p)
      (t'.nodeAfter? mark p) := by
  cases mark with
  | none => exact .none
  | some m =>
    have hfound (u : Tree) : (u.nodeAfter? (some m) p).map Subtype.val
        = u.children.find? fun c => c.isNode p && m.stop ≤ c.span.start :=
      map_val_find?_attach u.children fun c => c.isNode p && decide (m.stop ≤ c.span.start)
    refine rel_child ?_
    rw [hfound, hfound]
    exact h.find? hp fun span => m.stop ≤ span.start

end Spared

end Tree

/-- **All is seen as it is**, and where it is. -/
def Lens.clear : Lens :=
  { Lens.placeless with place := fun span => span }

/-- Without a lens a name is seen as it is. -/
@[simp] theorem Lens.word_clear (name : String) : Lens.clear.word name = name := rfl

/-- Without a lens a place is seen as it is. -/
@[simp] theorem Lens.place_clear (span : Span) : Lens.clear.place span = span := rfl

/-- **To have other things set aside is a likeness**, and nothing else differs. -/
def Tree.Spared.likeness (g : Tree → List Tree) : Likeness .clear where
  Same := Spared g
  kind h := by rw [h.eq, kind_withAsides]
  span h := by rw [h.eq, span_withAsides]
  nodeWhere? h p hp := h.nodeWhere? hp
  nodesWhere h p hp := h.nodesWhere hp
  nodeBefore? {_ _ q} h _ p hp := by
    rw [h.tokenWhere? q]
    exact h.nodeBefore? hp _
  nodeAfter? {_ _ q} h _ p hp := by
    rw [h.tokenWhere? q]
    exact h.nodeAfter? hp _
  tokenKind {_ _ q} h _ := by rw [h.tokenWhere? q]
  name {t t'} h := by
    rw [View.Identifier.token?, View.Identifier.token?, tokenOf?, tokenOf?, h.tokenWhere?]
    cases t.tokenWhere? (· == .ident) with
    | none => exact .none
    | some m => exact .some ⟨rfl, rfl⟩
  literal h := by
    rw [View.Literal.token?, View.Literal.token?, h.tokenWhere?]

mutual

/-- Without a lens an expression is seen as it is. -/
theorem Expr.through_clear (e : Expr) : e.through .clear = e := by
  cases e with
  | mk form ty span => simp [form.through_clear]

/-- So is its form. -/
theorem ExprForm.through_clear (form : ExprForm) : form.through .clear = form := by
  cases form with
  | name name symbol => simp
  | literal value => cases value <;> simp [Literal.through]
  | unary op operand => simp [operand.through_clear]
  | binary op left right => simp [left.through_clear, right.through_clear]
  | member op base member => simp [base.through_clear, member.through_clear]
  | field name => simp
  | call name symbol args => simp [Expr.throughAll_clear args]
  | lambda blockType scope params body => simp [body.through_clear]

/-- So are all expressions of a list. -/
theorem Expr.throughAll_clear (es : List Expr) : Expr.throughAll .clear es = es := by
  cases es with
  | nil => simp
  | cons e es => simp [e.through_clear, Expr.throughAll_clear es]

/-- So is an optional expression. -/
theorem Expr.throughIn_clear (e : Option Expr) : Expr.throughIn .clear e = e := by
  cases e with
  | none => simp
  | some e => simp [e.through_clear]

/-- So is a block. -/
theorem Block.through_clear (b : Block) : b.through .clear = b := by
  cases b with
  | mk scope statements => simp [Stmt.throughAll_clear statements]

/-- So are all statements of a list. -/
theorem Stmt.throughAll_clear (ss : List Stmt) : Stmt.throughAll .clear ss = ss := by
  cases ss with
  | nil => simp
  | cons s ss => simp [s.through_clear, Stmt.throughAll_clear ss]

/-- So is a statement. -/
theorem Stmt.through_clear (s : Stmt) : s.through .clear = s := by
  cases s with
  | mk form span => simp [form.through_clear]

/-- So is its form. -/
theorem StmtForm.through_clear (form : StmtForm) : form.through .clear = form := by
  cases form with
  | varDecl symbol value => simp [Expr.throughIn_clear value]
  | assign target value => simp [target.through_clear, value.through_clear]
  | evaluate expression => simp [expression.through_clear]
  | branch condition body rest =>
    simp [condition.through_clear, body.through_clear, Branch.throughIn_clear rest]
  | whileLoop condition body => simp [condition.through_clear, body.through_clear]
  | foreachLoop header item collection body =>
    simp [item.through_clear, collection.through_clear, body.through_clear]
  | beginBlock blockType params args body =>
    simp [Expr.throughAll_clear args, body.through_clear]
  | leave value => simp [Expr.throughIn_clear value]
  | breakLoop => simp
  | continueLoop => simp
  | expression expression => simp [expression.through_clear]

/-- So is the variable of a loop. -/
theorem LoopVariable.through_clear (item : LoopVariable) : item.through .clear = item := by
  cases item with
  | declared symbol => simp
  | existing item => simp [item.through_clear]

/-- So is a branch. -/
theorem Branch.through_clear (b : Branch) : b.through .clear = b := by
  cases b with
  | elseIf condition body rest span =>
    simp [condition.through_clear, body.through_clear, Branch.throughIn_clear rest]
  | otherwise body span => simp [body.through_clear]

/-- So is an optional branch. -/
theorem Branch.throughIn_clear (b : Option Branch) : Branch.throughIn .clear b = b := by
  cases b with
  | none => simp
  | some b => simp [b.through_clear]

end

/-- Without a lens a script is seen as it is. -/
theorem Script.through_clear (s : Script) : s.through .clear = s := by
  have hword : Lens.clear.word = id := rfl
  have hscope : Scope.through .clear = id := rfl
  have hsymbol : Symbol.through .clear = id := rfl
  simp [Script.through, ScopeTree.through, Stmt.throughAll_clear, hword, hscope, hsymbol]

/-- **What is set aside means nothing.** -/
theorem Script.ofTree?_withAsides (g : Tree → List Tree) {t : Tree}
    (h : t.kind = .node .script) : Script.ofTree? (t.withAsides g) = Script.ofTree? t := by
  have hspared : Tree.Spared g t (t.withAsides g) :=
    .of_isNode (p := (· == .script)) rfl (by rw [Tree.isNode, h]; rfl)
  have hseen := (Tree.Spared.likeness g).ofTree?_congr hspared h
  have hclear : Script.through .clear = id := funext Script.through_clear
  rw [hclear, Option.map_id, id, id] at hseen
  exact hseen.symm

/-! ## Nested blocks -/

/-- **Blocks inside one another are caught exactly** in what a text is parsed into. -/
structure CatchesNested (p : Parse) : Prop where
  /-- A block in the list of statements of another block or of a lambda is set aside, and
  no other one. -/
  aside : ∀ s ∈ p.root.nodeSites, s.isBegin = true → (s.IsEnclosed ↔ s.isSetAside = true)
  /-- Each block that is set aside is complained about once, in order, where it begins. -/
  reported : (p.complaints.filter (·.message == "nested begin blocks not allowed")).map
      (fun c => some c.span)
    = (p.root.nodeSites.filter fun s => s.isBegin && s.isSetAside).map
      fun s => (s.item.tokenOf? .kwBegin).map Token.span
  /-- The script means what it means with anything else in the place of these blocks. -/
  ignored : ∀ g : Tree → List Tree,
    Script.ofTree? (p.root.withAsides g) = Script.ofTree? p.root

/-- **Whatever the text and the functions known, blocks inside one another are caught
exactly.** -/
theorem nested_blocks_caught (f : String → Bool) (text : String) :
    CatchesNested (parseWith f text) where
  aside s hs hbegin := by
    have hnone : ¬ HoldsList [(parseWith f text).root] := fun h => absurd h.two_le_length (by simp)
    exact (Grammar.housed_parseWith f text).site (by simpa using hnone) rfl hs hbegin
  reported := by
    have hmessage : (fun c : Complaint => c.message == "nested begin blocks not allowed")
        = fun c => c.problem == .nestedBegin :=
      funext fun c => c.problem.message_eq_nestedBegin
    have hsites : ((parseWith f text).root.nodeSites.filter fun s => s.isBegin && s.isSetAside).map
        (fun s => s.item.tokenOf? .kwBegin) = (parseWith f text).root.asides false :=
      Tree.asides_eq [] _
    rw [hmessage, Grammar.asides_parseWith, ← hsites, List.map_map]
    rfl
  ignored g := Script.ofTree?_withAsides g rfl

end ScriptSense
