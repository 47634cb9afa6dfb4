/-
What the views answer of a whole node.

A view looks for a node of some kind, or for one on this or that side of a token, and
layout is neither. So the elements without layout decide what is found, and of a whole node
these are known: it is one of a few rows. One lemma for each kind of node says what its
views answer and that nothing else is there: the nodes among its children (`Tree.parts`)
are those answered.
-/
import ScriptSense.Proofs.Grammar.WholeRules
import ScriptSense.Proofs.Syntax.Bare

set_option autoImplicit false

namespace ScriptSense

namespace Tree

/-- The children that are nodes. -/
def parts (t : Tree) : List Tree := t.children.filter (·.isNode fun _ => true)

/-! ## Without layout -/

variable {t c : Tree} {p : NodeKind → Bool} {q : TokenKind → Bool}

/-- A node is no layout. -/
theorem isSolid_of_isNode (h : c.isNode p = true) : c.isSolid = true := by
  cases c with
  | leaf => cases h
  | node => rfl

/-- A node is found among the elements where it is found among the children. -/
theorem find?_solid (p : NodeKind → Bool) (cs : List Tree) :
    cs.find? (·.isNode p) = (solid cs).find? (·.isNode p) := by
  rw [solid, List.find?_filter]
  congr 1
  funext c
  cases h : c.isNode p with
  | false => simp
  | true => simp [isSolid_of_isNode h]

/-- So are all nodes of a kind. -/
theorem filter_solid (p : NodeKind → Bool) (cs : List Tree) :
    cs.filter (·.isNode p) = (solid cs).filter (·.isNode p) := by
  rw [solid, List.filter_filter]
  congr 1
  funext c
  cases h : c.isNode p with
  | false => rw [Bool.false_and]
  | true => rw [isSolid_of_isNode h, Bool.and_true]

theorem val_nodeWhere? (p : NodeKind → Bool) (t : Tree) :
    (t.nodeWhere? p).map Subtype.val = (solid t.children).find? (·.isNode p) := by
  rw [map_val_nodeWhere?, find?_solid]

theorem val_nodesWhere (p : NodeKind → Bool) (t : Tree) :
    (t.nodesWhere p).map Subtype.val = (solid t.children).filter (·.isNode p) := by
  rw [map_val_nodesWhere, filter_solid]

/-- The tokens without layout. -/
theorem filterMap_solid (cs : List Tree) :
    (solid cs).filterMap token? = (cs.filterMap token?).filter (·.kind.isSignificant) := by
  rw [solid, List.filterMap_filter, List.filter_filterMap]
  congr 1
  funext c
  cases c with
  | node => rfl
  | leaf u => cases h : u.kind.isSignificant <;> simp [isSolid, token?, Option.filter, h]

/-- A token that is no layout is found among the elements without layout. -/
theorem tokenWhere?_solid (hq : ∀ k, q k = true → k.isSignificant = true) (t : Tree) :
    t.tokenWhere? q = ((solid t.children).filterMap token?).find? (q ·.kind) := by
  rw [tokenWhere?, filterMap_solid, List.find?_filter]
  congr 1
  funext u
  cases h : q u.kind with
  | false => simp
  | true => simp [hq _ h]

variable {front back : List Tree} {m : Token}

/-- The nodes on both sides of a token are found among the elements on both sides. -/
theorem val_around (ht : t.Tiled) (h : solid t.children = front ++ .leaf m :: back)
    (p : NodeKind → Bool) :
    (t.nodeBefore? (some m) p).map Subtype.val = front.find? (·.isNode p)
      ∧ (t.nodeAfter? (some m) p).map Subtype.val = back.find? (·.isNode p) := by
  obtain ⟨before, rest, hchildren, rfl, hrest⟩ := List.filter_eq_append_iff.1 h
  obtain ⟨skipped, after, rfl, hskipped, hm, rfl⟩ := List.filter_eq_cons_iff.1 hrest
  have hfront : solid (before ++ skipped) = solid before := by
    rw [solid, List.filter_append, List.filter_eq_nil_iff.2 hskipped, List.append_nil]
  rw [← List.append_assoc] at hchildren
  rw [map_val_nodeBefore? ht hchildren, map_val_nodeAfter? ht hchildren, find?_solid,
    find?_solid p after, hfront]
  exact ⟨rfl, rfl⟩

/-! ## Rows, element by element -/

/-- The elements are those of a row, read slot by slot. -/
def ReadsRow : List Slot → List Tree → Prop
  | [], ts => ts = []
  | .token p :: slots, ts => ∃ m us, p m.kind = true ∧ ReadsRow slots us ∧ ts = .leaf m :: us
  | .node p :: slots, ts => ∃ t us, t.isNode p = true ∧ ReadsRow slots us ∧ ts = t :: us

/-- The elements are those of one of the rows. -/
def ReadsOne : List (List Slot) → List Tree → Prop
  | [], _ => False
  | [slots], ts => ReadsRow slots ts
  | slots :: rows, ts => ReadsRow slots ts ∨ ReadsOne rows ts

/-- A row is read element by element. -/
theorem readsRow_of_row {slots : List Slot} {ts : List Tree} (h : Row slots ts) :
    ReadsRow slots ts := by
  induction h with
  | nil => rfl
  | @cons slot t slots us hfits _ ih =>
    cases slot with
    | token p =>
      obtain ⟨m, rfl, hm⟩ := hfits
      exact ⟨m, us, hm, ih, rfl⟩
    | node p => exact ⟨t, us, hfits, ih, rfl⟩

/-- One of the rows is read. -/
theorem readsOne_of_oneOf {rows : List (List Slot)} {ts : List Tree} (h : OneOf rows ts) :
    ReadsOne rows ts := by
  obtain ⟨slots, hslots, hrow⟩ := h
  induction rows with
  | nil => cases hslots
  | cons first rows ih =>
    have hreads := readsRow_of_row hrow
    cases rows with
    | nil => rwa [List.mem_singleton.1 hslots] at hreads
    | cons second rows =>
      rcases List.mem_cons.1 hslots with rfl | hslots
      · exact .inl hreads
      · exact .inr (ih hslots)

/-- A token is no node. -/
@[simp] theorem isNode_leaf (p : NodeKind → Bool) (m : Token) : (leaf m).isNode p = false := rfl

/-- A node of some kind is a node. -/
theorem isNode_any (h : c.isNode p = true) : (c.isNode fun _ => true) = true :=
  isNode_mono h fun _ _ => rfl

/-- A whole node with fixed rows reads as one of them. -/
theorem Whole.row {kind : NodeKind} (h : t.Whole) (hkind : t.kind = .node kind)
    (hsorts : kind.sorts = []) :
    ReadsOne kind.rows (solid t.children) := by
  cases h with
  | leaf => cases hkind
  | node h _ =>
    cases hkind
    exact readsOne_of_oneOf (h.row hsorts)

/-- A whole node without fixed rows has elements of its sorts. -/
theorem Whole.all {kind : NodeKind} (h : t.Whole) (hkind : t.kind = .node kind)
    (hrows : kind.rows = [[]]) :
    AllOf kind.sorts (solid t.children) := by
  cases h with
  | leaf => cases hkind
  | node h _ =>
    cases hkind
    exact h.all hrows

/-! ## What is found in a row -/

/-- The view answers the element. -/
def Answers (o : Option t.Child) (c : Tree) : Prop := o.map Subtype.val = some c

/-- What is answered is a child. -/
theorem Answers.child {o : Option t.Child} (h : Answers o c) :
    ∃ a : t.Child, o = some a ∧ a.val = c :=
  Option.map_eq_some_iff.1 h

variable {ts : List Tree} {m : Token}

/-- The parts are the nodes among the elements. -/
theorem parts_of_solid (h : solid t.children = ts) : t.parts = ts.filter (·.isNode fun _ => true) :=
  h ▸ filter_solid _ _

/-- The first node of a kind among the elements is what is asked for. -/
theorem answers_node (h : solid t.children = ts) (hfound : ts.find? (·.isNode p) = some c) :
    Answers (t.nodeWhere? p) c := by
  rw [Answers, val_nodeWhere?, h, hfound]

/-- Without a node of the kind among the elements there is none. -/
theorem nodeWhere?_none (h : solid t.children = ts) (hnone : ts.find? (·.isNode p) = none) :
    t.nodeWhere? p = none := by
  have hmap : (t.nodeWhere? p).map Subtype.val = none := by rw [val_nodeWhere?, h, hnone]
  exact Option.map_eq_none_iff.1 hmap

/-- The first token of a kind among the elements is what is asked for. -/
theorem tokenWhere?_of_solid (hq : ∀ k, q k = true → k.isSignificant = true)
    (h : solid t.children = ts)
    (hfound : (ts.filterMap token?).find? (q ·.kind) = some m) : t.tokenWhere? q = some m := by
  rw [tokenWhere?_solid hq, h, hfound]

/-- The views on both sides of a token answer what stands on both sides. -/
theorem answers_around {mark : Option Token} (words : List Token) {a b : Tree} {back : List Tree}
    {p' : NodeKind → Bool} (ht : t.Tiled)
    (h : solid t.children = words.map .leaf ++ a :: .leaf m :: b :: back) (hmark : mark = some m)
    (ha : a.isNode p = true) (hb : b.isNode p' = true) :
    Answers (t.nodeBefore? mark p) a ∧ Answers (t.nodeAfter? mark p') b := by
  subst hmark
  have hsplit : solid t.children = (words.map .leaf ++ [a]) ++ .leaf m :: (b :: back) := by
    rw [h, List.append_assoc, List.singleton_append]
  refine ⟨(val_around ht hsplit p).1.trans ?_, (val_around ht hsplit p').2.trans ?_⟩
  · have hwords : (words.map leaf).find? (·.isNode p) = none := by
      simp [List.find?_eq_none, isNode_leaf]
    rw [List.find?_append, hwords, Option.none_or, List.find?_cons_of_pos ha]
  · exact List.find?_cons_of_pos hb

/-- A token that is found is a child of the kind. -/
theorem mem_children_of_tokenWhere? (h : t.tokenWhere? q = some m) :
    q m.kind = true ∧ .leaf m ∈ t.children := by
  obtain ⟨hq, before, after, hsplit, -⟩ := tokenWhere?_eq_some h
  exact ⟨hq, hsplit ▸ List.mem_append_right before List.mem_cons_self⟩

/-- A leaf is its token. -/
theorem token?_leaf (m : Token) : (leaf m).token? = some m := rfl

/-- A node is no token. -/
theorem token?_of_isNode (h : c.isNode p = true) : c.token? = none := by
  cases c with
  | leaf => cases h
  | node => rfl

/-- A node of one kind is of this kind. -/
theorem kind_of_isNode {k : NodeKind} (h : c.isNode (· == k) = true) : c.kind = .node k := by
  cases c with
  | leaf => cases h
  | node k' span cs => exact congrArg ElementKind.node (eq_of_beq h)

/-- An expression is no block. -/
theorem not_block_of_expression (h : c.isNode NodeKind.isExpression = true) :
    c.isNode (· == .stmtList) = false :=
  not_isNode h fun k hk => by cases k <;> first | rfl | cases hk

/-- An expression is no branch. -/
theorem not_branch_of_expression (h : c.isNode NodeKind.isExpression = true) :
    c.isNode NodeKind.isBranch = false :=
  not_isNode h fun k hk => by cases k <;> first | rfl | cases hk

/-- A variable is no block. -/
theorem not_block_of_variable (h : c.isNode NodeKind.isVariable = true) :
    c.isNode (· == .stmtList) = false :=
  not_isNode h fun k hk => by cases k <;> first | rfl | cases hk

/-- A node of one kind is of no other. -/
theorem not_one_of_one {k k' : NodeKind} (h : c.isNode (· == k) = true) (hne : (k == k') = false) :
    c.isNode (· == k') = false :=
  (isNode_eq h).trans hne

/-! ## Whole nodes -/

namespace Whole

/-- A name is its identifier. -/
theorem identifier (h : t.Whole) (hkind : t.kind = .node .name ∨ t.kind = .node .nameRef) :
    t.parts = [] ∧ ∃ m, View.Identifier.token? t = some m := by
  have hrow : ReadsOne [[.word .ident]] (solid t.children) := by
    rcases hkind with hkind | hkind <;> exact h.row hkind rfl
  
  obtain ⟨m, _, hm, rfl, hsolid⟩ := hrow
  refine ⟨parts_of_solid hsolid, m, ?_⟩
  exact tokenWhere?_of_solid (TokenKind.isSignificant_of_beq _ rfl) hsolid
    (by simp [token?_leaf, hm])

/-- A literal has a token and no parts. -/
theorem literal (h : t.Whole) (hkind : t.kind = .node .literal) :
    t.parts = [] ∧ ∃ m, View.Literal.token? t = some m := by
  obtain ⟨m, _, hm, rfl, hsolid⟩ := h.row hkind rfl
  refine ⟨parts_of_solid hsolid, m, ?_⟩
  exact tokenWhere?_of_solid TokenKind.isSignificant_of_isLiteral hsolid (by simp [token?_leaf, hm])

/-- Where one expression and words are all there is. -/
theorem holder (h : t.Whole)
    (hkind : t.kind = .node .letStmt ∨ t.kind = .node .exprStmt ∨ t.kind = .node .parenExpr) :
    ∃ e, t.parts = [e] ∧ Answers (View.Holder.expression? t) e
      ∧ e.isNode NodeKind.isExpression = true := by
  rcases hkind with hkind | hkind | hkind
  all_goals
    have hrow := h.row hkind rfl
  · obtain ⟨m, _, hm, ⟨e, _, he, rfl, rfl⟩, hsolid⟩ := hrow
    exact ⟨e, by simp [parts_of_solid hsolid, isNode_any he],
      answers_node hsolid (by simp [he]), he⟩
  · obtain ⟨e, _, he, rfl, hsolid⟩ := hrow
    exact ⟨e, by simp [parts_of_solid hsolid, isNode_any he],
      answers_node hsolid (by simp [he]), he⟩
  · obtain ⟨m, _, hm, ⟨e, _, he, ⟨m', _, hm', rfl, rfl⟩, rfl⟩, hsolid⟩ := hrow
    exact ⟨e, by simp [parts_of_solid hsolid, isNode_any he],
      answers_node hsolid (by simp [he]), he⟩

/-- A `return` has a value or has none. -/
theorem returnStmt (h : t.Whole) (hkind : t.kind = .node .returnStmt) :
    ∃ value, t.parts = value.toList ∧ (View.Holder.expression? t).map Subtype.val = value
      ∧ ∀ e ∈ value, e.isNode NodeKind.isExpression = true := by
  rcases h.row hkind rfl with ⟨m, _, hm, ⟨e, _, he, rfl, rfl⟩, hsolid⟩ | ⟨m, _, hm, rfl, hsolid⟩
  · refine ⟨some e, by simp [parts_of_solid hsolid, isNode_any he],
      answers_node hsolid (by simp [he]), ?_⟩
    rintro _ ⟨⟩
    exact he
  · have hnone : View.Holder.expression? t = none := nodeWhere?_none hsolid rfl
    exact ⟨none, parts_of_solid hsolid, by rw [hnone]; rfl, by rintro _ ⟨⟩⟩

/-- The name of a script. -/
theorem scriptNameDecl (h : t.Whole) (hkind : t.kind = .node .scriptNameDecl) :
    ∃ name, t.parts = [name] ∧ Answers (View.ScriptNameDecl.name? t) name
      ∧ name.kind = .node .name := by
  obtain ⟨m, _, hm, ⟨name, _, hname, rfl, rfl⟩, hsolid⟩ := h.row hkind rfl
  exact ⟨name, by simp [parts_of_solid hsolid, isNode_any hname],
    answers_node hsolid (by simp [hname]),
    kind_of_isNode hname⟩

/-- A declared variable. -/
theorem varDecl (h : t.Whole) (hkind : t.kind = .node .varDecl) :
    ∃ name, t.parts = [name] ∧ Answers (View.VarDecl.name? t) name ∧ name.kind = .node .name := by
  obtain ⟨m, _, hm, ⟨name, _, hname, rfl, rfl⟩, hsolid⟩ := h.row hkind rfl
  exact ⟨name, by simp [parts_of_solid hsolid, isNode_any hname],
    answers_node hsolid (by simp [hname]),
    kind_of_isNode hname⟩

/-- A declaration has an initial value or has none. -/
theorem varDeclStmt (h : t.Whole) (hkind : t.kind = .node .varDeclStmt) :
    ∃ decl value, t.parts = decl :: value.toList ∧ Answers (View.VarDeclStmt.decl? t) decl
      ∧ (View.VarDeclStmt.value? t).map Subtype.val = value
      ∧ decl.kind = .node .varDecl ∧ ∀ e ∈ value, e.isNode NodeKind.isExpression = true := by
  rcases h.row hkind rfl with ⟨decl, _, hdecl, ⟨m, _, hm, ⟨e, _, he, rfl, rfl⟩, rfl⟩, hsolid⟩ |
    ⟨decl, _, hdecl, rfl, hsolid⟩
  all_goals have hother : decl.isNode NodeKind.isExpression = false :=
    not_isNode hdecl fun k hk => eq_of_beq hk ▸ rfl
  · refine ⟨decl, some e, by simp [parts_of_solid hsolid, isNode_any hdecl, isNode_any he],
      answers_node hsolid (by simp [hdecl]), answers_node hsolid (by simp [hother, he]),
        kind_of_isNode hdecl, ?_⟩
    rintro _ ⟨⟩
    exact he
  · have hnone : View.VarDeclStmt.value? t = none := nodeWhere?_none hsolid (by simp [hother])
    exact ⟨decl, none, by simp [parts_of_solid hsolid, isNode_any hdecl],
      answers_node hsolid (by simp [hdecl]),
      by rw [hnone]; rfl, kind_of_isNode hdecl, by rintro _ ⟨⟩⟩

/-- A target and a value around a word. -/
theorem setStmt (h : t.Whole) (ht : t.Tiled) (hkind : t.kind = .node .setStmt) :
    ∃ target value, t.parts = [target, value] ∧ Answers (View.SetStmt.target? t) target
      ∧ Answers (View.SetStmt.value? t) value
      ∧ target.isNode NodeKind.isExpression = true ∧ value.isNode NodeKind.isExpression = true := by
  obtain ⟨set, _, hset, ⟨target, _, htarget, ⟨m, _, hm, ⟨value, _, hvalue, rfl, rfl⟩, rfl⟩, rfl⟩,
    hsolid⟩ := h.row hkind rfl
  have hto : View.SetStmt.toToken? t = some m :=
    tokenWhere?_of_solid (TokenKind.isSignificant_of_beq _ rfl) hsolid
      (by simp [token?_leaf, eq_of_beq hset, token?_of_isNode htarget, hm])
  obtain ⟨hbefore, hafter⟩ := answers_around [set] ht hsolid hto htarget hvalue
  exact ⟨target, value, by simp [parts_of_solid hsolid, isNode_any htarget, isNode_any hvalue],
    hbefore, hafter,
    htarget, hvalue⟩

/-- A variable and a collection around an arrow, and a block. -/
theorem foreachStmt (h : t.Whole) (ht : t.Tiled) (hkind : t.kind = .node .foreachStmt) :
    ∃ item collection body, t.parts = [item, collection, body]
      ∧ Answers (View.ForeachStmt.item? t) item
      ∧ Answers (View.ForeachStmt.collection? t) collection ∧ Answers (View.Guarded.body? t) body
      ∧ item.isNode NodeKind.isVariable = true ∧ collection.isNode NodeKind.isExpression = true
      ∧ body.kind = .node .stmtList := by
  obtain ⟨each, _, heach, ⟨item, _, hitem, ⟨m, _, hm, ⟨collection, _, hcollection, ⟨body, _, hbody,
    ⟨loop, _, hloop, rfl, rfl⟩, rfl⟩, rfl⟩, rfl⟩, rfl⟩, hsolid⟩ := h.row hkind rfl
  have harrow : View.ForeachStmt.arrow? t = some m :=
    tokenWhere?_of_solid (TokenKind.isSignificant_of_beq _ rfl) hsolid
      (by simp [token?_leaf, eq_of_beq heach, token?_of_isNode hitem, hm])
  obtain ⟨hbefore, hafter⟩ := answers_around [each] ht hsolid harrow hitem hcollection
  refine ⟨item, collection, body, ?_, hbefore, hafter, answers_node hsolid ?_, hitem, hcollection,
    kind_of_isNode hbody⟩
  · simp [parts_of_solid hsolid, isNode_any hitem, isNode_any hcollection, isNode_any hbody]
  · simp [not_block_of_variable hitem, not_block_of_expression hcollection, hbody]

/-- A condition and a block, and a later branch or none. -/
theorem guarded (h : t.Whole)
    (hkind : t.kind = .node .ifStmt ∨ t.kind = .node .elseIfBranch ∨ t.kind = .node .whileStmt) :
    ∃ condition body rest, t.parts = condition :: body :: rest.toList
      ∧ Answers (View.Guarded.condition? t) condition ∧ Answers (View.Guarded.body? t) body
      ∧ (View.Guarded.branch? t).map Subtype.val = rest
      ∧ condition.isNode NodeKind.isExpression = true ∧ body.kind = .node .stmtList
      ∧ (∀ b ∈ rest, b.isNode NodeKind.isBranch = true)
      ∧ (t.kind = .node .whileStmt → rest = none) := by
  -- With a branch or without one, at the end stands a word or nothing.
  have hrow :
      ∃ word condition body rest back, solid t.children = .leaf word :: condition :: body ::
        (rest.toList ++ back)
      ∧ condition.isNode NodeKind.isExpression = true ∧ body.isNode (· == .stmtList) = true
      ∧ (∀ b ∈ rest, b.isNode NodeKind.isBranch = true) ∧ (∀ c ∈ back, ∃ m, c = .leaf m)
      ∧ (t.kind = .node .whileStmt → rest = none) := by
    rcases hkind with hkind | hkind | hkind
    all_goals
      have hrow := h.row hkind rfl
    · rcases hrow with
        ⟨m, _, -, ⟨e, _, he, ⟨b, _, hb, ⟨r, _, hr, ⟨m', _, -, rfl, rfl⟩, rfl⟩, rfl⟩, rfl⟩,
        hsolid⟩ | ⟨m, _, -, ⟨e, _, he, ⟨b, _, hb, ⟨m', _, -, rfl, rfl⟩, rfl⟩, rfl⟩, hsolid⟩
      · exact ⟨m, e, b, some r, [.leaf m'], hsolid, he, hb, by simp [hr], by simp, by simp [hkind]⟩
      · exact ⟨m, e, b, none, [.leaf m'], hsolid, he, hb, by simp, by simp, by simp⟩
    · rcases hrow with ⟨m, _, -, ⟨e, _, he, ⟨b, _, hb, ⟨r, _, hr, rfl, rfl⟩, rfl⟩, rfl⟩, hsolid⟩ |
        ⟨m, _, -, ⟨e, _, he, ⟨b, _, hb, rfl, rfl⟩, rfl⟩, hsolid⟩
      · exact ⟨m, e, b, some r, [], hsolid, he, hb, by simp [hr], by simp, by simp [hkind]⟩
      · exact ⟨m, e, b, none, [], hsolid, he, hb, by simp, by simp, by simp⟩
    · obtain ⟨m, _, -, ⟨e, _, he, ⟨b, _, hb, ⟨m', _, -, rfl, rfl⟩, rfl⟩, rfl⟩, hsolid⟩ := hrow
      exact ⟨m, e, b, none, [.leaf m'], hsolid, he, hb, by simp, by simp, by simp⟩
  obtain ⟨word, condition, body, rest, back, hsolid, hcondition, hbody, hrest, hback, hwhile⟩ :=
    hrow
  have hbackNode (p : NodeKind → Bool) : ∀ c ∈ back, c.isNode p = false := by
    intro c hc
    obtain ⟨m, rfl⟩ := hback c hc
    rfl
  refine ⟨condition, body, rest, ?_, answers_node hsolid (by simp [hcondition]),
    answers_node hsolid (by simp [not_block_of_expression hcondition, hbody]), ?_, hcondition,
      kind_of_isNode hbody,
    hrest, hwhile⟩
  · have hnone : back.filter (·.isNode fun _ => true) = [] :=
      List.filter_eq_nil_iff.2 fun c hc => by
      simp [hbackNode _ c hc]
    cases rest with
    | none => simp [parts_of_solid hsolid, isNode_any hcondition, isNode_any hbody, hnone]
    | some b =>
        simp [parts_of_solid hsolid, isNode_any hcondition, isNode_any hbody,
          isNode_any (hrest b rfl), hnone]
  · have hnone : back.find? (·.isNode NodeKind.isBranch) = none :=
      List.find?_eq_none.2 fun c hc => by
      simp [hbackNode _ c hc]
    have hblock : body.isNode NodeKind.isBranch = false :=
      not_isNode hbody fun k hk => eq_of_beq hk ▸ rfl
    rw [View.Guarded.branch?, val_nodeWhere?, hsolid]
    cases rest with
    | none => simp [not_branch_of_expression hcondition, hblock, hnone]
    | some b => simp [not_branch_of_expression hcondition, hblock, hrest b rfl]

/-- A block behind a word. -/
theorem elseBranch (h : t.Whole) (hkind : t.kind = .node .elseBranch) :
    ∃ body, t.parts = [body] ∧ Answers (View.Guarded.body? t) body
      ∧ body.kind = .node .stmtList := by
  obtain ⟨m, _, hm, ⟨body, _, hbody, rfl, rfl⟩, hsolid⟩ := h.row hkind rfl
  exact ⟨body, by simp [parts_of_solid hsolid, isNode_any hbody],
    answers_node hsolid (by simp [hbody]),
    kind_of_isNode hbody⟩

/-- A block with a header: its type, and parameters or arguments or none. -/
theorem headed (h : t.Whole) (hkind : t.kind = .node .beginStmt ∨ t.kind = .node .lambdaExpr) :
    ∃ name params args body, t.parts = name :: (params.toList ++ args.toList ++ [body])
      ∧ Answers (View.BlockHeader.blockType? t) name
        ∧ (View.BlockHeader.params? t).map Subtype.val = params
      ∧ (View.BeginStmt.args? t).map Subtype.val = args ∧ Answers (View.Guarded.body? t) body
      ∧ name.kind = .node .name ∧ (∀ list ∈ params, list.kind = .node .paramList)
      ∧ (∀ list ∈ args, list.kind = .node .argList) ∧ body.kind = .node .stmtList
      ∧ (t.kind = .node .lambdaExpr → args = none) := by
  have hrow :
      ∃ (front : List Tree) (name : Tree) (params args : Option Tree) (body : Tree)
        (back : List Tree),
      solid t.children = front ++ name :: (params.toList ++ (args.toList ++ body :: back))
      ∧ (∀ c ∈ front ++ back, ∃ m, c = .leaf m) ∧ name.isNode (· == .name) = true
      ∧ (∀ list ∈ params, list.isNode (· == .paramList) = true)
      ∧ (∀ list ∈ args, list.isNode (· == .argList) = true) ∧ body.isNode (· == .stmtList) = true
      ∧ (t.kind = .node .lambdaExpr → args = none) := by
    rcases hkind with hkind | hkind
    all_goals
      have hrow := h.row hkind rfl
    · rcases hrow with
        ⟨word, _, -, ⟨n, _, hn, ⟨l, _, hl, ⟨b, _, hb, ⟨stop, _, -, rfl, rfl⟩, rfl⟩, rfl⟩, rfl⟩,
          hsolid⟩ |
        ⟨word, _, -, ⟨n, _, hn, ⟨l, _, hl, ⟨b, _, hb, ⟨stop, _, -, rfl, rfl⟩, rfl⟩, rfl⟩, rfl⟩,
          hsolid⟩ |
        ⟨word, _, -, ⟨n, _, hn, ⟨b, _, hb, ⟨stop, _, -, rfl, rfl⟩, rfl⟩, rfl⟩, hsolid⟩
      · exact ⟨[.leaf word], n, some l, none, b, [.leaf stop], hsolid, by simp, hn, by simp [hl],
          by simp,
          hb, by simp⟩
      · exact ⟨[.leaf word], n, none, some l, b, [.leaf stop], hsolid, by simp, hn, by simp,
          by simp [hl],
          hb, by simp [hkind]⟩
      · exact ⟨[.leaf word], n, none, none, b, [.leaf stop], hsolid, by simp, hn, by simp, by simp,
          hb, by simp⟩
    · rcases hrow with ⟨bracket, _, -, ⟨word, _, -, ⟨n, _, hn, ⟨l, _, hl, ⟨b, _, hb, ⟨stop, _, -,
          ⟨close, _, -, rfl, rfl⟩, rfl⟩, rfl⟩, rfl⟩, rfl⟩, rfl⟩, hsolid⟩ |
        ⟨bracket, _, -, ⟨word, _, -, ⟨n, _, hn, ⟨b, _, hb, ⟨stop, _, -,
          ⟨close, _, -, rfl, rfl⟩, rfl⟩, rfl⟩, rfl⟩, rfl⟩, hsolid⟩
      · exact ⟨[.leaf bracket, .leaf word], n, some l, none, b, [.leaf stop, .leaf close], hsolid,
          by simp, hn, by simp [hl], by simp, hb, by simp⟩
      · exact ⟨[.leaf bracket, .leaf word], n, none, none, b, [.leaf stop, .leaf close], hsolid,
          by simp, hn, by simp, by simp, hb, by simp⟩
  obtain ⟨front, name, params, args, body, back, hsolid, hwords, hname, hparams, hargs, hbody,
    hlambda⟩ := hrow
  have hword (p : NodeKind → Bool) : ∀ c ∈ front ++ back, c.isNode p = false := by
    intro c hc
    obtain ⟨m, rfl⟩ := hwords c hc
    rfl
  have hfront (p : NodeKind → Bool) : front.find? (·.isNode p) = none :=
    List.find?_eq_none.2 fun c hc => by
    simp [hword p c (List.mem_append_left _ hc)]
  have hback (p : NodeKind → Bool) : back.find? (·.isNode p) = none :=
    List.find?_eq_none.2 fun c hc => by
    simp [hword p c (List.mem_append_right _ hc)]
  have hfound (p : NodeKind → Bool) : (t.nodeWhere? p).map Subtype.val
      = (name :: (params.toList ++ (args.toList ++ [body]))).find? (·.isNode p) := by
    rw [val_nodeWhere?, hsolid, List.find?_append, hfront, Option.none_or]
    have hsplit : name :: (params.toList ++ (args.toList ++ body :: back))
        = (name :: (params.toList ++ (args.toList ++ [body]))) ++ back := by simp
    rw [hsplit, List.find?_append, hback, Option.or_none]
  -- Each of the four is of a kind of its own.
  have hname' (k : NodeKind) (hne : (NodeKind.name == k) = false) : name.isNode (· == k) = false :=
    not_one_of_one hname hne
  have hparams' (k : NodeKind) (hne : (NodeKind.paramList == k) = false) :
      params.toList.find? (·.isNode (· == k)) = none :=
    List.find?_eq_none.2 fun list h =>
      by simp [not_one_of_one (hparams list (Option.mem_toList.1 h)) hne]
  have hargs' (k : NodeKind) (hne : (NodeKind.argList == k) = false) :
      args.toList.find? (·.isNode (· == k)) = none :=
    List.find?_eq_none.2 fun list h =>
      by simp [not_one_of_one (hargs list (Option.mem_toList.1 h)) hne]
  have hbody' (k : NodeKind) (hne : (NodeKind.stmtList == k) = false) :
      [body].find? (·.isNode (· == k)) = none :=
    List.find?_cons_of_neg (by simp [not_one_of_one hbody hne])
  refine ⟨name, params, args, body, ?_, (hfound _).trans (by simp [hname]), (hfound _).trans ?_,
    (hfound _).trans ?_,
    (hfound _).trans ?_, kind_of_isNode hname, fun list hlist =>
      kind_of_isNode (hparams list hlist),
    fun list hlist => kind_of_isNode (hargs list hlist), kind_of_isNode hbody, hlambda⟩
  · have hnone {ts : List Tree} (h : ∀ c ∈ ts, c ∈ front ++ back) :
      ts.filter (·.isNode fun _ => true) = [] :=
      List.filter_eq_nil_iff.2 fun c hc => by simp [hword _ c (h c hc)]
    have hparts :
        t.parts = (name :: (params.toList ++ (args.toList ++ [body]))).filter
          (·.isNode fun _ => true) := by
      rw [parts_of_solid hsolid, List.filter_append, hnone fun c => List.mem_append_left _]
      have hsplit : name :: (params.toList ++ (args.toList ++ body :: back))
          = (name :: (params.toList ++ (args.toList ++ [body]))) ++ back := by simp
      rw [hsplit, List.filter_append, hnone fun c => List.mem_append_right _, List.append_nil,
        List.nil_append]
    rw [hparts, List.filter_eq_self.2]
    · rw [List.append_assoc]
    · intro c hc
      simp only
        [List.mem_cons, List.mem_append, Option.mem_toList, List.not_mem_nil, or_false] at hc
      rcases hc with rfl | hc | hc | rfl
      · exact isNode_any hname
      · exact isNode_any (hparams c hc)
      · exact isNode_any (hargs c hc)
      · exact isNode_any hbody
  · rw [List.find?_cons_of_neg (by simp [hname' .paramList rfl]), List.find?_append,
      List.find?_append,
      hargs' .paramList rfl, hbody' .paramList rfl, Option.or_none, Option.or_none]
    cases params with
    | none => rfl
    | some list => exact List.find?_cons_of_pos (hparams list rfl)
  · rw [List.find?_cons_of_neg (by simp [hname' .argList rfl]), List.find?_append,
      List.find?_append,
      hparams' .argList rfl, hbody' .argList rfl, Option.or_none, Option.none_or]
    cases args with
    | none => rfl
    | some list => exact List.find?_cons_of_pos (hargs list rfl)
  · rw [List.find?_cons_of_neg (by simp [hname' .stmtList rfl]), List.find?_append,
      List.find?_append,
      hparams' .stmtList rfl, hargs' .stmtList rfl, Option.none_or, Option.none_or]
    exact List.find?_cons_of_pos hbody

/-- A sign and the expression behind it. -/
theorem unaryExpr (h : t.Whole) (hkind : t.kind = .node .unaryExpr) :
    ∃ m operand, t.parts = [operand] ∧ View.Operation.operator? t = some m
      ∧ Answers (View.UnaryExpr.operand? t) operand ∧ m.kind.unaryPower?.isSome = true
      ∧ operand.isNode NodeKind.isExpression = true := by
  obtain ⟨m, _, hm, ⟨e, _, he, rfl, rfl⟩, hsolid⟩ := h.row hkind rfl
  have hoperator : m.kind.isOperator = true := by
    revert hm
    cases m.kind <;> decide
  refine ⟨m, e, by simp [parts_of_solid hsolid, isNode_any he], ?_,
    answers_node hsolid (by simp [he]), hm, he⟩
  exact tokenWhere?_of_solid TokenKind.isSignificant_of_isOperator hsolid
    (by simp [token?_leaf, hoperator])

/-- Two expressions around an operator. -/
theorem binExpr (h : t.Whole) (ht : t.Tiled) (hkind : t.kind = .node .binExpr) :
    ∃ m left right, t.parts = [left, right] ∧ View.Operation.operator? t = some m
      ∧ Answers (View.BinExpr.left? t) left ∧ Answers (View.BinExpr.right? t) right
      ∧ m.kind.binaryPower?.isSome = true
      ∧ left.isNode NodeKind.isExpression = true ∧ right.isNode NodeKind.isExpression = true := by
  obtain ⟨left, _, hleft, ⟨m, _, hm, ⟨right, _, hright, rfl, rfl⟩, rfl⟩, hsolid⟩ := h.row hkind rfl
  have hisOperator : m.kind.isOperator = true := by
    revert hm
    cases m.kind <;> decide
  have hoperator : View.Operation.operator? t = some m :=
    tokenWhere?_of_solid TokenKind.isSignificant_of_isOperator hsolid
      (by simp [token?_leaf, token?_of_isNode hleft, hisOperator])
  obtain ⟨hbefore, hafter⟩ := answers_around [] ht hsolid hoperator hleft hright
  exact ⟨m, left, right, by simp [parts_of_solid hsolid, isNode_any hleft, isNode_any hright],
    hoperator, hbefore,
    hafter, hm, hleft, hright⟩

/-- A base and a member around a point, an arrow or a bracket. In brackets stands an
expression, else a name or a call. -/
theorem memberExpr (h : t.Whole) (ht : t.Tiled) (hkind : t.kind = .node .memberExpr) :
    ∃ m base member, t.parts = [base, member] ∧ View.MemberExpr.operator? t = some m
      ∧ Answers (View.MemberExpr.base? t) base ∧ Answers (View.MemberExpr.member? t) member
      ∧ m.kind.isAccess = true ∧ base.isNode NodeKind.isExpression = true
      ∧ member.isNode NodeKind.isExpression = true := by
  -- Both forms of an access begin with an operand and a mark. They differ in what closes them.
  have hrow : ∃ base m member back, solid t.children = base :: .leaf m :: member :: back
      ∧ base.isNode NodeKind.isExpression = true ∧ m.kind.isAccess = true
      ∧ member.isNode NodeKind.isExpression = true ∧ back.filter (·.isNode fun _ => true) = [] := by
    have hrow := h.row hkind rfl
    rcases hrow with ⟨base, _, hbase, ⟨m, _, hm, ⟨member, _, hmember, rfl, rfl⟩, rfl⟩, hsolid⟩ |
      ⟨base, _, hbase, ⟨m, _, hm, ⟨member, _, hmember, ⟨m', _, -, rfl, rfl⟩, rfl⟩, rfl⟩, hsolid⟩
    · refine ⟨base, m, member, [], hsolid, hbase, Bool.or_eq_true_iff.2 (.inl hm), ?_, rfl⟩
      · refine isNode_mono hmember fun k hk => ?_
        rcases Bool.or_eq_true_iff.1 hk with hk | hk <;> rw [eq_of_beq hk] <;> rfl
    · refine ⟨base, m, member, [.leaf m'], hsolid, hbase, ?_, hmember, rfl⟩
      rw [eq_of_beq hm]
      rfl
  obtain ⟨base, m, member, back, hsolid, hbase, hm, hmember, hback⟩ := hrow
  have hoperator : View.MemberExpr.operator? t = some m :=
    tokenWhere?_of_solid TokenKind.isSignificant_of_isAccess hsolid (by
      rw [List.filterMap_cons_none (token?_of_isNode hbase),
        List.filterMap_cons_some (token?_leaf m)]
      exact List.find?_cons_of_pos hm)
  obtain ⟨hbefore, hafter⟩ := answers_around [] ht hsolid hoperator hbase hmember
  exact ⟨m, base, member,
    by simp [parts_of_solid hsolid, isNode_any hbase, isNode_any hmember, hback], hoperator,
    hbefore, hafter, hm, hbase, hmember⟩

/-- A name and its arguments. -/
theorem funcExpr (h : t.Whole) (hkind : t.kind = .node .funcExpr) :
    ∃ callee list, t.parts = [callee, list] ∧ Answers (View.FuncExpr.callee? t) callee
      ∧ Answers (View.FuncExpr.args? t) list ∧ callee.kind = .node .nameRef
      ∧ list.kind = .node .argList := by
  obtain ⟨callee, _, hcallee, ⟨list, _, hlist, rfl, rfl⟩, hsolid⟩ := h.row hkind rfl
  have hother : callee.isNode (· == .argList) = false := not_one_of_one hcallee rfl
  exact ⟨callee, list, by simp [parts_of_solid hsolid, isNode_any hcallee, isNode_any hlist],
    answers_node hsolid (by simp [hcallee]), answers_node hsolid (by simp [hother, hlist]),
    kind_of_isNode hcallee, kind_of_isNode hlist⟩

/-- Where all elements are words and nodes of a kind, these nodes are all the nodes. -/
theorem val_nodesWhere_of_all {sorts : List Slot} (h : AllOf sorts (solid t.children))
    (hsorts : ∀ slot ∈ sorts, ∀ c, slot.Fits c → c.isNode (fun _ => true) = c.isNode p) :
    (t.nodesWhere p).map Subtype.val = t.parts := by
  rw [val_nodesWhere, parts_of_solid rfl]
  refine List.filter_congr fun c hc => ?_
  obtain ⟨slot, hslot, hfits⟩ := h c hc
  exact (hsorts slot hslot c hfits).symm

/-- What fits a token is no node, whatever is asked for. -/
theorem isNode_of_fits_token {p' : TokenKind → Bool} (h : Slot.Fits (.token p') c) :
    c.isNode (fun _ => true) = c.isNode p := by
  obtain ⟨m, rfl, -⟩ := h
  rfl

/-- What fits a node of a kind is a node of the kind. -/
theorem isNode_of_fits_node (h : Slot.Fits (.node p) c) :
    c.isNode (fun _ => true) = c.isNode p := by
  rw [isNode_any h, show c.isNode p = true from h]

/-- All nodes of a block are statements. -/
theorem stmtList (h : t.Whole) (hkind : t.kind = .node .stmtList) :
    (View.StmtList.statements t).map Subtype.val = t.parts := by
  refine val_nodesWhere_of_all (h.all hkind rfl) fun slot hslot c hc => ?_
  obtain rfl := List.mem_singleton.1 hslot
  exact isNode_of_fits_node hc

/-- All nodes of a list of arguments are expressions. -/
theorem argList (h : t.Whole) (hkind : t.kind = .node .argList) :
    (View.ArgList.args t).map Subtype.val = t.parts := by
  refine val_nodesWhere_of_all (h.all hkind rfl) fun slot hslot c hc => ?_
  simp only [NodeKind.sorts, List.mem_cons, List.not_mem_nil, or_false] at hslot
  rcases hslot with rfl | rfl | rfl | rfl
  · exact isNode_of_fits_token hc
  · exact isNode_of_fits_node hc
  · exact isNode_of_fits_token hc
  · exact isNode_of_fits_token hc

end Whole

end Tree

namespace WholeScript

open ScriptSense.Tree

/-- A script is its name and statements. -/
theorem parts {t : Tree} (h : WholeScript t) : ∃ name statements, t.parts = name :: statements
    ∧ Answers (View.Script.nameDecl? t) name
    ∧ (View.Script.statements t).map Subtype.val = statements
    ∧ name.kind = .node .scriptNameDecl
    ∧ ∀ s ∈ statements, s.isNode NodeKind.isStatement = true := by
  obtain ⟨built, left, hchildren, row, statements, hsplit, hrow, hrest⟩ := h.split
  obtain ⟨name, _, hname, rfl, rfl⟩ := readsOne_of_oneOf hrow
  have hsolid : solid t.children = name :: statements ++ solid (left.map .leaf) := by
    rw [hchildren, solid, List.filter_append]
    exact congrArg (· ++ solid (left.map .leaf)) hsplit
  -- What is left behind the script are tokens, so no node is among it.
  have hleft (p : NodeKind → Bool) : (solid (left.map .leaf)).filter (·.isNode p) = [] := by
    refine List.filter_eq_nil_iff.2 fun c hc => ?_
    obtain ⟨m, -, rfl⟩ := List.mem_map.1 (List.mem_of_mem_filter hc)
    simp
  have hstatement : ∀ s ∈ statements, s.isNode NodeKind.isStatement = true := by
    intro s hs
    obtain ⟨slot, hslot, hfits⟩ := hrest s hs
    obtain rfl := List.mem_singleton.1 hslot
    exact hfits
  refine ⟨name, statements, ?_, answers_node hsolid (by simp [hname]), ?_, kind_of_isNode hname,
    hstatement⟩
  · rw [parts_of_solid hsolid, List.filter_append, hleft, List.append_nil, List.filter_eq_self]
    rintro c hc
    rcases List.mem_cons.1 hc with rfl | hc
    · exact isNode_any hname
    · exact isNode_any (hstatement c hc)
  · have hother : name.isNode NodeKind.isStatement = false :=
      not_isNode hname fun k hk => eq_of_beq hk ▸ rfl
    rw [View.Script.statements, val_nodesWhere, hsolid, List.filter_append, hleft, List.append_nil,
      List.filter_cons_of_neg (by simp [hother]), List.filter_eq_self.2 hstatement]

end WholeScript

end ScriptSense
