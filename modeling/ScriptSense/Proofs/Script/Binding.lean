/-
Names are bound lexically.

The walk is gone through form by form: what it visits stands apart, what it declares
stands in front of what can see it, and what it opens is seen inside only. From the
steps follows the whole, by induction over the tree, and at its end nothing comes later.
-/
import ScriptSense.Proofs.Script.Walking
import ScriptSense.Proofs.Grammar.HeadedRules

set_option autoImplicit false

namespace ScriptSense

/-! ## Children that stand apart -/

namespace Tree

variable {t c c' : Tree} {p q : NodeKind → Bool}

/-- What is found in front of a token stands in front of what is found behind it. -/
theorem stop_le_of_around {mark : Option Token} {b a : t.Child} (hb : t.nodeBefore? mark p = some b)
    (ha : t.nodeAfter? mark q = some a) : b.val.span.stop ≤ a.val.span.start := by
  cases mark with
  | none => cases ha
  | some m =>
    have hbefore := List.find?_some hb
    have hafter := List.find?_some ha
    simp only [Bool.and_eq_true, Option.all_some, decide_eq_true_eq] at hbefore hafter
    have hm : m.start ≤ m.stop := Nat.le_add_right _ _
    exact hbefore.2.trans (hm.trans hafter.2)

namespace Tiled

/-- What stands in the first of two parts of the children ends where what stands in the
second begins, or before. -/
theorem stop_le_of_append (ht : t.Tiled) {front back : List Tree} (hsplit : t.children = front ++ back)
    (hc : c ∈ front) (hc' : c' ∈ back) : c.span.stop ≤ c'.span.start := by
  obtain ⟨before, after, rfl⟩ := List.append_of_mem hc
  have haround : t.children = before ++ c :: (after ++ back) := by
    rw [hsplit, List.append_assoc, List.cons_append]
  exact (ht.order haround).2 c' (List.mem_append_right _ hc')

/-- Two children stand apart. -/
theorem apart (ht : t.Tiled) (hc : c ∈ t.children) (hc' : c' ∈ t.children) (hne : c ≠ c') :
    c.span.stop ≤ c'.span.start ∨ c'.span.stop ≤ c.span.start := by
  obtain ⟨before, after, hsplit⟩ := List.append_of_mem hc
  obtain ⟨hbefore, hafter⟩ := ht.order hsplit
  rw [hsplit, List.mem_append, List.mem_cons] at hc'
  rcases hc' with hc' | rfl | hc'
  · exact .inr (hbefore c' hc')
  · exact absurd rfl hne
  · exact .inl (hafter c' hc')

/-- Two children of different kinds stand apart. -/
theorem apart_of_kinds (ht : t.Tiled) {c c' : t.Child} (hc : c.val.isNode p = true)
    (hc' : c'.val.isNode q = true) (hpq : ∀ k, p k = true → q k = false) :
    (Ground.of [c.val]).Apart (.of [c'.val]) := by
  refine Ground.apart_of fun a ha b hb => ?_
  rw [List.mem_singleton.1 ha, List.mem_singleton.1 hb]
  refine ht.apart c.property c'.property fun heq => ?_
  rw [heq] at hc
  exact Bool.false_ne_true ((not_isNode hc hpq).symm.trans hc')

/-- The children of some kind stand one after the other. -/
theorem pairwise_nodesWhere (ht : t.Tiled) (p : NodeKind → Bool) :
    (t.nodesWhere p).Pairwise fun a b => a.val.span.stop ≤ b.val.span.start := by
  have hall : t.children.Pairwise fun a b => a.span.stop ≤ b.span.start := by
    refine List.pairwise_iff_forall_sublist.2 fun {a b} hab => ?_
    obtain ⟨front, back, hsplit, ha, hb⟩ : ∃ front back, t.children = front ++ back
        ∧ a ∈ front ∧ b ∈ back := by
      obtain ⟨front, back, hsplit, ha, hb⟩ := List.cons_sublist_iff.1 hab
      exact ⟨front, back, hsplit, ha, List.singleton_sublist.1 hb⟩
    exact ht.stop_le_of_append hsplit ha hb
  have hattach : (t.children.attach.map Subtype.val).Pairwise
      fun a b => a.span.stop ≤ b.span.start := by
    rwa [List.attach_map_subtype_val]
  exact (List.pairwise_map.1 hattach).filter _

/-- Behind the word it begins with, the nodes of a node with a block begin later. -/
theorem lt_start_of_headed {kind : NodeKind} {span : Span} {cs : List Tree}
    (ht : Tiled (.node kind span cs)) (h : Headed kind cs) (hc : c ∈ cs) (hnode : c.isNode p = true) :
    span.start < c.span.start := by
  obtain ⟨word, rest, rfl⟩ := h.word
  have hsplit : (Tree.node kind span (.leaf word :: rest)).children = [] ++ .leaf word :: rest := rfl
  have hstop := (ht.order hsplit).2
  have hword := ht.of_mem_children (c := .leaf word) List.mem_cons_self
  have hstart : span.start ≤ word.start := (ht.covers_child (c := .leaf word) List.mem_cons_self).1
  rcases List.mem_cons.1 hc with rfl | hc
  · cases hnode
  · cases hword with
    | leaf _ htext _ =>
      have hproper : word.start < word.stop := token_start_lt_stop htext
      have hbehind : word.stop ≤ c.span.start := hstop c hc
      omega

end Tiled

end Tree

namespace Ground

variable {t : Tree} {d : Bool}

/-- A place without anything that is declared. -/
def place (span : Span) : Ground := { nowhere with spans := [span] }

/-- The place of a tree is on the ground of the tree. -/
theorem within_place (d : Bool) (t : Tree) : (place t.span).Within d (of [t]) where
  opens _ _ := False.elim
  spans r hr := ⟨r, hr, Nat.le_refl _, Nat.le_refl _⟩
  inner _ _ := False.elim
  outer _ _ := False.elim

/-- A place holds no node, so nothing is in its way. -/
theorem apart_place (span : Span) (R : Ground) : (place span).Apart R := fun _ _ h => h.elim

/-- The ground of an expression is part of that of the node it belongs to. -/
theorem within_expression (ht : t.Tiled) (c : t.Child) (hc : c.val.isNode NodeKind.isExpression = true)
    (hkind : t.isNode (· == .varDecl) = false) (hd : d = true → t.isNode NodeKind.opensScope = false) :
    (of [c.val]).Within d (of [t]) := by
  refine within_parent ht (fun a ha => ?_) (fun a ha hlist => ?_) hkind hd
  · rw [List.mem_singleton.1 ha]
    exact c.property
  · rw [List.mem_singleton.1 ha] at hlist
    have := Tree.not_isNode (q := (· == .stmtList)) hc fun k hk => by cases k <;> first | rfl | cases hk
    exact absurd (this.symm.trans hlist) Bool.false_ne_true

/-- The ground of a node is part of that of a node with a block it belongs to. -/
theorem within_headed {kind : NodeKind} {span : Span} {cs : List Tree} {p : NodeKind → Bool}
    (ht : (Tree.node kind span cs).Tiled) (h : Headed kind cs) (hkind : kind ≠ .varDecl)
    (hd : d = true → kind.opensScope = false) (c : (Tree.node kind span cs).Child)
    (hc : c.val.isNode p = true) : (of [c.val]).Within d (of [.node kind span cs]) := by
  refine within_parent ht (fun a ha => ?_) (fun a ha _ => .inl ?_) ?_ hd
  · rw [List.mem_singleton.1 ha]
    exact c.property
  · rw [List.mem_singleton.1 ha]
    exact ht.lt_start_of_headed h c.property hc
  · simpa [Tree.isNode, Tree.kind, ElementKind.isNode] using hkind

/-- The ground of a child, if it is there. -/
def found (o : Option t.Child) : Ground := o.elim nowhere fun c => of [c.val]

/-- What is found of a tree is on some ground when each child that may be found is. -/
theorem within_found {S : Ground} {o : Option t.Child}
    (h : ∀ c, o = some c → (of [c.val]).Within d S) : (found o).Within d S := by
  cases o with
  | none => exact within_nowhere d S
  | some c => exact h c rfl

/-- What is found stands apart when each child that may be found does. -/
theorem apart_found {R : Ground} {o : Option t.Child} (h : ∀ c, o = some c → R.Apart (of [c.val])) :
    R.Apart (found o) := by
  cases o with
  | none => exact fun _ _ _ h => h
  | some c => exact h c rfl

/-- Standing apart is mutual. -/
theorem Apart.symm {R S : Ground} (h : R.Apart S) : S.Apart R :=
  fun n hproper hS hR => h n hproper hR hS

/-- What stands apart from two grounds stands apart from both together. -/
theorem Apart.append {R S T : Ground} (h : R.Apart S) (h' : R.Apart T) : R.Apart (S ++ T) :=
  fun n hproper hR hn => hn.elim (h n hproper hR) (h' n hproper hR)

/-- Two children that are asked for, of different kinds, stand apart. -/
theorem apart_found_of_kinds (ht : t.Tiled) {o o' : Option t.Child} {p q : NodeKind → Bool}
    (ho : ∀ c, o = some c → c.val.isNode p = true) (ho' : ∀ c, o' = some c → c.val.isNode q = true)
    (hpq : ∀ k, p k = true → q k = false) : (found o).Apart (found o') :=
  apart_found fun c' hc' => .symm (apart_found fun c hc =>
    .symm (ht.apart_of_kinds (ho c hc) (ho' c' hc') hpq))

/-- Of two children that may be found the one is in front of the other. -/
theorem before_found_found {o o' : Option t.Child}
    (h : ∀ c c', o = some c → o' = some c' → c.val.span.stop ≤ c'.val.span.start) :
    (found o).Before (found o') := by
  intro r hr s hs
  cases o with
  | none => cases hr
  | some c =>
    cases o' with
    | none => cases hs
    | some c' =>
      rw [List.mem_singleton.1 hr, List.mem_singleton.1 hs]
      exact h c c' rfl rfl

/-- What stands in front of two grounds stands in front of both together. -/
theorem Before.append {R S T : Ground} (h : R.Before S) (h' : R.Before T) : R.Before (S ++ T) :=
  fun r hr s hs => (List.mem_append.1 hs).elim (h r hr s) (h' r hr s)

/-- A child that begins no scope opens none. -/
theorem not_opens_found {key : NodeKey} {o : Option t.Child}
    (h : ∀ c, o = some c → ¬ c.val.Begins key) : ¬ (found o).opens key := by
  cases o with
  | none => exact id
  | some c =>
    rintro ⟨a, ha, hbegins⟩
    rw [List.mem_singleton.1 ha] at hbegins
    exact h c rfl hbegins

/-- The ground of the nodes in a node with a block, inside the scope that it opens. -/
theorem within_headed_inside {kind : NodeKind} {span : Span} {cs : List Tree} {R : Ground}
    (ht : (Tree.node kind span cs).Tiled) (h : Headed kind cs) (hopens : kind.opensScope = true)
    (hscript : kind ≠ .script) (hR : R.Within true (of (cs.filter (·.isNode fun _ => true)))) :
    (R.inside ⟨kind, span⟩).Within d (of [.node kind span cs]) := by
  refine within_parent_inside hR ht rfl (fun c hc => (List.mem_filter.1 hc).1)
    (fun c hc _ => .inl ?_) ?_ hopens hscript
  · exact ht.lt_start_of_headed h (List.mem_filter.1 hc).1 (List.mem_filter.1 hc).2
  · cases kind <;> first | rfl | cases hopens

/-- What is found among the nodes of a tree is on the ground of these nodes. -/
theorem within_nodes {p : NodeKind → Bool} {o : Option t.Child}
    (ho : ∀ c, o = some c → c.val.isNode p = true) :
    (found o).Within true (of (t.children.filter (·.isNode fun _ => true))) := by
  refine within_found fun c hc => within_of_subset true fun a ha => ?_
  rw [List.mem_singleton.1 ha]
  refine List.mem_filter.2 ⟨c.property, ?_⟩
  have hnode := ho c hc
  cases hval : c.val with
  | leaf => rw [hval] at hnode; cases hnode
  | node => rfl

end Ground

namespace Walks

variable {α β : Type} {sc : ScopeId} {d : Bool} {R : Ground} {t : Tree} {V : β → List SymbolId → Use → Prop}

/-- A child that is asked for, with what comes after it. -/
theorem given_found_append {o : Option t.Child} {f : t.Child → Lower β}
    (hf : ∀ c, o = some c → Walks sc d (.of [c.val] ++ R) (f c) V) :
    Walks sc d (.found o ++ R) (Lower.given o >>= f) V := by
  refine given_bind fun c hc => ?_
  subst hc
  exact hf c rfl

/-- The uses of an optional expression are those of the expression. -/
theorem some_expr {m : Lower Expr} (hm : Walks sc d R m fun e pending u => u ∈ e.uses sc pending) :
    Walks sc d R (some <$> m) fun value pending u => u ∈ Expr.usesIn sc pending value :=
  .map hm fun e pending u hu => by
    rw [Expr.usesIn] at hu
    exact .inl hu

/-- So are those of an expression that may be left out. -/
theorem attempt_expr {m : Lower Expr} (hm : Walks sc d R m fun e pending u => u ∈ e.uses sc pending) :
    Walks sc d R (Lower.attempt m) fun value pending u => u ∈ Expr.usesIn sc pending value :=
  hm.attempt.weaken fun value pending u hu => by
    cases value with
    | none => cases hu
    | some e =>
      rw [Expr.usesIn] at hu
      exact .inl ⟨e, rfl, hu⟩

/-- A value, and then the declaration that is asked for. -/
theorem declaring_found {m : Lower (Option Expr)} {o : Option t.Child} {span : Span} (ht : t.Tiled)
    (hm : Walks sc false R m fun value pending u => u ∈ Expr.usesIn sc pending value)
    (ho : ∀ c, o = some c → c.val.isNode (· == .varDecl) = true) (hapart : R.Apart (.found o)) :
    Walks sc true (R ++ .found o) (m >>= fun value => Lower.given o >>= fun c =>
        Lower.declare sc c.val >>= fun symbol => Pure.pure (Stmt.mk (.varDecl symbol value) span))
      fun s pending u => u ∈ s.uses sc pending := by
  cases o with
  | none => exact (chain hm (fun _ => given_bind nofun) hapart).mono (.refl false _) nofun
  | some c =>
    simp only [Lower.given_some_bind]
    exact declaring hm (ht.of_mem_children c.property) (ho c rfl) hapart

/-- A child that is asked for. -/
theorem given_found {o : Option t.Child} {f : t.Child → Lower β}
    (hf : ∀ c, o = some c → Walks sc d (.of [c.val]) (f c) V) :
    Walks sc d (.found o) (Lower.given o >>= f) V := by
  refine given_bind fun c hc => ?_
  subst hc
  exact hf c rfl

end Walks

/-! ## Parameters and blocks -/

/-- Parameters stand in front of arguments and of the block. -/
theorem Headed.before_of_params {kind : NodeKind} {span : Span} {cs : List Tree}
    (h : Headed kind cs) (ht : (Tree.node kind span cs).Tiled)
    (hkind : kind = .beginStmt ∨ kind = .lambdaExpr) {c c' : (Tree.node kind span cs).Child}
    (hc : c.val.isNode (· == .paramList) = true)
    (hc' : c'.val.isNode (fun k => k == .stmtList || k == .argList) = true) :
    c.val.span.stop ≤ c'.val.span.start := by
  obtain ⟨front, back, hsplit, hfront, hback⟩ := h.params hkind
  have hmem : c.val ∈ front ++ back := hsplit ▸ c.property
  have hmem' : c'.val ∈ front ++ back := hsplit ▸ c'.property
  refine ht.stop_le_of_append hsplit ((List.mem_append.1 hmem).resolve_right fun hin => ?_)
    ((List.mem_append.1 hmem').resolve_left fun hin => ?_)
  · exact Bool.false_ne_true ((hback _ hin).symm.trans hc)
  · exact Bool.false_ne_true ((hfront _ hin).symm.trans hc')

/-- The loop variable stands in front of the block, if there is a collection. -/
theorem Headed.before_of_item {span : Span} {cs : List Tree} (h : Headed .foreachStmt cs)
    (ht : (Tree.node .foreachStmt span cs).Tiled) {item body c : (Tree.node .foreachStmt span cs).Child}
    (hitem : View.ForeachStmt.item? (.node .foreachStmt span cs) = some item)
    (hc : View.ForeachStmt.collection? (.node .foreachStmt span cs) = some c)
    (hbody : View.Guarded.body? (.node .foreachStmt span cs) = some body) :
    item.val.span.stop ≤ body.val.span.start := by
  unfold View.ForeachStmt.item? at hitem
  unfold View.ForeachStmt.collection? at hc
  cases hm : View.ForeachStmt.arrow? (.node .foreachStmt span cs) with
  | none =>
    rw [hm] at hc
    cases hc
  | some m =>
    rw [hm] at hitem
    have hin := Tree.isNode_of_nodeWhere? hbody
    have hfront := List.find?_some hitem
    simp only [Bool.and_eq_true, Option.all_some, decide_eq_true_eq] at hfront
    obtain ⟨hkind, before, after, hsplit, hbefore⟩ :=
      Tree.tokenWhere?_eq_some (p := (· == .lArrow)) (t := .node .foreachStmt span cs) hm
    rcases h.arrow rfl with hnone | ⟨front, m', back, hsplit', hkind', hlist⟩
    · refine absurd (eq_of_beq hkind) (hnone m ?_)
      have hmem : Tree.leaf m ∈ (Tree.node .foreachStmt span cs).children := by
        rw [hsplit]
        simp
      exact hmem
    · -- The first arrow is this one or stands in front of it.
      have hfirst : m.start ≤ m'.stop := by
        have hmem : Tree.leaf m' ∈ before ++ .leaf m :: after := by
          rw [← hsplit]
          exact hsplit' ▸ List.mem_append_right _ List.mem_cons_self
        rcases List.mem_append.1 hmem with hmem | hmem
        · have hnot := hbefore _ hmem
          simp [Tree.token?, hkind'] at hnot
        · rcases List.mem_cons.1 hmem with heq | hmem
          · rw [Tree.leaf.inj heq]
            exact Nat.le_add_right _ _
          · have hle : m.stop ≤ m'.start := (ht.order hsplit).2 _ hmem
            have hm₁ : m.start ≤ m.stop := Nat.le_add_right _ _
            have hm₂ : m'.start ≤ m'.stop := Nat.le_add_right _ _
            omega
      have hmem : body.val ∈ front ++ .leaf m' :: back := by
        rw [← hsplit']
        exact body.property
      -- The block stands behind that arrow, and the item in front of it.
      have hbehind : m'.stop ≤ body.val.span.start := by
        rcases List.mem_append.1 hmem with hmem | hmem
        · exact absurd ((hlist _ hmem).symm.trans hin) Bool.false_ne_true
        · rcases List.mem_cons.1 hmem with heq | hmem
          · rw [heq] at hin
            cases hin
          · exact (ht.order (c := .leaf m') hsplit').2 _ hmem
      exact hfront.2.trans (hfirst.trans hbehind)

/-! ## The walk at a tree -/

/-- At the tree, the walk binds names lexically. -/
structure Bindings (t : Tree) : Prop where
  expr (sc : ScopeId) : Walks sc false (.of [t]) (Lower.expr sc t) fun e pending u => u ∈ e.uses sc pending
  exprs (sc : ScopeId) : t.isNode (· == .argList) = true → Walks sc false (.of [t]) (Lower.exprs sc t)
    fun es pending u => u ∈ Expr.usesOf sc pending es
  block (sc : ScopeId) : t.isNode (· == .stmtList) = true → Walks sc false (.of [t]) (Lower.block sc t)
    fun b pending u => u ∈ b.uses pending
  statement (sc : ScopeId) : Walks sc true (.of [t]) (Lower.statement sc t)
    fun s pending u => u ∈ s.uses sc pending
  branch (sc : ScopeId) : Walks sc false (.of [t]) (Lower.branch sc t)
    fun b pending u => u ∈ b.uses sc pending

/-- A use in a list of expressions is a use in one of them. -/
theorem mem_usesOf_exprs {sc : ScopeId} {pending : List SymbolId} {es : List Expr} {u : Use} :
    u ∈ Expr.usesOf sc pending es ↔ ∃ e ∈ es, u ∈ e.uses sc pending := by
  induction es with
  | nil => simp [Expr.usesOf]
  | cons e es ih => simp [Expr.usesOf, ih]

/-- A use in a list of statements is a use in one of them. -/
theorem mem_usesOf_statements {sc : ScopeId} {pending : List SymbolId} {ss : List Stmt} {u : Use} :
    u ∈ Stmt.usesOf sc pending ss ↔ ∃ s ∈ ss, u ∈ s.uses sc pending := by
  induction ss with
  | nil => simp [Stmt.usesOf]
  | cons s ss ih => simp [Stmt.usesOf, ih]

section

variable {span : Span} {cs : List Tree} (sc : ScopeId)

/-! ## Expressions -/

/-- A name is looked up where it stands. -/
theorem walks_nameRef (ht : (Tree.node .nameRef span cs).Tiled) :
    Walks sc false (.of [.node .nameRef span cs]) (Lower.expr sc (.node .nameRef span cs))
      fun e pending u => u ∈ e.uses sc pending := by
  rw [Lower.expr]
  exact .nameUse (List.mem_singleton_self _) ht.le

/-- A literal uses no name. -/
theorem walks_literal :
    Walks sc false (.of [.node .literal span cs]) (Lower.expr sc (.node .literal span cs))
      fun e pending u => u ∈ e.uses sc pending := by
  rw [Lower.expr]
  refine .given_bind fun value _ => .pure fun pending u hu => ?_
  rw [Expr.uses, ExprForm.uses, List.mem_singleton] at hu
  rw [hu]
  rfl

/-- A parenthesis uses what is inside of it. -/
theorem walks_parenExpr (ht : (Tree.node .parenExpr span cs).Tiled) (ih : ∀ c ∈ cs, Bindings c) :
    Walks sc false (.of [.node .parenExpr span cs]) (Lower.expr sc (.node .parenExpr span cs))
      fun e pending u => u ∈ e.uses sc pending := by
  rw [Lower.expr]
  refine .given_bind fun inner hinner => ((ih _ inner.property).expr sc).mono ?_ id
  exact Ground.within_expression (d := false) ht inner (Tree.isNode_of_nodeWhere? hinner) rfl nofun

/-- A sign uses what its operand uses. -/
theorem walks_unaryExpr (ht : (Tree.node .unaryExpr span cs).Tiled) (ih : ∀ c ∈ cs, Bindings c) :
    Walks sc false (.of [.node .unaryExpr span cs]) (Lower.expr sc (.node .unaryExpr span cs))
      fun e pending u => u ∈ e.uses sc pending := by
  rw [Lower.expr]
  refine .given_bind fun op _ => .given_bind fun operand hoperand => ?_
  refine (Walks.returning ((ih _ operand.property).expr sc) fun e pending u hu => ?_).mono
    (Ground.within_expression (d := false) ht operand (Tree.isNode_of_nodeWhere? hoperand) rfl nofun) id
  rw [Expr.uses, ExprForm.uses, List.mem_cons] at hu
  exact hu.elim (fun h => .inr (by rw [h]; rfl)) .inl

/-- What is found around a token stands apart. -/
theorem apart_of_around {t : Tree} {mark : Option Token} {p q : NodeKind → Bool} {b a : t.Child}
    (hb : t.nodeBefore? mark p = some b) (ha : t.nodeAfter? mark q = some a) :
    (Ground.of [b.val]).Apart (.of [a.val]) := by
  refine Ground.apart_of fun c hc c' hc' => .inl ?_
  rw [List.mem_singleton.1 hc, List.mem_singleton.1 hc']
  exact Tree.stop_le_of_around hb ha

/-- The left operand is gone through before the right one. -/
theorem walks_binExpr (ht : (Tree.node .binExpr span cs).Tiled) (ih : ∀ c ∈ cs, Bindings c) :
    Walks sc false (.of [.node .binExpr span cs]) (Lower.expr sc (.node .binExpr span cs))
      fun e pending u => u ∈ e.uses sc pending := by
  rw [Lower.expr]
  refine .given_bind fun op _ => .given_bind fun left hleft => ?_
  refine (Walks.chain ((ih _ left.property).expr sc)
    (fun l => .given_found fun right _ => .returning ((ih _ right.property).expr sc)
      fun r pending u hu => ?_) (Ground.apart_found fun right hright => apart_of_around hleft hright)).mono
    (.append (Ground.within_expression (d := false) ht left (Tree.isNode_of_nodeBefore? hleft) rfl nofun)
      (Ground.within_found fun right hright =>
        Ground.within_expression (d := false) ht right (Tree.isNode_of_nodeAfter? hright) rfl nofun)) id
  simp only [Expr.uses, ExprForm.uses, List.mem_cons, List.mem_append] at hu
  obtain ⟨rfl | hu | hu, hnot⟩ := hu
  · exact .inr rfl
  · exact absurd hu hnot
  · exact .inl hu

/-- The operand is gone through before what is accessed of it. -/
theorem walks_memberExpr (ht : (Tree.node .memberExpr span cs).Tiled) (ih : ∀ c ∈ cs, Bindings c) :
    Walks sc false (.of [.node .memberExpr span cs]) (Lower.expr sc (.node .memberExpr span cs))
      fun e pending u => u ∈ e.uses sc pending := by
  rw [Lower.expr]
  dsimp only
  refine .given_bind fun op _ => .given_bind fun base hbase => ?_
  refine (Walks.chain ((ih _ base.property).expr sc)
    (fun b => .given_found (o := View.MemberExpr.member? _) fun member _ => ?_)
    (Ground.apart_found fun member h => apart_of_around hbase h)).mono
    (.append (Ground.within_expression (d := false) ht base (Tree.isNode_of_nodeBefore? hbase) rfl nofun)
      (Ground.within_found fun member h =>
        Ground.within_expression (d := false) ht member (Tree.isNode_of_nodeAfter? h) rfl nofun)) id
  -- The uses of the whole are those of the base and those of the member.
  have huses : ∀ lowered pending u, (u ∈ (Expr.mk (.member op b lowered) .unknown span).uses sc pending
      ∧ ¬ u ∈ b.uses sc pending) → u ∈ lowered.uses sc pending ∨ u.expr.usedName? = none := by
    rintro lowered pending u ⟨hu, hnot⟩
    simp only [Expr.uses, ExprForm.uses, List.mem_cons, List.mem_append] at hu
    rcases hu with rfl | hu | hu
    · exact .inr rfl
    · exact absurd hu hnot
    · exact .inl hu
  split
  · -- The name of a member is not looked up.
    have hfield : Walks sc false (.of [member.val])
        (pure (.mk (.field (View.Identifier.text member.val)) .unknown member.val.span) : Lower Expr)
        fun e pending u => u ∈ e.uses sc pending := by
      refine .pure fun pending u hu => ?_
      rw [Expr.uses, ExprForm.uses, List.mem_singleton] at hu
      rw [hu]
      rfl
    exact .returning hfield huses
  · exact .returning ((ih _ member.property).expr sc) huses

/-- The name of a call is looked up before its arguments are gone through. -/
theorem walks_funcExpr (ht : (Tree.node .funcExpr span cs).Tiled) (ih : ∀ c ∈ cs, Bindings c) :
    Walks sc false (.of [.node .funcExpr span cs]) (Lower.expr sc (.node .funcExpr span cs))
      fun e pending u => u ∈ e.uses sc pending := by
  rw [Lower.expr]
  dsimp only
  refine .given_bind fun callee _ => ?_
  refine (Walks.chain (R := .place span) (S := .found (View.FuncExpr.args? (.node .funcExpr span cs)))
    (.symbolOrOutside fun r hr => ?_)
    (fun symbol => ?_) (Ground.apart_place span _)).mono
    (.append (Ground.within_place false (.node .funcExpr span cs)) (Ground.within_found fun list hlist => ?_)) id
  · rw [List.mem_singleton.1 hr]
    exact ht.le
  -- A use in a call is its own name or a use in one of its arguments.
  · have huses : ∀ args pending u, (u ∈ (Expr.mk (.call (View.Identifier.text callee.val) symbol args)
        .unknown span).uses sc pending ∧ ¬ (u.scope = sc ∧ u.pending = pending
          ∧ u.expr.span ∈ (Ground.place span).spans
          ∧ u.expr.usedName? = some (View.Identifier.text callee.val, symbol) ∧ u.expr.isName = false)) →
        u ∈ Expr.usesOf sc pending args ∨ u.expr.usedName? = none := by
      rintro args pending u ⟨hu, hnot⟩
      rw [Expr.uses, ExprForm.uses, List.mem_cons] at hu
      rcases hu with rfl | hu
      · exact absurd ⟨rfl, rfl, List.mem_singleton_self _, rfl, rfl⟩ hnot
      · exact .inl hu
    cases hlist : View.FuncExpr.args? (.node .funcExpr span cs) with
    | none => exact .returning (.pure fun pending u hu => by cases hu) huses
    | some list =>
      exact .returning ((ih _ list.property).exprs sc (Tree.isNode_of_nodeWhere? hlist)) huses
  · refine Ground.within_parent ht (fun c hc => ?_) (fun c hc h => ?_) rfl nofun
    · rw [List.mem_singleton.1 hc]
      exact list.property
    · rw [List.mem_singleton.1 hc] at h
      have := Tree.not_isNode (q := (· == .stmtList)) (Tree.isNode_of_nodeWhere? hlist) fun k hk => by
        rw [eq_of_beq hk]
        rfl
      exact absurd (this.symm.trans h) Bool.false_ne_true

/-- Arguments are gone through from the left to the right. -/
theorem walks_exprs (ht : (Tree.node .argList span cs).Tiled) (ih : ∀ c ∈ cs, Bindings c) :
    Walks sc false (.of [.node .argList span cs]) (Lower.exprs sc (.node .argList span cs))
      fun es pending u => u ∈ Expr.usesOf sc pending es := by
  rw [Lower.exprs]
  refine ((Walks.all (fun a _ => (ih _ a.property).expr sc) (ht.pairwise_nodesWhere _)).weaken
    fun es pending u hu => .inl (mem_usesOf_exprs.1 hu)).mono
    (Ground.within_parent ht (fun c hc => ?_) (fun c hc h => ?_) rfl nofun) id
  · obtain ⟨a, -, rfl⟩ := List.mem_map.1 hc
    exact a.property
  · obtain ⟨a, ha, rfl⟩ := List.mem_map.1 hc
    have := Tree.not_isNode (q := (· == .stmtList)) (Tree.isNode_of_mem_nodesWhere ha)
      fun k hk => by cases k <;> first | rfl | cases hk
    exact absurd (this.symm.trans h) Bool.false_ne_true

/-! ## Parameters -/

/-- A parameter declares a name or refers to one, and is no use itself. -/
theorem walks_param {t : Tree} (ht : t.Tiled) :
    Walks sc true (.of [t]) (Lower.param sc t) fun _ _ _ => False := by
  unfold Lower.param
  split
  · next hdecl => exact .declare ht hdecl
  · exact .still (fun g => rfl) fun _ _ _ => False.elim

/-- So do all parameters of a lambda or of a block. -/
theorem walks_params {t : Tree} (ht : t.Tiled) (o : Option t.Child)
    (ho : ∀ c, o = some c → c.val.isNode (· == .paramList) = true) :
    Walks sc true (.found o) (Lower.params sc (o.map Subtype.val)) fun _ _ _ => False := by
  cases o with
  | none => exact .pure fun _ _ => False.elim
  | some list =>
    have hlist := ht.of_mem_children list.property
    have hkind := ho list rfl
    refine ((Walks.each (fun a _ => walks_param sc (hlist.of_mem_children a.property))
      (hlist.pairwise_nodesWhere _)).weaken fun _ _ _ => False.elim).mono
      (Ground.within_parent hlist (fun c hc => ?_) (fun c hc h => ?_) ?_ fun _ => ?_) id
    · obtain ⟨a, -, rfl⟩ := List.mem_map.1 hc
      exact a.property
    -- No parameter is a block, so none of them opens a scope.
    · obtain ⟨a, ha, rfl⟩ := List.mem_map.1 hc
      have := Tree.not_isNode (q := (· == .stmtList)) (Tree.isNode_of_mem_nodesWhere ha)
        fun k hk => by cases k <;> first | rfl | cases hk
      exact absurd (this.symm.trans h) Bool.false_ne_true
    · exact (Tree.isNode_eq hkind).trans rfl
    · exact (Tree.isNode_eq hkind).trans rfl

/-! ## Blocks -/

/-- A block opens a scope of its own and goes through its statements in order. -/
theorem walks_block (ht : (Tree.node .stmtList span cs).Tiled) (ih : ∀ c ∈ cs, Bindings c) :
    Walks sc false (.of [.node .stmtList span cs]) (Lower.block sc (.node .stmtList span cs))
      fun b pending u => u ∈ b.uses pending := by
  rw [Lower.block]
  have hstatement : ∀ c ∈ (View.StmtList.statements (.node .stmtList span cs)).map Subtype.val,
      c ∈ cs ∧ c.isNode (· == .stmtList) = false := by
    intro c hc
    obtain ⟨a, ha, rfl⟩ := List.mem_map.1 hc
    exact ⟨a.property, Tree.not_isNode (Tree.isNode_of_mem_nodesWhere ha)
      fun k hk => by cases k <;> first | rfl | cases hk⟩
  -- The scope is opened by the block itself, and by none of its statements.
  refine (Walks.opening rfl (fun own => .returning
    (.each (fun a _ => (ih _ a.property).statement own) (ht.pairwise_nodesWhere _))
    fun ss pending u hu => ?_) fun _ => ?_).mono (Ground.within_parent_inside
      (Ground.within_of_subset true (List.Subset.refl _)) ht rfl (fun c hc => (hstatement c hc).1)
      (fun _ _ _ => .inr rfl) rfl rfl nofun) id
  · rw [Block.uses] at hu
    exact .inl (mem_usesOf_statements.1 hu)
  · rintro ⟨c, hc, hbegins⟩
    exact Tree.Begins.not_of_child rfl ht (hstatement c hc).1 (.inr ⟨rfl, (hstatement c hc).2⟩) hbegins

/-- A lambda opens a scope for its parameters, and its block one inside of it. -/
theorem walks_lambdaExpr (ht : (Tree.node .lambdaExpr span cs).Tiled) (h : Headed .lambdaExpr cs)
    (ih : ∀ c ∈ cs, Bindings c) :
    Walks sc false (.of [.node .lambdaExpr span cs]) (Lower.expr sc (.node .lambdaExpr span cs))
      fun e pending u => u ∈ e.uses sc pending := by
  rw [Lower.expr]
  dsimp only
  have hparams : ∀ c, View.BlockHeader.params? (.node .lambdaExpr span cs) = some c →
      c.val.isNode (· == .paramList) = true := fun c hc => Tree.isNode_of_nodeWhere? hc
  have hbody : ∀ c, View.Guarded.body? (.node .lambdaExpr span cs) = some c →
      c.val.isNode (· == .stmtList) = true := fun c hc => Tree.isNode_of_nodeWhere? hc
  -- The head of the lambda comes first, so no child begins where the lambda does.
  have hbegins : ∀ (p : NodeKind → Bool) (c : (Tree.node .lambdaExpr span cs).Child),
      c.val.isNode p = true → ¬ c.val.Begins ⟨.lambdaExpr, span⟩ := fun p c hc =>
    Tree.Begins.not_of_child rfl ht c.property (.inl (ht.lt_start_of_headed h c.property hc))
  refine .given_bind fun name _ => ?_
  refine (Walks.opening
    (R := .found (View.BlockHeader.params? (.node .lambdaExpr span cs))
      ++ .found (View.Guarded.body? (.node .lambdaExpr span cs))) rfl (fun own => ?_) fun _ hopens => ?_).mono
    (Ground.within_headed_inside ht h rfl (by decide)
      (.append (Ground.within_nodes hparams) (Ground.within_nodes hbody))) id
  · refine .bind (walks_params own ht _ hparams) (fun symbols => .given_found fun body hb =>
        .returning ((ih _ body.property).block own (hbody body hb)) fun b pending u hu => ?_)
      (Ground.apart_found_of_kinds ht hparams hbody fun k hk => by rw [eq_of_beq hk]; rfl)
      fun _ => Ground.before_found_found fun c c' hc hc' =>
        h.before_of_params ht (.inr rfl) (hparams c hc) (Tree.isNode_or (hbody c' hc'))
    obtain ⟨hu, -⟩ := hu
    rw [Expr.uses, ExprForm.uses, List.mem_cons] at hu
    exact hu.elim (fun h => .inr (by rw [h]; rfl)) .inl
  · rcases hopens with hopens | hopens
    · exact Ground.not_opens_found (fun c hc => hbegins _ c (hparams c hc)) hopens
    · exact Ground.not_opens_found (fun c hc => hbegins _ c (hbody c hc)) hopens

/-! ## Statements of one line -/

/-- The value is gone through before the name is declared. -/
theorem walks_varDeclStmt (ht : (Tree.node .varDeclStmt span cs).Tiled) (ih : ∀ c ∈ cs, Bindings c) :
    Walks sc true (.of [.node .varDeclStmt span cs]) (Lower.statement sc (.node .varDeclStmt span cs))
      fun s pending u => u ∈ s.uses sc pending := by
  rw [Lower.statement]
  dsimp only
  have hdecl : ∀ c, View.VarDeclStmt.decl? (.node .varDeclStmt span cs) = some c →
      c.val.isNode (· == .varDecl) = true := fun c hc => Tree.isNode_of_nodeWhere? hc
  have hwithin : (Ground.found (View.VarDeclStmt.decl? (.node .varDeclStmt span cs))).Within true
      (.of [.node .varDeclStmt span cs]) := by
    refine Ground.within_found fun c hc => Ground.within_parent ht (fun a ha => ?_) (fun a ha h => ?_) rfl
      fun _ => rfl
    · rw [List.mem_singleton.1 ha]
      exact c.property
    · rw [List.mem_singleton.1 ha] at h
      have := Tree.not_isNode (q := (· == .stmtList)) (hdecl c hc) fun k hk => by
        rw [eq_of_beq hk]
        rfl
      exact absurd (this.symm.trans h) Bool.false_ne_true
  -- With a value the declaration is still pending while the value is gone through.
  cases hvalue : View.VarDeclStmt.value? (.node .varDeclStmt span cs) with
  | none =>
    exact (Walks.declaring_found (R := .nowhere) ht (.pure fun pending u hu => by cases hu) hdecl
      fun _ _ h => h.elim).mono (.append (Ground.within_nowhere _ _) hwithin) id
  | some c =>
    have hc := Tree.isNode_of_nodeWhere? hvalue
    refine (Walks.declaring_found ht ((ih _ c.property).expr sc).attempt_expr hdecl
      (Ground.apart_found fun c' hc' => ht.apart_of_kinds hc (hdecl c' hc') fun k hk => ?_)).mono
      (.append ?_ hwithin) id
    · cases k <;> first | rfl | cases hk
    · exact Ground.within_expression ht c hc rfl fun _ => rfl

/-- The target is gone through before the value. -/
theorem walks_setStmt (ht : (Tree.node .setStmt span cs).Tiled) (ih : ∀ c ∈ cs, Bindings c) :
    Walks sc true (.of [.node .setStmt span cs]) (Lower.statement sc (.node .setStmt span cs))
      fun s pending u => u ∈ s.uses sc pending := by
  rw [Lower.statement]
  refine .given_bind fun target htarget => ?_
  refine (Walks.chain ((ih _ target.property).expr sc)
    (fun b => .given_found fun value _ => .returning ((ih _ value.property).expr sc)
      fun r pending u hu => ?_) (Ground.apart_found fun value h => apart_of_around htarget h)).mono
    (.append (Ground.within_expression (d := false) ht target (Tree.isNode_of_nodeBefore? htarget) rfl nofun)
      (Ground.within_found fun value h =>
        Ground.within_expression (d := false) ht value (Tree.isNode_of_nodeAfter? h) rfl nofun)) nofun
  simp only [Stmt.uses, StmtForm.uses, List.mem_append] at hu
  obtain ⟨hu | hu, hnot⟩ := hu
  · exact absurd hu hnot
  · exact .inl hu

/-- An assignment uses what its expression uses. -/
theorem walks_letStmt (ht : (Tree.node .letStmt span cs).Tiled) (ih : ∀ c ∈ cs, Bindings c) :
    Walks sc true (.of [.node .letStmt span cs]) (Lower.statement sc (.node .letStmt span cs))
      fun s pending u => u ∈ s.uses sc pending := by
  rw [Lower.statement]
  refine .given_bind fun c hc => ?_
  refine (Walks.returning ((ih _ c.property).expr sc) fun e pending u hu => ?_).mono
    (Ground.within_expression (d := false) ht c (Tree.isNode_of_nodeWhere? hc) rfl nofun) nofun
  rw [Stmt.uses, StmtForm.uses] at hu
  exact .inl hu

/-- A statement of an expression uses what the expression uses. -/
theorem walks_exprStmt (ht : (Tree.node .exprStmt span cs).Tiled) (ih : ∀ c ∈ cs, Bindings c) :
    Walks sc true (.of [.node .exprStmt span cs]) (Lower.statement sc (.node .exprStmt span cs))
      fun s pending u => u ∈ s.uses sc pending := by
  rw [Lower.statement]
  refine .given_bind fun c hc => ?_
  refine (Walks.returning ((ih _ c.property).expr sc) fun e pending u hu => ?_).mono
    (Ground.within_expression (d := false) ht c (Tree.isNode_of_nodeWhere? hc) rfl nofun) nofun
  rw [Stmt.uses, StmtForm.uses] at hu
  exact .inl hu

/-- A return uses what its value uses. -/
theorem walks_returnStmt (ht : (Tree.node .returnStmt span cs).Tiled) (ih : ∀ c ∈ cs, Bindings c) :
    Walks sc true (.of [.node .returnStmt span cs]) (Lower.statement sc (.node .returnStmt span cs))
      fun s pending u => u ∈ s.uses sc pending := by
  rw [Lower.statement]
  dsimp only
  have huses : ∀ value pending u, u ∈ (Stmt.mk (.leave value) span).uses sc pending →
      u ∈ Expr.usesIn sc pending value ∨ u.expr.usedName? = none := by
    intro value pending u hu
    rw [Stmt.uses, StmtForm.uses] at hu
    exact .inl hu
  cases hc : View.Holder.expression? (.node .returnStmt span cs) with
  | none => exact .returning (.pure fun pending u hu => by cases hu) huses
  | some c =>
    exact (Walks.returning ((ih _ c.property).expr sc).some_expr huses).mono
      (Ground.within_expression (d := false) ht c (Tree.isNode_of_nodeWhere? hc) rfl nofun) nofun

/-- A statement of one word uses no name. -/
theorem walks_wordStmt {kind : NodeKind} (hkind : kind = .breakStmt ∨ kind = .continueStmt) :
    Walks sc true (.of [.node kind span cs]) (Lower.statement sc (.node kind span cs))
      fun s pending u => u ∈ s.uses sc pending := by
  rcases hkind with rfl | rfl
  all_goals
    rw [Lower.statement]
    refine .pure fun pending u hu => ?_
    rw [Stmt.uses, StmtForm.uses] at hu
    cases hu

/-! ## Statements with a block -/

variable {kind : NodeKind}

/-- A condition and the block that depends on it. -/
theorem apart_of_guard (ht : (Tree.node kind span cs).Tiled) {c : (Tree.node kind span cs).Child}
    (hc : View.Guarded.condition? (.node kind span cs) = some c) :
    (Ground.of [c.val]).Apart (.found (View.Guarded.body? (.node kind span cs))) := by
  refine Ground.apart_found fun c' hc' => ht.apart_of_kinds (Tree.isNode_of_nodeWhere? hc)
    (Tree.isNode_of_nodeWhere? hc') fun k hk => ?_
  cases k <;> first | rfl | cases hk

/-- The condition is gone through before the block. -/
theorem walks_whileStmt (ht : (Tree.node .whileStmt span cs).Tiled) (h : Headed .whileStmt cs)
    (ih : ∀ c ∈ cs, Bindings c) :
    Walks sc true (.of [.node .whileStmt span cs]) (Lower.statement sc (.node .whileStmt span cs))
      fun s pending u => u ∈ s.uses sc pending := by
  rw [Lower.statement]
  refine .given_bind fun c hc => ?_
  refine (Walks.chain ((ih _ c.property).expr sc) (fun e => .given_found fun body hbody =>
    .returning ((ih _ body.property).block sc (Tree.isNode_of_nodeWhere? hbody)) fun b pending u hu => ?_)
    (apart_of_guard ht hc)).mono
    (.append (Ground.within_headed (d := false) ht h (by decide) nofun c (Tree.isNode_of_nodeWhere? hc))
      (Ground.within_found fun body hbody =>
        Ground.within_headed (d := false) ht h (by decide) nofun body (Tree.isNode_of_nodeWhere? hbody))) nofun
  simp only [Stmt.uses, StmtForm.uses, List.mem_append] at hu
  obtain ⟨hu | hu, hnot⟩ := hu
  · exact absurd hu hnot
  · exact .inl hu

/-- A condition, the block that depends on it, and the branches after it. -/
theorem walks_guarded (ht : (Tree.node kind span cs).Tiled) (h : Headed kind cs) (hkind : kind ≠ .varDecl)
    (ih : ∀ c ∈ cs, Bindings c) {α : Type} {m : Expr → Block → Lower α}
    {V : α → List SymbolId → Use → Prop}
    (hm : ∀ e b, Walks sc false (.found (View.Guarded.branch? (.node kind span cs))) (m e b)
      fun a pending u => (V a pending u ∧ ¬ u ∈ e.uses sc pending) ∧ ¬ u ∈ b.uses pending) :
    Walks sc false (.of [.node kind span cs])
      (Lower.given (View.Guarded.condition? (.node kind span cs)) >>= fun c =>
        Lower.expr sc c.val >>= fun e =>
        Lower.given (View.Guarded.body? (.node kind span cs)) >>= fun body =>
        Lower.block sc body.val >>= fun b => m e b) V := by
  refine .given_bind fun c hc => ?_
  have hcondition := Tree.isNode_of_nodeWhere? hc
  have hbody : ∀ c, View.Guarded.body? (.node kind span cs) = some c →
      c.val.isNode (· == .stmtList) = true := fun c hc => Tree.isNode_of_nodeWhere? hc
  have hbranch : ∀ c, View.Guarded.branch? (.node kind span cs) = some c →
      c.val.isNode NodeKind.isBranch = true := fun c hc => Tree.isNode_of_nodeWhere? hc
  -- Condition, block and branches stand behind each other and share nothing.
  refine (Walks.chain ((ih _ c.property).expr sc) (fun e => .given_found_append fun body hb =>
    .chain ((ih _ body.property).block sc (hbody body hb)) (hm e)
      (Ground.apart_found fun c' hc' => ?_)) (.append ?_ ?_)).mono (.append ?_ (.append ?_ ?_)) id
  · exact ht.apart_of_kinds (hbody body hb) (hbranch c' hc') fun k hk => by rw [eq_of_beq hk]; rfl
  · exact apart_of_guard ht hc
  · exact Ground.apart_found fun c' hc' => ht.apart_of_kinds hcondition (hbranch c' hc')
      fun k hk => by cases k <;> first | rfl | cases hk
  · exact Ground.within_headed (d := false) ht h hkind nofun c hcondition
  · exact Ground.within_found fun c' hc' =>
      Ground.within_headed (d := false) ht h hkind nofun c' (hbody c' hc')
  · exact Ground.within_found fun c' hc' =>
      Ground.within_headed (d := false) ht h hkind nofun c' (hbranch c' hc')

/-- The branches that follow. -/
theorem some_branch {c : Tree} (hc : Bindings c) : Walks sc false (.of [c]) (some <$> Lower.branch sc c)
    fun rest pending u => u ∈ Branch.usesIn sc pending rest :=
  .map (hc.branch sc) fun b pending u hu => by
    rw [Branch.usesIn] at hu
    exact .inl hu

/-- The condition, the block and then the later branches. -/
theorem walks_ifStmt (ht : (Tree.node .ifStmt span cs).Tiled) (h : Headed .ifStmt cs)
    (ih : ∀ c ∈ cs, Bindings c) :
    Walks sc true (.of [.node .ifStmt span cs]) (Lower.statement sc (.node .ifStmt span cs))
      fun s pending u => u ∈ s.uses sc pending := by
  rw [Lower.statement]
  dsimp only [Tree.kind]
  refine (walks_guarded sc ht h (by decide) ih fun e b => ?_).mono (.refl _ _) nofun
  have huses : ∀ rest pending u, ((u ∈ (Stmt.mk (.branch e b rest) span).uses sc pending
      ∧ ¬ u ∈ e.uses sc pending) ∧ ¬ u ∈ b.uses pending) →
      u ∈ Branch.usesIn sc pending rest ∨ u.expr.usedName? = none := by
    rintro rest pending u ⟨⟨hu, hnot⟩, hnot'⟩
    simp only [Stmt.uses, StmtForm.uses, List.mem_append] at hu
    exact .inl (hu.resolve_left (not_or.2 ⟨hnot, hnot'⟩))
  cases hc : View.Guarded.branch? (.node .ifStmt span cs) with
  | none => exact .returning (.pure fun pending u hu => by cases hu) huses
  | some c => exact .returning (some_branch sc (ih _ c.property)) huses

/-- A later branch with a condition is gone through like the first. -/
theorem walks_elseIfBranch (ht : (Tree.node .elseIfBranch span cs).Tiled) (h : Headed .elseIfBranch cs)
    (ih : ∀ c ∈ cs, Bindings c) :
    Walks sc false (.of [.node .elseIfBranch span cs]) (Lower.branch sc (.node .elseIfBranch span cs))
      fun b pending u => u ∈ b.uses sc pending := by
  rw [Lower.branch]
  dsimp only [Tree.kind]
  refine walks_guarded sc ht h (by decide) ih fun e b => ?_
  have huses : ∀ rest pending u, ((u ∈ (Branch.elseIf e b rest span).uses sc pending
      ∧ ¬ u ∈ e.uses sc pending) ∧ ¬ u ∈ b.uses pending) →
      u ∈ Branch.usesIn sc pending rest ∨ u.expr.usedName? = none := by
    rintro rest pending u ⟨⟨hu, hnot⟩, hnot'⟩
    simp only [Branch.uses, List.mem_append] at hu
    exact .inl (hu.resolve_left (not_or.2 ⟨hnot, hnot'⟩))
  cases hc : View.Guarded.branch? (.node .elseIfBranch span cs) with
  | none => exact .returning (.pure fun pending u hu => by cases hu) huses
  | some c => exact .returning (some_branch sc (ih _ c.property)) huses

/-- The last branch is its block. -/
theorem walks_elseBranch (ht : (Tree.node .elseBranch span cs).Tiled) (h : Headed .elseBranch cs)
    (ih : ∀ c ∈ cs, Bindings c) :
    Walks sc false (.of [.node .elseBranch span cs]) (Lower.branch sc (.node .elseBranch span cs))
      fun b pending u => u ∈ b.uses sc pending := by
  rw [Lower.branch]
  refine .given_bind fun body hbody => ?_
  have hlist := Tree.isNode_of_nodeWhere? hbody
  refine (Walks.returning ((ih _ body.property).block sc hlist) fun b pending u hu => ?_).mono
    (Ground.within_headed (d := false) ht h (by decide) nofun body hlist) id
  rw [Branch.uses] at hu
  exact .inl hu

/-- The parameters are declared before the arguments and the block are gone through. -/
theorem walks_beginStmt (ht : (Tree.node .beginStmt span cs).Tiled) (h : Headed .beginStmt cs)
    (ih : ∀ c ∈ cs, Bindings c) :
    Walks sc true (.of [.node .beginStmt span cs]) (Lower.statement sc (.node .beginStmt span cs))
      fun s pending u => u ∈ s.uses sc pending := by
  rw [Lower.statement]
  dsimp only [Tree.kind]
  -- The three parts of the header are told apart by their kinds.
  have hparams : ∀ c, View.BlockHeader.params? (.node .beginStmt span cs) = some c →
      c.val.isNode (· == .paramList) = true := fun c hc => Tree.isNode_of_nodeWhere? hc
  have hargs : ∀ c, View.BeginStmt.args? (.node .beginStmt span cs) = some c →
      c.val.isNode (· == .argList) = true := fun c hc => Tree.isNode_of_nodeWhere? hc
  have hbody : ∀ c, View.Guarded.body? (.node .beginStmt span cs) = some c →
      c.val.isNode (· == .stmtList) = true := fun c hc => Tree.isNode_of_nodeWhere? hc
  refine .given_bind fun name _ => ?_
  -- The parameters are declared first, so they stand in front of the arguments and the body.
  refine (Walks.inFront (walks_params sc ht _ hparams) (fun symbols => ?_)
    (.append (S := .found (View.BeginStmt.args? (.node .beginStmt span cs)))
      (T := .found (View.Guarded.body? (.node .beginStmt span cs))) ?_ ?_)
    (.append (Ground.before_found_found fun c c' hc hc' => ?_)
      (Ground.before_found_found fun c c' hc hc' => ?_))).mono
    (.append (Ground.within_found fun c hc => ?_)
      (.append (Ground.within_found fun c hc => ?_) (Ground.within_found fun c hc => ?_))) id
  · have hrest (args : List Expr) : Walks sc false (.found (View.Guarded.body? (.node .beginStmt span cs)))
        (Lower.given (View.Guarded.body? (.node .beginStmt span cs)) >>= fun body =>
          Lower.block sc body.val >>= fun b =>
          pure (Stmt.mk (.beginBlock (View.Identifier.text name.val) symbols args b) span))
        fun s pending u => (u ∈ s.uses sc pending ∧ ¬ False) ∧ ¬ u ∈ Expr.usesOf sc pending args := by
      refine .given_found fun body hb => .returning ((ih _ body.property).block sc (hbody body hb))
        fun b pending u hu => ?_
      obtain ⟨⟨hu, -⟩, hnot⟩ := hu
      simp only [Stmt.uses, StmtForm.uses, List.mem_append] at hu
      exact .inl (hu.resolve_left hnot)
    cases hc : View.BeginStmt.args? (.node .beginStmt span cs) with
    | none => exact .chain (.pure fun pending u hu => by cases hu) hrest fun _ _ h => h.elim
    | some list =>
      exact .chain ((ih _ list.property).exprs sc (hargs list hc)) hrest
        (Ground.apart_found fun c' hc' => ht.apart_of_kinds (hargs list hc) (hbody c' hc') fun k hk => by
          rw [eq_of_beq hk]
          rfl)
  · exact Ground.apart_found_of_kinds ht hparams hargs fun k hk => by rw [eq_of_beq hk]; rfl
  · exact Ground.apart_found_of_kinds ht hparams hbody fun k hk => by rw [eq_of_beq hk]; rfl
  · exact h.before_of_params ht (.inl rfl) (hparams c hc) (Tree.or_isNode (hargs c' hc'))
  · exact h.before_of_params ht (.inl rfl) (hparams c hc) (Tree.isNode_or (hbody c' hc'))
  · exact Ground.within_headed ht h (by decide) (fun _ => rfl) c (hparams c hc)
  · exact Ground.within_headed ht h (by decide) (fun _ => rfl) c (hargs c hc)
  · exact Ground.within_headed ht h (by decide) (fun _ => rfl) c (hbody c hc)

/-- The collection is gone through outside of the scope that the loop opens for its variable. -/
theorem walks_foreachStmt (ht : (Tree.node .foreachStmt span cs).Tiled) (h : Headed .foreachStmt cs)
    (ih : ∀ c ∈ cs, Bindings c) :
    Walks sc true (.of [.node .foreachStmt span cs]) (Lower.statement sc (.node .foreachStmt span cs))
      fun s pending u => u ∈ s.uses sc pending := by
  rw [Lower.statement]
  dsimp only [Tree.kind]
  have hitem : ∀ c, View.ForeachStmt.item? (.node .foreachStmt span cs) = some c →
      c.val.isNode NodeKind.isVariable = true := fun c hc => Tree.isNode_of_nodeBefore? hc
  have hbody : ∀ c, View.Guarded.body? (.node .foreachStmt span cs) = some c →
      c.val.isNode (· == .stmtList) = true := fun c hc => Tree.isNode_of_nodeWhere? hc
  -- The word of the statement stands in front of every child, so none begins where it does.
  have hbegins : ∀ (p : NodeKind → Bool) (c : (Tree.node .foreachStmt span cs).Child),
      c.val.isNode p = true → ¬ c.val.Begins ⟨.foreachStmt, span⟩ := fun p c hc =>
    Tree.Begins.not_of_child rfl ht c.property (.inl (ht.lt_start_of_headed h c.property hc))
  refine .given_bind fun c hc => ?_
  have hexpression := Tree.isNode_of_nodeAfter? hc
  -- The collection is walked outside of the new scope, the item and the body inside of it.
  refine (Walks.chain ((ih _ c.property).expr sc) (fun collection => .opening
    (R := .found (View.ForeachStmt.item? (.node .foreachStmt span cs))
      ++ .found (View.Guarded.body? (.node .foreachStmt span cs))) rfl
    (fun header => .given_found_append fun item hi => ?_) fun _ hopens => ?_) ?_).mono
    (.append (Ground.within_headed (d := false) ht h (by decide) nofun c hexpression)
      (Ground.within_headed_inside ht h rfl (by decide)
        (.append (Ground.within_nodes hitem) (Ground.within_nodes hbody)))) nofun
  · have hrest (v : LoopVariable) : Walks header false (.found (View.Guarded.body? (.node .foreachStmt span cs)))
        (Lower.given (View.Guarded.body? (.node .foreachStmt span cs)) >>= fun body =>
          Lower.block header body.val >>= fun b =>
          pure (Stmt.mk (.foreachLoop header v collection b) span))
        fun s pending u => (u ∈ s.uses sc pending ∧ ¬ u ∈ collection.uses sc pending)
          ∧ ¬ u ∈ v.uses header pending := by
      refine .given_found fun body hb => .returning ((ih _ body.property).block header (hbody body hb))
        fun b pending u hu => ?_
      obtain ⟨⟨hu, hnot⟩, hnot'⟩ := hu
      simp only [Stmt.uses, StmtForm.uses, List.mem_append] at hu
      exact .inl (hu.resolve_left (not_or.2 ⟨hnot', hnot⟩))
    have hitemTiled := ht.of_mem_children item.property
    have hapart := Ground.apart_found fun c' hc' => ht.apart_of_kinds (hitem item hi) (hbody c' hc')
      fun k hk => by cases k <;> first | rfl | cases hk
    split
    · next hdecl =>
      refine .inFront (.map (.declare hitemTiled hdecl) fun x pending u hu => ?_) hrest hapart
        (Ground.before_found_found (o := some item) fun c₁ c₂ h₁ h₂ => ?_)
      · rw [LoopVariable.uses] at hu
        cases hu
      · rw [← Option.some.inj h₁]
        exact h.before_of_item ht hi hc h₂
    · refine (Walks.chain (.map (.nameUse (List.mem_singleton_self _) hitemTiled.le)
        fun e pending u hu => ?_) hrest hapart).mono (.refl _ _) nofun
      rw [LoopVariable.uses] at hu
      exact .inl hu
  · rcases hopens with hopens | hopens
    · exact Ground.not_opens_found (fun c hc => hbegins _ c (hitem c hc)) hopens
    · exact Ground.not_opens_found (fun c hc => hbegins _ c (hbody c hc)) hopens
  · rintro n hproper ⟨a, ha, hn⟩ hin
    rw [List.mem_singleton.1 ha] at hn
    rcases hin with rfl | hin | hin
    · exact hbegins _ c hexpression hn
    · exact Ground.apart_found (fun item hi => (apart_of_around hi hc).symm) n hproper
        ⟨c.val, List.mem_singleton_self _, hn⟩ hin
    · exact Ground.apart_found (fun body hb => ht.apart_of_kinds hexpression (hbody body hb) fun k hk => by
        cases k <;> first | rfl | cases hk) n hproper ⟨c.val, List.mem_singleton_self _, hn⟩ hin

end

/-! ## All trees -/

/-- **At every tree the walk binds names lexically.** -/
theorem bindings (t : Tree) (ht : t.Tiled) (hf : t.Formed) : Bindings t := by
  -- By recursion on the tree: every rule needs its children only.
  have ih : ∀ c ∈ t.children, Bindings c := fun c hc =>
    bindings c (ht.of_mem_children hc) (hf.of_mem_children hc)
  cases t with
  | leaf t =>
    refine ⟨fun sc => ?_, nofun, nofun, fun sc => ?_, fun sc => ?_⟩
    · rw [Lower.expr]
      exact .failure
    · rw [Lower.statement]
      exact .failure
    · rw [Lower.branch]
      exact .failure
  | node kind span cs =>
    have hheaded : kind.isHeaded = true → Headed kind cs := hf.headed
    refine ⟨fun sc => ?_, fun sc hkind => ?_, fun sc hkind => ?_, fun sc => ?_, fun sc => ?_⟩
    · cases kind with
      | nameRef => exact walks_nameRef sc ht
      | literal => exact walks_literal sc
      | parenExpr => exact walks_parenExpr sc ht ih
      | unaryExpr => exact walks_unaryExpr sc ht ih
      | binExpr => exact walks_binExpr sc ht ih
      | memberExpr => exact walks_memberExpr sc ht ih
      | funcExpr => exact walks_funcExpr sc ht ih
      | lambdaExpr => exact walks_lambdaExpr sc ht (hheaded rfl) ih
      | _ =>
        rw [Lower.expr]
        exact .failure
    · obtain rfl : kind = .argList := eq_of_beq hkind
      exact walks_exprs sc ht ih
    · obtain rfl : kind = .stmtList := eq_of_beq hkind
      exact walks_block sc ht ih
    · cases kind with
      | varDeclStmt => exact walks_varDeclStmt sc ht ih
      | setStmt => exact walks_setStmt sc ht ih
      | letStmt => exact walks_letStmt sc ht ih
      | ifStmt => exact walks_ifStmt sc ht (hheaded rfl) ih
      | whileStmt => exact walks_whileStmt sc ht (hheaded rfl) ih
      | foreachStmt => exact walks_foreachStmt sc ht (hheaded rfl) ih
      | beginStmt => exact walks_beginStmt sc ht (hheaded rfl) ih
      | returnStmt => exact walks_returnStmt sc ht ih
      | breakStmt => exact walks_wordStmt sc (.inl rfl)
      | continueStmt => exact walks_wordStmt sc (.inr rfl)
      | exprStmt => exact walks_exprStmt sc ht ih
      | _ =>
        rw [Lower.statement]
        exact .failure
    · cases kind with
      | elseIfBranch => exact walks_elseIfBranch sc ht (hheaded rfl) ih
      | elseBranch => exact walks_elseBranch sc ht (hheaded rfl) ih
      | _ =>
        rw [Lower.branch]
        exact .failure
termination_by sizeOf t
decreasing_by exact Tree.sizeOf_lt_of_mem_children hc

end ScriptSense
