/-
What the walk keeps.

The walk from the tree to the meaning changes the scopes in two ways only: it opens a
scope for a node, and it declares a symbol at a node. What both of them keep is kept by
the walk as a whole, and that is shown here once (`Lower.keepsAt`).

Whether a step keeps a property depends on where the walk is at work: a scope is opened
inside the scope of the place, and a symbol is declared in it. So a `Keeping` says beside
the property which nodes may have opened the scope of a place. There are three ways to
get from a place to the next one. A node that opens no scope hands down the scope that it
is in, a node that opens one hands down its own, and the collection of a `foreach` is in
the scope that the loop is in.
-/
import ScriptSense.Proofs.Script.Walking
import ScriptSense.Proofs.Syntax.Sites

set_option autoImplicit false

namespace ScriptSense

namespace Lower

variable {α β : Type} {I : ScopeTree → Prop} {K K' : NodeKey → Prop} {sc : ScopeId}

/-! ## Steps -/

/-- In a scope that a node with `K` has opened, **the step keeps** `I`, and scopes are
only added. -/
def Keeps (I : ScopeTree → Prop) (K : NodeKey → Prop) (sc : ScopeId) (m : Lower α) : Prop :=
  ∀ g : Gathered, I g.scopes → (∃ s, g.scopes.scope? sc = some s ∧ K s.node) →
    I (m.after g).2.scopes ∧ g.scopes.Extends (m.after g).2.scopes

namespace Keeps

variable {m : Lower α} {f : α → Lower β}

theorem still (hm : ∀ g, (m.after g).2.scopes = g.scopes) : Keeps I K sc m := by
  intro g hg _
  rw [hm g]
  exact ⟨hg, .refl _⟩

theorem pure (a : α) : Keeps I K sc (Pure.pure a : Lower α) := still fun _ => rfl

theorem failure : Keeps I K sc (Alternative.failure : Lower α) := still fun _ => rfl

theorem mono (h : Keeps I K' sc m) (hK : ∀ key, K key → K' key) : Keeps I K sc m := by
  rintro g hg ⟨s, hs, hkey⟩
  exact h g hg ⟨s, hs, hK _ hkey⟩

theorem bind (hm : Keeps I K sc m) (hf : ∀ a, Keeps I K sc (f a)) : Keeps I K sc (m >>= f) := by
  rintro g hg ⟨s, hs, hkey⟩
  obtain ⟨hkept, hextends⟩ := hm g hg ⟨s, hs, hkey⟩
  cases hanswer : m.after g with
  | mk answer g' =>
    rw [hanswer] at hkept hextends
    cases answer with
    | none =>
      rw [after_bind_none hanswer]
      exact ⟨hkept, hextends⟩
    | some a =>
      rw [after_bind_some hanswer]
      -- The scope is still there behind the first step, and its node is the same.
      obtain ⟨s', hs', -, hnode⟩ := hextends.scope hs
      obtain ⟨hkept', hextends'⟩ := hf a g' hkept ⟨s', hs', by rwa [hnode]⟩
      exact ⟨hkept', hextends.trans hextends'⟩

theorem given {o : Option α} (hf : ∀ a, o = some a → Keeps I K sc (f a)) :
    Keeps I K sc (Lower.given o >>= f) := by
  cases o with
  | none => exact still fun _ => rfl
  | some a => exact hf a rfl

theorem map (g : α → β) (hm : Keeps I K sc m) : Keeps I K sc (g <$> m) := by
  rw [map_eq_pure_bind]
  exact bind hm fun _ => pure _

theorem attempt (hm : Keeps I K sc m) : Keeps I K sc (Lower.attempt m) := by
  intro g hg hin
  rw [after_attempt]
  exact hm g hg hin

/-- A scope is opened for the node, and the step goes on inside. -/
theorem opening {t : Tree} {kind : ScopeKind} {f : ScopeId → Lower β}
    (hopen : ∀ {scopes r node}, I scopes → scopes.scope? sc = some r → K r.node →
      t.key? = some node → I (scopes.openScope sc kind node).2)
    (hf : ∀ own, Keeps I (fun key => t.key? = some key) own (f own)) :
    Keeps I K sc (openScope sc kind t >>= f) := by
  rintro g hg ⟨s, hs, hkey⟩
  cases t with
  | leaf => exact ⟨hg, .refl _⟩
  | node k place cs =>
    have hafter : (Lower.openScope sc kind (.node k place cs)).after g = (some ⟨g.scopes.scopes.size⟩,
      { g with scopes := (g.scopes.openScope sc kind ⟨k, place⟩).2 }) := rfl
    have hlt := ScopeTree.lt_size_of_scope? hs
    -- The new scope is the last one, and it belongs to the node that opens it.
    have hself := ScopeTree.scope?_openScope hlt kind ⟨k, place⟩ ⟨g.scopes.scopes.size⟩
    rw [if_pos rfl] at hself
    rw [after_bind_some hafter]
    obtain ⟨hkept, hextends⟩ := hf _ { g with scopes := (g.scopes.openScope sc kind ⟨k, place⟩).2 }
      (hopen hg hs hkey rfl) ⟨_, hself, rfl⟩
    exact ⟨hkept, (ScopeTree.extends_openScope hlt kind _).trans hextends⟩

theorem declare {t : Tree} (hdeclare : ∀ {scopes r symbol}, I scopes → scopes.scope? sc = some r →
      K r.node → t.Declares symbol → I (scopes.declare sc symbol).2) :
    Keeps I K sc (Lower.declare sc t) := by
  rintro g hg ⟨s, hs, hkey⟩
  rcases after_declare sc t g with hafter | ⟨symbol, hsymbol, hafter⟩
  · rw [hafter]
    exact ⟨hg, .refl _⟩
  · rw [hafter]
    exact ⟨hdeclare hg hs hkey hsymbol, ScopeTree.extends_declare _ _ _⟩

theorem symbolOrOutside (name : String) : Keeps I K sc (Lower.symbolOrOutside sc name) := by
  refine still fun g => ?_
  rw [after_symbolOrOutside, Gathered.noting]
  split <;> rfl

theorem nameUse (t : Tree) : Keeps I K sc (Lower.nameUse sc t) := by
  refine still fun g => ?_
  rw [after_nameUse, Gathered.noting]
  split <;> rfl

variable {as : List α}

theorem each (hf : ∀ a ∈ as, Keeps I K sc (f a)) :
    Keeps I K sc (as.filterMapM fun a => Lower.attempt (f a)) := by
  induction as with
  | nil => exact pure []
  | cons a as ih =>
    have ih := ih fun b hb => hf b (List.mem_cons_of_mem _ hb)
    rw [List.filterMapM_cons]
    refine bind (hf a List.mem_cons_self).attempt fun o => ?_
    cases o with
    | none => exact ih
    | some b => exact bind ih fun _ => pure _

theorem all (hf : ∀ a ∈ as, Keeps I K sc (f a)) : Keeps I K sc (as.mapM f) := by
  induction as with
  | nil => exact pure []
  | cons a as ih =>
    rw [List.mapM_cons]
    exact bind (hf a List.mem_cons_self) fun _ =>
      bind (ih fun b hb => hf b (List.mem_cons_of_mem _ hb)) fun _ => pure _

end Keeps

end Lower

/-! ## Places -/

theorem Tree.not_expression_of_statement {t : Tree} (h : t.isNode NodeKind.isStatement = true) :
    t.isNode NodeKind.isExpression = false :=
  Tree.not_isNode h fun k hk => by cases k <;> first | rfl | cases hk

/-- **What the walk keeps** in a tree: `I` of the scopes, and of each place `K` of the node
that has opened the scope of the place. -/
structure Keeping (root : Tree) (I : ScopeTree → Prop) (K : NodeSite → NodeKey → Prop) : Prop where
  /-- A node that opens no scope hands down the one that it is in. -/
  through {t c : Tree} {above : List Tree} {key : NodeKey} : root.Stands ⟨t, above⟩ →
    t.isNode NodeKind.opensScope = false → c ∈ t.children → K ⟨t, above⟩ key → K ⟨c, t :: above⟩ key
  /-- What a `foreach` goes through is in the scope that the loop is in. -/
  collection {t : Tree} {c : t.Child} {above : List Tree} {key : NodeKey} : root.Stands ⟨t, above⟩ →
    t.isNode (· == .foreachStmt) = true → View.ForeachStmt.collection? t = some c →
    K ⟨t, above⟩ key → K ⟨c.val, t :: above⟩ key
  /-- A node that opens a scope hands down its own. -/
  inside {t c : Tree} {above : List Tree} {key : NodeKey} : root.Stands ⟨t, above⟩ →
    t.isNode NodeKind.opensScope = true → t.key? = some key → c ∈ t.children →
    c.isNode NodeKind.isExpression = false → K ⟨c, t :: above⟩ key
  opened {s : NodeSite} {t : ScopeTree} {sc : ScopeId} {r : Scope} {node : NodeKey} (kind : ScopeKind) :
    root.Stands s → I t → t.scope? sc = some r → K s r.node → s.item.key? = some node →
    I (t.openScope sc kind node).2
  declared {s : NodeSite} {t : ScopeTree} {sc : ScopeId} {r : Scope} {symbol : Symbol} :
    root.Stands s → I t → t.scope? sc = some r → K s r.node → s.item.isNode (· == .varDecl) = true →
    s.item.Declares symbol → I (t.declare sc symbol).2

namespace Lower

/-- At the tree, in a scope that a node with `K` has opened, the walk keeps `I`. -/
structure KeepsAt (I : ScopeTree → Prop) (K : NodeKey → Prop) (t : Tree) : Prop where
  expr (sc : ScopeId) : Keeps I K sc (Lower.expr sc t)
  exprs (sc : ScopeId) : t.isNode (· == .argList) = true → Keeps I K sc (Lower.exprs sc t)
  block (sc : ScopeId) : t.isNode (· == .stmtList) = true → Keeps I K sc (Lower.block sc t)
  statement (sc : ScopeId) : Keeps I K sc (Lower.statement sc t)
  branch (sc : ScopeId) : Keeps I K sc (Lower.branch sc t)

theorem KeepsAt.mono {I : ScopeTree → Prop} {K K' : NodeKey → Prop} {t : Tree} (h : KeepsAt I K' t)
    (hK : ∀ key, K key → K' key) : KeepsAt I K t :=
  ⟨fun sc => (h.expr sc).mono hK, fun sc hkind => (h.exprs sc hkind).mono hK,
    fun sc hkind => (h.block sc hkind).mono hK, fun sc => (h.statement sc).mono hK,
    fun sc => (h.branch sc).mono hK⟩

/-- The block under a header. -/
theorem Keeps.body {β : Type} {I : ScopeTree → Prop} {K : NodeKey → Prop} {t : Tree} {sc : ScopeId}
    (hin : ∀ b : t.Child, b.val.isNode (· == .stmtList) = true → KeepsAt I K b.val) {f : Block → Lower β}
    (hf : ∀ b, Keeps I K sc (f b)) :
    Keeps I K sc (Lower.given (View.Guarded.body? t) >>= fun b => Lower.block sc b.val >>= f) :=
  .given fun b hb => .bind ((hin b (Tree.isNode_of_nodeWhere? hb)).block sc (Tree.isNode_of_nodeWhere? hb)) hf

section

variable {root : Tree} {I : ScopeTree → Prop} {K : NodeSite → NodeKey → Prop} {above : List Tree}
  (h : Keeping root I K)

include h

theorem keeps_declare {s : NodeSite} (hs : root.Stands s) (hdecl : s.item.isNode (· == .varDecl) = true)
    (sc : ScopeId) : Keeps I (K s) sc (Lower.declare sc s.item) :=
  .declare fun hI hr hkey hsymbol => h.declared hs hI hr hkey hdecl hsymbol

/-- Parameters are declared where their list is. -/
theorem keeps_params {t : Tree} (hs : root.Stands ⟨t, above⟩) {within : NodeKey → Prop}
    (hin : ∀ l : t.Child, l.val.isNode (· == .paramList) = true →
      ∀ key, within key → K ⟨l.val, t :: above⟩ key) (sc : ScopeId) :
    Keeps I within sc (Lower.params sc ((View.BlockHeader.params? t).map Subtype.val)) := by
  cases hlist : View.BlockHeader.params? t with
  | none => exact .pure []
  | some l =>
    have hkind : l.val.isNode (· == .paramList) = true := Tree.isNode_of_nodeWhere? hlist
    have hstands := hs.child l.property
    refine .each fun c _ => ?_
    unfold Lower.param
    split
    · next hdecl =>
      refine (keeps_declare h (hstands.child c.property) hdecl sc).mono fun key hkey => ?_
      exact h.through hstands ((Tree.isNode_eq hkind).trans rfl) c.property
        (hin l hkind key hkey)
    -- What is no declaration leaves the scopes as they are.
    · exact .still fun _ => rfl

variable {kind : NodeKind} {span : Span} {cs : List Tree} (hs : root.Stands ⟨.node kind span cs, above⟩)
  (ih : ∀ c : (Tree.node kind span cs).Child, KeepsAt I (K ⟨c.val, .node kind span cs :: above⟩) c.val)
  (sc : ScopeId)

include hs ih

/-- The children of a node that opens no scope. -/
theorem keepsAt_through (hkind : kind.opensScope = false) (c : (Tree.node kind span cs).Child) :
    KeepsAt I (K ⟨.node kind span cs, above⟩) c.val :=
  (ih c).mono fun _ => h.through hs hkind c.property

/-- The children of a node that opens a scope. -/
theorem keepsAt_inside (hkind : kind.opensScope = true) (c : (Tree.node kind span cs).Child)
    (hc : c.val.isNode NodeKind.isExpression = false) :
    KeepsAt I (fun key => (Tree.node kind span cs).key? = some key) c.val :=
  (ih c).mono fun _ hkey => h.inside hs hkind hkey c.property hc

/-! ## Nodes -/

theorem keeps_expr : Keeps I (K ⟨.node kind span cs, above⟩) sc (Lower.expr sc (.node kind span cs)) := by
  have through := keepsAt_through h hs ih
  have inside := keepsAt_inside h hs ih
  rw [Lower.expr]
  dsimp only [Tree.kind]
  cases kind with
  | nameRef => exact .nameUse _
  | literal => exact .given fun _ _ => .pure _
  | parenExpr => exact .given fun c _ => (through rfl c).expr sc
  | unaryExpr => exact .given fun _ _ => .given fun c _ => .bind ((through rfl c).expr sc) fun _ => .pure _
  | binExpr =>
    exact .given fun _ _ => .given fun l _ => .bind ((through rfl l).expr sc) fun _ =>
      .given fun r _ => .bind ((through rfl r).expr sc) fun _ => .pure _
  | memberExpr =>
    refine .given fun _ _ => .given fun b _ => .bind ((through rfl b).expr sc) fun _ => .given fun m _ => ?_
    split
    · exact .bind (.pure _) fun _ => .pure _
    · exact .bind ((through rfl m).expr sc) fun _ => .pure _
  | funcExpr =>
    refine .given fun _ _ => .bind (.symbolOrOutside _) fun _ => ?_
    split
    · exact .bind (.pure _) fun _ => .pure _
    · next hargs =>
      exact .bind ((through rfl _).exprs sc (Tree.isNode_of_nodeWhere? hargs)) fun _ => .pure _
  | lambdaExpr =>
    -- The parameters and the body are in the scope that the lambda opens.
    refine .given fun _ _ => .opening (h.opened _ hs) fun own => .bind (keeps_params h hs ?_ own)
      fun _ => .given fun body hbody => .bind ((inside rfl body ?_).block own ?_) fun _ => .pure _
    · exact fun l hl key hkey => h.inside hs rfl hkey l.property ((Tree.isNode_eq hl).trans rfl)
    · exact (Tree.isNode_eq (Tree.isNode_of_nodeWhere? hbody)).trans rfl
    · exact Tree.isNode_of_nodeWhere? hbody
  | _ => exact .failure

theorem keeps_statement :
    Keeps I (K ⟨.node kind span cs, above⟩) sc (Lower.statement sc (.node kind span cs)) := by
  have through := keepsAt_through h hs ih
  have inside := keepsAt_inside h hs ih
  rw [Lower.statement]
  dsimp only [Tree.kind]
  cases kind with
  | varDeclStmt =>
    have hdeclare : ∀ value : Option Expr, Keeps I (K ⟨.node .varDeclStmt span cs, above⟩) sc (do
        let symbol ← Lower.declare sc (← Lower.given (View.VarDeclStmt.decl? (.node .varDeclStmt span cs))).val
        return Stmt.mk (.varDecl symbol value) (Tree.node .varDeclStmt span cs).span) := by
      intro value
      refine .given fun c hc => .bind ?_ fun _ => .pure _
      exact (keeps_declare h (hs.child c.property) (Tree.isNode_of_nodeWhere? hc) sc).mono fun _ =>
        h.through hs rfl c.property
    dsimp only
    split
    · exact .bind (.pure _) hdeclare
    · exact .bind ((through rfl _).expr sc).attempt hdeclare
  | setStmt =>
    exact .given fun c _ => .bind ((through rfl c).expr sc) fun _ =>
      .given fun c _ => .bind ((through rfl c).expr sc) fun _ => .pure _
  | letStmt => exact .given fun c _ => .bind ((through rfl c).expr sc) fun _ => .pure _
  | ifStmt =>
    refine .given fun c _ => .bind ((through rfl c).expr sc) fun _ =>
      .body (fun b _ => through rfl b) fun _ => ?_
    split
    · exact .bind (.pure _) fun _ => .pure _
    · exact .bind (((through rfl _).branch sc).map _) fun _ => .pure _
  | whileStmt =>
    exact .given fun c _ => .bind ((through rfl c).expr sc) fun _ =>
      .body (fun b _ => through rfl b) fun _ => .pure _
  | foreachStmt =>
    -- Only the collection is outside the scope that the loop opens.
    refine .given fun c hc => .bind (((ih c).mono fun _ => h.collection hs rfl hc).expr sc) fun _ =>
      .opening (h.opened _ hs) fun header => .given fun item _ => ?_
    have hbody : ∀ b : (Tree.node .foreachStmt span cs).Child, b.val.isNode (· == .stmtList) = true →
        KeepsAt I (fun key => (Tree.node .foreachStmt span cs).key? = some key) b.val := fun b hb =>
      inside rfl b ((Tree.isNode_eq hb).trans rfl)
    split
    · next hdecl =>
      refine .bind (.map _ ?_) fun _ => .body hbody fun _ => .pure _
      exact (keeps_declare h (hs.child item.property) hdecl header).mono fun _ hkey =>
        h.inside hs rfl hkey item.property ((Tree.isNode_eq hdecl).trans rfl)
    · exact .bind (.map _ (.nameUse _)) fun _ => .body hbody fun _ => .pure _
  | beginStmt =>
    refine .given fun _ _ => .bind (keeps_params h hs (fun l _ _ => h.through hs rfl l.property) sc) fun _ => ?_
    split
    · exact .bind (.pure _) fun _ => .body (fun b _ => through rfl b) fun _ => .pure _
    · next hargs =>
      exact .bind ((through rfl _).exprs sc (Tree.isNode_of_nodeWhere? hargs)) fun _ =>
        .body (fun b _ => through rfl b) fun _ => .pure _
  | returnStmt =>
    dsimp only
    split
    · exact .bind (.pure _) fun _ => .pure _
    · exact .bind (((through rfl _).expr sc).map _) fun _ => .pure _
  | breakStmt => exact .pure _
  | continueStmt => exact .pure _
  | exprStmt => exact .given fun c _ => .bind ((through rfl c).expr sc) fun _ => .pure _
  | _ => exact .failure

theorem keeps_branch : Keeps I (K ⟨.node kind span cs, above⟩) sc (Lower.branch sc (.node kind span cs)) := by
  have through := keepsAt_through h hs ih
  rw [Lower.branch]
  dsimp only [Tree.kind]
  cases kind with
  | elseIfBranch =>
    refine .given fun c _ => .bind ((through rfl c).expr sc) fun _ =>
      .body (fun b _ => through rfl b) fun _ => ?_
    split
    · exact .bind (.pure _) fun _ => .pure _
    · exact .bind (((through rfl _).branch sc).map _) fun _ => .pure _
  | elseBranch => exact .body (fun b _ => through rfl b) fun _ => .pure _
  | _ => exact .failure

theorem keeps_exprs (hkind : kind = .argList) :
    Keeps I (K ⟨.node kind span cs, above⟩) sc (Lower.exprs sc (.node kind span cs)) := by
  subst hkind
  rw [Lower.exprs]
  exact .all fun c _ => (keepsAt_through h hs ih rfl c).expr sc

theorem keeps_block (hkind : kind = .stmtList) :
    Keeps I (K ⟨.node kind span cs, above⟩) sc (Lower.block sc (.node kind span cs)) := by
  subst hkind
  rw [Lower.block]
  refine .opening (h.opened _ hs) fun own => .bind (.each fun c hc => ?_) fun _ => .pure _
  exact (keepsAt_inside h hs ih rfl c
    (Tree.not_expression_of_statement (Tree.isNode_of_mem_nodesWhere hc))).statement own

end

/-! ## All trees -/

/-- **The walk keeps what its steps keep**, at every place of the tree. -/
theorem keepsAt {root : Tree} {I : ScopeTree → Prop} {K : NodeSite → NodeKey → Prop}
    (h : Keeping root I K) (t : Tree) (above : List Tree) (hs : root.Stands ⟨t, above⟩) :
    KeepsAt I (K ⟨t, above⟩) t := by
  -- By recursion on the tree: the rules for a node need those for its children only.
  have ih : ∀ c : t.Child, KeepsAt I (K ⟨c.val, t :: above⟩) c.val := fun c =>
    keepsAt h c.val (t :: above) (hs.child c.property)
  cases t with
  | leaf t =>
    refine ⟨fun sc => ?_, nofun, nofun, fun sc => ?_, fun sc => ?_⟩
    · rw [Lower.expr]
      exact .failure
    · rw [Lower.statement]
      exact .failure
    · rw [Lower.branch]
      exact .failure
  | node kind span cs =>
    exact ⟨keeps_expr h hs ih, fun sc hkind => keeps_exprs h hs ih sc (eq_of_beq hkind),
      fun sc hkind => keeps_block h hs ih sc (eq_of_beq hkind), keeps_statement h hs ih, keeps_branch h hs ih⟩
termination_by sizeOf t
decreasing_by exact Tree.sizeOf_lt_of_mem_children c.property

end Lower

/-- **A script keeps what the walk keeps**, if it holds in the beginning. -/
theorem Keeping.script {span : Span} {cs : List Tree} {I : ScopeTree → Prop}
    {K : NodeSite → NodeKey → Prop} (h : Keeping (.node .script span cs) I K)
    (hstart : I (.ofRoot ⟨.script, span⟩)) {script : Script}
    (hscript : Script.ofTree? (.node .script span cs) = some script) : I script.scopes := by
  rw [Script.ofTree?_node] at hscript
  obtain ⟨name, -, rfl⟩ := Option.map_eq_some_iff.1 hscript
  have hkeeps : Lower.Keeps I (fun key => (Tree.node .script span cs).key? = some key) .root
      ((View.Script.statements (.node .script span cs)).filterMapM fun c =>
        Lower.attempt (Lower.statement .root c.val)) := by
    refine .each fun c hc => ?_
    -- No statement of the script is an expression, so each stands in the scope of the script.
    refine ((Lower.keepsAt h c.val _ (.child .root c.property)).statement .root).mono fun key hkey => ?_
    exact h.inside .root rfl hkey c.property
      (Tree.not_expression_of_statement (Tree.isNode_of_mem_nodesWhere hc))
  obtain ⟨hkept, -⟩ := hkeeps (.start span) hstart ⟨_, rfl, rfl⟩
  rwa [Lower.after_filterMapM] at hkept

end ScriptSense
