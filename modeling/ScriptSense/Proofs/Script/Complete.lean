/-
A script without an error loses nothing on the way to its meaning.

What it is for a meaning to mirror a tree is said without the walk that finds it: the forms
are those of the kinds, and all nodes among the children of a node are named, each with the
part of the meaning that mirrors it, so nothing can have been dropped. Parentheses alone
leave no trace. What a name or a parameter stands for, and which types are known, is not
looked at here.

A literal can have no value: a hexadecimal number may be too large. Such a literal takes
the statement around it along; where there is none, every step of the walk finds what it
looks for, because the tree is whole.
-/
import ScriptSense.Proofs.Script.Running
import ScriptSense.Proofs.Syntax.Views

set_option autoImplicit false

namespace ScriptSense

/-! ## Meanings that mirror trees -/

/-- The tree is that of a name. -/
def Tree.Names (t : Tree) (name : String) : Prop :=
    ∃ m, .leaf m ∈ t.children ∧ m.kind = .ident ∧ m.text = name

mutual

/-- **The expression mirrors its tree.** -/
inductive MirrorsExpr : Tree → Expr → Prop
  | name {t : Tree} {name : String} {symbol : Option SymbolId} {ty : Ty}
      (hkind : t.kind = .node .nameRef) (hname : t.Names name) :
      MirrorsExpr t (.mk (.name name symbol) ty t.span)
  | literal {t : Tree} {m : Token} {value : Literal} {ty : Ty} (hkind : t.kind = .node .literal)
      (hm : .leaf m ∈ t.children) (hvalue : Literal.ofToken? m = some value) :
      MirrorsExpr t (.mk (.literal value) ty t.span)
  | paren {t inner : Tree} {e : Expr} (hkind : t.kind = .node .parenExpr)
      (hparts : t.parts = [inner]) (h : MirrorsExpr inner e) : MirrorsExpr t e
  | unary {t operand : Tree} {m : Token} {op : UnaryOp} {e : Expr} {ty : Ty}
      (hkind : t.kind = .node .unaryExpr) (hm : .leaf m ∈ t.children)
      (hop : UnaryOp.ofToken? m.kind = some op) (hparts : t.parts = [operand])
      (h : MirrorsExpr operand e) : MirrorsExpr t (.mk (.unary op e) ty t.span)
  | binary {t left right : Tree} {m : Token} {op : BinaryOp} {e e' : Expr} {ty : Ty}
      (hkind : t.kind = .node .binExpr) (hm : .leaf m ∈ t.children)
      (hop : BinaryOp.ofToken? m.kind = some op) (hparts : t.parts = [left, right])
      (h : MirrorsExpr left e) (h' : MirrorsExpr right e') :
      MirrorsExpr t (.mk (.binary op e e') ty t.span)
  /-- The name of a member stands for nothing by itself. -/
  | field {t base member : Tree} {m : Token} {op : MemberOp} {e : Expr} {name : String}
      {ty ty' : Ty} (hkind : t.kind = .node .memberExpr) (hm : .leaf m ∈ t.children)
      (hop : MemberOp.ofToken? m.kind = some op) (hparts : t.parts = [base, member])
      (h : MirrorsExpr base e) (hindex : op ≠ .index) (hmember : member.kind = .node .nameRef)
      (hname : member.Names name) :
      MirrorsExpr t (.mk (.member op e (.mk (.field name) ty' member.span)) ty t.span)
  | member {t base member : Tree} {m : Token} {op : MemberOp} {e e' : Expr} {ty : Ty}
      (hkind : t.kind = .node .memberExpr) (hm : .leaf m ∈ t.children)
      (hop : MemberOp.ofToken? m.kind = some op) (hparts : t.parts = [base, member])
      (h : MirrorsExpr base e) (hmember : op = .index ∨ member.kind ≠ .node .nameRef)
      (h' : MirrorsExpr member e') : MirrorsExpr t (.mk (.member op e e') ty t.span)
  | call {t callee list : Tree} {name : String} {symbol : Option SymbolId} {args : List Expr}
      {ty : Ty} (hkind : t.kind = .node .funcExpr) (hparts : t.parts = [callee, list])
      (hname : callee.Names name) (hargs : List.Forall₂ MirrorsExpr list.parts args) :
      MirrorsExpr t (.mk (.call name symbol args) ty t.span)
  | lambda {t name body : Tree} {params : Option Tree} {blockType : String} {scope : ScopeId}
      {symbols : List SymbolId} {block : Block} {ty : Ty} (hkind : t.kind = .node .lambdaExpr)
      (hparts : t.parts = name :: (params.toList ++ [body])) (hname : name.Names blockType)
      (hparams : ∀ l ∈ params, l.kind = .node .paramList) (hbody : MirrorsBlock body block) :
      MirrorsExpr t (.mk (.lambda blockType scope symbols block) ty t.span)

/-- **The block mirrors its tree**: it has all the statements, in order. -/
inductive MirrorsBlock : Tree → Block → Prop
  | mk {t : Tree} {scope : ScopeId} {statements : List Stmt} (hkind : t.kind = .node .stmtList)
      (h : List.Forall₂ MirrorsStmt t.parts statements) : MirrorsBlock t (.mk scope statements)

/-- **The statement mirrors its tree.** -/
inductive MirrorsStmt : Tree → Stmt → Prop
  | varDecl {t decl : Tree} {value : Option Tree} {symbol : SymbolId} {e : Option Expr}
      (hkind : t.kind = .node .varDeclStmt) (hparts : t.parts = decl :: value.toList)
      (hdecl : decl.kind = .node .varDecl) (h : Option.Rel MirrorsExpr value e) :
      MirrorsStmt t (.mk (.varDecl symbol e) t.span)
  | assign {t target value : Tree} {e e' : Expr} (hkind : t.kind = .node .setStmt)
      (hparts : t.parts = [target, value]) (h : MirrorsExpr target e) (h' : MirrorsExpr value e') :
      MirrorsStmt t (.mk (.assign e e') t.span)
  | evaluate {t inner : Tree} {e : Expr} (hkind : t.kind = .node .letStmt)
      (hparts : t.parts = [inner]) (h : MirrorsExpr inner e) :
      MirrorsStmt t (.mk (.evaluate e) t.span)
  | branch {t condition body : Tree} {rest : Option Tree} {e : Expr} {block : Block}
      {branch : Option Branch} (hkind : t.kind = .node .ifStmt)
      (hparts : t.parts = condition :: body :: rest.toList) (h : MirrorsExpr condition e)
      (hbody : MirrorsBlock body block) (hrest : Option.Rel MirrorsBranch rest branch) :
      MirrorsStmt t (.mk (.branch e block branch) t.span)
  | whileLoop {t condition body : Tree} {e : Expr} {block : Block}
      (hkind : t.kind = .node .whileStmt) (hparts : t.parts = [condition, body])
      (h : MirrorsExpr condition e) (hbody : MirrorsBlock body block) :
      MirrorsStmt t (.mk (.whileLoop e block) t.span)
  | foreachLoop {t item collection body : Tree} {header : ScopeId} {loopVariable : LoopVariable}
      {e : Expr} {block : Block} (hkind : t.kind = .node .foreachStmt)
      (hparts : t.parts = [item, collection, body]) (hitem : MirrorsItem item loopVariable)
      (h : MirrorsExpr collection e) (hbody : MirrorsBlock body block) :
      MirrorsStmt t (.mk (.foreachLoop header loopVariable e block) t.span)
  | beginBlock {t name body : Tree} {params list : Option Tree} {blockType : String}
      {symbols : List SymbolId} {args : List Expr} {block : Block}
      (hkind : t.kind = .node .beginStmt)
      (hparts : t.parts = name :: (params.toList ++ list.toList ++ [body]))
      (hname : name.Names blockType) (hparams : ∀ l ∈ params, l.kind = .node .paramList)
      (hlist : ∀ l ∈ list, l.kind = .node .argList)
      (hargs : List.Forall₂ MirrorsExpr ((list.map Tree.parts).getD []) args)
      (hbody : MirrorsBlock body block) :
      MirrorsStmt t (.mk (.beginBlock blockType symbols args block) t.span)
  | leave {t : Tree} {value : Option Tree} {e : Option Expr} (hkind : t.kind = .node .returnStmt)
      (hparts : t.parts = value.toList) (h : Option.Rel MirrorsExpr value e) :
      MirrorsStmt t (.mk (.leave e) t.span)
  | breakLoop {t : Tree} (hkind : t.kind = .node .breakStmt) : MirrorsStmt t (.mk .breakLoop t.span)
  | continueLoop {t : Tree} (hkind : t.kind = .node .continueStmt) :
      MirrorsStmt t (.mk .continueLoop t.span)
  | expression {t inner : Tree} {e : Expr} (hkind : t.kind = .node .exprStmt)
      (hparts : t.parts = [inner]) (h : MirrorsExpr inner e) :
      MirrorsStmt t (.mk (.expression e) t.span)

/-- **The loop variable mirrors its tree**: it is declared there or a name. -/
inductive MirrorsItem : Tree → LoopVariable → Prop
  | declared {t : Tree} {symbol : SymbolId} (hkind : t.kind = .node .varDecl) :
      MirrorsItem t (.declared symbol)
  | existing {t : Tree} {e : Expr} (h : MirrorsExpr t e) : MirrorsItem t (.existing e)

/-- **The later branch mirrors its tree.** -/
inductive MirrorsBranch : Tree → Branch → Prop
  | elseIf {t condition body : Tree} {rest : Option Tree} {e : Expr} {block : Block}
      {branch : Option Branch} (hkind : t.kind = .node .elseIfBranch)
      (hparts : t.parts = condition :: body :: rest.toList) (h : MirrorsExpr condition e)
      (hbody : MirrorsBlock body block) (hrest : Option.Rel MirrorsBranch rest branch) :
      MirrorsBranch t (.elseIf e block branch t.span)
  | otherwise {t body : Tree} {block : Block} (hkind : t.kind = .node .elseBranch)
      (hparts : t.parts = [body]) (hbody : MirrorsBlock body block) :
      MirrorsBranch t (.otherwise block t.span)

end

/-- The tree has a literal without a value. -/
def Tree.HasRejected (t : Tree) : Prop :=
    ∃ m ∈ t.leaves, m.kind.isLiteral = true ∧ Literal.ofToken? m = none

/-- **The statements were all kept that have no literal without a value**, in their order,
and mirror their trees. Of the others some may be there. -/
inductive KeepsStatements : List Tree → List Stmt → Prop
  | nil : KeepsStatements [] []
  | mirrored {t : Tree} {ts : List Tree} {s : Stmt} {ss : List Stmt} (h : MirrorsStmt t s)
      (hrest : KeepsStatements ts ss) : KeepsStatements (t :: ts) (s :: ss)
  | incomplete {t : Tree} {ts : List Tree} {s : Stmt} {ss : List Stmt} (h : t.HasRejected)
      (hspan : s.span = t.span) (hrest : KeepsStatements ts ss) :
      KeepsStatements (t :: ts) (s :: ss)
  | missing {t : Tree} {ts : List Tree} {ss : List Stmt} (h : t.HasRejected)
      (hrest : KeepsStatements ts ss) : KeepsStatements (t :: ts) ss

/-! ## Plain trees -/

/-- Nothing is missing in the tree, its elements lie side by side, and all its literals have
a value. -/
structure Plain (t : Tree) : Prop where
  whole : t.Whole
  tiled : t.Tiled
  valued : ¬ t.HasRejected

namespace Tree

variable {t c : Tree} {m : Token}

/-- The tokens of a child are tokens of the tree. -/
theorem mem_leaves_of_child (hc : c ∈ t.children) (hm : m ∈ c.leaves) : m ∈ t.leaves := by
  cases t with
  | leaf => simp [children] at hc
  | node kind span cs =>
    obtain ⟨before, after, rfl⟩ := List.append_of_mem hc
    simp [hm]

/-- What holds an identifier names what the identifier says. -/
theorem names_of_token (h : View.Identifier.token? t = some m) :
    t.Names m.text ∧ View.Identifier.text t = m.text := by
  obtain ⟨hkind, hm⟩ := mem_children_of_tokenWhere? (q := (· == .ident)) h
  refine ⟨⟨m, hm, eq_of_beq hkind, rfl⟩, ?_⟩
  rw [View.Identifier.text, h]
  rfl

/-- A whole name or reference names its text. -/
theorem Whole.names (h : t.Whole) (hkind : t.kind = .node .name ∨ t.kind = .node .nameRef) :
    t.Names (View.Identifier.text t) := by
  obtain ⟨-, m, hm⟩ := h.identifier hkind
  obtain ⟨hnames, htext⟩ := names_of_token hm
  rwa [htext]

end Tree

/-- A child of a plain tree is plain. -/
theorem Plain.child {t c : Tree} (h : Plain t) (hc : c ∈ t.children) : Plain c where
  whole := h.whole.of_mem_children hc
  tiled := h.tiled.of_mem_children hc
  valued hrejected := h.valued <| hrejected.imp fun _ hm => ⟨Tree.mem_leaves_of_child hc hm.1, hm.2⟩

namespace Lower

open ScriptSense.Tree

namespace Finds

variable {α β : Type} {m : Lower α} {f : α → Lower β} {P : α → Prop} {Q : β → Prop}

/-- Less may be said of what is found. -/
theorem mono {P' : α → Prop} (h : Finds m P) (hP : ∀ a, P a → P' a) : Finds m P' := by
  intro g
  obtain ⟨a, g', hrun, ha⟩ := h g
  exact ⟨a, g', hrun, hP a ha⟩

/-- What is found may be changed. -/
theorem map {g : α → β} (h : Finds m P) (hQ : ∀ a, P a → Q (g a)) : Finds (g <$> m) Q := by
  rw [map_eq_pure_bind]
  exact h.bind fun a ha => .pure (hQ a ha)

/-- A choice, of which the condition is known on both ways. -/
theorem ite {c : Prop} [Decidable c] {m' : Lower α} (h : c → Finds m P) (h' : ¬ c → Finds m' P) :
    Finds (if c then m else m') P := by
  split
  · next hc => exact h hc
  · next hc => exact h' hc

/-- A scope can be opened for every node. -/
theorem openScope {around : ScopeId} {scopeKind : ScopeKind} {t : Tree} {kind : NodeKind}
    (hkind : t.kind = .node kind) : Finds (Lower.openScope around scopeKind t) fun _ => True := by
  cases t with
  | leaf => cases hkind
  | node k span cs => exact .given rfl (.bind .get fun g _ => fun _ => ⟨_, _, rfl, trivial⟩)

/-- A variable that has a name can be declared. -/
theorem declare (scope : ScopeId) {t : Tree} (h : t.Whole) (hkind : t.kind = .node .varDecl) :
    Finds (Lower.declare scope t) fun _ => True := by
  obtain ⟨_, -, hanswer, hnameKind⟩ := h.varDecl hkind
  obtain ⟨name, hname, rfl⟩ := hanswer.child
  obtain ⟨-, m, hm⟩ := (h.of_mem_children name.property).identifier (.inl hnameKind)
  cases t with
  | leaf => cases hkind
  | node k span cs =>
      exact .given hname
        (.given hm (.given rfl (.bind .get fun g _ => fun _ => ⟨_, _, rfl, trivial⟩)))

/-- Parameters that stand for nothing are left out. -/
theorem params (scope : ScopeId) (list : Option Tree) :
    Finds (Lower.params scope list) fun _ => True := by
  cases list with
  | none => exact .pure trivial
  | some t => exact fun g => ⟨_, _, after_filterMapM _ _ g, trivial⟩

/-- All of a list are found. -/
theorem mapM {R : α → β → Prop} {as : List α} (h : ∀ a ∈ as, Finds (f a) (R a)) :
    Finds (as.mapM f) (List.Forall₂ R as) := by
  induction as with
  | nil => exact .pure .nil
  | cons a as ih =>
    rw [List.mapM_cons]
    refine (h a List.mem_cons_self).bind fun b hb => ?_
    exact (ih fun a' ha' => h a' (List.mem_cons_of_mem _ ha')).bind fun bs hbs =>
      .pure (.cons hb hbs)

/-- What is found of each element of a list is found of all. -/
theorem afterEach {R : α → β → Prop} {as : List α} (h : ∀ a ∈ as, Finds (f a) (R a))
    (g : Gathered) :
    List.Forall₂ R as (Lower.afterEach f as g).1 := by
  induction as generalizing g with
  | nil => exact .nil
  | cons a as ih =>
    obtain ⟨b, g', hrun, hb⟩ := h a List.mem_cons_self g
    rw [Lower.afterEach, hrun]
    exact .cons hb (ih (fun a' ha' => h a' (List.mem_cons_of_mem _ ha')) g')

/-- Where each of them is found, all of them are, one for each and in order. -/
theorem filterMapM {R : α → β → Prop} {as : List α} (h : ∀ a ∈ as, Finds (f a) (R a)) :
    Finds (as.filterMapM fun a => attempt (f a)) (List.Forall₂ R as) :=
  fun g => ⟨_, _, after_filterMapM f as g, afterEach h g⟩

/-- An attempt always finds something: what the step finds or that it finds nothing. -/
theorem attempt (h : Finds m P) : Finds (Lower.attempt m) fun a => ∃ b, a = some b ∧ P b := by
  intro g
  obtain ⟨a, g', hrun, ha⟩ := h g
  exact ⟨some a, g', by rw [after_attempt, hrun], a, rfl, ha⟩

/-- What is found may be wrapped up. -/
theorem mapSome (h : Finds m P) : Finds (some <$> m) fun o => ∃ b, o = some b ∧ P b :=
  h.map fun b hb => ⟨b, rfl, hb⟩

/-- What may be missing is gone on with, found or not. -/
theorem optional {t : Tree} {o : Option t.Child} {c : Option Tree}
    {step : t.Child → Lower (Option α)}
    {next : Option α → Lower β} {R : Tree → α → Prop} (ho : o.map Subtype.val = c)
    (hstep : ∀ a : t.Child, a.val ∈ c → Finds (step a) fun x => ∃ b, x = some b ∧ R a.val b)
    (hnext : ∀ x, Option.Rel R c x → Finds (next x) Q) :
    Finds (match o with
      | none => do next (← Pure.pure none)
      | some a => do next (← step a)) Q := by
  subst ho
  cases o with
  | none => exact bind (pure .none) hnext
  | some a =>
    refine (hstep a rfl).bind fun x hx => ?_
    obtain ⟨b, rfl, hb⟩ := hx
    exact hnext _ (.some hb)

end Finds

/-! ## What is found of a plain tree -/

/-- A variable that is not declared is a name. -/
theorem nameRef_of_variable {t : Tree} (h : t.isNode NodeKind.isVariable = true)
    (hdecl : t.isNode (· == .varDecl) = false) : t.kind = .node .nameRef := by
  cases t with
  | leaf => cases h
  | node k span cs =>
    have hother : (k == .varDecl) = false := hdecl
    cases k <;> first | rfl | exact absurd hother (by decide) | cases h

/-- All that is looked for in a tree is found. -/
structure FindsAll (t : Tree) : Prop where
  expr : t.isNode NodeKind.isExpression = true → ∀ scope, Finds (Lower.expr scope t) (MirrorsExpr t)
  exprs : t.kind = .node .argList → ∀ scope, Finds (Lower.exprs scope t)
    (List.Forall₂ MirrorsExpr t.parts)
  block : t.kind = .node .stmtList → ∀ scope, Finds (Lower.block scope t) (MirrorsBlock t)
  statement : t.isNode NodeKind.isStatement = true → ∀ scope, Finds (Lower.statement scope t)
    (MirrorsStmt t)
  branch : t.isNode NodeKind.isBranch = true → ∀ scope, Finds (Lower.branch scope t)
    (MirrorsBranch t)

section Forms

variable {t : Tree} {scope : ScopeId} (h : Plain t) (ih : ∀ c ∈ t.children, FindsAll c)
include h

/-- A name has a meaning that mirrors it. -/
theorem finds_name (hkind : t.kind = .node .nameRef) :
    Finds (Lower.expr scope t) (MirrorsExpr t) := by
  rw [Lower.expr, hkind]
  exact .nameUse fun symbol ty => .name hkind (h.whole.names (.inr hkind))

/-- A literal has one, unless it is one that is rejected. -/
theorem finds_literal (hkind : t.kind = .node .literal) :
    Finds (Lower.expr scope t) (MirrorsExpr t) := by
  obtain ⟨-, m, hm⟩ := h.whole.literal hkind
  obtain ⟨hliteral, hmem⟩ := mem_children_of_tokenWhere? hm
  rw [Lower.expr, hkind]
  cases hvalue : Literal.ofToken? m with
  | none => exact absurd ⟨m, mem_leaves_of_child hmem (by simp), hliteral, hvalue⟩ h.valued
  | some value =>
    exact .given (by rw [hm, Option.bind_some, hvalue]) (.pure (.literal hkind hmem hvalue))

include ih

/-- A parenthesis means what is inside of it. -/
theorem finds_paren (hkind : t.kind = .node .parenExpr) :
    Finds (Lower.expr scope t) (MirrorsExpr t) := by
  obtain ⟨_, hparts, hanswer, he⟩ := h.whole.holder (.inr (.inr hkind))
  obtain ⟨inner, hinner, rfl⟩ := hanswer.child
  rw [Lower.expr, hkind]
  exact .given hinner (((ih _ inner.property).expr he scope).mono fun e h => .paren hkind hparts h)

/-- A sign with its operand. -/
theorem finds_unary (hkind : t.kind = .node .unaryExpr) :
    Finds (Lower.expr scope t) (MirrorsExpr t) := by
  obtain ⟨m, _, hparts, hm, hanswer, hpower, he⟩ := h.whole.unaryExpr hkind
  obtain ⟨operand, hoperand, rfl⟩ := hanswer.child
  obtain ⟨-, hmem⟩ := mem_children_of_tokenWhere? hm
  obtain ⟨op, hop⟩ : ∃ op, UnaryOp.ofToken? m.kind = some op := by
    revert hpower
    cases m.kind <;> first | exact fun _ => ⟨_, rfl⟩ | exact fun h => by cases h
  rw [Lower.expr, hkind]
  refine .given (by rw [hm, Option.bind_some, hop]) (.given hoperand ?_)
  exact ((ih _ operand.property).expr he scope).bind fun e h =>
    .pure (.unary hkind hmem hop hparts h)

/-- An operator with its two operands. -/
theorem finds_binary (hkind : t.kind = .node .binExpr) :
    Finds (Lower.expr scope t) (MirrorsExpr t) := by
  obtain ⟨m, _, _, hparts, hm, hbefore, hafter, hpower, he, he'⟩ := h.whole.binExpr h.tiled hkind
  obtain ⟨left, hleft, rfl⟩ := hbefore.child
  obtain ⟨right, hright, rfl⟩ := hafter.child
  obtain ⟨-, hmem⟩ := mem_children_of_tokenWhere? hm
  obtain ⟨op, hop⟩ : ∃ op, BinaryOp.ofToken? m.kind = some op := by
    rw [← Option.isSome_iff_exists, BinaryOp.isSome_ofToken?]
    exact hpower
  rw [Lower.expr, hkind]
  refine .given (by rw [hm, Option.bind_some, hop]) (.given hleft ?_)
  refine ((ih _ left.property).expr he scope).bind fun e h => .given hright ?_
  exact ((ih _ right.property).expr he' scope).bind fun e' h' =>
    .pure (.binary hkind hmem hop hparts h h')

/-- An access with its operand and what is accessed. -/
theorem finds_member (hkind : t.kind = .node .memberExpr) :
    Finds (Lower.expr scope t) (MirrorsExpr t) := by
  obtain ⟨m, _, _, hparts, hm, hbefore, hafter, haccess, he, he'⟩ :=
    h.whole.memberExpr h.tiled hkind
  obtain ⟨base, hbase, rfl⟩ := hbefore.child
  obtain ⟨member, hmember, rfl⟩ := hafter.child
  obtain ⟨-, hmem⟩ := mem_children_of_tokenWhere? hm
  obtain ⟨op, hop⟩ : ∃ op, MemberOp.ofToken? m.kind = some op := by
    revert haccess
    cases m.kind <;> first | exact fun _ => ⟨_, rfl⟩ | exact fun h => by cases h
  have hnames := (h.child member.property).whole.names
  rw [Lower.expr, hkind]
  refine .given (by rw [hm, Option.bind_some, hop]) (.given hbase ?_)
  refine ((ih _ base.property).expr he scope).bind fun e h =>
    .given hmember (.ite (fun hfield => ?_) fun hother => ?_)
  · obtain ⟨hindex, hname⟩ := Bool.and_eq_true_iff.1 hfield
    have hnameRef := kind_of_isNode hname
    exact .pure
      (.field hkind hmem hop hparts h (by simpa using hindex) hnameRef (hnames (.inr hnameRef)))
  · refine ((ih _ member.property).expr he' scope).bind fun e' h' =>
      .pure (.member hkind hmem hop hparts h ?_ h')
    -- A member that is no name, or stands in brackets, is an expression of its own.
    by_contra hneither
    obtain ⟨hindex, hname⟩ := not_or.1 hneither
    refine hother (Bool.and_eq_true_iff.2 ⟨by simpa using hindex, ?_⟩)
    rw [isNode, not_not.1 hname]
    rfl

/-- A call with its name and all of its arguments. -/
theorem finds_call (hkind : t.kind = .node .funcExpr) :
    Finds (Lower.expr scope t) (MirrorsExpr t) := by
  obtain ⟨_, _, hparts, hname, hargs, hnameKind, hargsKind⟩ := h.whole.funcExpr hkind
  obtain ⟨callee, hcallee, rfl⟩ := hname.child
  obtain ⟨list, hlist, rfl⟩ := hargs.child
  have hnames := (h.child callee.property).whole.names (.inr hnameKind)
  rw [Lower.expr, hkind]
  refine .given hcallee (.bind (.symbolOrOutside _ _) fun symbol _ => ?_)
  rw [hlist]
  exact ((ih _ list.property).exprs hargsKind scope).bind fun es hes =>
    .pure (.call hkind hparts hnames hes)

/-- A lambda with its parameters and its block. -/
theorem finds_lambda (hkind : t.kind = .node .lambdaExpr) :
    Finds (Lower.expr scope t) (MirrorsExpr t) := by
  obtain ⟨_, params, args, _, hparts, hname, -, -, hbody, hnameKind, hparams, -, hbodyKind,
    hargs⟩ :=
    h.whole.headed (.inr hkind)
  obtain ⟨name, hfound, rfl⟩ := hname.child
  obtain ⟨body, hblock, rfl⟩ := hbody.child
  obtain rfl := hargs hkind
  have hnames := (h.child name.property).whole.names (.inl hnameKind)
  rw [Lower.expr, hkind]
  refine .given hfound
    (.bind (.openScope (by rw [hkind])) fun own _ => .bind (.params _ _) fun symbols _ => ?_)
  refine .given hblock (((ih _ body.property).block hbodyKind own).bind fun block h => .pure ?_)
  exact .lambda hkind (by simpa using hparts) hnames hparams h

/-- Every expression of a plain tree has a meaning that mirrors it. -/
theorem finds_expr (hkind : t.isNode NodeKind.isExpression = true) :
    Finds (Lower.expr scope t) (MirrorsExpr t) := by
  cases t with
  | leaf => cases hkind
  | node k span cs =>
    cases k <;> try cases hkind
    · exact finds_name h rfl
    · exact finds_literal h rfl
    · exact finds_binary h ih rfl
    · exact finds_unary h ih rfl
    · exact finds_paren h ih rfl
    · exact finds_member h ih rfl
    · exact finds_call h ih rfl
    · exact finds_lambda h ih rfl

/-- So have the arguments, one for each. -/
theorem finds_exprs (hkind : t.kind = .node .argList) :
    Finds (Lower.exprs scope t) (List.Forall₂ MirrorsExpr t.parts) := by
  rw [Lower.exprs, ← h.whole.argList hkind]
  refine (Finds.mapM fun c hc => (ih _ c.property).expr (isNode_of_mem_nodesWhere hc) scope).mono
    fun es h => ?_
  exact List.forall₂_map_left_iff.2 h

/-- So has a block, statement by statement. -/
theorem finds_block (hkind : t.kind = .node .stmtList) :
    Finds (Lower.block scope t) (MirrorsBlock t) := by
  rw [Lower.block]
  refine .bind (.openScope hkind) fun own _ => ?_
  refine .bind
    (.filterMapM fun c hc => (ih _ c.property).statement (isNode_of_mem_nodesWhere hc) own)
    fun ss hss => .pure (.mk hkind ?_)
  rwa [← h.whole.stmtList hkind, List.forall₂_map_left_iff]

/-! ### Statements -/

/-- A declaration with its value, if it has one. -/
theorem finds_varDecl (hkind : t.kind = .node .varDeclStmt) :
    Finds (Lower.statement scope t) (MirrorsStmt t) := by
  obtain ⟨_, value, hparts, hanswer, hvalue, hdeclKind, he⟩ := h.whole.varDeclStmt hkind
  obtain ⟨decl, hdecl, rfl⟩ := hanswer.child
  have hdeclare := Finds.declare scope (h.child decl.property).whole hdeclKind
  rw [Lower.statement, hkind]
  refine .optional hvalue (fun c hc => ((ih _ c.property).expr (he _ hc) scope).attempt)
    fun e he => ?_
  exact .given hdecl (hdeclare.bind fun symbol _ => .pure (.varDecl hkind hparts hdeclKind he))

/-- An assignment with its target and its value. -/
theorem finds_assign (hkind : t.kind = .node .setStmt) :
    Finds (Lower.statement scope t) (MirrorsStmt t) := by
  obtain ⟨_, _, hparts, hbefore, hafter, he, he'⟩ := h.whole.setStmt h.tiled hkind
  obtain ⟨target, htarget, rfl⟩ := hbefore.child
  obtain ⟨value, hvalue, rfl⟩ := hafter.child
  rw [Lower.statement, hkind]
  refine .given htarget (((ih _ target.property).expr he scope).bind fun e h => .given hvalue ?_)
  exact ((ih _ value.property).expr he' scope).bind fun e' h' => .pure (.assign hkind hparts h h')

/-- An assignment by an operator. -/
theorem finds_evaluate (hkind : t.kind = .node .letStmt) :
    Finds (Lower.statement scope t) (MirrorsStmt t) := by
  obtain ⟨_, hparts, hanswer, he⟩ := h.whole.holder (.inl hkind)
  obtain ⟨inner, hinner, rfl⟩ := hanswer.child
  rw [Lower.statement, hkind]
  exact .given hinner
    (((ih _ inner.property).expr he scope).bind fun e h => .pure (.evaluate hkind hparts h))

/-- An expression in the place of a statement. -/
theorem finds_expression (hkind : t.kind = .node .exprStmt) :
    Finds (Lower.statement scope t) (MirrorsStmt t) := by
  obtain ⟨_, hparts, hanswer, he⟩ := h.whole.holder (.inr (.inl hkind))
  obtain ⟨inner, hinner, rfl⟩ := hanswer.child
  rw [Lower.statement, hkind]
  exact .given hinner
    (((ih _ inner.property).expr he scope).bind fun e h => .pure (.expression hkind hparts h))

/-- A return with its value, if it has one. -/
theorem finds_leave (hkind : t.kind = .node .returnStmt) :
    Finds (Lower.statement scope t) (MirrorsStmt t) := by
  obtain ⟨value, hparts, hvalue, he⟩ := h.whole.returnStmt hkind
  rw [Lower.statement, hkind]
  exact .optional hvalue (fun c hc => ((ih _ c.property).expr (he _ hc) scope).mapSome) fun e he =>
    .pure (.leave hkind hparts he)

/-- A condition with its block and its branches. -/
theorem finds_if (hkind : t.kind = .node .ifStmt) :
    Finds (Lower.statement scope t) (MirrorsStmt t) := by
  obtain ⟨_, _, rest, hparts, hasked, hheld, hrest, he, hblock, hbranch, -⟩ :=
    h.whole.guarded (.inl hkind)
  obtain ⟨condition, hcondition, rfl⟩ := hasked.child
  obtain ⟨body, hbody, rfl⟩ := hheld.child
  rw [Lower.statement, hkind]
  refine .given hcondition
    (((ih _ condition.property).expr he scope).bind fun e h => .given hbody ?_)
  refine ((ih _ body.property).block hblock scope).bind fun block hb => ?_
  exact .optional hrest (fun c hc => ((ih _ c.property).branch (hbranch _ hc) scope).mapSome)
    fun branch hr =>
    .pure (.branch hkind hparts h hb hr)

/-- A loop with its condition and its block. -/
theorem finds_while (hkind : t.kind = .node .whileStmt) :
    Finds (Lower.statement scope t) (MirrorsStmt t) := by
  obtain ⟨_, _, rest, hparts, hasked, hheld, -, he, hblock, -, hnone⟩ :=
    h.whole.guarded (.inr (.inr hkind))
  obtain ⟨condition, hcondition, rfl⟩ := hasked.child
  obtain ⟨body, hbody, rfl⟩ := hheld.child
  obtain rfl := hnone hkind
  rw [Lower.statement, hkind]
  refine .given hcondition
    (((ih _ condition.property).expr he scope).bind fun e h => .given hbody ?_)
  exact ((ih _ body.property).block hblock scope).bind fun block hb =>
    .pure (.whileLoop hkind hparts h hb)

/-- A loop with its variable, its collection and its block. -/
theorem finds_foreach (hkind : t.kind = .node .foreachStmt) :
    Finds (Lower.statement scope t) (MirrorsStmt t) := by
  obtain ⟨_, _, _, hparts, hbefore, hafter, hheld, hvariable, he, hblock⟩ :=
    h.whole.foreachStmt h.tiled hkind
  obtain ⟨item, hitem, rfl⟩ := hbefore.child
  obtain ⟨collection, hcollection, rfl⟩ := hafter.child
  obtain ⟨body, hbody, rfl⟩ := hheld.child
  have hwhole := (h.child item.property).whole
  rw [Lower.statement, hkind]
  refine .given hcollection (((ih _ collection.property).expr he scope).bind fun e h => ?_)
  refine .bind (.openScope hkind) fun header _ => .given hitem ?_
  -- Whether it is declared here or not, the loop goes on with its variable.
  have hrest (loopVariable : LoopVariable) (hl : MirrorsItem item.val loopVariable) :=
    Finds.given (f := fun c => do
      return Stmt.mk (.foreachLoop header loopVariable e (← Lower.block header c.val)) t.span)
      hbody (((ih _ body.property).block hblock header).bind fun block hb =>
        .pure (MirrorsStmt.foreachLoop hkind hparts hl h hb))
  refine .ite (fun hdecl => ?_) fun hname => ?_
  · have hvarDecl := kind_of_isNode hdecl
    exact ((Finds.declare _ hwhole hvarDecl).map fun symbol _ => MirrorsItem.declared hvarDecl).bind
      hrest
  · have hnameRef : item.val.kind = .node .nameRef :=
      nameRef_of_variable hvariable (Bool.not_eq_true _ ▸ hname)
    refine .bind (.map (P := MirrorsExpr item.val) ?_ fun e he => .existing he) hrest
    exact .nameUse fun symbol ty => .name hnameRef (hwhole.names (.inr hnameRef))

/-- A block of a script with its parameters or its arguments. -/
theorem finds_begin (hkind : t.kind = .node .beginStmt) :
    Finds (Lower.statement scope t) (MirrorsStmt t) := by
  obtain ⟨_, params, list, _, hparts, hname, -, hlist, hheld, hnameKind, hparams, hlistKind,
    hblock, -⟩ :=
    h.whole.headed (.inl hkind)
  obtain ⟨name, hfound, rfl⟩ := hname.child
  obtain ⟨body, hbody, rfl⟩ := hheld.child
  have hnames := (h.child name.property).whole.names (.inl hnameKind)
  rw [Lower.statement, hkind]
  refine .given hfound (.bind (.params _ _) fun symbols _ => ?_)
  have hrest (args : List Expr)
    (hargs : List.Forall₂ MirrorsExpr ((list.map Tree.parts).getD []) args) :=
    Finds.given (f := fun c => do
        return Stmt.mk
          (.beginBlock (View.Identifier.text name.val) symbols args (← Lower.block scope c.val))
            t.span)
      hbody (((ih _ body.property).block hblock scope).bind fun block hb =>
        .pure (MirrorsStmt.beginBlock hkind hparts hnames hparams hlistKind hargs hb))
  -- The head has parameters or arguments, and without arguments the list is empty.
  cases hargs : View.BeginStmt.args? t with
  | none =>
    rw [hargs] at hlist
    obtain rfl := hlist
    exact .bind (.pure .nil) hrest
  | some c =>
    rw [hargs] at hlist
    obtain rfl := hlist
    exact ((ih _ c.property).exprs (hlistKind _ rfl) scope).bind hrest

/-- Every statement of a plain tree has a meaning that mirrors it. -/
theorem finds_statement (hkind : t.isNode NodeKind.isStatement = true) :
    Finds (Lower.statement scope t) (MirrorsStmt t) := by
  cases t with
  | leaf => cases hkind
  | node k span cs =>
    -- One case for each kind of statement. All other kinds are excluded.
    cases k <;> try cases hkind
    · exact finds_varDecl h ih rfl
    · exact finds_assign h ih rfl
    · exact finds_evaluate h ih rfl
    · exact finds_if h ih rfl
    · exact finds_while h ih rfl
    · exact finds_foreach h ih rfl
    · exact finds_begin h ih rfl
    · exact finds_leave h ih rfl
    · rw [Lower.statement]
      exact .pure (.breakLoop rfl)
    · rw [Lower.statement]
      exact .pure (.continueLoop rfl)
    · exact finds_expression h ih rfl

/-! ### Later branches -/

/-- A later branch with its condition. -/
theorem finds_elseIf (hkind : t.kind = .node .elseIfBranch) :
    Finds (Lower.branch scope t) (MirrorsBranch t) := by
  obtain ⟨_, _, rest, hparts, hasked, hheld, hrest, he, hblock, hbranch, -⟩ :=
    h.whole.guarded (.inr (.inl hkind))
  obtain ⟨condition, hcondition, rfl⟩ := hasked.child
  obtain ⟨body, hbody, rfl⟩ := hheld.child
  rw [Lower.branch, hkind]
  refine .given hcondition
    (((ih _ condition.property).expr he scope).bind fun e h => .given hbody ?_)
  refine ((ih _ body.property).block hblock scope).bind fun block hb => ?_
  exact .optional hrest (fun c hc => ((ih _ c.property).branch (hbranch _ hc) scope).mapSome)
    fun branch hr =>
    .pure (.elseIf hkind hparts h hb hr)

/-- The last branch. -/
theorem finds_otherwise (hkind : t.kind = .node .elseBranch) :
    Finds (Lower.branch scope t) (MirrorsBranch t) := by
  obtain ⟨_, hparts, hheld, hblock⟩ := h.whole.elseBranch hkind
  obtain ⟨body, hbody, rfl⟩ := hheld.child
  rw [Lower.branch, hkind]
  exact .given hbody
    (((ih _ body.property).block hblock scope).bind fun block hb =>
      .pure (.otherwise hkind hparts hb))

/-- Every branch of a plain tree has a meaning that mirrors it. -/
theorem finds_branch (hkind : t.isNode NodeKind.isBranch = true) :
    Finds (Lower.branch scope t) (MirrorsBranch t) := by
  cases t with
  | leaf => cases hkind
  | node k span cs =>
    cases k <;> try cases hkind
    · exact finds_elseIf h ih rfl
    · exact finds_otherwise h ih rfl

end Forms

/-- **All that is looked for in a plain tree is found**, and mirrors it. -/
theorem findsAll (t : Tree) (h : Plain t) : FindsAll t := by
  have ih : ∀ c ∈ t.children, FindsAll c := fun c hc => findsAll c (h.child hc)
  exact ⟨fun hkind _ => finds_expr h ih hkind, fun hkind _ => finds_exprs h ih hkind,
    fun hkind _ => finds_block h ih hkind, fun hkind _ => finds_statement h ih hkind,
    fun hkind _ => finds_branch h ih hkind⟩
termination_by sizeOf t
decreasing_by exact sizeOf_lt_of_mem_children hc

/-! ## Statements that are incomplete -/

/-- Whatever the step finds has a property. -/
def FindsOnly {α : Type} (m : Lower α) (P : α → Prop) : Prop :=
    ∀ g a g', m.after g = (some a, g') → P a

namespace FindsOnly

variable {α β : Type} {m : Lower α} {f : α → Lower β} {P : α → Prop} {Q : β → Prop}

/-- An answer, if it is found, is the answer. -/
theorem pure {a : α} (h : P a) : FindsOnly (Pure.pure a) P := by
  rintro g _ _ ⟨⟩
  exact h

/-- Only the last step decides what may be found. -/
theorem bind (hf : ∀ a, FindsOnly (f a) Q) : FindsOnly (m >>= f) Q := by
  intro g b g' hrun
  rw [after_bind] at hrun
  rcases hm : m.after g with ⟨_ | a, g''⟩
  · rw [hm] at hrun
    cases hrun
  · rw [hm] at hrun
    exact hf a g'' b g' hrun

/-- Where nothing is found nothing has to be shown. -/
theorem failure : FindsOnly (failure : Lower α) P := by
  rintro g _ _ ⟨⟩

end FindsOnly

/-- What is found of a statement has its place. -/
theorem span_statement (scope : ScopeId) (t : Tree) :
    FindsOnly (Lower.statement scope t) fun s => s.span = t.span := by
  -- Each form of a statement ends with its node, and takes its place from there.
  rw [Lower.statement]
  split
  · dsimp only
    split <;> exact .bind fun value => .bind fun decl => .bind fun symbol => .pure rfl
  · exact .bind fun target => .bind fun e => .bind fun value => .bind fun e' => .pure rfl
  · exact .bind fun inner => .bind fun e => .pure rfl
  · refine .bind fun condition => .bind fun e => .bind fun body => .bind fun block => ?_
    dsimp only
    split <;> exact .bind fun rest => .pure rfl
  · exact .bind fun condition => .bind fun e => .bind fun body => .bind fun block => .pure rfl
  · refine .bind fun collection => .bind fun e => .bind fun header => .bind fun item => ?_
    dsimp only
    split <;> exact .bind fun loopVariable => .bind fun body => .bind fun block => .pure rfl
  · refine .bind fun name => .bind fun symbols => ?_
    dsimp only
    split <;> exact .bind fun args => .bind fun body => .bind fun block => .pure rfl
  · dsimp only
    split <;> exact .bind fun value => .pure rfl
  · exact .pure rfl
  · exact .pure rfl
  · exact .bind fun inner => .bind fun e => .pure rfl
  · exact .failure

/-- **What is found of a list of statements.** -/
theorem kept_afterEach {t : Tree} (cs : List t.Child) (hcs : ∀ c ∈ cs, c.val.Whole ∧ c.val.Tiled
    ∧ c.val.isNode NodeKind.isStatement = true) (scope : ScopeId) (g : Gathered) :
    KeepsStatements (cs.map Subtype.val)
      (afterEach (fun c : t.Child => Lower.statement scope c.val) cs g).1 := by
  induction cs generalizing g with
  | nil => exact .nil
  | cons c cs ih =>
    obtain ⟨⟨hwhole, htiled, hkind⟩, hcs⟩ := List.forall_mem_cons.1 hcs
    rw [afterEach]
    -- Only a statement with a rejected literal may be missing or incomplete.
    by_cases hrejected : c.val.HasRejected
    · rcases hrun : (Lower.statement scope c.val).after g with ⟨_ | s, g'⟩
      · exact .missing hrejected (ih hcs g')
      · exact .incomplete hrejected (span_statement scope c.val g s g' hrun) (ih hcs g')
    · obtain ⟨s, g', hrun, hs⟩ :=
        (findsAll c.val ⟨hwhole, htiled, hrejected⟩).statement hkind scope g
      rw [hrun]
      exact .mirrored hs (ih hcs g')

end Lower

/-! ## Scripts -/

/-- **The meaning keeps the script**: it has its name, and of its statements all that have no
literal without a value. -/
def KeepsScript (root : Tree) (script : Script) : Prop :=
  ∃ decl statements name, root.parts = decl :: statements ∧ decl.kind = .node .scriptNameDecl
    ∧ decl.parts = [name] ∧ name.Names script.name ∧ KeepsStatements statements script.body

open Lower ScriptSense.Tree in
/-- A whole script has a meaning that keeps it. -/
theorem exists_keepsScript {root : Tree} (hkind : root.kind = .node .script)
    (hwhole : WholeScript root) (htiled : root.Tiled) :
    ∃ script, Script.ofTree? root = some script ∧ KeepsScript root script := by
  obtain ⟨_, _, hparts, hasked, rfl, hdeclKind, hstatement⟩ := hwhole.parts
  obtain ⟨decl, hdecl, rfl⟩ := hasked.child
  have hdeclWhole := hwhole.whole decl.val decl.property
  obtain ⟨_, hdeclParts, hasked, hnameKind⟩ := hdeclWhole.scriptNameDecl hdeclKind
  obtain ⟨name, hname, rfl⟩ := hasked.child
  obtain ⟨-, m, hm⟩ := (hdeclWhole.of_mem_children name.property).identifier (.inl hnameKind)
  -- The script has a name, so lowering answers.
  have hdeclared : Script.declaredName? root = some m := by
    rw [Script.declaredName?, hdecl, Option.bind_eq_bind, Option.bind_some, hname,
      Option.bind_eq_bind,
      Option.bind_some, hm]
  have hkept (g : Gathered) := kept_afterEach (View.Script.statements root) (fun c hc =>
    ⟨hwhole.whole c.val c.property, htiled.of_mem_children c.property, isNode_of_mem_nodesWhere hc⟩)
      .root g
  cases root with
  | leaf => cases hkind
  | node k span cs =>
    cases hkind
    refine ⟨_, by rw [Script.ofTree?_node, hdeclared]; rfl, decl.val, _, name.val, hparts,
      hdeclKind, hdeclParts,
      (names_of_token hm).1, hkept _⟩

/-- **A script that is read without an error loses nothing on the way to its meaning.**
Whatever names are known to be functions, it means something, and its meaning has every
statement that has no literal without a value, in order and complete. -/
theorem lowering_complete {isFunction : String → Bool} {text : String}
    (h : ∀ c ∈ (parseWith isFunction text).complaints, c.severity ≠ .error) :
    ∃ script, Script.ofTree? (parseWith isFunction text).root = some script
      ∧ KeepsScript (parseWith isFunction text).root script :=
  exists_keepsScript rfl (wholeScript_parseWith h) (tiled_parseWith isFunction text)

/-- The literal of the first statement has no value. -/
def hugeLiteral : String := "scn A\nset x to 0x8000000000000000\nlet f y\n"

/-- A literal that is too large is the one statement that is missing. -/
theorem lowering_complete_at_huge_literal :
    (∀ c ∈ (parseWith noFunctions hugeLiteral).complaints, c.severity ≠ .error)
      ∧ ∃ script, Script.ofTree? (parseWith noFunctions hugeLiteral).root = some script
        ∧ KeepsScript (parseWith noFunctions hugeLiteral).root script := by
  have hclean : (parseWith noFunctions hugeLiteral).hasErrors = false := by
    decide +kernel
  have hnone : ∀ c ∈ (parseWith noFunctions hugeLiteral).complaints, c.severity ≠ .error := by
    intro c hc herror
    exact List.any_eq_false.1 hclean c hc (by rw [herror]; rfl)
  exact ⟨hnone, lowering_complete hnone⟩

end ScriptSense
