/-
Where names are used and what they should stand for.

The rule by which a name is bound is stated here without the walk that binds it. It
speaks of the meaning of a script: of its expressions with the scopes they are met in
(`Script.uses`), and of its symbols with the scopes that hold them. Which scope holds a
symbol is read off the syntax tree (`Tree.declarations`), because the scopes themselves
know of each name only the last symbol it stood for.

A symbol is in sight of a use if its declaration stands in front of it, other than with
the use in the value that the declaration gives. Of the symbols in sight that one is
meant which is in the innermost scope, and the last one there.
-/
import ScriptSense.Script.Basic

set_option autoImplicit false

namespace ScriptSense

/-! ## Uses -/

/-- An expression with what decides on the names in it. -/
structure Use where
  /-- The scope in which the expression is met. -/
  scope : ScopeId
  /-- The symbols whose values the expression belongs to. -/
  pending : List SymbolId
  /-- The expression. -/
  expr : Expr

mutual

/-- An expression and those in it, as uses: the outer ones first. -/
def Expr.uses (scope : ScopeId) (pending : List SymbolId) : Expr → List Use
  | .mk form ty span => ⟨scope, pending, .mk form ty span⟩ :: form.uses scope pending

/-- The uses in an expression. -/
def ExprForm.uses (scope : ScopeId) (pending : List SymbolId) : ExprForm → List Use
  | .name _ _ | .literal _ | .field _ => []
  | .unary _ operand => operand.uses scope pending
  | .binary _ left right => left.uses scope pending ++ right.uses scope pending
  | .member _ base member => base.uses scope pending ++ member.uses scope pending
  | .call _ _ args => Expr.usesOf scope pending args
  | .lambda _ _ _ body => body.uses pending

/-- The uses of a list of expressions. -/
def Expr.usesOf (scope : ScopeId) (pending : List SymbolId) : List Expr → List Use
  | [] => []
  | e :: es => e.uses scope pending ++ Expr.usesOf scope pending es

/-- The uses of an optional expression. -/
def Expr.usesIn (scope : ScopeId) (pending : List SymbolId) : Option Expr → List Use
  | none => []
  | some e => e.uses scope pending

/-- The uses of a block, which has a scope of its own. -/
def Block.uses (pending : List SymbolId) : Block → List Use
  | .mk scope statements => Stmt.usesOf scope pending statements

/-- The uses of a list of statements. -/
def Stmt.usesOf (scope : ScopeId) (pending : List SymbolId) : List Stmt → List Use
  | [] => []
  | s :: ss => s.uses scope pending ++ Stmt.usesOf scope pending ss

/-- The uses of a statement. -/
def Stmt.uses (scope : ScopeId) (pending : List SymbolId) : Stmt → List Use
  | .mk form _ => form.uses scope pending

/-- The uses of what a statement does. A declaration is pending in its value, and the
variable of a loop is met in the scope of the header. -/
def StmtForm.uses (scope : ScopeId) (pending : List SymbolId) : StmtForm → List Use
  | .varDecl symbol value => Expr.usesIn scope (symbol :: pending) value
  | .assign target value => target.uses scope pending ++ value.uses scope pending
  | .evaluate expression => expression.uses scope pending
  | .branch condition body rest =>
    condition.uses scope pending ++ body.uses pending ++ Branch.usesIn scope pending rest
  | .whileLoop condition body => condition.uses scope pending ++ body.uses pending
  | .foreachLoop header item collection body =>
    item.uses header pending ++ collection.uses scope pending ++ body.uses pending
  | .beginBlock _ _ args body => Expr.usesOf scope pending args ++ body.uses pending
  | .leave value => Expr.usesIn scope pending value
  | .breakLoop | .continueLoop => []
  | .expression expression => expression.uses scope pending

/-- The uses of a loop variable that was there before. -/
def LoopVariable.uses (scope : ScopeId) (pending : List SymbolId) : LoopVariable → List Use
  | .declared _ => []
  | .existing item => item.uses scope pending

/-- The uses of a branch and the ones after it. -/
def Branch.uses (scope : ScopeId) (pending : List SymbolId) : Branch → List Use
  | .elseIf condition body rest _ =>
    condition.uses scope pending ++ body.uses pending ++ Branch.usesIn scope pending rest
  | .otherwise body _ => body.uses pending

/-- The uses of an optional branch. -/
def Branch.usesIn (scope : ScopeId) (pending : List SymbolId) : Option Branch → List Use
  | none => []
  | some b => b.uses scope pending

end

/-- The uses of a script: all its expressions, each with the scope it is met in. -/
def Script.uses (s : Script) : List Use := Stmt.usesOf .root [] s.body

mutual

/-- The uses are the expressions. -/
theorem Expr.map_expr_uses (scope : ScopeId) (pending : List SymbolId) :
    (e : Expr) → (e.uses scope pending).map Use.expr = e.all
  | .mk form ty span => by
    rw [Expr.uses, Expr.all, List.map_cons, ExprForm.map_expr_uses]

theorem ExprForm.map_expr_uses (scope : ScopeId) (pending : List SymbolId) :
    (f : ExprForm) → (f.uses scope pending).map Use.expr = f.parts
  | .name _ _ | .literal _ | .field _ => by simp [ExprForm.uses, ExprForm.parts]
  | .unary _ operand => by
    rw [ExprForm.uses, ExprForm.parts, Expr.map_expr_uses]
  | .binary _ left right => by
    rw [ExprForm.uses, ExprForm.parts, List.map_append, Expr.map_expr_uses, Expr.map_expr_uses]
  | .member _ base member => by
    rw [ExprForm.uses, ExprForm.parts, List.map_append, Expr.map_expr_uses, Expr.map_expr_uses]
  | .call _ _ args => by
    rw [ExprForm.uses, ExprForm.parts, Expr.map_expr_usesOf]
  | .lambda _ _ _ body => by
    rw [ExprForm.uses, ExprForm.parts, Block.map_expr_uses]

theorem Expr.map_expr_usesOf (scope : ScopeId) (pending : List SymbolId) :
    (es : List Expr) → (Expr.usesOf scope pending es).map Use.expr = Expr.allOf es
  | [] => by simp [Expr.usesOf, Expr.allOf]
  | e :: es => by
    rw [Expr.usesOf, Expr.allOf, List.map_append, Expr.map_expr_uses, Expr.map_expr_usesOf]

theorem Expr.map_expr_usesIn (scope : ScopeId) (pending : List SymbolId) :
    (e : Option Expr) → (Expr.usesIn scope pending e).map Use.expr = Expr.allIn e
  | none => by simp [Expr.usesIn, Expr.allIn]
  | some e => by rw [Expr.usesIn, Expr.allIn, Expr.map_expr_uses]

theorem Block.map_expr_uses (pending : List SymbolId) :
    (b : Block) → (b.uses pending).map Use.expr = b.exprs
  | .mk scope statements => by rw [Block.uses, Block.exprs, Stmt.map_expr_usesOf]

theorem Stmt.map_expr_usesOf (scope : ScopeId) (pending : List SymbolId) :
    (ss : List Stmt) → (Stmt.usesOf scope pending ss).map Use.expr = Stmt.exprsOf ss
  | [] => by simp [Stmt.usesOf, Stmt.exprsOf]
  | s :: ss => by
    rw [Stmt.usesOf, Stmt.exprsOf, List.map_append, Stmt.map_expr_uses, Stmt.map_expr_usesOf]

theorem Stmt.map_expr_uses (scope : ScopeId) (pending : List SymbolId) :
    (s : Stmt) → (s.uses scope pending).map Use.expr = s.exprs
  | .mk form _ => by rw [Stmt.uses, Stmt.exprs, StmtForm.map_expr_uses]

theorem StmtForm.map_expr_uses (scope : ScopeId) (pending : List SymbolId) :
    (f : StmtForm) → (f.uses scope pending).map Use.expr = f.exprs
  | .varDecl symbol value => by rw [StmtForm.uses, StmtForm.exprs, Expr.map_expr_usesIn]
  | .assign target value => by
    rw [StmtForm.uses, StmtForm.exprs, List.map_append, Expr.map_expr_uses, Expr.map_expr_uses]
  | .evaluate expression => by rw [StmtForm.uses, StmtForm.exprs, Expr.map_expr_uses]
  | .branch condition body rest => by
    rw [StmtForm.uses, StmtForm.exprs, List.map_append, List.map_append, Expr.map_expr_uses,
      Block.map_expr_uses, Branch.map_expr_usesIn]
  | .whileLoop condition body => by
    rw [StmtForm.uses, StmtForm.exprs, List.map_append, Expr.map_expr_uses, Block.map_expr_uses]
  | .foreachLoop header item collection body => by
    rw [StmtForm.uses, StmtForm.exprs, List.map_append, List.map_append,
      LoopVariable.map_expr_uses, Expr.map_expr_uses, Block.map_expr_uses]
  | .beginBlock _ _ args body => by
    rw [StmtForm.uses, StmtForm.exprs, List.map_append, Expr.map_expr_usesOf, Block.map_expr_uses]
  | .leave value => by rw [StmtForm.uses, StmtForm.exprs, Expr.map_expr_usesIn]
  | .breakLoop | .continueLoop => by simp [StmtForm.uses, StmtForm.exprs]
  | .expression expression => by rw [StmtForm.uses, StmtForm.exprs, Expr.map_expr_uses]

theorem LoopVariable.map_expr_uses (scope : ScopeId) (pending : List SymbolId) :
    (v : LoopVariable) → (v.uses scope pending).map Use.expr = v.exprs
  | .declared _ => by simp [LoopVariable.uses, LoopVariable.exprs]
  | .existing item => by rw [LoopVariable.uses, LoopVariable.exprs, Expr.map_expr_uses]

theorem Branch.map_expr_uses (scope : ScopeId) (pending : List SymbolId) :
    (b : Branch) → (b.uses scope pending).map Use.expr = b.exprs
  | .elseIf condition body rest _ => by
    rw [Branch.uses, Branch.exprs, List.map_append, List.map_append, Expr.map_expr_uses,
      Block.map_expr_uses, Branch.map_expr_usesIn]
  | .otherwise body _ => by rw [Branch.uses, Branch.exprs, Block.map_expr_uses]

theorem Branch.map_expr_usesIn (scope : ScopeId) (pending : List SymbolId) :
    (b : Option Branch) → (Branch.usesIn scope pending b).map Use.expr = Branch.exprsIn b
  | none => by simp [Branch.usesIn, Branch.exprsIn]
  | some b => by rw [Branch.usesIn, Branch.exprsIn, Branch.map_expr_uses]

end

/-- The uses of a script are all its expressions. -/
theorem Script.map_expr_uses (s : Script) : s.uses.map Use.expr = s.exprs :=
  Stmt.map_expr_usesOf _ _ _

/-- The name of a name or of a call, with the symbol it stands for. -/
def Expr.usedName? : Expr → Option (String × Option SymbolId)
  | .mk (.name name symbol) _ _ | .mk (.call name symbol _) _ _ => some (name, symbol)
  | _ => none

/-- The expression is a name. -/
def Expr.isName : Expr → Bool
  | .mk (.name _ _) _ _ => true
  | _ => false

/-! ## Declarations -/

namespace Tree

mutual

/-- The declarations of a tree, each with the nearest node around it that opens a scope. -/
def declarations (around : Option NodeKey) : Tree → List (NodeKey × Option NodeKey)
  | .leaf _ => []
  | .node kind span cs =>
    if kind = .varDecl then [(⟨kind, span⟩, around)]
    else declarationsOfAll (if kind.opensScope then some ⟨kind, span⟩ else around) cs

/-- The declarations of a list of trees. -/
def declarationsOfAll (around : Option NodeKey) : List Tree → List (NodeKey × Option NodeKey)
  | [] => []
  | t :: ts => t.declarations around ++ declarationsOfAll around ts

end

end Tree

/-- **The scope holds the symbol**: its node is the nearest around the declaration that
opens a scope. -/
def Holds (root : Tree) (scopes : ScopeTree) (id : ScopeId) (x : SymbolId) : Prop :=
  ∃ scope symbol, scopes.scope? id = some scope ∧ scopes.symbol? x = some symbol
    ∧ (symbol.decl, some scope.node) ∈ root.declarations none

/-! ## The rule -/

section

variable (holds : ScopeId → SymbolId → Prop) (scopes : ScopeTree) (u : Use) (name : String)

/-- **A symbol in sight of a use**: of the name, declared in front of the use, which
does not belong to its value. -/
structure InSight (id : ScopeId) (x : SymbolId) : Prop where
  held : holds id x
  declared : ∃ symbol, scopes.symbol? x = some symbol ∧ foldCase symbol.name = foldCase name
    ∧ symbol.decl.span.stop ≤ u.expr.span.start
  settled : x ∉ u.pending

/-- **The symbol that is meant**: no scope further in has one in sight, and of those in
its own scope it is declared last. -/
def IsMeant (x : SymbolId) : Prop :=
  ∃ inner id outer, scopes.ancestors u.scope = inner ++ id :: outer
    ∧ InSight holds scopes u name id x
    ∧ (∀ id' ∈ inner, ∀ y, ¬ InSight holds scopes u name id' y)
    ∧ ∀ y, InSight holds scopes u name id y → y ≠ x → ∃ symbol symbol',
      scopes.symbol? y = some symbol ∧ scopes.symbol? x = some symbol'
        ∧ symbol.decl.span.stop ≤ symbol'.decl.span.start

/-- No scope around the use has a symbol in sight. -/
def IsOutside : Prop := ∀ id ∈ scopes.ancestors u.scope, ∀ x, ¬ InSight holds scopes u name id x

end

/-- **The name of a use is bound lexically**: to the symbol that is meant, with its
type, or if there is none, to nothing, and then it is once among the names from
outside. -/
def Lexical (holds : ScopeId → SymbolId → Prop) (scopes : ScopeTree) (external : List String)
    (u : Use) : Prop :=
  ∀ name symbol, u.expr.usedName? = some (name, symbol) →
    (∃ x s, IsMeant holds scopes u name x ∧ symbol = some x ∧ scopes.symbol? x = some s
        ∧ (u.expr.isName = true → u.expr.ty = s.ty))
      ∨ (IsOutside holds scopes u name ∧ symbol = none
        ∧ (u.expr.isName = true → u.expr.ty = .ambiguous)
        ∧ external.countP (fun other => foldCase other == foldCase name) = 1)

end ScriptSense
