/-
From the tree of a script to what it means.

The tree is gone through once, from left to right. Scopes are opened where the
text opens them: for the script, for every block, for the header of a `foreach`
and for the parameters of a lambda. A name is looked up at the moment it is met,
so a use in front of a declaration does not see it, and a name that is found
nowhere is noted as one from outside.

What the text leaves incomplete has no meaning. A statement with such a part is
left out as a whole, and the statements around it stay; the complaints of the
reader say what was wrong. Scopes opened and names noted on the way to the
incomplete part remain.

Every recursive call is on a child of the tree, which is what ends the
recursion: the views answer children with the proof that they are.
-/
import ScriptSense.Script.Basic
import ScriptSense.Syntax.View

set_option autoImplicit false

namespace ScriptSense

/-- What has been collected of a script. -/
structure Gathered where
  /-- The scopes and symbols so far. -/
  scopes : ScopeTree
  /-- The names from outside so far, each as it was first written. -/
  external : NameMap String

/-- A step of going through a script, which may find nothing to be meant. -/
abbrev Lower := OptionT (StateM Gathered)

namespace Lower

variable {α : Type}

/-- What is there, if it is. -/
def given (a : Option α) : Lower α := OptionT.mk (pure a)

/-- Goes on where the step finds nothing. -/
def attempt (step : Lower α) : Lower (Option α) := OptionT.lift step.run

/-! ## Names -/

/-- Opens a scope for a node. -/
def openScope (around : ScopeId) (kind : ScopeKind) (t : Tree) : Lower ScopeId := do
  let node ← given t.key?
  let s ← get
  let (id, scopes) := s.scopes.openScope around kind node
  set { s with scopes }
  return id

/-- Declares the variable of a declaration. -/
def declare (scope : ScopeId) (t : Tree) : Lower SymbolId := do
  let name ← given (View.VarDecl.name? t)
  let ident ← given (View.Identifier.token? name.val)
  let node ← given t.key?
  -- The declaration may lack the word for its type; the name is enough.
  let ty := ((View.VarDecl.typeToken? t).bind fun word => Ty.ofToken? word.kind).getD .unknown
  let s ← get
  let (id, scopes) := s.scopes.declare scope ⟨ident.text, .variable, ty, node, ident.span⟩
  set { s with scopes }
  return id

/-- The symbol of the script that a name stands for. -/
def symbolOf? (scope : ScopeId) (name : String) : Lower (Option SymbolId) :=
  return ((← get).scopes.resolve? scope name).map Prod.snd

/-- The symbol of the script that a name stands for; a name without one is from
outside. -/
def symbolOrOutside (scope : ScopeId) (name : String) : Lower (Option SymbolId) := do
  let symbol ← symbolOf? scope name
  if symbol.isNone then
    modify fun s => { s with external := s.external.insertNew name name }
  return symbol

/-- A name where it is used. -/
def nameUse (scope : ScopeId) (t : Tree) : Lower Expr := do
  let name := View.Identifier.text t
  match ← symbolOrOutside scope name with
  | none => return .mk (.name name none) .ambiguous t.span
  | some id =>
    let ty := (((← get).scopes.symbol? id).map Symbol.ty).getD .unknown
    return .mk (.name name (some id)) ty t.span

/-- The symbol of a parameter: declared here, or a variable that can be seen. -/
def param (scope : ScopeId) (t : Tree) : Lower SymbolId := do
  if t.isNode (· == .varDecl) then declare scope t
  else given (← symbolOf? scope (View.Identifier.text t))

/-- The symbols of the parameters in braces, without those that have none. -/
def params (scope : ScopeId) (list : Option Tree) : Lower (List SymbolId) :=
  match list with
  | none => return []
  | some t => (View.ParamList.params t).filterMapM fun c => attempt (param scope c.val)

/-! ## The walk -/

mutual

/-- An expression. Parentheses leave no trace but their content. -/
def expr (scope : ScopeId) (t : Tree) : Lower Expr := do
  match t.kind with
  | .node .nameRef => nameUse scope t
  | .node .literal => do
    let value ← given ((View.Literal.token? t).bind Literal.ofToken?)
    return .mk (.literal value) value.ty t.span
  | .node .parenExpr => do
    let inner ← given (View.Holder.expression? t)
    expr scope inner.val
  | .node .unaryExpr => do
    let op ← given ((View.Operation.operator? t).bind fun k => UnaryOp.ofToken? k.kind)
    let operand ← given (View.UnaryExpr.operand? t)
    return .mk (.unary op (← expr scope operand.val)) .unknown t.span
  | .node .binExpr => do
    let op ← given ((View.Operation.operator? t).bind fun k => BinaryOp.ofToken? k.kind)
    let left ← expr scope (← given (View.BinExpr.left? t)).val
    let right ← expr scope (← given (View.BinExpr.right? t)).val
    return .mk (.binary op left right) .unknown t.span
  | .node .memberExpr => do
    let op ← given ((View.MemberExpr.operator? t).bind fun k => MemberOp.ofToken? k.kind)
    let base ← expr scope (← given (View.MemberExpr.base? t)).val
    let member ← given (View.MemberExpr.member? t)
    let lowered ←
      -- The name of a member is not looked up; an index is an expression.
      if op != .index && member.val.isNode (· == .nameRef) then
        pure (.mk (.field (View.Identifier.text member.val)) .unknown member.val.span)
      else expr scope member.val
    return .mk (.member op base lowered) .unknown t.span
  | .node .funcExpr => do
    let name := View.Identifier.text (← given (View.FuncExpr.callee? t)).val
    let symbol ← symbolOrOutside scope name
    let args ← match View.FuncExpr.args? t with
      | none => pure []
      | some list => exprs scope list.val
    return .mk (.call name symbol args) .unknown t.span
  | .node .lambdaExpr => do
    let blockType := View.Identifier.text (← given (View.BlockHeader.blockType? t)).val
    -- Parameters are in a scope around that of the body.
    let own ← openScope scope .lambdaParams t
    let symbols ← params own ((View.BlockHeader.params? t).map Subtype.val)
    let body ← block own (← given (View.Guarded.body? t)).val
    return .mk (.lambda blockType own symbols body) .unknown t.span
  | _ => failure
termination_by sizeOf t
decreasing_by all_goals exact Tree.Child.sizeOf_lt _

/-- The arguments of a list; all of them or nothing. -/
def exprs (scope : ScopeId) (t : Tree) : Lower (List Expr) :=
  (View.ArgList.args t).mapM fun c => expr scope c.val
termination_by sizeOf t
decreasing_by all_goals exact Tree.Child.sizeOf_lt _

/-- A block, in a scope of its own. -/
def block (scope : ScopeId) (t : Tree) : Lower Block := do
  let own ← openScope scope .block t
  let statements ← (View.StmtList.statements t).filterMapM fun c =>
    attempt (statement own c.val)
  return .mk own statements
termination_by sizeOf t
decreasing_by all_goals exact Tree.Child.sizeOf_lt _

/-- A statement. -/
def statement (scope : ScopeId) (t : Tree) : Lower Stmt := do
  match t.kind with
  | .node .varDeclStmt => do
    let value ← match View.VarDeclStmt.value? t with
      | none => pure none
      -- A value that means nothing leaves the declaration as it is.
      | some c => attempt (expr scope c.val)
    -- Declared after its value, which does not see it.
    let symbol ← declare scope (← given (View.VarDeclStmt.decl? t)).val
    return .mk (.varDecl symbol value) t.span
  | .node .setStmt => do
    let target ← expr scope (← given (View.SetStmt.target? t)).val
    let value ← expr scope (← given (View.SetStmt.value? t)).val
    return .mk (.assign target value) t.span
  | .node .letStmt => do
    let e ← expr scope (← given (View.Holder.expression? t)).val
    return .mk (.evaluate e) t.span
  | .node .ifStmt => do
    let condition ← expr scope (← given (View.Guarded.condition? t)).val
    let body ← block scope (← given (View.Guarded.body? t)).val
    let rest ← match View.Guarded.branch? t with
      | none => pure none
      | some c => some <$> branch scope c.val
    return .mk (.branch condition body rest) t.span
  | .node .whileStmt => do
    let condition ← expr scope (← given (View.Guarded.condition? t)).val
    let body ← block scope (← given (View.Guarded.body? t)).val
    return .mk (.whileLoop condition body) t.span
  | .node .foreachStmt => do
    -- The collection comes first, so it does not see the loop variable.
    let collection ← expr scope (← given (View.ForeachStmt.collection? t)).val
    let header ← openScope scope .foreachHeader t
    let item ← given (View.ForeachStmt.item? t)
    let loopVariable ←
      if item.val.isNode (· == .varDecl) then .declared <$> declare header item.val
      else .existing <$> nameUse header item.val
    let body ← block header (← given (View.Guarded.body? t)).val
    return .mk (.foreachLoop header loopVariable collection body) t.span
  | .node .beginStmt => do
    let blockType := View.Identifier.text (← given (View.BlockHeader.blockType? t)).val
    -- The parameters of a block are declared outside it.
    let symbols ← params scope ((View.BlockHeader.params? t).map Subtype.val)
    let args ← match View.BeginStmt.args? t with
      | none => pure []
      | some list => exprs scope list.val
    let body ← block scope (← given (View.Guarded.body? t)).val
    return .mk (.beginBlock blockType symbols args body) t.span
  | .node .returnStmt => do
    let value ← match View.Holder.expression? t with
      | none => pure none
      | some c => some <$> expr scope c.val
    return .mk (.leave value) t.span
  | .node .breakStmt => return .mk .breakLoop t.span
  | .node .continueStmt => return .mk .continueLoop t.span
  | .node .exprStmt => do
    let e ← expr scope (← given (View.Holder.expression? t)).val
    return .mk (.expression e) t.span
  | _ => failure
termination_by sizeOf t
decreasing_by all_goals exact Tree.Child.sizeOf_lt _

/-- A later branch of an `if`. -/
def branch (scope : ScopeId) (t : Tree) : Lower Branch := do
  match t.kind with
  | .node .elseIfBranch => do
    let condition ← expr scope (← given (View.Guarded.condition? t)).val
    let body ← block scope (← given (View.Guarded.body? t)).val
    let rest ← match View.Guarded.branch? t with
      | none => pure none
      | some c => some <$> branch scope c.val
    return .elseIf condition body rest t.span
  | .node .elseBranch => do
    let body ← block scope (← given (View.Guarded.body? t)).val
    return .otherwise body t.span
  | _ => failure
termination_by sizeOf t
decreasing_by all_goals exact Tree.Child.sizeOf_lt _

end

/-- The statements outside every block. -/
def statements (t : Tree) : StateM Gathered (List Stmt) :=
  (View.Script.statements t).filterMapM fun c => (statement .root c.val).run

end Lower

/-! ## Scripts -/

/-- The name that a script declares. -/
def Script.declaredName? (t : Tree) : Option Token := do
  let decl ← View.Script.nameDecl? t
  let name ← View.ScriptNameDecl.name? decl.val
  View.Identifier.token? name.val

/-- **What the tree of a script means.** A script without a name means nothing. -/
def Script.ofTree? (t : Tree) : Option Script := do
  let name ← Script.declaredName? t
  let root ← t.key?
  let start : Gathered := ⟨.ofRoot root, .empty⟩
  let (body, gathered) := (Lower.statements t).run start
  return ⟨name.text, name.span, body, gathered.scopes, gathered.external.values⟩

end ScriptSense
