/-
Scripts as they are meant.

A script in this form has no blank space, no punctuation and no malformed parts.
Its literals are values, its operators are classified, and each name is bound to
the symbol that it stands for at its place. Spans are kept so that an editor can
point back at the text.

Expressions contain blocks, by lambdas, and blocks contain expressions, so the
types are defined together.
-/
import ScriptSense.Script.Literal
import ScriptSense.Script.Scope

set_option autoImplicit false

namespace ScriptSense

/-! ## Operators -/

/-- Operators in front of an operand. -/
inductive UnaryOp where
  | not | neg
  /-- `$`, to a string. -/
  | toString
  /-- `#`, to a number. -/
  | toNumber
  /-- `*`, out of an array element. -/
  | deref
  /-- `&`, into an array. -/
  | box
deriving DecidableEq, Repr

namespace UnaryOp

/-- The operator of a token. -/
def ofToken? : TokenKind → Option UnaryOp
  | .bang => some .not
  | .minus => some .neg
  | .dollar => some .toString
  | .hash => some .toNumber
  | .star => some .deref
  | .amp => some .box
  | _ => none

/-- The name under which an operator is shown. -/
def label : UnaryOp → String
  | .not => "Not"
  | .neg => "Neg"
  | .toString => "ToString"
  | .toNumber => "ToNumber"
  | .deref => "Deref"
  | .box => "Box"

end UnaryOp

/-- Operators between operands. -/
inductive BinaryOp where
  | assign | addAssign | subAssign | mulAssign | divAssign | powAssign | orAssign | andAssign
  | modAssign
  | or | and
  /-- `:`, a slice or a key with its value. -/
  | slice
  | eq | ne | lt | gt | le | ge
  | bitOr | bitAnd | shl | shr
  | add | sub | mul | div | mod | pow
deriving DecidableEq, Repr

namespace BinaryOp

/-- The operator of a token. -/
def ofToken? : TokenKind → Option BinaryOp
  | .colonEq => some .assign
  | .plusEq => some .addAssign
  | .minusEq => some .subAssign
  | .starEq => some .mulAssign
  | .slashEq => some .divAssign
  | .caretEq => some .powAssign
  | .pipeEq => some .orAssign
  | .ampEq => some .andAssign
  | .percentEq => some .modAssign
  | .pipePipe => some .or
  | .ampAmp => some .and
  | .colon => some .slice
  | .eqEq => some .eq
  | .bangEq => some .ne
  | .lt => some .lt
  | .gt => some .gt
  | .ltEq => some .le
  | .gtEq => some .ge
  | .pipe => some .bitOr
  | .amp => some .bitAnd
  | .shl => some .shl
  | .shr => some .shr
  | .plus => some .add
  | .minus => some .sub
  | .star => some .mul
  | .slash => some .div
  | .percent => some .mod
  | .caret => some .pow
  | _ => none

/-- The operator stores a value. -/
def isAssignment : BinaryOp → Bool
  | .assign | .addAssign | .subAssign | .mulAssign | .divAssign | .powAssign | .orAssign
  | .andAssign | .modAssign => true
  | _ => false

/-- The name under which an operator is shown. -/
def label : BinaryOp → String
  | .assign => "Assign"
  | .addAssign => "AddAssign"
  | .subAssign => "SubAssign"
  | .mulAssign => "MulAssign"
  | .divAssign => "DivAssign"
  | .powAssign => "PowAssign"
  | .orAssign => "OrAssign"
  | .andAssign => "AndAssign"
  | .modAssign => "ModAssign"
  | .or => "Or"
  | .and => "And"
  | .slice => "Slice"
  | .eq => "Eq"
  | .ne => "Ne"
  | .lt => "Lt"
  | .gt => "Gt"
  | .le => "Le"
  | .ge => "Ge"
  | .bitOr => "BitOr"
  | .bitAnd => "BitAnd"
  | .shl => "Shl"
  | .shr => "Shr"
  | .add => "Add"
  | .sub => "Sub"
  | .mul => "Mul"
  | .div => "Div"
  | .mod => "Mod"
  | .pow => "Pow"

/-- The tokens that are operators between operands are those with binding
powers. -/
theorem isSome_ofToken? (k : TokenKind) : (ofToken? k).isSome = k.binaryPower?.isSome := by
  cases k <;> rfl

/-- An operator stores a value exactly if its token is one of assignment. -/
theorem isAssignment_of_ofToken? {k : TokenKind} {op : BinaryOp} (h : ofToken? k = some op) :
    op.isAssignment = k.isAssignment := by
  cases k <;> simp [ofToken?] at h <;> subst h <;> rfl

end BinaryOp

/-- Ways of access to a part. -/
inductive MemberOp where
  | dot | arrow | index
deriving DecidableEq, Repr

namespace MemberOp

/-- The access of a token. -/
def ofToken? : TokenKind → Option MemberOp
  | .dot => some .dot
  | .arrow => some .arrow
  | .lBracket => some .index
  | _ => none

/-- The name under which an access is shown. -/
def label : MemberOp → String
  | .dot => "Dot"
  | .arrow => "Arrow"
  | .index => "Index"

end MemberOp

/-! ## Expressions, statements, blocks -/

mutual

/-- An expression with what is known of its type. -/
inductive Expr where
  /-- The expression, its type, and its place. -/
  | mk (form : ExprForm) (ty : Ty) (span : Span)

/-- What an expression computes. -/
inductive ExprForm where
  /-- A name, with the symbol of the script that it stands for, if it is one. -/
  | name (name : String) (symbol : Option SymbolId)
  | literal (value : Literal)
  | unary (op : UnaryOp) (operand : Expr)
  | binary (op : BinaryOp) (left right : Expr)
  /-- An access; the member is a field, a call or an index. -/
  | member (op : MemberOp) (base member : Expr)
  /-- The name of a member, which stands for nothing by itself. -/
  | field (name : String)
  /-- A call, with the symbol of the script that holds what is called, if one
  does. -/
  | call (name : String) (symbol : Option SymbolId) (args : List Expr)
  | lambda (blockType : String) (scope : ScopeId) (params : List SymbolId) (body : Block)

/-- The statements of a scope of their own. -/
inductive Block where
  /-- The scope and its statements in order. -/
  | mk (scope : ScopeId) (statements : List Stmt)

/-- A statement. -/
inductive Stmt where
  /-- The statement and its place. -/
  | mk (form : StmtForm) (span : Span)

/-- What a statement does. -/
inductive StmtForm where
  | varDecl (symbol : SymbolId) (value : Option Expr)
  | assign (target value : Expr)
  | evaluate (expression : Expr)
  | branch (condition : Expr) (body : Block) (rest : Option Branch)
  | whileLoop (condition : Expr) (body : Block)
  /-- A loop over a collection; its header has a scope around that of its body. -/
  | foreachLoop (header : ScopeId) (item : LoopVariable) (collection : Expr) (body : Block)
  | beginBlock (blockType : String) (params : List SymbolId) (args : List Expr) (body : Block)
  | leave (value : Option Expr)
  | breakLoop
  | continueLoop
  /-- An expression on its own line. -/
  | expression (expression : Expr)

/-- The variable of a loop over a collection. -/
inductive LoopVariable where
  /-- Declared by the loop. -/
  | declared (symbol : SymbolId)
  /-- A variable that was there before. -/
  | existing (item : Expr)

/-- A later branch of an `if`, with the ones after it. -/
inductive Branch where
  | elseIf (condition : Expr) (body : Block) (rest : Option Branch) (span : Span)
  | otherwise (body : Block) (span : Span)

end

instance : Inhabited Expr := ⟨.mk (.literal (.integer 0)) .unknown ⟨0, 0⟩⟩

instance : Inhabited Block := ⟨.mk .root []⟩

/-- What the expression computes. -/
def Expr.form : Expr → ExprForm
  | .mk form _ _ => form

/-- What is known of the type of the expression. -/
def Expr.ty : Expr → Ty
  | .mk _ ty _ => ty

/-- The place of the expression. -/
def Expr.span : Expr → Span
  | .mk _ _ span => span

/-- The scope of the block. -/
def Block.scope : Block → ScopeId
  | .mk scope _ => scope

/-- The statements of the block. -/
def Block.statements : Block → List Stmt
  | .mk _ statements => statements

/-- What the statement does. -/
def Stmt.form : Stmt → StmtForm
  | .mk form _ => form

/-- The place of the statement. -/
def Stmt.span : Stmt → Span
  | .mk _ span => span

/-- A script as it is meant. -/
structure Script where
  /-- The name it declares. -/
  name : String
  /-- The place of the name. -/
  nameSpan : Span
  /-- The statements outside every block. -/
  body : List Stmt
  /-- Its scopes and symbols. -/
  scopes : ScopeTree
  /-- The names it uses and does not declare, each as it is first written, in the
  order of first use. -/
  external : List String

/-! ## Going through expressions -/

mutual

/-- An expression and those in it, the outer ones first. -/
def Expr.all : Expr → List Expr
  | .mk form ty span => .mk form ty span :: form.parts

/-- The expressions in an expression. -/
def ExprForm.parts : ExprForm → List Expr
  | .name _ _ | .literal _ | .field _ => []
  | .unary _ operand => operand.all
  | .binary _ left right => left.all ++ right.all
  | .member _ base member => base.all ++ member.all
  | .call _ _ args => Expr.allOf args
  | .lambda _ _ _ body => body.exprs

/-- The expressions of a list and those in them. -/
def Expr.allOf : List Expr → List Expr
  | [] => []
  | e :: es => e.all ++ Expr.allOf es

/-- The expressions of an optional expression. -/
def Expr.allIn : Option Expr → List Expr
  | none => []
  | some e => e.all

/-- The expressions of a block. -/
def Block.exprs : Block → List Expr
  | .mk _ statements => Stmt.exprsOf statements

/-- The expressions of a list of statements. -/
def Stmt.exprsOf : List Stmt → List Expr
  | [] => []
  | s :: ss => s.exprs ++ Stmt.exprsOf ss

/-- The expressions of a statement. -/
def Stmt.exprs : Stmt → List Expr
  | .mk form _ => form.exprs

/-- The expressions of what a statement does. -/
def StmtForm.exprs : StmtForm → List Expr
  | .varDecl _ value => Expr.allIn value
  | .assign target value => target.all ++ value.all
  | .evaluate expression => expression.all
  | .branch condition body rest => condition.all ++ body.exprs ++ Branch.exprsIn rest
  | .whileLoop condition body => condition.all ++ body.exprs
  | .foreachLoop _ item collection body =>
    item.exprs ++ collection.all ++ body.exprs
  | .beginBlock _ _ args body => Expr.allOf args ++ body.exprs
  | .leave value => Expr.allIn value
  | .breakLoop | .continueLoop => []
  | .expression expression => expression.all

/-- The expression of a loop variable that was there before. -/
def LoopVariable.exprs : LoopVariable → List Expr
  | .declared _ => []
  | .existing item => item.all

/-- The expressions of a branch and the ones after it. -/
def Branch.exprs : Branch → List Expr
  | .elseIf condition body rest _ => condition.all ++ body.exprs ++ Branch.exprsIn rest
  | .otherwise body _ => body.exprs

/-- The expressions of an optional branch. -/
def Branch.exprsIn : Option Branch → List Expr
  | none => []
  | some b => b.exprs

end

/-- The expressions of a script, the outer ones first. -/
def Script.exprs (s : Script) : List Expr := Stmt.exprsOf s.body

end ScriptSense
