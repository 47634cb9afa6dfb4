/-
What the children of a node mean.

A tree built from a malformed text may lack any part, so every view answers an
optional child or a list of children. The answer is a child with the proof that
it is one (`Tree.Child`): whoever recurses along views recurses on smaller trees
and needs no other argument.

Most parts are found by kind alone. The two operands of an operator are of one
kind, and either may be missing, so they are told apart by the operator: what
ends before it, what starts after it.
-/
import ScriptSense.Syntax.Tree

set_option autoImplicit false

namespace ScriptSense

namespace Tree

/-- A child of a tree. -/
abbrev Child (t : Tree) : Type := { c : Tree // c ∈ t.children }

theorem Child.sizeOf_lt {t : Tree} (c : t.Child) : sizeOf c.val < sizeOf t :=
  sizeOf_lt_of_mem_children c.property

/-- The children that are nodes of a kind with the property. -/
def nodesWhere (p : NodeKind → Bool) (t : Tree) : List t.Child :=
  t.children.attach.filter (·.val.isNode p)

/-- The first child that is a node of a kind with the property. -/
def nodeWhere? (p : NodeKind → Bool) (t : Tree) : Option t.Child :=
  t.children.attach.find? (·.val.isNode p)

/-- The first child that is a node of the kind. -/
def node? (k : NodeKind) (t : Tree) : Option t.Child := t.nodeWhere? (· == k)

/-- The first child that is a token of a kind with the property. -/
def tokenWhere? (p : TokenKind → Bool) (t : Tree) : Option Token :=
  (t.children.filterMap Tree.token?).find? (p ·.kind)

/-- The first child that is a token of the kind. -/
def tokenOf? (k : TokenKind) (t : Tree) : Option Token := t.tokenWhere? (· == k)

/-- The first node with the property that ends before the token, if there is
one; without a token the first node with the property. -/
def nodeBefore? (mark : Option Token) (p : NodeKind → Bool) (t : Tree) : Option t.Child :=
  t.children.attach.find? fun c =>
    c.val.isNode p && mark.all fun m => c.val.span.stop ≤ m.start

/-- The first node with the property that starts after the token. -/
def nodeAfter? (mark : Option Token) (p : NodeKind → Bool) (t : Tree) : Option t.Child :=
  mark.bind fun m =>
    t.children.attach.find? fun c => c.val.isNode p && m.stop ≤ c.val.span.start

end Tree

namespace View

/-! ## Declarations -/

namespace Script

/-- The declaration of the script's name. -/
def nameDecl? (t : Tree) : Option t.Child := t.node? .scriptNameDecl

/-- The statements outside every block. -/
def statements (t : Tree) : List t.Child := t.nodesWhere NodeKind.isStatement

end Script

namespace ScriptNameDecl

/-- The declared name. -/
def name? (t : Tree) : Option t.Child := t.node? .name

end ScriptNameDecl

namespace VarDecl

/-- The word that declares the type. -/
def typeToken? (t : Tree) : Option Token := t.tokenWhere? TokenKind.isTypeName

/-- The declared name. -/
def name? (t : Tree) : Option t.Child := t.node? .name

end VarDecl

namespace Identifier

/-- The identifier of a declared or used name. -/
def token? (t : Tree) : Option Token := t.tokenOf? .ident

/-- A declared or used name as written, empty without an identifier. -/
def text (t : Tree) : String := ((token? t).map Token.text).getD ""

end Identifier

namespace ParamList

/-- The parameters in order. -/
def params (t : Tree) : List t.Child := t.nodesWhere NodeKind.isVariable

end ParamList

/-! ## Statements -/

namespace StmtList

/-- The statements of a block. -/
def statements (t : Tree) : List t.Child := t.nodesWhere NodeKind.isStatement

end StmtList

namespace VarDeclStmt

/-- The declaration. -/
def decl? (t : Tree) : Option t.Child := t.node? .varDecl

/-- The value after `:=`. -/
def value? (t : Tree) : Option t.Child := t.nodeWhere? NodeKind.isExpression

end VarDeclStmt

namespace SetStmt

/-- The word `to`. -/
def toToken? (t : Tree) : Option Token := t.tokenOf? .kwTo

/-- What is assigned to. -/
def target? (t : Tree) : Option t.Child := t.nodeBefore? (toToken? t) NodeKind.isExpression

/-- The value assigned. -/
def value? (t : Tree) : Option t.Child := t.nodeAfter? (toToken? t) NodeKind.isExpression

end SetStmt

namespace Holder

/-- The expression of a `let`, a `return`, an expression statement or a pair of
parentheses. -/
def expression? (t : Tree) : Option t.Child := t.nodeWhere? NodeKind.isExpression

end Holder

namespace Guarded

/-- The condition of an `if`, an `elseif` or a `while`. -/
def condition? (t : Tree) : Option t.Child := t.nodeWhere? NodeKind.isExpression

/-- The block under a header of any sort. -/
def body? (t : Tree) : Option t.Child := t.node? .stmtList

/-- The next branch of an `if` or an `elseif`. -/
def branch? (t : Tree) : Option t.Child := t.nodeWhere? NodeKind.isBranch

end Guarded

namespace IfStmt

/-- The closing word. -/
def endToken? (t : Tree) : Option Token := t.tokenOf? .kwEndIf

end IfStmt

namespace ForeachStmt

/-- The arrow between variable and collection. -/
def arrow? (t : Tree) : Option Token := t.tokenOf? .lArrow

/-- The loop variable. -/
def item? (t : Tree) : Option t.Child := t.nodeBefore? (arrow? t) NodeKind.isVariable

/-- The collection gone through. -/
def collection? (t : Tree) : Option t.Child := t.nodeAfter? (arrow? t) NodeKind.isExpression

end ForeachStmt

namespace BlockHeader

/-- The block type after `begin`, of a block or of a lambda. -/
def blockType? (t : Tree) : Option t.Child := t.node? .name

/-- The parameters in braces. -/
def params? (t : Tree) : Option t.Child := t.node? .paramList

end BlockHeader

namespace BeginStmt

/-- The arguments of the block. -/
def args? (t : Tree) : Option t.Child := t.node? .argList

/-- The closing word. -/
def endToken? (t : Tree) : Option Token := t.tokenOf? .kwEnd

end BeginStmt

/-! ## Expressions -/

namespace Literal

/-- The token of a number or a string. -/
def token? (t : Tree) : Option Token := t.tokenWhere? TokenKind.isLiteral

end Literal

namespace Operation

/-- The operator of a unary or binary expression. -/
def operator? (t : Tree) : Option Token := t.tokenWhere? TokenKind.isOperator

end Operation

namespace BinExpr

/-- The left operand. -/
def left? (t : Tree) : Option t.Child :=
  t.nodeBefore? (Operation.operator? t) NodeKind.isExpression

/-- The right operand. -/
def right? (t : Tree) : Option t.Child :=
  t.nodeAfter? (Operation.operator? t) NodeKind.isExpression

end BinExpr

namespace UnaryExpr

/-- The operand. -/
def operand? (t : Tree) : Option t.Child := t.nodeWhere? NodeKind.isExpression

end UnaryExpr

namespace MemberExpr

/-- The point, the arrow or the opening bracket. -/
def operator? (t : Tree) : Option Token :=
  t.tokenWhere? fun k => k == .dot || k == .arrow || k == .lBracket

/-- What is accessed. -/
def base? (t : Tree) : Option t.Child := t.nodeBefore? (operator? t) NodeKind.isExpression

/-- The name, the call or the index. -/
def member? (t : Tree) : Option t.Child := t.nodeAfter? (operator? t) NodeKind.isExpression

/-- The access is by index. -/
def isIndex (t : Tree) : Bool := (operator? t).any (·.kind == .lBracket)

end MemberExpr

namespace FuncExpr

/-- The called name. -/
def callee? (t : Tree) : Option t.Child := t.node? .nameRef

/-- The list of arguments. -/
def args? (t : Tree) : Option t.Child := t.node? .argList

end FuncExpr

namespace ArgList

/-- The arguments in order. -/
def args (t : Tree) : List t.Child := t.nodesWhere NodeKind.isExpression

end ArgList

namespace Statement

/-- The block of a statement that has one. -/
def body? (t : Tree) : Option t.Child :=
  if t.isNode fun k => k == .ifStmt || k == .whileStmt || k == .foreachStmt || k == .beginStmt
  then Guarded.body? t else none

end Statement

end View

end ScriptSense
