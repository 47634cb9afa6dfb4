/-
The kinds of nodes, and the kinds of tree elements.

A syntax tree has tokens at its leaves and nodes above them, so an element of
the tree is of a token kind or of a node kind. All kinds together are numbered,
tokens first, each group in the order of its declaration.
-/
import ScriptSense.Syntax.TokenKind

set_option autoImplicit false

namespace ScriptSense

/-- What a node of the tree is. -/
inductive NodeKind where
  /-- A whole script. -/
  | script
  /-- A text read as one expression. -/
  | exprRoot
  /-- Tokens that have no place in the grammar. -/
  | error
  /-- `scriptname Name` -/
  | scriptNameDecl
  /-- The statements of a block. -/
  | stmtList
  /-- `type name` -/
  | varDecl
  /-- `type name [:= value]` -/
  | varDeclStmt
  /-- `set target to value` -/
  | setStmt
  /-- `let expression` -/
  | letStmt
  /-- `if condition ... endif` -/
  | ifStmt
  /-- `elseif condition ...` with the branches after it. -/
  | elseIfBranch
  /-- `else ...` -/
  | elseBranch
  /-- `while condition ... loop` -/
  | whileStmt
  /-- `foreach variable <- collection ... loop` -/
  | foreachStmt
  /-- `begin BlockType ... end` -/
  | beginStmt
  /-- `{ variable, type variable }` -/
  | paramList
  /-- `return [value]` -/
  | returnStmt
  /-- `break` -/
  | breakStmt
  /-- `continue` -/
  | continueStmt
  /-- An expression on its own line. -/
  | exprStmt
  /-- A name where it is declared. -/
  | name
  /-- A name where it is used. -/
  | nameRef
  /-- A number or a string. -/
  | literal
  /-- `left operator right`, assignments included. -/
  | binExpr
  /-- `operator operand` -/
  | unaryExpr
  /-- `(expression)` -/
  | parenExpr
  /-- `base.member`, `base->member` or `base[index]` -/
  | memberExpr
  /-- `Function argument, argument` or `Function(argument, argument)` -/
  | funcExpr
  /-- The arguments of a call or of a block. -/
  | argList
  /-- `(begin Function {parameters} ... end)` -/
  | lambdaExpr
deriving DecidableEq, Repr, Inhabited

namespace NodeKind

/-- Every kind, in the order of declaration. -/
def all : List NodeKind :=
  [.script, .exprRoot, .error, .scriptNameDecl, .stmtList, .varDecl, .varDeclStmt, .setStmt,
    .letStmt, .ifStmt, .elseIfBranch, .elseBranch, .whileStmt, .foreachStmt, .beginStmt,
    .paramList, .returnStmt, .breakStmt, .continueStmt, .exprStmt, .name, .nameRef, .literal,
    .binExpr, .unaryExpr, .parenExpr, .memberExpr, .funcExpr, .argList, .lambdaExpr]

/-- A statement. -/
def isStatement : NodeKind → Bool
  | .varDeclStmt | .setStmt | .letStmt | .ifStmt | .whileStmt | .foreachStmt | .beginStmt
  | .returnStmt | .breakStmt | .continueStmt | .exprStmt => true
  | _ => false

/-- An expression. -/
def isExpression : NodeKind → Bool
  | .nameRef | .literal | .binExpr | .unaryExpr | .parenExpr | .memberExpr | .funcExpr
  | .lambdaExpr => true
  | _ => false

/-- An expression that needs no operator to delimit it. -/
def isPrimary : NodeKind → Bool
  | .nameRef | .literal | .parenExpr | .funcExpr | .lambdaExpr => true
  | _ => false

/-- A loop variable or a parameter: used as it is, or declared on the spot. -/
def isVariable : NodeKind → Bool
  | .nameRef | .varDecl => true
  | _ => false

/-- A later branch of an `if`. -/
def isBranch : NodeKind → Bool
  | .elseIfBranch | .elseBranch => true
  | _ => false

/-- A node that opens a scope of names. -/
def opensScope : NodeKind → Bool
  | .script | .stmtList | .lambdaExpr | .foreachStmt => true
  | _ => false

/-- The name under which a kind is shown. -/
def label : NodeKind → String
  | .script => "Script"
  | .exprRoot => "ExprRoot"
  | .error => "Error"
  | .scriptNameDecl => "ScriptNameDecl"
  | .stmtList => "StmtList"
  | .varDecl => "VarDecl"
  | .varDeclStmt => "VarDeclStmt"
  | .setStmt => "SetStmt"
  | .letStmt => "LetStmt"
  | .ifStmt => "IfStmt"
  | .elseIfBranch => "ElseIfBranch"
  | .elseBranch => "ElseBranch"
  | .whileStmt => "WhileStmt"
  | .foreachStmt => "ForeachStmt"
  | .beginStmt => "BeginStmt"
  | .paramList => "ParamList"
  | .returnStmt => "ReturnStmt"
  | .breakStmt => "BreakStmt"
  | .continueStmt => "ContinueStmt"
  | .exprStmt => "ExprStmt"
  | .name => "Name"
  | .nameRef => "NameRef"
  | .literal => "Literal"
  | .binExpr => "BinExpr"
  | .unaryExpr => "UnaryExpr"
  | .parenExpr => "ParenExpr"
  | .memberExpr => "MemberExpr"
  | .funcExpr => "FuncExpr"
  | .argList => "ArgList"
  | .lambdaExpr => "LambdaExpr"

end NodeKind

/-- What an element of the tree is. -/
inductive ElementKind where
  /-- A leaf. -/
  | token (kind : TokenKind)
  /-- A node. -/
  | node (kind : NodeKind)
deriving DecidableEq, Repr

namespace ElementKind

/-- Every kind, tokens first. -/
def all : List ElementKind := TokenKind.all.map .token ++ NodeKind.all.map .node

/-- The number of a kind among all kinds. -/
def index (k : ElementKind) : Nat := all.idxOf k

/-- The name under which a kind is shown. -/
def label : ElementKind → String
  | .token k => k.label
  | .node k => k.label

/-- The kind with a label. -/
def ofLabel? (label : String) : Option ElementKind := all.find? (·.label == label)

/-- The kind is one of tokens and has the property. -/
def isToken (p : TokenKind → Bool) : ElementKind → Bool
  | .token k => p k
  | .node _ => false

/-- The kind is one of nodes and has the property. -/
def isNode (p : NodeKind → Bool) : ElementKind → Bool
  | .token _ => false
  | .node k => p k

end ElementKind

end ScriptSense
