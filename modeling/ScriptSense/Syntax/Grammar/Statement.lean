/-
Statements.

A statement begins with its keyword or is an expression, and it ends with its
line. A block statement goes on with the statements of its block and the word
that closes it. The word is only asked for: where it is missing, the block ends
in front of whatever closes a block around it, so one missing word is one
complaint.
-/
import ScriptSense.Syntax.Grammar.Expression

set_option autoImplicit false

namespace ScriptSense.Grammar

/-! ## Statements of one line -/

/-- `type name [:= value]` -/
def declaration (R : Rules) : Step Unit :=
  node .varDeclStmt do
    variableDecl
    if ← eat .colonEq then R.expression 0
    lineEnd R

/-- `set target to value` -/
def setStatement (R : Rules) : Step Unit :=
  node .setStmt do
    bump .kwSet
    R.expression 0
    -- Without `to` the complaint is about `to` alone.
    if ← expect .kwTo .kwTo then R.expression 0
    lineEnd R

/-- `let expression` -/
def letStatement (R : Rules) : Step Unit :=
  node .letStmt do
    bump .kwLet
    R.expression 0
    lineEnd R

/-- `return [value]` -/
def returnStatement (R : Rules) : Step Unit :=
  node .returnStmt do
    bump .kwReturn
    -- A value is asked for only where one begins.
    if (← current).canStartExpression then R.expression 0
    lineEnd R

/-- `break` or `continue` -/
def wordStatement (R : Rules) (word : TokenKind) (kind : NodeKind) : Step Unit :=
  node kind do
    bump word
    lineEnd R

/-- An expression on its own line. -/
def expressionStatement (R : Rules) : Step Unit :=
  node .exprStmt do
    R.expression 0
    lineEnd R

/-! ## Blocks -/

/-- A line break or a statement of a block, unless the block ends here. Answers
whether it does not. -/
def blockTurn (R : Rules) : Step Bool := do
  if ← atEnd then return false
  if closesBlock (← current) then return false
  breakOr R.statement

/-- The statements of a block, up to a word that closes it or the end of the
text. -/
def block (R : Rules) : Step Unit :=
  node .stmtList do
    if ← isTooDeep then deepBlock R
    else within .nesting (R.loop (blockTurn R))

/-- The word that closes a block statement, with the end of its line. -/
def closing (R : Rules) (kind : TokenKind) (wanted : Wanted) : Step Unit := do
  if ← expect kind wanted then lineEnd R

/-- The branches of an `if` after the first. Each `elseif` contains the ones
after it. -/
def branches (R : Rules) : Step Unit := do
  if ← isAt .kwElseIf then
    node .elseIfBranch do
      bump .kwElseIf
      R.expression 0
      lineEnd R
      R.block
      R.branches
  else if ← isAt .kwElse then
    node .elseBranch do
      bump .kwElse
      lineEnd R
      R.block

/-- `if condition ... endif` -/
def ifStatement (R : Rules) : Step Unit :=
  node .ifStmt do
    bump .kwIf
    R.expression 0
    lineEnd R
    R.block
    R.branches
    closing R .kwEndIf .kwEndIf

/-- `while condition ... loop` -/
def whileStatement (R : Rules) : Step Unit :=
  node .whileStmt do
    bump .kwWhile
    R.expression 0
    lineEnd R
    R.block
    closing R .kwLoop .kwLoop

/-- `foreach variable <- collection ... loop` -/
def foreachStatement (R : Rules) : Step Unit :=
  node .foreachStmt do
    bump .kwForeach
    variableOrDecl (· == .lArrow)
    if ← expect .lArrow .arrow then R.expression 0
    lineEnd R
    R.block
    closing R .kwLoop .kwLoop

/-- `begin BlockType ... end`, with parameters in braces or bare arguments. -/
def beginStatement (R : Rules) : Step Unit :=
  node .beginStmt do
    bump .kwBegin
    declaredName .blockType
    if ← isAt .lBrace then parameters R
    else if (← current).canStartArgument then
      node .argList (bareArguments R)
    lineEnd R
    within .begins R.block
    closing R .kwEnd .kwEnd

/-- A `begin` block. One inside another is read and set aside. -/
def beginOrNested (R : Rules) : Step Unit := do
  if ← isOutside then beginStatement R
  else
    node .error do
      complain .nestedBegin
      beginStatement R

/-- A statement with the end of its line. -/
def statement (R : Rules) : Step Unit := do
  match ← current with
  | .kwShort | .kwInt | .kwLong | .kwFloat | .kwRef | .kwStringVar | .kwArrayVar => declaration R
  | .kwSet => setStatement R
  | .kwLet => letStatement R
  | .kwIf => ifStatement R
  | .kwWhile => whileStatement R
  | .kwForeach => foreachStatement R
  | .kwBegin => beginOrNested R
  | .kwReturn => returnStatement R
  | .kwBreak => wordStatement R .kwBreak .breakStmt
  | .kwContinue => wordStatement R .kwContinue .continueStmt
  | _ => expressionStatement R

end ScriptSense.Grammar
