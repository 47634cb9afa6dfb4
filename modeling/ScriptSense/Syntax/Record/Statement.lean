/-
Statements, as they are written down.

Each statement sets a mark in front of it and completes it behind the end of its line,
whatever is wrong in between.
-/
import ScriptSense.Syntax.Record.Expression

set_option autoImplicit false

namespace ScriptSense.Record

open Grammar (closesBlock)

/-! ## Statements of one line -/

/-- `type name [:= value]` -/
def declaration (R : Rules) : Step Unit := do
  let mark ← start
  variableDecl
  if ← eat .colonEq then discard <| R.expression 0
  lineEnd R
  discard <| complete mark .varDeclStmt

/-- `set target to value` -/
def setStatement (R : Rules) : Step Unit := do
  let mark ← start
  bump .kwSet
  discard <| R.expression 0
  if ← expect .kwTo .kwTo then discard <| R.expression 0
  lineEnd R
  discard <| complete mark .setStmt

/-- `let expression` -/
def letStatement (R : Rules) : Step Unit := do
  let mark ← start
  bump .kwLet
  discard <| R.expression 0
  lineEnd R
  discard <| complete mark .letStmt

/-- `return [value]` -/
def returnStatement (R : Rules) : Step Unit := do
  let mark ← start
  bump .kwReturn
  if (← current).canStartExpression then discard <| R.expression 0
  lineEnd R
  discard <| complete mark .returnStmt

/-- `break` or `continue` -/
def wordStatement (R : Rules) (word : TokenKind) (kind : NodeKind) : Step Unit := do
  let mark ← start
  bump word
  lineEnd R
  discard <| complete mark kind

/-- An expression on its own line. -/
def expressionStatement (R : Rules) : Step Unit := do
  let mark ← start
  discard <| R.expression 0
  lineEnd R
  discard <| complete mark .exprStmt

/-! ## Blocks -/

/-- A line break or a statement of a block, unless the block ends here. Answers
whether it does not. -/
def blockTurn (R : Rules) : Step Bool := do
  if ← atEnd then return false
  if closesBlock (← current) then return false
  breakOr R.statement

/-- The statements of a block, up to a word that closes it or the end of the
text. -/
def block (R : Rules) : Step Unit := do
  let mark ← start
  if ← isTooDeep then deepBlock R
  else within .nesting (R.loop (blockTurn R))
  discard <| complete mark .stmtList

/-- The word that closes a block statement, with the end of its line. -/
def closing (R : Rules) (kind : TokenKind) (wanted : Wanted) : Step Unit := do
  if ← expect kind wanted then lineEnd R

/-- The branches of an `if` after the first. Each `elseif` contains the ones
after it. -/
def branches (R : Rules) : Step Unit := do
  if ← isAt .kwElseIf then
    let mark ← start
    bump .kwElseIf
    discard <| R.expression 0
    lineEnd R
    R.block
    R.branches
    discard <| complete mark .elseIfBranch
  else if ← isAt .kwElse then
    let mark ← start
    bump .kwElse
    lineEnd R
    R.block
    discard <| complete mark .elseBranch

/-- `if condition ... endif` -/
def ifStatement (R : Rules) : Step Unit := do
  let mark ← start
  bump .kwIf
  discard <| R.expression 0
  lineEnd R
  R.block
  R.branches
  closing R .kwEndIf .kwEndIf
  discard <| complete mark .ifStmt

/-- `while condition ... loop` -/
def whileStatement (R : Rules) : Step Unit := do
  let mark ← start
  bump .kwWhile
  discard <| R.expression 0
  lineEnd R
  R.block
  closing R .kwLoop .kwLoop
  discard <| complete mark .whileStmt

/-- `foreach variable <- collection ... loop` -/
def foreachStatement (R : Rules) : Step Unit := do
  let mark ← start
  bump .kwForeach
  variableOrDecl (· == .lArrow)
  if ← expect .lArrow .arrow then discard <| R.expression 0
  lineEnd R
  R.block
  closing R .kwLoop .kwLoop
  discard <| complete mark .foreachStmt

/-- The bare arguments of a `begin` block, as a list of arguments. -/
def blockArguments (R : Rules) : Step Unit := do
  let mark ← start
  bareArguments R
  discard <| complete mark .argList

/-- `begin BlockType ... end`, with parameters in braces or bare arguments. -/
def beginStatement (R : Rules) : Step Unit := do
  let mark ← start
  bump .kwBegin
  declaredName .blockType
  if ← isAt .lBrace then parameters R
  else if (← current).canStartArgument then blockArguments R
  lineEnd R
  within .begins R.block
  closing R .kwEnd .kwEnd
  discard <| complete mark .beginStmt

/-- A `begin` block. One inside another is read and set aside. -/
def beginOrNested (R : Rules) : Step Unit := do
  if ← isOutside then beginStatement R
  else
    let mark ← start
    complain .nestedBegin
    beginStatement R
    discard <| complete mark .error

/-- A statement with the end of its line. -/
def statement (R : Rules) : Step Unit := do
  match ← current with
  | .kwShort | .kwInt | .kwLong | .kwFloat | .kwRef | .kwStringVar | .kwArrayVar => declaration R
  | .kwSet => setStatement R
  | .kwLet => letStatement R
  | .kwIf => ifStatement R
  | .kwWhile => whileStatement R
  | .kwForeach => foreachStatement R
  | .kwBegin => beginOrNested R
  | .kwReturn => returnStatement R
  | .kwBreak => wordStatement R .kwBreak .breakStmt
  | .kwContinue => wordStatement R .kwContinue .continueStmt
  | _ => expressionStatement R

end ScriptSense.Record
