/-
Expressions, as they are written down.

An operand answers the node that it built, and what follows it, an operator, a member
or an index, is a node around that one: it is written down behind the operand and
preceded by its mark. A call is found in the same way: the name is complete before the
arguments are seen.
-/
import ScriptSense.Syntax.Grammar.Expression
import ScriptSense.Syntax.Record.Rules

set_option autoImplicit false

namespace ScriptSense.Record

open Grammar (stopsExpression opensAccess)

/-! ## Arguments -/

/-- An argument in parentheses and the comma after it, unless the list ends here.
Answers whether it does not. -/
def parenArgument (R : Rules) : Step Bool := do
  if ← isAt .rParen then return false
  if ← atLineEnd then return false
  if (← current).canStartExpression then discard <| R.expression 0
  else setAside (.missing .argument) (· == .rParen)
  discard <| eat .comma
  return true

/-- Arguments in parentheses, each a whole expression, commas optional. -/
def parenArguments (R : Rules) : Step Unit := do
  within .parens do
    bump .lParen
    R.loop (parenArgument R)
  discard <| expect .rParen .closeParen

/-- Whether an argument begins here. After a comma, anything that begins an
expression does. -/
def argumentFollows (afterComma : Bool) : Step Bool := do
  if (← current).canStartArgument then return true
  if afterComma then return (← current).canStartExpression
  return false

/-- An argument and the comma after it, if there is one. Answers whether there was a
comma. -/
def bareArgument (R : Rules) (afterComma : Bool) : Step (ForInStep Bool) := do
  if ← argumentFollows afterComma then
    discard <| R.operand false
    return .yield (← eat .comma)
  return .done afterComma

/-- Arguments one after the other, commas optional. -/
def bareArguments (R : Rules) : Step Unit := R.loopFrom false (bareArgument R)

/-- Whether the next token opens a list of arguments and not a lambda. -/
def opensArguments : Step Bool := do
  if ← isAt .lParen then return (← look 1) != .kwBegin
  return false

/-- The arguments of a call, in parentheses or bare. -/
def callArguments (R : Rules) : Step Unit := do
  let mark ← start
  if ← opensArguments then parenArguments R else bareArguments R
  discard <| complete mark .argList

/-- A name, with the arguments after it where it is a call. -/
def nameOrCall (R : Rules) (calls : Bool) : Step Built := do
  let known ← atFunction
  let mark ← start
  bump .ident
  let name ← complete mark .nameRef
  let called ← do
    if !calls then pure false
    else if known then pure true
    else (·.canStartArgument) <$> current
  if !called then return name
  let call ← precede name
  callArguments R
  complete call .funcExpr

/-! ## Lambdas -/

/-- A declared variable: the word for its type, then its name. -/
def variableDecl : Step Unit := do
  let mark ← start
  bumpAny
  declaredName .variableName
  discard <| complete mark .varDecl

/-- A loop variable or a parameter: declared here, or a name as it is. -/
def variableOrDecl (recovers : TokenKind → Bool) : Step Unit := do
  if (← current).isTypeName then variableDecl
  else if ← isAt .ident then
    let mark ← start
    bump .ident
    discard <| complete mark .nameRef
  else setAside (.missing .variable) recovers

/-- A parameter and the comma after it, unless the list ends here. Answers whether
it does not. -/
def parameter : Step Bool := do
  if ← isAt .rBrace then return false
  if ← atLineEnd then return false
  variableOrDecl (· == .rBrace)
  discard <| eat .comma
  return true

/-- Parameters in braces, commas optional. -/
def parameters (R : Rules) : Step Unit := do
  let mark ← start
  bump .lBrace
  R.loop parameter
  discard <| expect .rBrace .closeBrace
  discard <| complete mark .paramList

/-- A lambda: a `begin` block in parentheses. -/
def lambda (R : Rules) : Step Built := do
  let mark ← start
  withoutParens do
    bump .lParen
    bump .kwBegin
    declaredName .blockType
    if ← isAt .lBrace then parameters R
    lineEnd R
    within .begins R.block
    discard <| expect .kwEnd .kwEnd
  discard <| expect .rParen .closeParen
  complete mark .lambdaExpr

/-! ## Operands -/

/-- An expression in parentheses. -/
def parenthesized (R : Rules) : Step Built := do
  let mark ← start
  within .parens do
    bump .lParen
    discard <| R.expression 0
  discard <| expect .rParen .closeParen
  complete mark .parenExpr

/-- Complains about a missing expression and sets the next token aside, unless it
belongs to what is around the expression. -/
def noOperand : Step (Option Built) := do
  let stops ← do
    if ← atLineEnd then pure true else stopsExpression <$> current
  if stops then
    complain (.missing .expression)
    return none
  let mark ← start
  complain (.missing .expression)
  bumpAny
  return some (← complete mark .error)

/-- A literal, a name, a call, a lambda, or an expression in parentheses. -/
def primary (R : Rules) (calls : Bool) : Step (Option Built) := do
  match ← current with
  | .number | .hexNumber | .string => do
    let mark ← start
    bumpAny
    return some (← complete mark .literal)
  | .ident => return some (← nameOrCall R calls)
  | .lParen => do
    if (← look 1) == .kwBegin then return some (← lambda R)
    return some (← parenthesized R)
  | _ => noOperand

/-- Whether an access may follow here. The limit is looked at only where there is
an access to be refused. -/
def roomForAccess (R : Rules) : Step (Option Unit) := do
  let deep ← if opensAccess (← current) then isTooDeep else pure false
  if deep then
    discard <| deepExpression R
    return none
  return some ()

/-- The access to a member or an index of a node, if there is one. -/
def access (R : Rules) (calls : Bool) (operand : Built) : Step (Option Built) := do
  match ← current with
  | .dot | .arrow => do
    let mark ← precede operand
    bumpAny
    if ← isAt .ident then discard <| nameOrCall R calls
    else complain (.missing .memberName)
    return some (← complete mark .memberExpr)
  | .lBracket => do
    let mark ← precede operand
    bump .lBracket
    discard <| R.expression 0
    discard <| expect .rBracket .closeBracket
    return some (← complete mark .memberExpr)
  | _ => return none

/-- The member accesses and indices after an operand. -/
def accesses (R : Rules) (calls : Bool) (operand : Built) : Step Built :=
  climb (roomForAccess R) (fun _ => access R calls) R.turns operand

/-- An operand below the limit of nesting. -/
def shallowOperand (R : Rules) (calls : Bool) : Step (Option Built) := do
  match (← current).unaryPower? with
  | some power => do
    let mark ← start
    bumpAny
    if calls then discard <| R.expression power else discard <| R.operand false
    return some (← complete mark .unaryExpr)
  | none => do
    match ← primary R calls with
    | none => return none
    | some operand => return some (← accesses R calls operand)

/-- An operand with the operators in front of it. -/
def operand (R : Rules) (calls : Bool) : Step (Option Built) := do
  if ← isTooDeep then return some (← deepExpression R)
  within .nesting (shallowOperand R calls)

/-- The right power of the next token, if it is an operator that may follow here. -/
def roomForOperator (R : Rules) (floor : Nat) : Step (Option Nat) := do
  match (← current).binaryPower? with
  | none => return none
  | some (left, right) => do
    if left < floor then return none
    if ← isTooDeep then
      discard <| deepExpression R
      return none
    return some right

/-- An operator with the operand to its right, around the operand before it. -/
def application (R : Rules) (power : Nat) (left : Built) : Step (Option Built) := do
  let mark ← precede left
  bumpAny
  discard <| R.expression power
  return some (← complete mark .binExpr)

/-- The operators after an operand that bind at least with the power, each with
the operand to its right. -/
def operators (R : Rules) (floor : Nat) (operand : Built) : Step Built :=
  climb (roomForOperator R floor) (application R) R.turns operand

/-- An expression whose operators bind at least with the power. -/
def expression (R : Rules) (floor : Nat) : Step (Option Built) := do
  match ← R.operand true with
  | none => return none
  | some operand => return some (← operators R floor operand)

end ScriptSense.Record
