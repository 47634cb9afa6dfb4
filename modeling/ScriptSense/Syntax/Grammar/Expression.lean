/-
Expressions.

Operators between operands are read by their binding powers: an expression read
with a floor takes every operator whose left power is at least the floor, and
hands its right power on as the floor of the right operand. Operators in front
of an operand bind tighter than all of them.

An identifier in front of something that can begin an argument is a call:
`GetItemCount Gold001` calls. Its arguments are operands, not expressions, so
`GetStage Quest > 10` compares the result of the call; and inside an argument no
identifier begins a call of its own. An identifier that is known to be a function
is a call even if no argument follows.
-/
import ScriptSense.Syntax.Grammar.Rules

set_option autoImplicit false

namespace ScriptSense.Grammar

/-- The token ends an expression and is left for what is around it. -/
def stopsExpression (kind : TokenKind) : Bool :=
  closesBlock kind || kind == .rParen || kind == .rBracket || kind == .rBrace
    || kind == .comma || kind == .kwTo || kind == .lArrow

/-! ## Arguments -/

/-- An argument in parentheses and the comma after it, unless the list ends here.
Answers whether it does not. -/
def parenArgument (R : Rules) : Step Bool := do
  if ← isAt .rParen then return false
  if ← atLineEnd then return false
  if (← current).canStartExpression then R.expression 0
  else setAside .argument (· == .rParen)
  discard <| eat .comma
  return true

/-- Arguments in parentheses, each a whole expression, commas optional. -/
def parenArguments (R : Rules) : Step Unit := do
  within .parens do
    bump .lParen
    R.loop (parenArgument R)
  discard <| expect .rParen .closeParen

/-- Whether an argument begins here. After a comma, anything that begins an
expression does. -/
def argumentFollows (afterComma : Bool) : Step Bool := do
  if (← current).canStartArgument then return true
  if afterComma then return (← current).canStartExpression
  return false

/-- An argument and the comma after it, if there is one. Answers whether there was a
comma. -/
def bareArgument (R : Rules) (afterComma : Bool) : Step (Option Bool) := do
  if ← argumentFollows afterComma then
    discard <| R.operand false
    return some (← eat .comma)
  return none

/-- Arguments one after the other, commas optional. -/
def bareArguments (R : Rules) : Step Unit := R.loopFrom false (bareArgument R)

/-- Whether the next token opens a list of arguments and not a lambda. -/
def opensArguments : Step Bool := do
  -- `f (begin ...)` is a call with a lambda as its bare argument.
  if ← isAt .lParen then return (← look 1) != .kwBegin
  return false

/-- Whether the next token is an identifier known to be a function. -/
def atFunction (R : Rules) : Step Bool := do
  if ← isAt .ident then textAhead R.isFunction else return false

/-- A name, with the arguments after it where it is a call. -/
def nameOrCall (R : Rules) (calls : Bool) : Step Unit := do
  -- Asked before the name is consumed, because it is about the name.
  let known ← atFunction R
  node .nameRef (bump .ident)
  if calls then
    let called ← if known then pure true else (·.canStartArgument) <$> current
    if called then
      nodeAround .funcExpr do
        node .argList do
          if ← opensArguments then parenArguments R
          else bareArguments R

/-! ## Lambdas -/

/-- A declared variable: the word for its type, then its name. -/
def variableDecl : Step Unit :=
  node .varDecl do
    bumpAny
    declaredName .variableName

/-- A loop variable or a parameter: declared here, or a name as it is. -/
def variableOrDecl (recovers : TokenKind → Bool) : Step Unit := do
  if (← current).isTypeName then variableDecl
  else if ← isAt .ident then node .nameRef (bump .ident)
  else setAside .variable recovers

/-- A parameter and the comma after it, unless the list ends here. Answers whether
it does not. -/
def parameter : Step Bool := do
  if ← isAt .rBrace then return false
  if ← atLineEnd then return false
  variableOrDecl (· == .rBrace)
  discard <| eat .comma
  return true

/-- Parameters in braces, commas optional. -/
def parameters (R : Rules) : Step Unit :=
  node .paramList do
    bump .lBrace
    R.loop parameter
    discard <| expect .rBrace .closeBrace

/-- A lambda: a `begin` block in parentheses. -/
def lambda (R : Rules) : Step Unit :=
  node .lambdaExpr do
    withoutParens do
      bump .lParen
      bump .kwBegin
      declaredName .blockType
      if ← isAt .lBrace then parameters R
      lineEnd R
      within .begins R.block
      discard <| expect .kwEnd .kwEnd
    discard <| expect .rParen .closeParen

/-! ## Operands -/

/-- An expression in parentheses. -/
def parenthesized (R : Rules) : Step Unit :=
  node .parenExpr do
    within .parens do
      bump .lParen
      R.expression 0
    discard <| expect .rParen .closeParen

/-- Complains about a missing expression and sets the next token aside, unless it
belongs to what is around the expression. Answers whether it did. -/
def noOperand : Step Bool := do
  let stops ← do
    if ← atLineEnd then pure true else stopsExpression <$> current
  if stops then
    complain (.missing .expression)
    return false
  node .error do
    complain (.missing .expression)
    bumpAny
  return true

/-- A literal, a name, a call, a lambda, or an expression in parentheses. -/
def primary (R : Rules) (calls : Bool) : Step Bool := do
  match ← current with
  | .number | .hexNumber | .string => do
    node .literal bumpAny
    return true
  | .ident => do
    nameOrCall R calls
    return true
  | .lParen => do
    if (← look 1) == .kwBegin then lambda R else parenthesized R
    return true
  | _ => noOperand

/-- The token begins an access to a member or an index. -/
def opensAccess (kind : TokenKind) : Bool := kind == .dot || kind == .arrow || kind == .lBracket

/-- Whether an access may follow here. The limit is looked at only where there is
an access to be refused. -/
def roomForAccess (R : Rules) : Step (Option Unit) := do
  let deep ← if opensAccess (← current) then isTooDeep else pure false
  if deep then
    deepExpression R
    return none
  return some ()

/-- The access to a member or an index of the operand before it, if there is one. -/
def access (R : Rules) (calls : Bool) : Step Bool := do
  match ← current with
  | .dot | .arrow => do
    nodeAround .memberExpr do
      bumpAny
      if ← isAt .ident then nameOrCall R calls
      else complain (.missing .memberName)
    return true
  | .lBracket => do
    nodeAround .memberExpr do
      bump .lBracket
      R.expression 0
      discard <| expect .rBracket .closeBracket
    return true
  | _ => return false

/-- The member accesses and indices after an operand. -/
def accesses (R : Rules) (calls : Bool) : Step Unit :=
  climb (roomForAccess R) (fun _ => access R calls) R.turns

/-- An operand below the limit of nesting. -/
def shallowOperand (R : Rules) (calls : Bool) : Step Bool := do
  match (← current).unaryPower? with
  | some power => do
    node .unaryExpr do
      bumpAny
      -- Inside an argument the operator takes an operand and no more.
      if calls then R.expression power else discard <| R.operand false
    return true
  | none => do
    let there ← primary R calls
    if there then accesses R calls
    return there

/-- An operand with the operators in front of it. -/
def operand (R : Rules) (calls : Bool) : Step Bool := do
  if ← isTooDeep then
    deepExpression R
    return true
  within .nesting (shallowOperand R calls)

/-- The right power of the next token, if it is an operator that may follow here. -/
def roomForOperator (R : Rules) (floor : Nat) : Step (Option Nat) := do
  match (← current).binaryPower? with
  | none => return none
  | some (left, right) => do
    -- A looser operator is left for the expression around this one.
    if left < floor then return none
    if ← isTooDeep then
      deepExpression R
      return none
    return some right

/-- An operator with the operand to its right, around the operand before it. -/
def application (R : Rules) (power : Nat) : Step Bool := do
  nodeAround .binExpr do
    bumpAny
    R.expression power
  return true

/-- The operators after an operand that bind at least with the power, each with
the operand to its right. Every operator deepens what stands to its left. -/
def operators (R : Rules) (floor : Nat) : Step Unit :=
  climb (roomForOperator R floor) (application R) R.turns

/-- An expression whose operators bind at least with the power. -/
def expression (R : Rules) (floor : Nat) : Step Unit := do
  if ← R.operand true then operators R floor

end ScriptSense.Grammar
