/-
Rules that end without an error build whole trees.

One lemma for each rule, in the order of the grammar: the rows that it adds, or the node
that it ends with. A rule that sets something aside complains and need not be shown
anything of, so what is left of each rule is the way through it on which everything was
there. The rules are tied by induction on the number of levels.
-/
import ScriptSense.Proofs.Grammar.Whole
import ScriptSense.Proofs.Totality

set_option autoImplicit false

namespace ScriptSense

namespace Grammar

/-- The rules of a level build whole trees. -/
structure Rules.Whole (R : Rules) : Prop where
  statement : Ends Anything R.statement NodeKind.isStatement
  block : Ends Anything R.block (· == .stmtList)
  branches : Yields Anything R.branches fun _ => OneOf [[.node NodeKind.isBranch], []]
  expression (floor : Nat) : Ends Anything (R.expression floor) NodeKind.isExpression
  operand (calls : Bool) : Ends Anything (R.operand calls) NodeKind.isExpression

/-! ## Recovery -/

/-- A token that is set aside. -/
theorem aside_fails {problem : Problem} (h : problem.severity = .error) :
    Fails (node .error do complain problem; bumpAny) :=
  .node ((Fails.complain h).bind fun _ => bumpAny_alike_word.honest)

/-- Something is missing where words are set aside. -/
theorem setAside_fails (wanted : Wanted) (recovers : TokenKind → Bool) :
    Fails (setAside wanted recovers) := by
  have hmissing : Fails (complain (.missing wanted)) := .complain rfl
  refine .after Sees.current.honest fun kind => .ite hmissing ?_
  exact .after Sees.atLineEnd.honest fun ends => .ite hmissing (aside_fails rfl)

/-- An expression that is too deep is an error. -/
theorem deepExpression_fails (R : Rules) : Fails (deepExpression R) :=
  .node ((Fails.complain rfl).bind fun _ =>
    (Alike.withoutParens (iterate_alike skipToken_alike R.turns R.turns 0)).honest)

/-- A block that is too deep is an error. -/
theorem deepBlock_fails (R : Rules) : Fails (deepBlock R) :=
  .node ((Fails.complain rfl).bind fun _ =>
    .iterate (fun opened => (skipWord_alike opened).honest) R.turns 0)

/-- A missing operand is an error. -/
theorem noOperand_fails : Fails noOperand := by
  have hrest (stops : Bool) : Fails do
      if stops then
        complain (.missing .expression)
        return false
      node .error do
        complain (.missing .expression)
        bumpAny
      return true :=
    .ite ((Fails.complain rfl).bind fun _ => .pure _) ((aside_fails rfl).bind fun _ => .pure _)
  refine .after Sees.atLineEnd.honest fun ends => ?_
  cases ends with
  | true => exact hrest true
  | false => exact .after (Sees.current.map _).honest hrest

/-! ## Ends of lines and names -/

/-- Without an error, the end of a statement is layout. -/
theorem lineEnd_yields (R : Rules) : Yields Anything (lineEnd R) fun _ => OneOf [[]] := by
  refine Yields.eatBreak.andThen (r := fun _ => [[]]) fun broken =>
    .ite (fun _ => .pure .nil) fun _ => ?_
  refine .seeing .atEnd fun ends => .ite (fun _ => .pure .nil) fun _ => .never ?_
  have hpass : Alike .next (fun _ => .next) (R.loop passInLine) (R.loop passInLine) :=
    loop_alike passInLine_alike
  refine .bind (.node ((Fails.complain rfl).bind fun _ => hpass.honest)) fun _ => ?_
  exact (Alike.eatBreak.discard (j := .breaks) fun eaten => by cases eaten <;> decide).honest

/-- A declaration that makes no complaint introduces a name. -/
theorem declaredName_ends (wanted : Wanted) : Ends Anything (declaredName wanted) (· == .name) := by
  refine .seeing (.isAt .ident) fun there => .ite (fun hthere => ?_) fun _ => .never (.complain rfl)
  subst hthere
  have hname : Ends (fun k => (k == .ident) = true) (node .name (modify State.consume))
      (· == .name) :=
    .nodeOfRow (.consume fun k hk => by rw [eq_of_beq hk]; decide) (fun _ h => h) rfl
  exact hname.mono (fun k hk => hk.2.symm) fun _ h => h

/-- A name where it is used. -/
theorem nameRef_ends : Ends Anything (node .nameRef (bump .ident)) (· == .nameRef) :=
  .nodeOfRow (.bump _ (by decide)) (fun _ h => h) rfl

section Expressions

variable {R : Rules}

/-! ## Arguments -/

/-- Between parentheses there are expressions and commas. -/
theorem parenArgument_yields (hR : R.Whole) :
    Yields Anything (parenArgument R) fun _ => AllOf NodeKind.argList.sorts := by
  refine .seeing (.isAt _) fun closed => .ite (fun _ => .pure (.nil _)) fun _ => ?_
  refine .seeing .atLineEnd fun ends => .ite (fun _ => .pure (.nil _)) fun _ => ?_
  refine .seeing .current fun kind => ?_
  have hcomma : Yields Anything (do discard <| eat .comma; return true)
      fun _ => AllOf NodeKind.argList.sorts :=
    (Yields.eatListed (by decide) (by simp [NodeKind.sorts])).discard.andAll fun _ => .pure (.nil _)
  dsimp only
  refine .ite (fun _ => ?_) fun _ => .never ((setAside_fails _ _).bind fun _ => hcomma.honest)
  exact (((hR.expression 0).yields.all (by simp [NodeKind.sorts])).andAll fun _ => hcomma).anywhere

/-- The arguments between parentheses, with both parentheses. -/
theorem parenArguments_yields (hR : R.Whole) :
    Yields Anything (parenArguments R) fun _ => AllOf NodeKind.argList.sorts := by
  refine .andAll (.within _ ?_) fun _ => (Yields.required (by decide) _).all
    (by simp [NodeKind.sorts])
  exact ((Yields.bump _ (by decide)).all (by simp [NodeKind.sorts])).andAll fun _ =>
    .loop (parenArgument_yields hR) R

/-- Whether another argument follows is only looked for. -/
theorem argumentFollows_sees (afterComma : Bool) :
    Sees (argumentFollows afterComma) fun _ _ => True := by
  refine .bindIgnoring .current fun kind => .ite (fun _ => (Sees.pure _).ignoring) fun _ => ?_
  refine .ite (fun _ => ?_) fun _ => (Sees.pure _).ignoring
  exact .bindIgnoring .current fun kind => (Sees.pure _).ignoring

/-- An argument without parentheses is an expression, with a comma or without. -/
theorem bareArgument_yields (hR : R.Whole) (afterComma : Bool) :
    Yields Anything (bareArgument R afterComma) fun _ => AllOf NodeKind.argList.sorts := by
  refine .seeing (argumentFollows_sees afterComma) fun follows =>
    .ite (fun _ => ?_) fun _ => .pure (.nil _)
  have hargument : Yields Anything (discard <| R.operand false)
      fun _ => AllOf NodeKind.argList.sorts :=
    (hR.operand false).discard.yields.all (by simp [NodeKind.sorts])
  have hcomma : Yields Anything (do return some (← eat .comma))
      fun _ => AllOf NodeKind.argList.sorts :=
    (Yields.eatListed (by decide) (by simp [NodeKind.sorts])).andAll fun _ => .pure (.nil _)
  exact (hargument.andAll fun _ => hcomma).anywhere

/-- Arguments without parentheses are expressions and commas. -/
theorem bareArguments_yields (hR : R.Whole) :
    Yields Anything (bareArguments R) fun _ => AllOf NodeKind.argList.sorts :=
  .iterate (bareArgument_yields hR) _ _

/-- Whether a parenthesis opens the arguments is only looked for. -/
theorem opensArguments_sees : Sees opensArguments fun _ _ => True := by
  refine .bindIgnoring (.isAt _) fun there => .ite (fun _ => ?_) fun _ => (Sees.pure _).ignoring
  exact .bindIgnoring (.look 1) fun second => (Sees.pure _).ignoring

/-- Whether a word is a function is only looked for. -/
theorem atFunction_sees (R : Rules) : Sees (atFunction R) fun _ _ => True :=
  .bindIgnoring (.isAt _) fun _ => .ite (fun _ => .textAhead _) fun _ => (Sees.pure _).ignoring

/-- A name, or the call that it begins. -/
theorem nameOrCall_ends (hR : R.Whole) (calls : Bool) :
    Ends Anything (nameOrCall R calls) (fun k => k == .nameRef || k == .funcExpr) := by
  have hname {α : Type} (a : α) : Wraps Anything (· == .nameRef) (pure a : Step α)
      (fun k => k == .nameRef || k == .funcExpr) := .pure _ fun k hk => by rw [hk, Bool.true_or]
  have hargs : Ends Anything
      (node .argList do if ← opensArguments then parenArguments R else bareArguments R)
      (· == .argList) :=
    .nodeOfAll (.seeing opensArguments_sees fun opens => .ite
      (fun _ => (parenArguments_yields hR).anywhere) fun _ => (bareArguments_yields hR).anywhere)
      (List.mem_singleton_self _) rfl
  have hcall (called : Bool) : Wraps Anything (· == .nameRef)
      (do if called then nodeAround .funcExpr (node .argList do
            if ← opensArguments then parenArguments R else bareArguments R))
      (fun k => k == .nameRef || k == .funcExpr) :=
    .ite (fun _ => .nodeOfRow hargs.yields (fun _ h => h) rfl) fun _ => hname _
  -- The name is there in any case. Only what comes behind it decides whether it is called.
  refine .seeing (atFunction_sees R) fun known => ?_
  refine nameRef_ends.anywhere.wrap fun _ => ?_
  dsimp only
  refine .ite (fun _ => .ite (fun _ => hcall true) fun _ => ?_) fun _ => hname _
  exact .seeing (Sees.current.map _) fun called => (hcall called).anywhere

/-! ## Lambdas -/

/-- A declaration in the place of a variable begins with a type. -/
theorem variableDecl_ends : Ends (fun k => k.isTypeName = true) variableDecl (· == .varDecl) := by
  have htype : Yields (fun k => k.isTypeName = true) bumpAny
      fun _ => OneOf [[.token TokenKind.isTypeName]] :=
    .bumpAny fun k hk => by cases k <;> revert hk <;> decide
  exact .nodeOfRow (htype.andThen fun _ => (declaredName_ends _).yields) (fun _ h => h) rfl

/-- A variable is a name or a declaration. -/
theorem variableOrDecl_ends (recovers : TokenKind → Bool) :
    Ends Anything (variableOrDecl recovers) NodeKind.isVariable := by
  refine .seeing .current fun kind => .ite (fun htype => ?_) fun _ => ?_
  · refine variableDecl_ends.mono (fun k hk => hk.2 ▸ htype) fun k hk => ?_
    rw [eq_of_beq hk]
    rfl
  · refine .seeing (.isAt _) fun there => .ite (fun _ => ?_) fun _ => .never (setAside_fails _ _)
    refine nameRef_ends.mono (fun _ _ => trivial) fun k hk => ?_
    rw [eq_of_beq hk]
    rfl

/-- Between braces there are variables and commas. -/
theorem parameter_yields : Yields Anything parameter fun _ => AllOf NodeKind.paramList.sorts := by
  refine .seeing (.isAt _) fun closed => .ite (fun _ => .pure (.nil _)) fun _ => ?_
  refine .seeing .atLineEnd fun ends => .ite (fun _ => .pure (.nil _)) fun _ => ?_
  refine .anywhere
    (((variableOrDecl_ends _).yields.all (by simp [NodeKind.sorts])).andAll fun _ => ?_)
  exact (Yields.eatListed (by decide) (by simp [NodeKind.sorts])).discard.andAll fun _ =>
    .pure (.nil _)

/-- The parameters of a lambda are a whole node. -/
theorem parameters_ends (R : Rules) : Ends Anything (parameters R) (· == .paramList) := by
  refine .nodeOfAll
    (((Yields.bump _ (by decide)).all (by simp [NodeKind.sorts])).andAll fun _ => ?_)
    (List.mem_singleton_self _) rfl
  exact (Yields.loop parameter_yields R).andAll fun _ =>
    (Yields.required (by decide) _).all (by simp [NodeKind.sorts])

/-- A lambda is an expression. -/
theorem lambda_ends (hR : R.Whole) : Ends Anything (lambda R) NodeKind.isExpression := by
  -- From the back to the front: the block with its end, the head before it, then the
  -- parentheses.
  have hbody : Yields Anything (do
      lineEnd R
      within .begins R.block
      discard <| expect .kwEnd .kwEnd) fun _ => OneOf [[.one .stmtList, .word .kwEnd]] :=
    (lineEnd_yields R).andThen fun _ => (Yields.within _ hR.block.yields).andThen fun _ =>
      .required (by decide) _
  have hheader : Yields Anything (do
      declaredName .blockType
      if ← isAt .lBrace then parameters R
      lineEnd R
      within .begins R.block
      discard <| expect .kwEnd .kwEnd) fun _ => OneOf
        [[.one .name, .one .paramList, .one .stmtList, .word .kwEnd],
          [.one .name, .one .stmtList, .word .kwEnd]] := by
    refine (declaredName_ends _).yields.andThen (r := fun _ =>
      [[.one .paramList, .one .stmtList, .word .kwEnd], [.one .stmtList, .word .kwEnd]]) fun _ => ?_
    refine .seeing (.isAt _) fun braces => ?_
    dsimp only
    refine .ite (fun _ => ?_) fun _ => hbody.among (by simp)
    exact ((parameters_ends R).yields.andThen fun _ => hbody).among (by simp)
  have hinside := (Yields.bump (φ := Anything) .lParen (by decide)).andThen fun _ =>
    (Yields.bump .kwBegin (by decide)).andThen fun _ => hheader
  exact .nodeOfRow (hinside.withoutParens.andThen fun _ => .required (by decide) _)
    (fun _ h => h) rfl

/-! ## Operands -/

/-- A parenthesis around an expression is an expression. -/
theorem parenthesized_ends (hR : R.Whole) :
    Ends Anything (parenthesized R) NodeKind.isExpression := by
  have hinside := (Yields.bump (φ := Anything) .lParen (by decide)).andThen fun _ =>
    (hR.expression 0).yields
  exact .nodeOfRow ((hinside.within _).andThen fun _ => .required (by decide) _) (fun _ h => h) rfl

/-- A literal is an expression. -/
theorem literal_ends :
    Ends (fun k => k.isLiteral = true) (node .literal bumpAny) NodeKind.isExpression := by
  refine .nodeOfRow (.bumpAny fun k hk => ?_) (fun _ h => h) rfl
  cases k <;> revert hk <;> decide

/-- The innermost operand is an expression. -/
theorem primary_ends (hR : R.Whole) (calls : Bool) :
    Ends Anything (primary R calls) NodeKind.isExpression := by
  have hdone : Wraps Anything NodeKind.isExpression (pure true : Step Bool) NodeKind.isExpression :=
    .pure _ fun _ h => h
  refine .seeing .current fun kind => ?_
  -- One case for each kind of token that an operand can begin with.
  split
  · exact (literal_ends.mono (fun k hk => by rw [← hk.2]; rfl) fun _ h => h).wrap fun _ => hdone
  · exact (literal_ends.mono (fun k hk => by rw [← hk.2]; rfl) fun _ h => h).wrap fun _ => hdone
  · exact (literal_ends.mono (fun k hk => by rw [← hk.2]; rfl) fun _ h => h).wrap fun _ => hdone
  · refine ((nameOrCall_ends hR calls).mono (fun _ _ => trivial) fun k hk => ?_).wrap fun _ => hdone
    rcases Bool.or_eq_true_iff.1 hk with hk | hk <;> rw [eq_of_beq hk] <;> rfl
  · refine .seeing (.look 1) fun second => ?_
    dsimp only
    refine .ite (fun _ => ?_) fun _ => ?_
    · exact (lambda_ends hR).anywhere.wrap fun _ => hdone
    · exact (parenthesized_ends hR).anywhere.wrap fun _ => hdone
  · exact .never noOperand_fails

/-- Whether another access would be too deep is only looked for. -/
theorem roomForAccess_sees (R : Rules) : Sees (roomForAccess R) fun _ _ => True := by
  have hrest (deep : Bool) : Sees
      (do if deep then deepExpression R; return none else return some ()) fun _ _ => True :=
    .ite (fun _ => .never ((deepExpression_fails R).bind fun _ => .pure _)) fun _ =>
      (Sees.pure _).ignoring
  refine .bindIgnoring .current fun kind => .ite (fun _ => ?_) fun _ => ?_
  · exact .bindIgnoring .isTooDeep hrest
  · exact hrest false

/-- An access around an expression is an expression. -/
theorem access_wraps (hR : R.Whole) (calls : Bool) :
    Wraps Anything NodeKind.isExpression (access R calls) NodeKind.isExpression := by
  have hdone : Wraps Anything NodeKind.isExpression (pure true : Step Bool) NodeKind.isExpression :=
    .pure _ fun _ h => h
  -- The two forms of an access differ in what stands behind the operand, not in the operand.
  have hmember : Yields (fun k => k == .dot || k == .arrow) (do
      bumpAny
      if ← isAt .ident then nameOrCall R calls else complain (.missing .memberName))
      fun _ => OneOf [[.token (fun k => k == .dot || k == .arrow),
        .node (fun k => k == .nameRef || k == .funcExpr)]] := by
    refine (Yields.bumpAny fun k hk => ?_).andThen
      (r := fun _ => [[.node (fun k => k == .nameRef || k == .funcExpr)]]) fun _ => ?_
    · cases k <;> revert hk <;> decide
    · exact .seeing (.isAt _) fun there => .ite
        (fun _ => (nameOrCall_ends hR calls).yields.anywhere) fun _ => .never (.complain rfl)
  have hindex : Yields Anything (do
      bump .lBracket
      R.expression 0
      discard <| expect .rBracket .closeBracket)
      fun _ => OneOf [[.word .lBracket, .expression, .word .rBracket]] :=
    (Yields.bump _ (by decide)).andThen fun _ => (hR.expression 0).yields.andThen fun _ =>
      .required (by decide) _
  have hname : Wraps (fun k => k == .dot || k == .arrow) NodeKind.isExpression
      (nodeAround .memberExpr do
        bumpAny
        if ← isAt .ident then nameOrCall R calls else complain (.missing .memberName))
      NodeKind.isExpression :=
    .nodeOfRow hmember (fun _ h => List.mem_cons.2 (.inl (by simpa using h))) rfl
  refine .seeing .current fun kind => ?_
  split
  · exact (hname.mono (fun k hk => by rw [← hk.2]; rfl) fun _ h => h).bind fun _ => hdone
  · exact (hname.mono (fun k hk => by rw [← hk.2]; rfl) fun _ h => h).bind fun _ => hdone
  · refine .bind (.anywhere (.nodeOfRow hindex ?_ rfl)) fun _ => hdone
    exact fun _ h => List.mem_cons.2 (.inr (by simpa using h))
  · exact .pure _ fun _ h => h

/-- So are all accesses behind an operand. -/
theorem accesses_wraps (hR : R.Whole) (calls : Bool) :
    Wraps Anything NodeKind.isExpression (accesses R calls) NodeKind.isExpression :=
  .climb ((roomForAccess_sees R).mono fun _ _ _ _ _ => trivial) (fun _ => access_wraps hR calls) _

/-- An operand without signs is an expression. -/
theorem shallowOperand_ends (hR : R.Whole) (calls : Bool) :
    Ends Anything (shallowOperand R calls) NodeKind.isExpression := by
  have hdone (there : Bool) : Wraps Anything NodeKind.isExpression (pure there : Step Bool)
      NodeKind.isExpression := .pure _ fun _ h => h
  refine .seeing .current fun kind => ?_
  split
  · next power hpower =>
    -- Behind a sign, a whole expression or an operand alone, as the setting has it.
    have hsign : Yields (fun k => k.unaryPower?.isSome = true) bumpAny
        fun _ => OneOf [[.token (·.unaryPower?.isSome)]] :=
      .bumpAny fun k hk => by cases k <;> revert hk <;> decide
    have hinside := hsign.andThen
      (f := fun _ => if calls then R.expression power else discard <| R.operand false)
      (r := fun _ => [[.expression]]) fun _ =>
        .ite (fun _ => (hR.expression power).yields) fun _ => (hR.operand false).discard.yields
    refine .wrap (.mono (.nodeOfRow hinside (fun _ h => h) rfl) (fun k hk => ?_) fun _ h => h)
      fun _ => hdone true
    rw [← hk.2, hpower]
    rfl
  · refine (primary_ends hR calls).anywhere.wrap fun there => ?_
    exact .ite (fun _ => (accesses_wraps hR calls).bind fun _ => hdone there) fun _ => hdone there

/-- An operand with its signs is an expression. -/
theorem operand_ends (hR : R.Whole) (calls : Bool) :
    Ends Anything (operand R calls) NodeKind.isExpression := by
  refine .seeing .isTooDeep fun deep => .ite (fun _ => .never ?_) fun _ => ?_
  · exact (deepExpression_fails R).bind fun _ => .pure _
  · exact ((shallowOperand_ends hR calls).within _).anywhere

/-! ## Operators -/

/-- Where there is room for an operator, a binary one is ahead. -/
theorem roomForOperator_sees (R : Rules) (floor : Nat) : Sees (roomForOperator R floor)
    fun found k => ∀ power, found = some power → k.binaryPower?.isSome = true := by
  have hnone : Sees (pure none : Step (Option Nat)) fun found _ => found = none := .pure _
  refine .bind .current fun kind => ?_
  split
  · exact hnone.mono fun _ _ h _ _ hfound => by rw [h] at hfound; cases hfound
  · next left right hpower =>
    -- Whatever is answered here, an operator is next.
    have hthere {found : Option Nat} {k : TokenKind} (hk : kind = k) : ∀ power, found = some power →
        k.binaryPower?.isSome = true := by
      intro _ _
      rw [← hk, hpower]
      rfl
    refine .ite (fun _ => hnone.mono fun _ _ _ hk => hthere hk) fun _ => ?_
    refine (Sees.bindIgnoring .isTooDeep fun deep => .ite (fun _ => .never ?_) fun _ => ?_).mono
      fun _ _ _ hk => hthere hk
    · exact (deepExpression_fails R).bind fun _ => .pure _
    · exact (Sees.pure _).ignoring

/-- An operator with its operands is an expression. -/
theorem application_wraps (hR : R.Whole) (power : Nat) :
    Wraps (fun k => k.binaryPower?.isSome = true) NodeKind.isExpression (application R power)
      NodeKind.isExpression := by
  have hoperator : Yields (fun k => k.binaryPower?.isSome = true) bumpAny
      fun _ => OneOf [[.token (·.binaryPower?.isSome)]] :=
    .bumpAny fun k hk => by cases k <;> revert hk <;> decide
  have hinside := hoperator.andThen fun _ => (hR.expression power).yields
  exact .bind (.nodeOfRow hinside (fun _ h => h) rfl) fun _ => .pure _ fun _ h => h

/-- An expression that makes no complaint is one whole node. -/
theorem expression_ends (hR : R.Whole) (floor : Nat) :
    Ends Anything (expression R floor) NodeKind.isExpression := by
  refine (hR.operand true).wrap fun there => .ite (fun _ => ?_) fun _ => .pure _ fun _ h => h
  exact .climb (roomForOperator_sees R floor) (application_wraps hR) _

/-! ## Statements of one line -/

/-- A declaration begins with a type and is a statement. -/
theorem declaration_ends (hR : R.Whole) :
    Ends (fun k => k.isTypeName = true) (declaration R) NodeKind.isStatement := by
  have hvalue : Yields Anything (do
      if ← eat .colonEq then R.expression 0
      lineEnd R) fun _ => OneOf [[.word .colonEq, .expression], []] :=
    (Yields.eat (by decide)).branch (fun _ => [[.expression]]) (fun _ => [[]])
      ((hR.expression 0).yields.andThen fun _ => lineEnd_yields R) (lineEnd_yields R)
  exact .nodeOfRow (variableDecl_ends.yields.andThen fun _ => hvalue) (fun _ h => h) rfl

/-- An assignment with `set` is a statement. -/
theorem setStatement_ends (hR : R.Whole) : Ends Anything (setStatement R) NodeKind.isStatement := by
  have hvalue : Yields Anything (do
      if ← expect .kwTo .kwTo then R.expression 0
      lineEnd R) fun _ => OneOf [[.word .kwTo, .expression]] :=
    (Yields.expect (by decide) _).branch (fun _ => [[.expression]]) (fun _ => [[]])
      ((hR.expression 0).yields.andThen fun _ => lineEnd_yields R) (lineEnd_yields R)
  have hinside := (Yields.bump (φ := Anything) .kwSet (by decide)).andThen fun _ =>
    (hR.expression 0).yields.andThen fun _ => hvalue
  exact .nodeOfRow hinside (fun _ h => h) rfl

/-- An assignment with `let` is a statement. -/
theorem letStatement_ends (hR : R.Whole) : Ends Anything (letStatement R) NodeKind.isStatement := by
  have hinside := (Yields.bump (φ := Anything) .kwLet (by decide)).andThen fun _ =>
    (hR.expression 0).yields.andThen fun _ => lineEnd_yields R
  exact .nodeOfRow hinside (fun _ h => h) rfl

/-- A return is a statement, with a value or without. -/
theorem returnStatement_ends (hR : R.Whole) :
    Ends Anything (returnStatement R) NodeKind.isStatement := by
  have hvalue : Yields Anything (do
      if (← current).canStartExpression then R.expression 0
      lineEnd R) fun _ => OneOf [[.expression], []] := by
    refine .seeing .current fun kind => .ite (fun _ => ?_) fun _ => ?_
    · exact ((hR.expression 0).yields.andThen fun _ => lineEnd_yields R).among (by simp)
    · exact (lineEnd_yields R).among (by simp)
  have hinside := (Yields.bump (φ := Anything) .kwReturn (by decide)).andThen fun _ => hvalue
  exact .nodeOfRow hinside (fun _ h => h) rfl

/-- A statement of one word has this word as its row. -/
theorem wordStatement_ends (R : Rules) {word : TokenKind} {kind : NodeKind}
    (hword : word.isSignificant = true ∧ word ≠ .eof)
    (hrow : [.word word] ∈ kind.rows) (hkind : kind.isStatement = true) :
    Ends Anything (wordStatement R word kind) NodeKind.isStatement :=
  .nodeOfRow ((Yields.bump _ hword).andThen fun _ => lineEnd_yields R)
    (by simpa using hrow) hkind

/-- An expression on its own line is a statement. -/
theorem expressionStatement_ends (hR : R.Whole) :
    Ends Anything (expressionStatement R) NodeKind.isStatement :=
  .nodeOfRow ((hR.expression 0).yields.andThen fun _ => lineEnd_yields R) (fun _ h => h) rfl

/-! ## Blocks -/

/-- A turn of a block is a statement or the end of an empty line. -/
theorem blockTurn_yields (hR : R.Whole) :
    Yields Anything (blockTurn R) fun _ => AllOf NodeKind.stmtList.sorts := by
  refine .seeing .atEnd fun ends => .ite (fun _ => .pure (.nil _)) fun _ => ?_
  refine .seeing .current fun kind => .ite (fun _ => .pure (.nil _)) fun _ => ?_
  refine (Yields.eatBreak.all (by simp)).andAll fun broken =>
    .ite (fun _ => .pure (.nil _)) fun _ => ?_
  exact (hR.statement.yields.all (by simp [NodeKind.sorts])).andAll fun _ => .pure (.nil _)

/-- A block is a list of statements. -/
theorem block_ends (hR : R.Whole) : Ends Anything (block R) (· == .stmtList) := by
  have hstatements := (Yields.loop (blockTurn_yields hR) R).within .nesting
  exact .nodeOfAll (.seeing .isTooDeep fun deep =>
    .ite (fun _ => .never (deepBlock_fails R)) fun _ => hstatements.anywhere)
    (List.mem_singleton_self _) rfl

/-- A block that makes no complaint is closed by its word. -/
theorem closing_yields (R : Rules) (kind : TokenKind)
    (hkind : kind.isSignificant = true ∧ kind ≠ .eof) (wanted : Wanted) :
    Yields Anything (closing R kind wanted) fun _ => OneOf [[.word kind]] :=
  (Yields.expect hkind wanted).branch (fun _ => [[]]) (fun _ => [[]]) (lineEnd_yields R)
    (.pure .nil)

/-- Behind the first branch there is another one or none. -/
theorem branches_yields (hR : R.Whole) :
    Yields Anything (branches R) fun _ => OneOf [[.node NodeKind.isBranch], []] := by
  have hblock : Yields Anything (do lineEnd R; R.block) fun _ => OneOf [[.one .stmtList]] :=
    (lineEnd_yields R).andThen fun _ => hR.block.yields
  -- A branch may be followed by more of them, which are its last child.
  have hmore : Yields Anything (do lineEnd R; R.block; R.branches)
      fun _ => OneOf [[.one .stmtList, .node NodeKind.isBranch], [.one .stmtList]] :=
    (lineEnd_yields R).andThen fun _ => hR.block.yields.andThen fun _ => hR.branches
  have helseIf : Ends Anything (node .elseIfBranch do
      bump .kwElseIf; R.expression 0; lineEnd R; R.block; R.branches) NodeKind.isBranch :=
    .nodeOfRow
      ((Yields.bump _ (by decide)).andThen fun _ => (hR.expression 0).yields.andThen fun _ => hmore)
      (fun _ h => h) rfl
  have helse :
      Ends Anything (node .elseBranch do bump .kwElse; lineEnd R; R.block) NodeKind.isBranch :=
    .nodeOfRow ((Yields.bump _ (by decide)).andThen fun _ => hblock) (fun _ h => h) rfl
  refine .seeing (.isAt _) fun there => .ite (fun _ => helseIf.yields.among (by simp)) fun _ => ?_
  refine .seeing (.isAt _) fun there => .ite (fun _ => helse.yields.among (by simp)) fun _ => ?_
  exact .pure (OneOf.nil.mono (by simp))

/-- A condition with its branches is a statement. -/
theorem ifStatement_ends (hR : R.Whole) : Ends Anything (ifStatement R) NodeKind.isStatement := by
  have hinside := (Yields.bump (φ := Anything) .kwIf (by decide)).andThen fun _ =>
    (hR.expression 0).yields.andThen fun _ => (lineEnd_yields R).andThen fun _ =>
      hR.block.yields.andThen fun _ => hR.branches.andThen fun _ =>
        closing_yields R .kwEndIf (by decide) .kwEndIf
  exact .nodeOfRow hinside (fun _ h => h) rfl

/-- A loop with a condition is a statement. -/
theorem whileStatement_ends (hR : R.Whole) :
    Ends Anything (whileStatement R) NodeKind.isStatement := by
  have hinside := (Yields.bump (φ := Anything) .kwWhile (by decide)).andThen fun _ =>
    (hR.expression 0).yields.andThen fun _ => (lineEnd_yields R).andThen fun _ =>
      hR.block.yields.andThen fun _ => closing_yields R .kwLoop (by decide) .kwLoop
  exact .nodeOfRow hinside (fun _ h => h) rfl

/-- A loop over an array is a statement. -/
theorem foreachStatement_ends (hR : R.Whole) :
    Ends Anything (foreachStatement R) NodeKind.isStatement := by
  have hbody : Yields Anything (do
      lineEnd R
      R.block
      closing R .kwLoop .kwLoop) fun _ => OneOf [[.one .stmtList, .word .kwLoop]] :=
    (lineEnd_yields R).andThen fun _ => hR.block.yields.andThen fun _ =>
      closing_yields R _ (by decide) _
  -- The arrow decides whether there is a collection. Without it a complaint is made, so the run
  -- is not clean.
  have hcollection : Yields Anything (do
      if ← expect .lArrow .arrow then R.expression 0
      lineEnd R
      R.block
      closing R .kwLoop .kwLoop)
      fun _ => OneOf [[.word .lArrow, .expression, .one .stmtList, .word .kwLoop]] :=
    (Yields.expect (by decide) _).branch (fun _ => [[.expression, .one .stmtList, .word .kwLoop]])
      (fun _ => [[.one .stmtList, .word .kwLoop]])
      ((hR.expression 0).yields.andThen fun _ => hbody) hbody
  have hinside := (Yields.bump (φ := Anything) .kwForeach (by decide)).andThen fun _ =>
    (variableOrDecl_ends (· == .lArrow)).yields.andThen fun _ => hcollection
  exact .nodeOfRow hinside (fun _ h => h) rfl

/-- A block of a script is a statement. -/
theorem beginStatement_ends (hR : R.Whole) :
    Ends Anything (beginStatement R) NodeKind.isStatement := by
  have hbody : Yields Anything (do
      lineEnd R
      within .begins R.block
      closing R .kwEnd .kwEnd) fun _ => OneOf [[.one .stmtList, .word .kwEnd]] :=
    (lineEnd_yields R).andThen fun _ => (hR.block.yields.within _).andThen fun _ =>
      closing_yields R _ (by decide) _
  have hargs : Ends Anything (node .argList (bareArguments R)) (· == .argList) :=
    .nodeOfAll (bareArguments_yields hR) (List.mem_singleton_self _) rfl
  -- The block type is followed by parameters, by arguments or by nothing.
  have hheader : Yields Anything (do
      if ← isAt .lBrace then parameters R
      else if (← current).canStartArgument then
        node .argList (bareArguments R)
      lineEnd R
      within .begins R.block
      closing R .kwEnd .kwEnd) fun _ => OneOf
        [[.one .paramList, .one .stmtList, .word .kwEnd],
          [.one .argList, .one .stmtList, .word .kwEnd], [.one .stmtList, .word .kwEnd]] := by
    refine .seeing (.isAt _) fun braces => ?_
    dsimp only
    refine .ite (fun _ => ?_) fun _ => .seeing .current fun kind => .ite (fun _ => ?_) fun _ => ?_
    · exact ((parameters_ends R).yields.andThen fun _ => hbody).among (by simp)
    · exact (hargs.yields.andThen fun _ => hbody).among (by simp)
    · exact hbody.among (by simp)
  have hinside := (Yields.bump (φ := Anything) .kwBegin (by decide)).andThen fun _ =>
    (declaredName_ends .blockType).yields.andThen fun _ => hheader
  exact .nodeOfRow hinside (fun _ h => h) rfl

/-- A block of a script is a statement wherever it is allowed. -/
theorem beginOrNested_ends (hR : R.Whole) :
    Ends Anything (beginOrNested R) NodeKind.isStatement := by
  refine .seeing .isOutside fun outside => .ite (fun _ => ?_) fun _ => .never ?_
  · exact (beginStatement_ends hR).anywhere
  · exact .node ((Fails.complain rfl).bind fun _ => (beginStatement_ends hR).honest)

/-- A statement that makes no complaint is one whole node. -/
theorem statement_ends (hR : R.Whole) : Ends Anything (statement R) NodeKind.isStatement := by
  refine .seeing .current fun kind => ?_
  split
  case h_8 => exact (setStatement_ends hR).anywhere
  case h_9 => exact (letStatement_ends hR).anywhere
  case h_10 => exact (ifStatement_ends hR).anywhere
  case h_11 => exact (whileStatement_ends hR).anywhere
  case h_12 => exact (foreachStatement_ends hR).anywhere
  case h_13 => exact (beginOrNested_ends hR).anywhere
  case h_14 => exact (returnStatement_ends hR).anywhere
  case h_15 => exact (wordStatement_ends R (by decide) (List.mem_singleton_self _) rfl).anywhere
  case h_16 => exact (wordStatement_ends R (by decide) (List.mem_singleton_self _) rfl).anywhere
  case h_17 => exact (expressionStatement_ends hR).anywhere
  -- What is left are the words for types.
  all_goals exact (declaration_ends hR).mono (fun k hk => by rw [← hk.2]; rfl) fun _ h => h

/-! ## Scripts -/

/-- Line breaks in front of a script are not among its elements. -/
theorem lineBreaks_yields (R : Rules) : Yields Anything (lineBreaks R) fun _ => OneOf [[]] := by
  have hbreak : Yields Anything (eat .newline) fun _ => AllOf [] := Yields.eatBreak.all (by simp)
  exact (hbreak.loop R).mono (fun _ h => h) fun _ _ h => h.eq_nil ▸ .nil

/-- The name of a script is a whole node. -/
theorem scriptName_ends (R : Rules) : Ends Anything (scriptName R) (· == .scriptNameDecl) := by
  have hinside := (Yields.bump (φ := Anything) .kwScriptName (by decide)).andThen fun _ =>
    (declaredName_ends .scriptName).yields.andThen fun _ => lineEnd_yields R
  exact .nodeOfRow hinside (fun _ h => h) rfl

/-- A word that closes nothing is an error. -/
theorem strayCloser_yields {P : Unit → List Tree → Prop} (closer : Closer) :
    Yields (fun k => closesBlock k = true) (strayCloser closer) P := by
  refine .seeing (Sees.current.map fun _ => ()) fun _ => .seeing .atLineEnd fun ends => ?_
  refine .ite (fun hends => .absurd (.pure _) ?_) fun _ => .never (aside_fails rfl)
  rintro k ⟨⟨hk, -⟩, rfl⟩
  revert hk hends
  cases k <;> decide

/-- What stands at the top of a script is a statement. -/
theorem topLevel_yields (hR : R.Whole) :
    Yields Anything (topLevel R) fun _ => OneOf [[.node NodeKind.isStatement]] := by
  refine .seeing .current fun kind => ?_
  dsimp only
  split
  · exact .never ((Fails.complain rfl).bind fun _ => (scriptName_ends R).honest)
  · split
    · next closer hcloser =>
      refine (strayCloser_yields closer).mono (fun k hk => ?_) fun _ _ h => h
      rw [closesBlock, ← hk.2, hcloser]
      rfl
    · refine .ite (fun _ => ?_) fun _ => ?_
      · exact hR.statement.yields.anywhere
      · exact (Yields.complain (P := fun _ => OneOf [[]]) .nil).andThen fun _ => hR.statement.yields

/-- A turn of a script is a statement or nothing. -/
theorem scriptTurn_yields (hR : R.Whole) :
    Yields Anything (scriptTurn R) fun _ => AllOf NodeKind.script.sorts := by
  refine .seeing .atEnd fun ends => .ite (fun _ => .pure (.nil _)) fun _ => ?_
  refine (Yields.eatBreak.all (by simp)).andAll fun broken =>
    .ite (fun _ => .pure (.nil _)) fun _ => ?_
  exact ((topLevel_yields hR).all (by simp [NodeKind.sorts])).andAll fun _ => .pure (.nil _)

/-- A script that makes no complaint is whole. -/
theorem script_yields (hR : R.Whole) :
    Yields Anything (script R) fun _ => NodeKind.script.IsWhole := by
  have hstatements := Yields.loop (scriptTurn_yields hR) R
  refine (lineBreaks_yields R).bind fun _ => .seeing (.isAt _) fun named => .ite (fun _ => ?_)
    fun _ =>
    .never ((Fails.complain rfl).bind fun _ => hstatements.honest)
  refine (scriptName_ends R).yields.anywhere.bind fun _ => ?_
  refine hstatements.mono (fun _ h => h) fun _ rest hrest row hrow front hfront => ?_
  exact ⟨front ++ row, rest, (List.append_assoc ..).symm, hfront.append hrow, hrest⟩

end Expressions

/-! ## All levels -/

/-- Where all levels are used up nothing is clean. -/
theorem whole_exhausted (f : String → Bool) : (Rules.exhausted f).Whole where
  statement := .never (.giveUp _)
  block := .never (.giveUp _)
  branches := .never (.giveUp _)
  expression _ := .never (.giveUp _)
  operand _ := .never ((Fails.giveUp _).bind fun _ => .pure _)

/-- **The rules of every level build whole trees.** -/
theorem whole_rules (f : String → Bool) (levels : Nat) : (rules f levels).Whole := by
  induction levels with
  | zero => exact whole_exhausted f
  | succ n ih =>
    exact ⟨statement_ends ih, block_ends ih, branches_yields ih, expression_ends ih,
      operand_ends ih⟩

end Grammar

/-- **Nothing is missing in a script**: what was read of it is whole, and what was not is
no node. -/
structure WholeScript (root : Tree) : Prop where
  whole : ∀ c ∈ root.children, c.Whole
  split : ∃ (built : List Tree) (left : List Token),
    root.children = built ++ left.map .leaf ∧ NodeKind.script.IsWhole (solid built)

open Grammar in
/-- **A script that is read without an error is whole.** -/
theorem wholeScript_parseWith {isFunction : String → Bool} {text : String}
    (h : ∀ c ∈ (parseWith isFunction text).complaints, c.severity ≠ .error) :
    WholeScript (parseWith isFunction text).root := by
  set start := State.initial (tokens text) with hstart
  set s := run isFunction script (tokens text) with hs
  have hclean : s.Clean := ⟨fault_run_script isFunction (tokens text), h⟩
  have hwhole := whole_rules isFunction (levelsFor start.rest.length)
  obtain ⟨built, hout, hbuilt, hscript⟩ := (script_yields hwhole).yields start hclean trivial
  -- The children are what was built, and the trivia that were left.
  have hchildren : (parseWith isFunction text).root.children = built ++ s.rest.map .leaf := by
    have hroot :
        (parseWith isFunction text).root.children = (s.shiftMany s.rest.length).out.toList := rfl
    have hempty : start.out.toList = [] := rfl
    rw [hempty, List.nil_append] at hout
    rw [hroot, State.toList_out_shiftMany, List.take_length]
    exact congrArg (· ++ s.rest.map .leaf) hout
  refine ⟨fun c hc => ?_, built, s.rest, hchildren, hscript⟩
  rw [hchildren, List.mem_append] at hc
  rcases hc with hc | hc
  · exact hbuilt c hc
  · obtain ⟨t, -, rfl⟩ := List.mem_map.1 hc
    exact .leaf t

end ScriptSense
