/-
The rules of expressions record what they build.

Each rule is gone through once, beside the rule of the same name on the side of the tree:
the marks that the one sets and settles are the nodes of the other.
-/
import ScriptSense.Proofs.Grammar.Binding
import ScriptSense.Proofs.Record.Tracking

set_option autoImplicit false

namespace ScriptSense.Record

variable {σ : Type} {f : String → Bool} {known : Known}

/-- **The rules used by a rule record those used by the rule of the tree.** -/
structure Rules.Match (f : String → Bool) (R : Rules) (R' : Grammar.Rules) : Prop where
  turns : R'.turns = R.turns
  isFunction : R'.isFunction = f
  statement {known : Known} :
    Records f known R.statement R'.statement (fun _ => ()) fun _ => .nothing
  block {known : Known} : Records f known R.block R'.block (fun _ => ()) fun _ => .nothing
  branches {known : Known} :
    Records f known R.branches R'.branches (fun _ => ()) fun _ => .nothing
  expression {known : Known} (floor : Nat) :
    Records f known (R.expression floor) (R'.expression floor) (fun _ => ()) fun _ => .nothing
  operand {known : Known} (calls : Bool) :
    Records f known (R.operand calls) (R'.operand calls) Option.isSome
      fun found => found.elim .nothing .operand

/-! ## Loops -/

namespace Records

/-- Whether a loop goes on, and with what, can be either of the two. -/
theorem onto_turnOf (x : σ) (b : Option σ) :
    ∃ turn : ForInStep σ, turnOf (fun x => x) turn = b := by
  cases b with
  | none => exact ⟨.done x, rfl⟩
  | some y => exact ⟨.yield y, rfl⟩

/-- The loop turns again. -/
theorem goOn (x : σ) : Records f known (Pure.pure (.yield x)) (Pure.pure (some x))
    (turnOf fun x => x) fun _ => .nothing :=
  .pure _ _ (onto_turnOf x) rfl Known.Holds.written

/-- The loop ends. -/
theorem leaveOff (x : σ) : Records f known (Pure.pure (.done x)) (Pure.pure none)
    (turnOf fun x => x) fun _ => .nothing :=
  .pure _ _ (onto_turnOf x) rfl Known.Holds.written

end Records

open Records (goOn leaveOff)

section Rules

variable {R : Rules} {R' : Grammar.Rules}

/-- A loop from a first value, with the fuel that both parsers are given. -/
theorem loopFrom_records (hR : R.Match f R') {start : σ} {step : σ → Step (ForInStep σ)}
    {step' : σ → Grammar.Step (Option σ)}
    (h : ∀ x, Records f .nothing (step x) (step' x) (turnOf fun x => x) fun _ => .nothing) :
    Records f known (R.loopFrom start step) (R'.loopFrom start step') (fun _ => ())
      fun _ => .nothing := by
  rw [Rules.loopFrom, Grammar.Rules.loopFrom, hR.turns]
  exact (Records.iterate h _ _).dropped

/-- A loop that goes on as long as its step says so. -/
theorem loop_records (hR : R.Match f R') {step : Step Bool} {step' : Grammar.Step Bool}
    (h : Records f .nothing step step' (fun again => again) fun _ => .nothing) :
    Records f known (R.loop step) (R'.loop step') (fun _ => ()) fun _ => .nothing := by
  refine loopFrom_records hR fun x => h.bind fun again => ?_
  cases again with
  | true => exact goOn ()
  | false => exact leaveOff ()

/-- A line break is taken alone, in the record and by the reading. -/
theorem breakOr_records {step : Step Unit} {step' : Grammar.Step Unit}
    (h : Records f .nothing step step' (fun _ => ()) fun _ => .nothing) :
    Records f known (breakOr step) (Grammar.breakOr step') (fun again => again)
      fun _ => .nothing := by
  refine (Records.eat (by decide)).bind fun broke => ?_
  cases broke with
  | true => exact .answer true
  | false => exact h.bind fun _ => .answer true

/-! ## Recovery -/

/-- The next token is complained about and set aside, unless it is one of those that
`recovers` names or the line ends here. -/
def settingAside (problem : Problem) (recovers : TokenKind → Bool) : Grammar.Step Unit := do
  if recovers (← Grammar.current) then Grammar.complain problem
  else if ← Grammar.atLineEnd then Grammar.complain problem
  else
    Grammar.node .error do
      Grammar.complain problem
      Grammar.bumpAny

/-- Words set aside form an error node, unless recovery begins at the very first of them. -/
theorem settingAside_records (problem : Problem) (recovers : TokenKind → Bool) :
    Records f known (setAside problem recovers) (settingAside problem recovers) (fun _ => ())
      fun _ => .nothing := by
  unfold setAside settingAside
  refine Records.current.bind fun kind => ?_
  by_cases hrecovers : recovers kind = true
  · simp only [if_pos hrecovers, pure_bind]
    exact .complain problem
  · simp only [if_neg hrecovers]
    exact Records.atLineEnd.bind fun ends => .ite (fun _ => .complain problem) fun _ =>
      .nodeDone (.bind (.complain problem) fun _ => .lastDone .bumpAny)

/-- What is found in the place of something missing is set aside. -/
theorem setAside_records (wanted : Wanted) (recovers : TokenKind → Bool) :
    Records f known (setAside (.missing wanted) recovers) (Grammar.setAside wanted recovers)
      (fun _ => ()) fun _ => .nothing :=
  settingAside_records (.missing wanted) recovers

/-- One token of the line is passed over. -/
theorem passInLine_records : Records f known passInLine Grammar.passInLine (fun again => again)
    fun _ => .nothing :=
  Records.atLineEnd.bind fun _ => .ite (fun _ => .answer false) fun _ =>
    Records.bumpAny.bind fun _ => .answer true

/-- What is left over on the line stands in an error node, and the line break behind it alone. -/
theorem lineEnd_records (hR : R.Match f R') :
    Records f known (lineEnd R) (Grammar.lineEnd R') (fun _ => ()) fun _ => .nothing := by
  refine (Records.eat (by decide)).bind fun _ => .ite (fun _ => .done) fun _ =>
    Records.atEnd.bind fun _ => .ite (fun _ => .done) fun _ => ?_
  exact .node (.bind (.complain _) fun _ => .lastThen (loop_records hR passInLine_records))
    fun _ => (Records.eat (by decide)).discard

/-- One token of an expression that is too deep, with the parentheses counted. -/
theorem skipToken_records (opened : Nat) : Records f known (skipToken opened)
    (Grammar.skipToken opened) (turnOf fun opened => opened) fun _ => .nothing := by
  refine Records.atLineEnd.bind fun _ => .ite (fun _ => leaveOff opened) fun _ =>
    Records.current.bind fun kind => ?_
  cases kind
  case rParen | rBracket | rBrace =>
    exact .ite (fun _ => leaveOff opened) fun _ => Records.bumpAny.bind fun _ => goOn _
  all_goals exact Records.bumpAny.bind fun _ => goOn _

/-- An expression that is too deep is an error node, and a built one. -/
theorem deepExpression_records (hR : R.Match f R') :
    Records f known (deepExpression R) (Grammar.deepExpression R') (fun _ => ()) .built :=
  .nodeBuilt (.bind (.complain _) fun _ =>
    .lastBuilt (Records.withoutParens (loopFrom_records hR skipToken_records)))

/-- One word of a block that is too deep, with the blocks counted. -/
theorem skipWord_records (opened : Nat) : Records f known (skipWord opened)
    (Grammar.skipWord opened) (turnOf fun opened => opened) fun _ => .nothing := by
  refine Records.atEnd.bind fun _ => .ite (fun _ => leaveOff opened) fun _ =>
    Records.current.bind fun kind => ?_
  unfold Grammar.skipKind
  split
  case h_5 =>
    -- Only a block that was opened here is closed by its word.
    cases opened with
    | zero =>
      simp only [Nat.lt_irrefl, decide_false, Bool.false_and, beq_self_eq_true, Bool.true_and,
        Bool.false_eq_true, if_false, if_true]
      exact .ite (fun _ => leaveOff 0) fun _ => Records.bumpAny.bind fun _ => goOn 0
    | succ opened =>
      have hpos : decide (0 < opened + 1) = true := decide_eq_true (Nat.succ_pos opened)
      simp only [hpos, Bool.true_and]
      by_cases hcloses : (kind == .kwEndIf || kind == .kwLoop || kind == .kwEnd) = true
      · simp only [if_pos hcloses]
        exact Records.bumpAny.bind fun _ => goOn _
      · simp only [if_neg hcloses]
        exact Records.bumpAny.bind fun _ => goOn _
  all_goals exact Records.bumpAny.bind fun _ => goOn _

/-- A block that is too deep is passed over inside one error node. -/
theorem deepBlock_records (hR : R.Match f R') :
    Records f known (deepBlock R) (Grammar.deepBlock R') (fun _ => ()) fun _ => .nothing :=
  .nodeDone (.bind (.complain _) fun _ => .lastDone (loopFrom_records hR skipWord_records))

/-! ## Names -/

/-- Whether there is a name can be asked before the mark is set. -/
theorem declaredName_eq (wanted : Wanted) : declaredName wanted = (do
    if ← isAt .ident then
      let mark ← start
      modify (State.consume .ident)
      discard <| complete mark .name
    else complain (.missing wanted)) := by
  funext s
  unfold declaredName
  rw [run_bind_ok (run_start s)]
  -- Both look at the same token, so they give up together.
  by_cases hlooks : Grammar.lookLimit < s.looks
  · have hstuck {s : State} (h : Grammar.lookLimit < s.looks) :
        isAt .ident s = .error .stuck := run_bind_error (if_pos h)
    have heat : eat .ident s.begun = .error .stuck := run_bind_error (hstuck hlooks)
    rw [run_bind_error (hstuck hlooks), run_bind_error heat]
  · have hat : isAt .ident s.begun = .ok (s.input.kind s.place == .ident,
        ({ s with looks := s.looks + 1 } : State).begun) := run_isAt (s := s.begun) hlooks .ident
    rw [run_bind_ok (run_isAt hlooks .ident)]
    by_cases hident : (s.input.kind s.place == .ident) = true
    · have heat : eat .ident s.begun = .ok (true,
          ({ s with looks := s.looks + 1 } : State).begun.consume .ident) := by
        rw [eat, run_bind_ok hat, hident]
        rfl
      rw [run_bind_ok heat, if_pos rfl, if_pos hident]
      rfl
    · have heat : eat .ident s.begun
          = .ok (false, ({ s with looks := s.looks + 1 } : State).begun) := by
        rw [eat, run_bind_ok hat, Bool.eq_false_iff.2 hident]
        rfl
      rw [run_bind_ok heat, if_neg hident]
      -- The mark was set for nothing, and giving it up leaves the record as it was.
      exact run_bind_ok (run_abandon_begun { s with looks := s.looks + 1 })

/-- The name that a declaration introduces. -/
theorem declaredName_records (wanted : Wanted) :
    Records f known (declaredName wanted) (Grammar.declaredName wanted) (fun _ => ())
      fun _ => .nothing := by
  rw [declaredName_eq]
  refine .anywhere ((Records.mk (.isAt .ident) (Records.keeps_isAt .ident)).bind fun there => ?_)
  cases there with
  | true => exact .nodeDone (.lastDone (Records.consume (by decide)))
  | false => exact .complain _

/-! ## Arguments -/

/-- One argument between parentheses, with its comma. -/
theorem parenArgument_records (hR : R.Match f R') :
    Records f known (parenArgument R) (Grammar.parenArgument R') (fun again => again)
      fun _ => .nothing := by
  refine (Records.isAt .rParen).bind fun _ => .ite (fun _ => .answer false) fun _ =>
    Records.atLineEnd.bind fun _ => .ite (fun _ => .answer false) fun _ =>
      Records.current.bind fun kind => ?_
  dsimp only
  refine .ite (fun _ => (hR.expression 0).dropped.bind ?_) fun _ => (setAside_records _ _).bind ?_
  all_goals exact fun _ => (Records.eat (by decide)).discard.bind fun _ => .answer true

/-- The arguments between parentheses, both parentheses included. -/
theorem parenArguments_records (hR : R.Match f R') :
    Records f known (parenArguments R) (Grammar.parenArguments R') (fun _ => ())
      fun _ => .nothing :=
  .bind (.within .parens ((Records.bump (by decide)).bind fun _ =>
    loop_records hR (parenArgument_records hR))) fun _ => (Records.expect (by decide) _).discard

/-- Whether another argument follows is asked of the token ahead. -/
theorem argumentFollows_records (afterComma : Bool) :
    Records f known (argumentFollows afterComma) (Grammar.argumentFollows afterComma)
      (fun follows => follows) fun _ => .nothing :=
  Records.current.bind fun _ => .ite (fun _ => .answer true) fun _ =>
    .ite (fun _ => Records.current.bind fun kind => .answer kind.canStartExpression)
      fun _ => .answer false

/-- One argument without parentheses, with its comma. -/
theorem bareArgument_records (hR : R.Match f R') (afterComma : Bool) :
    Records f known (bareArgument R afterComma) (Grammar.bareArgument R' afterComma)
      (turnOf fun afterComma => afterComma) fun _ => .nothing :=
  (argumentFollows_records afterComma).bind fun _ =>
    .ite (fun _ => (hR.operand false).discard.bind fun _ =>
      (Records.eat (by decide)).bind fun comma => goOn comma) fun _ => leaveOff afterComma

/-- The arguments up to the end of the line. -/
theorem bareArguments_records (hR : R.Match f R') :
    Records f known (bareArguments R) (Grammar.bareArguments R') (fun _ => ())
      fun _ => .nothing :=
  loopFrom_records hR (bareArgument_records hR)

/-- Whether a parenthesis opens the arguments is asked of the tokens ahead. -/
theorem opensArguments_records : Records f known opensArguments Grammar.opensArguments
    (fun opens => opens) fun _ => .nothing :=
  (Records.isAt .lParen).bind fun _ =>
    .ite (fun _ => (Records.look 1).bind fun kind => .answer (kind != .kwBegin))
      fun _ => .answer false

/-- The node of the arguments of a call, with or without parentheses. -/
theorem callArguments_records (hR : R.Match f R') :
    Records f known (callArguments R)
      (Grammar.node .argList do
        if ← Grammar.opensArguments then Grammar.parenArguments R'
        else Grammar.bareArguments R') (fun _ => ()) fun _ => .nothing := by
  refine .nodeDone (.bind opensArguments_records fun _ => .ite (fun _ => ?_) fun _ => ?_)
  · exact .lastDone (parenArguments_records hR)
  · exact .lastDone (bareArguments_records hR)

/-- A name, or a call that is put around the name when arguments follow. -/
theorem nameOrCall_records (hR : R.Match f R') (calls : Bool) :
    Records f known (nameOrCall R calls) (Grammar.nameOrCall R' calls) (fun _ => ()) .built := by
  refine (Records.atFunction hR.isFunction).bind fun isCall => ?_
  -- The name is a node of its own, around which a call may be put.
  refine .node (.last (Records.bump (by decide))) fun name => ?_
  cases calls with
  | false => exact .handOn name
  | true =>
    cases isCall with
    | true => exact .aroundBuilt (by decide) (.lastBuilt (callArguments_records hR))
    | false =>
      refine Records.bind (o := fun _ => .built name)
        (.map .current (fun b => ⟨b, rfl⟩) (fun _ => rfl) id) fun called => ?_
      cases called with
      | true => exact .aroundBuilt (by decide) (.lastBuilt (callArguments_records hR))
      | false => exact .handOn name

/-! ## Lambdas -/

/-- A declaration in the place of a variable. -/
theorem variableDecl_records :
    Records f known variableDecl Grammar.variableDecl (fun _ => ()) fun _ => .nothing :=
  .nodeDone (.bind .bumpAny fun _ => .lastDone (declaredName_records _))

/-- A variable that is named, or declared on the spot. -/
theorem variableOrDecl_records (recovers : TokenKind → Bool) :
    Records f known (variableOrDecl recovers) (Grammar.variableOrDecl recovers) (fun _ => ())
      fun _ => .nothing :=
  Records.current.bind fun _ => .ite (fun _ => variableDecl_records) fun _ =>
    (Records.isAt .ident).bind fun _ =>
      .ite (fun _ => .nodeDone (.lastDone (Records.bump (by decide)))) fun _ =>
        setAside_records _ recovers

/-- One parameter of a lambda. -/
theorem parameter_records :
    Records f known parameter Grammar.parameter (fun again => again) fun _ => .nothing :=
  (Records.isAt .rBrace).bind fun _ => .ite (fun _ => .answer false) fun _ =>
    Records.atLineEnd.bind fun _ => .ite (fun _ => .answer false) fun _ =>
      (variableOrDecl_records _).bind fun _ =>
        (Records.eat (by decide)).discard.bind fun _ => .answer true

/-- The parameters of a lambda between braces. -/
theorem parameters_records (hR : R.Match f R') :
    Records f known (parameters R) (Grammar.parameters R') (fun _ => ()) fun _ => .nothing :=
  .nodeDone (.bind (.bump (by decide)) fun _ => .bind (loop_records hR parameter_records) fun _ =>
    .lastDone (Records.expect (by decide) _).discard)

/-- A lambda is a built node, from its opening word to its closing one. -/
theorem lambda_records (hR : R.Match f R') :
    Records f known (lambda R) (Grammar.lambda R') (fun _ => ()) .built := by
  refine .nodeBuilt (.bind (.withoutParens (g := fun _ => ()) (o := fun _ => .nothing) ?_)
    fun _ => .lastBuilt (Records.expect (by decide) _).discard)
  refine (Records.bump (by decide)).bind fun _ => (Records.bump (by decide)).bind fun _ =>
    (declaredName_records _).bind fun _ => (Records.isAt .lBrace).bind fun _ =>
      .ite (fun _ => (parameters_records hR).bind fun _ => ?_) fun _ => ?_
  all_goals exact (lineEnd_records hR).bind fun _ => (Records.within .begins hR.block).bind fun _ =>
    (Records.expect (by decide) _).discard

/-! ## Operands -/

/-- An expression between parentheses is a built node. -/
theorem parenthesized_records (hR : R.Match f R') :
    Records f known (parenthesized R) (Grammar.parenthesized R') (fun _ => ()) .built :=
  .nodeBuilt (.bind (.within .parens ((Records.bump (by decide)).bind fun _ =>
    (hR.expression 0).dropped)) fun _ => .lastBuilt (Records.expect (by decide) _).discard)

/-- In the place of a missing operand there is an error node or nothing. -/
theorem noOperand_records : Records f known noOperand Grammar.noOperand Option.isSome
    fun found => found.elim .nothing .built := by
  refine Records.atLineEnd.bind fun _ => .ite
    (fun _ => (Records.answer true).bind fun _ => .ite (fun _ => ?_) fun _ => ?_)
    fun _ => Records.bind (g := fun stops => stops) (o := fun _ => .nothing)
      (.map .current (fun stops => ⟨stops, rfl⟩) (fun _ => rfl) Known.Holds.written)
        fun _ => .ite (fun _ => ?_) fun _ => ?_
  case refine_1 | refine_3 =>
    exact (Records.complain _).bind fun _ => .missing Known.Holds.written
  all_goals exact .nodeFound (.bind (.complain _) fun _ => .last .bumpAny)

/-- The innermost operand, by the token it begins with. What it has built is the last node of the
record. -/
theorem primary_records (hR : R.Match f R') (calls : Bool) :
    Records f known (primary R calls) (Grammar.primary R' calls) Option.isSome
      fun found => found.elim .nothing .built := by
  refine Records.current.bind fun kind => ?_
  cases kind
  case number | hexNumber | string => exact .nodeFound (.last .bumpAny)
  case ident => exact (nameOrCall_records hR calls).bind fun name => .found name
  case lParen =>
    refine (Records.look 1).bind fun _ => .ite (fun _ => ?_) fun _ => ?_
    · exact (lambda_records hR).bind fun built => .found built
    · exact (parenthesized_records hR).bind fun built => .found built
  all_goals exact noOperand_records

/-- Behind what is set aside at the limit of nesting comes no operator. -/
theorem deepExpression_ends (hR : R.Match f R') (built : Built) :
    Records f known (deepExpression R) (Grammar.deepExpression R') (fun _ => ())
      fun _ => .operand built := by
  refine (deepExpression_records hR).ending (fun s hfault => ?_) built
  have hleads : Grammar.Leads false
      (fun ts _ => Grammar.Over s.out.toList Grammar.IsOperand ts) (Grammar.deepExpression R') _ :=
    Grammar.deepExpression_leads R'
  have hover := Grammar.over_nil s.out.toList Grammar.IsOperand
  exact (hleads.run (fun h => absurd h Bool.false_ne_true) hover hfault).2

/-- Before an access is put around the operand it is asked whether it would be too deep. -/
theorem roomForAccess_records (hR : R.Match f R') (built : Built) :
    Records f (.built built) (roomForAccess R) (Grammar.roomForAccess R') (fun room => room)
      fun room => if room.isSome then .built built else .operand built := by
  have hroom : Records f (.built built) (pure (some ())) (pure (some ())) (fun room => room)
      fun room => if room.isSome then .built built else .operand built :=
    .pure _ _ (fun room => ⟨room, rfl⟩) rfl id
  refine Records.current.bind fun kind => ?_
  dsimp only
  by_cases hopens : Grammar.opensAccess kind = true
  · simp only [if_pos hopens]
    refine Records.isTooDeep.bind fun deep => .ite (fun _ => ?_) fun _ => hroom
    -- At the limit the rest is set aside, and the operand stays as it is.
    exact (deepExpression_ends hR built).dropped.bind fun _ =>
      .pure _ _ (fun room => ⟨room, rfl⟩) rfl id
  · simp only [if_neg hopens]
    exact hroom

/-- An access goes around the operand in front of it, by a mark that precedes it. -/
theorem access_records (hR : R.Match f R') (calls : Bool) (operand : Built) :
    Records f (.built operand) (access R calls operand) (Grammar.access R' calls) Option.isSome
      fun around => around.elim (.operand operand) .built := by
  refine Records.current.bind fun kind => ?_
  cases kind
  case dot | arrow =>
    refine .aroundFound (by decide) (.bind .bumpAny fun _ => .bind (.isAt .ident) fun _ =>
      .ite (fun _ => ?_) fun _ => ?_)
    · exact .last (nameOrCall_records hR calls).forget.dropped
    · exact .last (.complain _)
  case lBracket =>
    exact .aroundFound (by decide) (.bind (.bump (by decide)) fun _ =>
      .bind (hR.expression 0).dropped fun _ => .last (Records.expect (by decide) _).discard)
  all_goals exact .missing .inl

/-- All accesses behind an operand, each around the ones before it. -/
theorem accesses_records (hR : R.Match f R') (calls : Bool) (operand : Built) :
    Records f (.built operand) (accesses R calls operand) (Grammar.accesses R' calls) (fun _ => ())
      .operand := by
  rw [accesses, Grammar.accesses, hR.turns]
  exact .climb (roomForAccess_records hR) (fun _ => access_records hR calls) R.turns operand

/-- An operand without a sign in front, with all of its accesses. -/
theorem shallowOperand_records (hR : R.Match f R') (calls : Bool) :
    Records f known (shallowOperand R calls) (Grammar.shallowOperand R' calls) Option.isSome
      fun found => found.elim .nothing .operand := by
  refine Records.current.bind fun kind => ?_
  cases kind.unaryPower? with
  | some power =>
    -- The sign and its operand make one node, which is an operand again.
    refine .asOperand (.nodeFound (.bind .bumpAny fun _ => .ite (fun _ => ?_) fun _ => ?_))
    · exact .last (hR.expression power).dropped
    · exact .last (hR.operand false).discard
  | none =>
    refine (primary_records hR calls).bind fun found => ?_
    cases found with
    | none => exact .missing id
    | some operand =>
      exact (accesses_records hR calls operand).bind fun last =>
        .pure _ _ Records.onto_isSome rfl id

/-- An operand with its signs, each of them a node around the rest. -/
theorem operand_records (hR : R.Match f R') (calls : Bool) :
    Records f known (operand R calls) (Grammar.operand R' calls) Option.isSome
      fun found => found.elim .nothing .operand := by
  refine Records.isTooDeep.bind fun _ => .ite (fun _ => ?_) fun _ => ?_
  · exact ((deepExpression_records hR).bind fun built => .found built).asOperand
  · exact .within .nesting (shallowOperand_records hR calls)

/-- An operator is taken on when it binds tightly enough, and only where there is room for it. -/
theorem roomForOperator_records (hR : R.Match f R') (floor : Nat) (operand : Built) :
    Records f (.operand operand) (roomForOperator R floor) (Grammar.roomForOperator R' floor)
      (fun room => room) fun room => if room.isSome then .built operand else .nothing := by
  have hnone {known : Known} : Records f known (pure none) (pure none) (fun room => room)
      fun room : Option Nat => if room.isSome then .built operand else .nothing :=
    .pure _ _ (fun room => ⟨room, rfl⟩) rfl Known.Holds.written
  refine Records.current.bind fun kind => ?_
  cases hpower : kind.binaryPower? with
  | none => exact hnone
  | some power =>
    -- An operator comes next, so the operand is the last that was written down.
    have hseen : (Known.operand operand).seen kind = .built operand := by
      simp [Known.seen, hpower]
    rw [hseen]
    refine .ite (fun _ => hnone) fun _ =>
      Records.isTooDeep.bind fun _ => .ite (fun _ => ?_) fun _ => ?_
    · exact (deepExpression_records hR).forget.dropped.bind fun _ => hnone
    · exact .pure _ _ (fun room => ⟨room, rfl⟩) rfl id

/-- A binary operator goes around the left operand, by a mark that precedes it. -/
theorem application_records (hR : R.Match f R') (power : Nat) (left : Built) :
    Records f (.built left) (application R power left) (Grammar.application R' power) Option.isSome
      fun around => around.elim .nothing .operand :=
  .asOperand (.aroundFound (by decide) (.bind .bumpAny fun _ =>
    .last (hR.expression power).dropped))

/-- All operators that bind more tightly than the floor, each around the ones before it. -/
theorem operators_records (hR : R.Match f R') (floor : Nat) (operand : Built) :
    Records f (.operand operand) (operators R floor operand) (Grammar.operators R' floor)
      (fun _ => ()) fun _ => .nothing := by
  rw [operators, Grammar.operators, hR.turns]
  exact .climb (roomForOperator_records hR floor) (fun power => application_records hR power)
    R.turns operand

/-- An expression down to the floor that is asked for. -/
theorem expression_records (hR : R.Match f R') (floor : Nat) :
    Records f known (expression R floor) (Grammar.expression R' floor) (fun _ => ())
      fun _ => .nothing := by
  refine (hR.operand true).bind fun found => ?_
  cases found with
  | none => exact .pure _ _ (fun _ => ⟨none, rfl⟩) rfl id
  | some operand =>
    exact (operators_records hR floor operand).bind fun last =>
      .pure (some last) () (fun _ => ⟨none, rfl⟩) rfl id

end Rules

end ScriptSense.Record
