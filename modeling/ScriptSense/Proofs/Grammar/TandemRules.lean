/-
The rules of the grammar, coupled.

One instance for each rule, in the order of the grammar: if the rules one level down are
coupled, so is the rule. That is so of every relation that two runs keep, as long as it
does not ask more of some nodes than of others. Where it does, the rules that build these
nodes are left to whoever brings the relation: `Rules.Singled` names them, and for each
there is a theorem here that settles it where nothing more is asked.
-/
import ScriptSense.Proofs.Grammar.Shape
import ScriptSense.Proofs.Grammar.Tandem

set_option autoImplicit false

namespace ScriptSense.Grammar

variable {α β σ : Type} {r : State → State → Prop} {calm : Bool}

/-! ## Nodes that every relation hands on -/

section Common

variable [h : Tandem r]

instance : Encloses r .error := h.encloses _ rfl
instance : Encloses r .scriptNameDecl := h.encloses _ rfl
instance : Encloses r .stmtList := h.encloses _ rfl
instance : Encloses r .varDecl := h.encloses _ rfl
instance : Encloses r .ifStmt := h.encloses _ rfl
instance : Encloses r .elseIfBranch := h.encloses _ rfl
instance : Encloses r .elseBranch := h.encloses _ rfl
instance : Encloses r .whileStmt := h.encloses _ rfl
instance : Encloses r .foreachStmt := h.encloses _ rfl
instance : Encloses r .beginStmt := h.encloses _ rfl
instance : Encloses r .paramList := h.encloses _ rfl
instance : Encloses r .name := h.encloses _ rfl
instance : Encloses r .nameRef := h.encloses _ rfl
instance : Encloses r .literal := h.encloses _ rfl
instance : Encloses r .parenExpr := h.encloses _ rfl
instance : Encloses r .memberExpr := h.encloses _ rfl
instance : Encloses r .argList := h.encloses _ rfl
instance : Encloses r .lambdaExpr := h.encloses _ rfl

end Common

/-! ## Coupled rules -/

/-- The rules of a level are coupled. Statements stand in calm places only, and do not
begin where a line ends. -/
class Rules.Coupled (r : State → State → Prop) (R R' : Rules) : Prop where
  statement : CoupledAt r WithinLine R.statement R'.statement
  block : Grammar.Coupled r true R.block R'.block
  branches : Grammar.Coupled r true R.branches R'.branches
  expression (calm : Bool) (floor : Nat) :
    Grammar.Coupled r calm (R.expression floor) (R'.expression floor)
  operand (calm calls : Bool) : Grammar.Coupled r calm (R.operand calls) (R'.operand calls)

attribute [instance] Rules.Coupled.block Rules.Coupled.branches Rules.Coupled.expression
  Rules.Coupled.operand

/-- The rules of expressions that ask for names known to be functions, and those that build
the nodes a relation may ask more of. -/
class Rules.Singled (r : State → State → Prop) (R R' : Rules) : Prop where
  nameOrCall (calm calls : Bool) : Grammar.Coupled r calm (nameOrCall R calls) (nameOrCall R' calls)
  shallowOperand (calm calls : Bool) :
    Grammar.Coupled r calm (shallowOperand R calls) (shallowOperand R' calls)
  expression (calm : Bool) (floor : Nat) :
    Grammar.Coupled r calm (Grammar.expression R floor) (Grammar.expression R' floor)

attribute [instance] Rules.Singled.nameOrCall Rules.Singled.shallowOperand Rules.Singled.expression

/-- The rule for statements of one line that builds nodes of a kind. -/
def lineStatement (R : Rules) : NodeKind → Step Unit
  | .varDeclStmt => declaration R
  | .setStmt => setStatement R
  | .letStmt => letStatement R
  | .returnStmt => returnStatement R
  | .breakStmt => wordStatement R .kwBreak .breakStmt
  | .continueStmt => wordStatement R .kwContinue .continueStmt
  | _ => expressionStatement R

/-- The rules for statements of one line are coupled. -/
class Rules.SingledLines (r : State → State → Prop) (R R' : Rules) : Prop where
  lineStatement (kind : NodeKind) :
    CoupledAt r WithinLine (lineStatement R kind) (lineStatement R' kind)

namespace Coupled

-- The longest rules have more parts than an instance may have otherwise.
set_option synthInstance.maxSize 2000

variable [Tandem r]

/-! ## Tokens -/

instance isAt (kind : TokenKind) : Coupled r calm (isAt kind) (isAt kind) := by
  unfold Grammar.isAt
  infer_instance

instance atEnd : Coupled r calm atEnd atEnd := isAt .eof

instance atLineEnd : Coupled r calm atLineEnd atLineEnd := by
  unfold Grammar.atLineEnd
  infer_instance

instance bumpAny : Coupled r calm bumpAny bumpAny := by
  unfold Grammar.bumpAny
  infer_instance

instance eat (kind : TokenKind) : Coupled r calm (eat kind) (eat kind) := by
  unfold Grammar.eat
  infer_instance

instance bump (kind : TokenKind) : Coupled r calm (bump kind) (bump kind) := by
  unfold Grammar.bump
  infer_instance

instance expect (kind : TokenKind) (wanted : Wanted) :
    Coupled r calm (expect kind wanted) (expect kind wanted) := by
  unfold Grammar.expect
  infer_instance

/-! ## Recovery -/

instance setAside (wanted : Wanted) (recovers : TokenKind → Bool) :
    Coupled r calm (setAside wanted recovers) (setAside wanted recovers) := by
  unfold Grammar.setAside
  infer_instance

instance passInLine : Coupled r calm passInLine passInLine := by
  unfold Grammar.passInLine
  infer_instance

instance skipToken (opened : Nat) : Coupled r calm (skipToken opened) (skipToken opened) := by
  unfold Grammar.skipToken
  refine andThen fun ends => ?_
  split
  · infer_instance
  · exact andThen fun kind => by split <;> infer_instance

instance skipKind (opened : Nat) (kind : TokenKind) :
    Coupled r calm (skipKind opened kind) (skipKind opened kind) := by
  unfold Grammar.skipKind
  split <;> infer_instance

instance skipWord (opened : Nat) : Coupled r calm (skipWord opened) (skipWord opened) := by
  unfold Grammar.skipWord
  infer_instance

instance declaredName (wanted : Wanted) :
    Coupled r calm (declaredName wanted) (declaredName wanted) := by
  unfold Grammar.declaredName
  infer_instance

/-! ## Questions, declarations and what is not there -/

instance argumentFollows (afterComma : Bool) :
    Coupled r calm (argumentFollows afterComma) (argumentFollows afterComma) := by
  unfold Grammar.argumentFollows
  infer_instance

instance opensArguments : Coupled r calm opensArguments opensArguments := by
  unfold Grammar.opensArguments
  infer_instance

instance variableDecl : Coupled r calm variableDecl variableDecl := by
  unfold Grammar.variableDecl
  infer_instance

instance variableOrDecl (recovers : TokenKind → Bool) :
    Coupled r calm (variableOrDecl recovers) (variableOrDecl recovers) := by
  unfold Grammar.variableOrDecl
  infer_instance

instance parameter : Coupled r calm parameter parameter := by
  unfold Grammar.parameter
  infer_instance

instance noOperand : Coupled r calm noOperand noOperand := by
  unfold Grammar.noOperand
  dsimp only
  infer_instance

instance strayCloser (closer : Closer) :
    Coupled r calm (strayCloser closer) (strayCloser closer) := by
  unfold Grammar.strayCloser
  infer_instance

section Rules

variable (R R' : Rules) [hR : R.Coupled r R']

/-! ## Loops of the rules -/

omit [Tandem r] in
instance loopFrom (x : σ) (step step' : σ → Step (Option σ))
    [∀ x, Coupled r calm (step x) (step' x)] :
    Coupled r calm (R.loopFrom x step) (R'.loopFrom x step') := by
  unfold Grammar.Rules.loopFrom
  infer_instance

instance loop (m m' : Step Bool) [Coupled r calm m m'] :
    Coupled r calm (R.loop m) (R'.loop m') := by
  unfold Grammar.Rules.loop
  infer_instance

instance lineEnd : Coupled r calm (lineEnd R) (lineEnd R') := by
  unfold Grammar.lineEnd
  infer_instance

instance closing (kind : TokenKind) (wanted : Wanted) :
    Coupled r calm (closing R kind wanted) (closing R' kind wanted) := by
  unfold Grammar.closing
  infer_instance

instance deepExpression : Coupled r calm (deepExpression R) (deepExpression R') := by
  unfold Grammar.deepExpression
  infer_instance

instance deepBlock : Coupled r calm (deepBlock R) (deepBlock R') := by
  unfold Grammar.deepBlock
  infer_instance

/-! ## Arguments and parameters -/

instance parenArgument : Coupled r calm (parenArgument R) (parenArgument R') := by
  unfold Grammar.parenArgument
  dsimp only
  infer_instance

instance parenArguments : Coupled r calm (parenArguments R) (parenArguments R') := by
  unfold Grammar.parenArguments
  infer_instance

instance bareArgument (afterComma : Bool) :
    Coupled r calm (bareArgument R afterComma) (bareArgument R' afterComma) := by
  unfold Grammar.bareArgument
  infer_instance

instance bareArguments : Coupled r calm (bareArguments R) (bareArguments R') := by
  unfold Grammar.bareArguments
  infer_instance

instance parameters : Coupled r calm (parameters R) (parameters R') := by
  unfold Grammar.parameters
  infer_instance

/-! ## Operands and operators -/

instance lambda : Coupled r calm (lambda R) (lambda R') := by
  unfold Grammar.lambda
  dsimp only
  infer_instance

instance parenthesized : Coupled r calm (parenthesized R) (parenthesized R') := by
  unfold Grammar.parenthesized
  infer_instance

section Calls

variable [∀ calls, Coupled r calm (nameOrCall R calls) (nameOrCall R' calls)]

instance primary (calls : Bool) : Coupled r calm (primary R calls) (primary R' calls) := by
  unfold Grammar.primary
  refine andThen fun kind => ?_
  cases kind <;> dsimp only <;> infer_instance

instance roomForAccess : Coupled r calm (roomForAccess R) (roomForAccess R') := by
  unfold Grammar.roomForAccess
  dsimp only
  infer_instance

instance access (calls : Bool) : Coupled r calm (access R calls) (access R' calls) := by
  unfold Grammar.access
  refine andThen fun kind => ?_
  cases kind <;> dsimp only <;> infer_instance

instance accesses (calls : Bool) : Coupled r calm (accesses R calls) (accesses R' calls) := by
  unfold Grammar.accesses
  infer_instance

end Calls

variable [R.Singled r R']

instance operand (calls : Bool) :
    Coupled r calm (Grammar.operand R calls) (Grammar.operand R' calls) := by
  unfold Grammar.operand
  infer_instance

instance roomForOperator (floor : Nat) :
    Coupled r calm (roomForOperator R floor) (roomForOperator R' floor) := by
  unfold Grammar.roomForOperator
  refine andThen fun kind => ?_
  split <;> infer_instance

/-! ## Statements -/

/-- Behind the check for a line break, the line does not end. -/
theorem breakOrAt {ahead : TokenKind → Prop} {m m' : Step Unit} (hm : CoupledAt r WithinLine m m')
    (hend : ∀ kind, ahead kind → kind ≠ .eof) :
    CoupledAt r ahead (Grammar.breakOr m) (Grammar.breakOr m') := by
  -- Eating a break and looking for one first come to the same.
  have hbreaks (m : Step Unit) : Grammar.breakOr m = (Grammar.isAt .newline >>= fun there =>
      if there then (do modify State.consume; return true) else (do m; return true)) := by
    funext s
    have hrun : Grammar.breakOr m s = (if (Grammar.eat .newline s).1 then return true
        else (do m; return true) : Step Bool) (Grammar.eat .newline s).2 := rfl
    rw [hrun, run_eat, run_bind, run_isAt]
    by_cases hbreak : (Grammar.current s).1 = .newline <;> simp [hbreak]
  rw [hbreaks, hbreaks]
  refine CoupledAt.isAt fun there => ?_
  cases there with
  | true => exact .of_coupled (andThen fun _ => pure true)
  | false =>
    refine (hm.mono fun kind h => ⟨?_, hend kind h.1⟩).bind
    rintro rfl
    cases h.2

instance blockTurn : Coupled r true (blockTurn R) (blockTurn R') := by
  unfold Grammar.blockTurn
  refine CoupledAt.coupled (.isAt fun ends => ?_)
  cases ends with
  | true => exact .of_coupled (pure _)
  | false =>
    refine .current fun kind => ?_
    split
    · exact .of_coupled inferInstance
    -- No statement starts at the end of the text, which was looked for before.
    · refine breakOrAt hR.statement fun k h => ?_
      rintro rfl
      cases h.1.2

instance block : Coupled r true (Grammar.block R) (Grammar.block R') := by
  unfold Grammar.block
  infer_instance

instance branches : Coupled r true (Grammar.branches R) (Grammar.branches R') := by
  unfold Grammar.branches
  infer_instance

instance ifStatement : Coupled r true (ifStatement R) (ifStatement R') := by
  unfold Grammar.ifStatement
  infer_instance

instance whileStatement : Coupled r true (whileStatement R) (whileStatement R') := by
  unfold Grammar.whileStatement
  infer_instance

instance foreachStatement : Coupled r true (foreachStatement R) (foreachStatement R') := by
  unfold Grammar.foreachStatement
  dsimp only
  infer_instance

instance beginStatement : Coupled r true (beginStatement R) (beginStatement R') := by
  unfold Grammar.beginStatement
  dsimp only
  infer_instance

instance beginOrNested : Coupled r true (beginOrNested R) (beginOrNested R') := by
  unfold Grammar.beginOrNested
  infer_instance

omit [R.Singled r R'] in
theorem statement [hlines : R.SingledLines r R'] :
    CoupledAt r WithinLine (Grammar.statement R) (Grammar.statement R') := by
  -- Each simple statement is read by the same rule, entered with its word ahead.
  have hline (kind : NodeKind) (word : TokenKind) :
      CoupledAt r (fun k => WithinLine k ∧ k = word) (lineStatement R kind)
        (lineStatement R' kind) :=
    (hlines.lineStatement kind).mono fun _ h => h.1
  unfold Grammar.statement
  refine .current fun kind => ?_
  cases kind
  case kwShort | kwInt | kwLong | kwFloat | kwRef | kwStringVar | kwArrayVar =>
    exact hline .varDeclStmt _
  case kwSet => exact hline .setStmt _
  case kwLet => exact hline .letStmt _
  case kwReturn => exact hline .returnStmt _
  case kwBreak => exact hline .breakStmt _
  case kwContinue => exact hline .continueStmt _
  case kwIf => exact .of_coupled (ifStatement R R')
  case kwWhile => exact .of_coupled (whileStatement R R')
  case kwForeach => exact .of_coupled (foreachStatement R R')
  case kwBegin => exact .of_coupled (beginOrNested R R')
  all_goals exact hline .exprStmt _

/-! ## Scripts -/

instance lineBreaks : Coupled r calm (lineBreaks R) (lineBreaks R') := by
  unfold Grammar.lineBreaks
  infer_instance

instance scriptName : Coupled r calm (scriptName R) (scriptName R') := by
  unfold Grammar.scriptName
  infer_instance

omit [R.Singled r R'] in
theorem topLevel : CoupledAt r WithinLine (topLevel R) (topLevel R') := by
  unfold Grammar.topLevel
  refine .current fun kind => ?_
  have hstatement : CoupledAt r (fun k => WithinLine k ∧ k = kind) R.statement R'.statement :=
    hR.statement.mono fun _ h => h.1
  dsimp only
  split
  · exact .of_coupled inferInstance
  · split
    · exact .of_coupled inferInstance
    · split
      · exact hstatement
      · exact .complain hstatement

instance scriptTurn : Coupled r true (scriptTurn R) (scriptTurn R') := by
  unfold Grammar.scriptTurn
  refine CoupledAt.coupled (.isAt fun ends => ?_)
  cases ends with
  | true => exact .of_coupled (pure _)
  | false =>
    refine breakOrAt (topLevel R R') fun k h => ?_
    rintro rfl
    cases h.2

instance script : Coupled r true (script R) (script R') := by
  unfold Grammar.script
  infer_instance

end Rules

/-! ## Where nothing more is asked -/

section Common

variable (R R' : Rules) [hR : R.Coupled r R']

theorem atFunction {R R' : Rules} (h : R.isFunction = R'.isFunction) :
    Coupled r calm (atFunction R) (atFunction R') := by
  unfold Grammar.atFunction
  rw [h]
  infer_instance

theorem nameOrCall [Encloses r .funcExpr] (h : R.isFunction = R'.isFunction) (calls : Bool) :
    Coupled r calm (nameOrCall R calls) (nameOrCall R' calls) := by
  have hknown : Coupled r calm (Grammar.atFunction R) (Grammar.atFunction R') := atFunction h
  unfold Grammar.nameOrCall
  infer_instance

theorem shallowOperand [Encloses r .unaryExpr]
    [∀ calls, Coupled r calm (Grammar.nameOrCall R calls) (Grammar.nameOrCall R' calls)]
    (calls : Bool) :
    Coupled r calm (shallowOperand R calls) (shallowOperand R' calls) := by
  unfold Grammar.shallowOperand
  refine andThen fun kind => ?_
  split <;> infer_instance

theorem expression [Encloses r .binExpr] (floor : Nat) :
    Coupled r calm (Grammar.expression R floor) (Grammar.expression R' floor) := by
  unfold Grammar.expression Grammar.operators Grammar.application
  infer_instance

/-- Every statement of one line is a node over what its rule reads. -/
instance lines [Encloses r .varDeclStmt] [Encloses r .setStmt] [Encloses r .letStmt]
    [Encloses r .returnStmt] [Encloses r .breakStmt] [Encloses r .continueStmt]
    [Encloses r .exprStmt] : R.SingledLines r R' where
  lineStatement kind := by
    refine .of_coupled ?_
    unfold lineStatement declaration setStatement letStatement returnStatement wordStatement
      expressionStatement
    split <;> infer_instance

end Common

end Coupled

/-! ## Levels -/

/-- A relation that singles out none of the nodes in an expression. -/
theorem Rules.Singled.plain [Tandem r] [Encloses r .funcExpr] [Encloses r .unaryExpr]
    [Encloses r .binExpr] {R R' : Rules} [R.Coupled r R'] (h : R.isFunction = R'.isFunction) :
    R.Singled r R' where
  nameOrCall _ calls := .nameOrCall R R' h calls
  shallowOperand calm calls := by
    have (calls : Bool) :
        Grammar.Coupled r calm (Grammar.nameOrCall R calls) (Grammar.nameOrCall R' calls) :=
      .nameOrCall R R' h calls
    exact .shallowOperand R R' calls
  expression _ floor := .expression R R' floor

namespace Rules.Coupled

/-- Where no level is left, all rules give up. -/
theorem exhausted (r : State → State → Prop) (f f' : String → Bool) :
    (Rules.exhausted f).Coupled r (Rules.exhausted f') where
  statement := .of_coupled (.giveUp .stuck)
  block := .giveUp .stuck
  branches := .giveUp .stuck
  expression _ _ := .giveUp .stuck
  operand _ _ := .bind _ _ (fun _ => pure false) fun _ => pure false

/-- **Rules of coupled rules are coupled**, if those are that a relation may single out. -/
theorem deeper [Tandem r] {R R' : Rules} [hR : R.Coupled r R'] [hsingled : R.Singled r R']
    [R.SingledLines r R'] : R.deeper.Coupled r R'.deeper where
  statement := Grammar.Coupled.statement R R'
  block := .block R R'
  branches := .branches R R'
  expression calm floor := hsingled.expression calm floor
  operand _ calls := .operand R R' calls

end Rules.Coupled

/-! ## A run beside itself, of which nothing is asked -/

instance (kind : NodeKind) : Encloses (@Eq State) kind where
  node := by
    rintro s _ t _ rfl rfl - -
    rfl
  around := by
    rintro s _ t _ outer outer' x x' rfl hout hout' - - rfl - -
    obtain ⟨rfl, rfl⟩ := Array.push_eq_push.1 (hout.symm.trans hout')
    rfl

instance : Tandem (@Eq State) where
  ahead := by rintro s _ rfl; rfl
  count := by rintro s _ c rfl; rfl
  looked := by rintro s _ rfl; rfl
  shiftTrivia := by rintro s _ rfl; rfl
  consume := by rintro s _ rfl; rfl
  complain := by rintro s _ p rfl; rfl
  setCount := by rintro s _ c n rfl; rfl
  inside := by rintro s _ rfl; rfl
  takeOver := by
    rintro s _ outer outer' x x' rfl hout hout' - -
    obtain ⟨rfl, rfl⟩ := Array.push_eq_push.1 (hout.symm.trans hout')
    rfl
  encloses _ _ := inferInstance

instance singled_self (R : Rules) [R.Coupled Eq R] : R.Singled Eq R := .plain rfl

instance coupled_self (f : String → Bool) (levels : Nat) :
    (rules f levels).Coupled Eq (rules f levels) := by
  induction levels with
  | zero => exact .exhausted Eq f f
  | succ levels ih => exact .deeper

/-! ## Different numbers of levels -/

section Levels

/-- Of two runs of which one has no levels left nothing is asked. -/
theorem Rules.Coupled.of_exhausted {R R' : Rules} [h : R.Coupled Eq R] [h' : R'.Coupled Eq R']
    {f : String → Bool} (hnone : R = Rules.exhausted f ∨ R' = Rules.exhausted f) :
    R.Coupled r R' := by
  -- One of the two gives up in each rule, so there is nothing to compare.
  have hlost {α : Type} (rule : Rules → Step α)
      (hrule : ∀ s, (rule (Rules.exhausted f) s).2.fault ≠ none) :
      (∀ s, (rule R s).2.fault ≠ none) ∨ ∀ s, (rule R' s).2.fault ≠ none := by
    rcases hnone with rfl | rfl
    · exact .inl hrule
    · exact .inr hrule
  have hstuck (s : State) : ((modify (State.giveUp .stuck) : Step Unit) s).2.fault ≠ none :=
    State.fault_giveUp_ne_none _ s
  exact
    { statement := .of_coupled
        (.lost h.statement.later h'.statement.later (hlost Rules.statement hstuck))
      block := .lost h.block.later h'.block.later (hlost Rules.block hstuck)
      branches := .lost h.branches.later h'.branches.later (hlost Rules.branches hstuck)
      expression := fun calm floor => .lost (h.expression calm floor).later
        (h'.expression calm floor).later (hlost (·.expression floor) hstuck)
      operand := fun calm calls => .lost (h.operand calm calls).later
        (h'.operand calm calls).later (hlost (·.operand calls) hstuck) }

/-- **The number of levels does not matter**, as long as neither run uses them up. -/
instance coupled_levels [Tandem r] [∀ kind, Encloses r kind] (f : String → Bool)
    (levels levels' : Nat) : (rules f levels).Coupled r (rules f levels') := by
  induction levels generalizing levels' with
  | zero => exact .of_exhausted (.inl rfl)
  -- With a level left on both sides the rules are coupled through those one level deeper.
  | succ levels ih =>
    cases levels' with
    | zero => exact .of_exhausted (.inr rfl)
    | succ levels' =>
      have hrules : (rules f levels).Coupled r (rules f levels') := ih levels'
      have hknown : (rules f levels).isFunction = (rules f levels').isFunction := by
        rw [isFunction_rules, isFunction_rules]
      have hsingled : (rules f levels).Singled r (rules f levels') := .plain hknown
      exact .deeper

end Levels

end ScriptSense.Grammar
