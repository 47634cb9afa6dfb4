/-
The runs of the rules are courses.

One instance for each rule, in the order of the grammar: if all runs of the rules one
level down are courses, so are those of the rule. What is set aside is made of tokens
only. Expressions say more: where there is an operand, a node is built last, and so there
is one to build around. A block is one list, which its owner reads as its own.
-/
import ScriptSense.Proofs.Grammar.Course
import ScriptSense.Proofs.Totality

set_option autoImplicit false

namespace ScriptSense.Grammar

variable {α β σ : Type} {g : Grade} {l : Lists}

/-- The step builds a list of statements and nothing else, unless it gives up. -/
structure BuildsList (m : Step Unit) : Prop where
  unbroken (s : State) : (m s).2.fault = none → s.fault = none
  run (s : State) : (m s).2.fault = none → ∃ u : State,
    Course (.nodes .none) (s.entered .stmtList) u ∧ (m s).2 = s.closed .stmtList u

/-- Every run of the rules of a level is a course. -/
class Rules.Charted (R : Rules) : Prop where
  statement (l : Lists) : Grammar.Charted (.nodes l) R.statement
  block : BuildsList R.block
  branches (l : Lists) : Grammar.Charted (.nodes l) R.branches
  expression (l : Lists) (floor : Nat) : Grammar.Charted (.nodes l) (R.expression floor)
  operand (l : Lists) (calls : Bool) : Crowned (.nodes l) false id (R.operand calls)

attribute [instance] Rules.Charted.statement Rules.Charted.branches Rules.Charted.expression

namespace Charted

-- The longest rules have more parts than an instance may have otherwise.
set_option synthInstance.maxSize 1000

/-! ## Tokens -/

instance atEnd : Charted g atEnd := isAt .eof

instance atLineEnd : Charted g atLineEnd := by
  unfold Grammar.atLineEnd
  infer_instance

section Loops

variable (R : Rules)

instance loopFrom (x : σ) (step : σ → Step (Option σ)) [∀ x, Charted g (step x)] :
    Charted g (R.loopFrom x step) :=
  iterate step R.turns x

instance loop (step : Step Bool) [Charted g step] : Charted g (R.loop step) := by
  unfold Rules.loop
  infer_instance

instance breakOr (step : Step Unit) [Charted g step] : Charted g (breakOr step) := by
  unfold Grammar.breakOr
  infer_instance

/-! ## Recovery -/

instance setAside (wanted : Wanted) (recovers : TokenKind → Bool) :
    Charted (.nodes l) (setAside wanted recovers) := by
  unfold Grammar.setAside
  infer_instance

instance passInLine : Charted g passInLine := by
  unfold Grammar.passInLine
  infer_instance

instance lineEnd : Charted (.nodes l) (lineEnd R) := by
  unfold Grammar.lineEnd
  infer_instance

instance closing (kind : TokenKind) (wanted : Wanted) [Fact (kind.isReal = true)] :
    Charted (.nodes l) (closing R kind wanted) := by
  unfold Grammar.closing
  infer_instance

instance skipToken (opened : Nat) : Charted g (skipToken opened) := by
  unfold Grammar.skipToken
  refine andThen fun ends => ?_
  split
  · infer_instance
  · exact andThen fun kind => by split <;> infer_instance

instance deepExpression : Charted (.nodes l) (deepExpression R) := by
  unfold Grammar.deepExpression
  infer_instance

instance skipKind (opened : Nat) (kind : TokenKind) : Charted g (skipKind opened kind) := by
  unfold Grammar.skipKind
  split <;> infer_instance

instance skipWord (opened : Nat) : Charted g (skipWord opened) := by
  unfold Grammar.skipWord
  infer_instance

instance deepBlock : Charted (.nodes l) (deepBlock R) := by
  unfold Grammar.deepBlock
  infer_instance

end Loops

/-- A name is an identifier that was seen. -/
instance declaredName (wanted : Wanted) : Charted (.nodes l) (declaredName wanted) := by
  change Charted _ (Grammar.current >>= fun k =>
    if k == .ident then Grammar.node .name (modify State.consume)
    else Grammar.complain (.missing wanted))
  refine taking (fun k s h => ?_) fun k s hk h => ?_
  all_goals
    rw [run_ite] at h
    split at h
  · rw [run_node] at h
    -- Consuming makes no fault, so there was none before.
    have hconsume (s : State) (h : s.consume.fault = none) : s.fault = none :=
      (State.fault_consume s).symm.trans h
    exact unbroken_node (m := modify State.consume) hconsume .name h
  · exact h
  · next hfound =>
    rw [run_ite, if_pos hfound, run_node]
    refine (Course.refl _ s).node (by decide) nofun ((Course.refl _ _).consume ?_)
    rw [eq_of_beq hfound] at hk
    change kindAhead 0 (s.opened .name).rest ≠ .eof
    rw [State.kindAhead_opened, hk]
    decide
  · next hmissing =>
    rw [run_ite, if_neg hmissing]
    exact (Course.refl _ s).complain (by simp)

/-! ## Names, calls and parameters -/

instance argumentFollows (afterComma : Bool) : Charted g (argumentFollows afterComma) := by
  unfold Grammar.argumentFollows
  infer_instance

instance opensArguments : Charted g opensArguments := by
  unfold Grammar.opensArguments
  infer_instance

instance variableDecl : Charted (.nodes l) variableDecl := by
  unfold Grammar.variableDecl
  infer_instance

instance variableOrDecl (recovers : TokenKind → Bool) :
    Charted (.nodes l) (variableOrDecl recovers) := by
  unfold Grammar.variableOrDecl
  infer_instance

instance parameter : Charted (.nodes l) parameter := by
  unfold Grammar.parameter
  infer_instance

section Rules

variable (R : Rules)

instance atFunction : Charted g (atFunction R) := by
  unfold Grammar.atFunction
  infer_instance

instance parameters : Charted (.nodes l) (parameters R) := by
  unfold Grammar.parameters
  infer_instance

variable [hR : R.Charted]

instance operandBelow (calls : Bool) : Charted (.nodes l) (R.operand calls) :=
  (hR.operand l calls).charted

/-- The block of an `if` or a loop. -/
instance plainBlock : Charted (.nodes .plain) R.block where
  unbroken := hR.block.unbroken
  run s h := by
    obtain ⟨u, hbody, hbuilt⟩ := hR.block.run s h
    rw [hbuilt]
    exact (Course.refl _ s).list hbody

/-- The block of a `begin` or a lambda. -/
instance countedBlock : Charted (.nodes .counted) (within .begins R.block) where
  unbroken s h := by
    rw [run_within] at h
    exact (State.fault_setCount .begins _ s).symm.trans (hR.block.unbroken _ (State.fault_lower h))
  run s h := by
    rw [run_within] at h ⊢
    obtain ⟨u, hbody, hbuilt⟩ := hR.block.run _ (State.fault_lower h)
    rw [hbuilt]
    exact (Course.refl _ s).counted hbody

instance parenArgument : Charted (.nodes l) (parenArgument R) := by
  unfold Grammar.parenArgument
  infer_instance

instance parenArguments : Charted (.nodes l) (parenArguments R) := by
  unfold Grammar.parenArguments
  infer_instance

instance bareArgument (afterComma : Bool) : Charted (.nodes l) (bareArgument R afterComma) := by
  unfold Grammar.bareArgument
  infer_instance

instance bareArguments : Charted (.nodes l) (bareArguments R) := by
  unfold Grammar.bareArguments
  infer_instance

instance lambda : Charted (.nodes l) (lambda R) := by
  unfold Grammar.lambda
  infer_instance

instance parenthesized : Charted (.nodes l) (parenthesized R) := by
  unfold Grammar.parenthesized
  infer_instance

end Rules

end Charted

/-! ## Operands and operators -/

namespace Crowned

open Charted (andThen)

variable {before : Bool} (R : Rules)

theorem deepExpression : Crowned (.nodes l) before (fun _ => true) (deepExpression R) :=
  node (by decide) (Charted.deepExpression R)

/-- What is set aside for a missing operand is a node. -/
theorem noOperand : Crowned (.nodes l) false id noOperand := by
  -- Only a complaint is made where the expression stops, else the token is set aside.
  have hrest (stops : Bool) : Crowned (.nodes l) false id (do
      if stops then
        Grammar.complain (.missing .expression)
        return false
      Grammar.node .error do
        Grammar.complain (.missing .expression)
        bumpAny
      return true) := by
    cases stops with
    | true => exact .bind (.of_charted inferInstance) fun _ => .pure (absurd · Bool.false_ne_true)
    | false => exact .bind (.node (by decide) inferInstance) fun _ => .pure fun _ => rfl
  unfold Grammar.noOperand
  refine .bind (.of_charted inferInstance) fun ends => ?_
  cases ends <;> exact .bind (.of_charted inferInstance) hrest

variable [hR : R.Charted]

/-- A call is built around its name. -/
theorem nameOrCall (calls : Bool) :
    Crowned (.nodes l) before (fun _ => true) (nameOrCall R calls) := by
  unfold Grammar.nameOrCall
  refine .bind (.of_charted inferInstance) fun known =>
    .bind (.node (by decide) inferInstance) fun _ => ?_
  cases calls with
  | false => exact .pure fun _ => rfl
  | true =>
    -- A call is put around the name, which is on top.
    have hcall (called : Bool) : Crowned (.nodes l) true (fun _ => true)
        (if called then
          Grammar.nodeAround .funcExpr do
            Grammar.node .argList do
              if ← opensArguments then parenArguments R
              else bareArguments R
        else Pure.pure ()) := by
      cases called with
      | true => exact .nodeAround .funcExpr
      | false => exact .pure fun _ => rfl
    cases known with
    | true => exact .bind (.pure fun _ => rfl) hcall
    | false => exact .bind (.map .current) hcall

theorem primary (calls : Bool) : Crowned (.nodes l) false id (primary R calls) := by
  have hthere {m : Step Unit} (hm : Crowned (.nodes l) false (fun _ => true) m) :
      Crowned (.nodes l) false id (do m; return true) := .bind hm fun _ => .pure fun _ => rfl
  unfold Grammar.primary
  refine .bind (.of_charted inferInstance) fun kind => ?_
  split
  iterate 3 exact hthere (.node (by decide) inferInstance)
  · exact hthere (.nameOrCall R calls)
  · refine .bind (.of_charted inferInstance) fun second => ?_
    dsimp only
    split
    · exact hthere (.node (by decide) (Charted.lambda R))
    · exact hthere (.node (by decide) (Charted.parenthesized R))
  · exact .noOperand

omit hR in
theorem roomForAccess : Crowned (.nodes l) true (fun _ => true) (roomForAccess R) := by
  unfold Grammar.roomForAccess
  refine .bind .current fun kind => ?_
  have hrest (deep : Bool) : Crowned (.nodes l) true (fun _ => true) (do
      if deep then
        Grammar.deepExpression R
        return none
      return some () : Step (Option Unit)) := by
    cases deep with
    | true => exact .bind (.deepExpression R) fun _ => .pure fun _ => rfl
    | false => exact .pure fun _ => rfl
  cases opensAccess kind with
  | true => exact .bind .isTooDeep hrest
  | false => exact .bind (.pure fun _ => rfl) hrest

theorem access (calls : Bool) : Crowned (.nodes l) true (fun _ => true) (access R calls) := by
  have hmember : Charted (.nodes .none) (do
      bumpAny
      if ← isAt .ident then Grammar.nameOrCall R calls
      else Grammar.complain (.missing .memberName)) := by
    have hname : Charted (.nodes .none) (Grammar.nameOrCall R calls) := (nameOrCall R calls).charted
    infer_instance
  unfold Grammar.access
  refine .bind .current fun kind => ?_
  split
  iterate 2 exact .bind (.nodeAround .memberExpr) fun _ => .pure fun _ => rfl
  · exact .bind (.nodeAround .memberExpr) fun _ => .pure fun _ => rfl
  · exact .pure fun _ => rfl

theorem accesses (calls : Bool) : Crowned (.nodes l) true (fun _ => true) (accesses R calls) :=
  .climb (.roomForAccess R) (fun _ => .access R calls) R.turns

theorem shallowOperand (calls : Bool) : Crowned (.nodes l) false id (shallowOperand R calls) := by
  unfold Grammar.shallowOperand
  refine .bind (.of_charted inferInstance) fun kind => ?_
  split
  · exact .bind (.node (by decide) inferInstance) fun _ => .pure fun _ => rfl
  · refine .bind (.primary R calls) fun there => ?_
    cases there with
    | true => exact .bind (.accesses R calls) fun _ => .pure fun _ => rfl
    | false => exact .pure (absurd · Bool.false_ne_true)

theorem operand (calls : Bool) : Crowned (.nodes l) false id (Grammar.operand R calls) := by
  unfold Grammar.operand
  refine .bind (.of_charted inferInstance) fun deep => ?_
  cases deep with
  | true => exact .bind (.deepExpression R) fun _ => .pure fun _ => rfl
  | false => exact .withinNesting (.shallowOperand R calls)

omit hR in
theorem roomForOperator (floor : Nat) :
    Crowned (.nodes l) true (fun _ => true) (roomForOperator R floor) := by
  unfold Grammar.roomForOperator
  refine .bind .current fun kind => ?_
  split
  · exact .pure fun _ => rfl
  · split
    · exact .pure fun _ => rfl
    · refine .bind .isTooDeep fun deep => ?_
      cases deep with
      | true => exact .bind (.deepExpression R) fun _ => .pure fun _ => rfl
      | false => exact .pure fun _ => rfl

theorem application (power : Nat) : Crowned (.nodes l) true (fun _ => true) (application R power) :=
  .bind (.nodeAround .binExpr) fun _ => .pure fun _ => rfl

theorem operators (floor : Nat) : Crowned (.nodes l) true (fun _ => true) (operators R floor) :=
  .climb (.roomForOperator R floor) (fun power => .application R power) R.turns

theorem expression (floor : Nat) :
    Crowned (.nodes l) false (fun _ => false) (Grammar.expression R floor) := by
  unfold Grammar.expression
  refine .bind (hR.operand l true) fun there => ?_
  cases there with
  | true => exact (operators R floor).unsaid
  | false => exact .pure (absurd · Bool.false_ne_true)

end Crowned

/-! ## Statements -/

namespace Charted

-- The longest rules have more parts than an instance may have otherwise.
set_option synthInstance.maxSize 1000

variable (R : Rules) [hR : R.Charted]

instance declaration : Charted (.nodes l) (declaration R) := by
  unfold Grammar.declaration
  infer_instance

instance setStatement : Charted (.nodes l) (setStatement R) := by
  unfold Grammar.setStatement
  infer_instance

instance letStatement : Charted (.nodes l) (letStatement R) := by
  unfold Grammar.letStatement
  infer_instance

instance returnStatement : Charted (.nodes l) (returnStatement R) := by
  unfold Grammar.returnStatement
  infer_instance

omit hR in
instance wordStatement (word : TokenKind) (kind : NodeKind) [Fact (word.isReal = true)]
    [Fact (kind.isFree = true)] : Charted (.nodes l) (wordStatement R word kind) := by
  unfold Grammar.wordStatement
  infer_instance

instance expressionStatement : Charted (.nodes l) (expressionStatement R) := by
  unfold Grammar.expressionStatement
  infer_instance

instance blockTurn : Charted (.nodes l) (blockTurn R) := by
  unfold Grammar.blockTurn
  infer_instance

theorem block : BuildsList (Grammar.block R) := by
  have hbody : Charted (.nodes .none) (do
      if ← Grammar.isTooDeep then Grammar.deepBlock R
      else Grammar.within .nesting (R.loop (Grammar.blockTurn R))) := inferInstance
  refine ⟨fun s h => unbroken_node hbody.unbroken .stmtList h, fun s h => ?_⟩
  unfold Grammar.block at h ⊢
  rw [run_node] at h ⊢
  exact ⟨_, hbody.run _ h, rfl⟩

instance branches : Charted (.nodes l) (Grammar.branches R) := by
  unfold Grammar.branches
  infer_instance

instance ifStatement : Charted (.nodes l) (ifStatement R) := by
  unfold Grammar.ifStatement
  infer_instance

instance whileStatement : Charted (.nodes l) (whileStatement R) := by
  unfold Grammar.whileStatement
  infer_instance

instance foreachStatement : Charted (.nodes l) (foreachStatement R) := by
  unfold Grammar.foreachStatement
  infer_instance

omit hR in
/-- A word that a rule counts on is ahead, and it is consumed. -/
theorem bump_seen {kind : TokenKind} {s : State} (h : (Grammar.bump kind s).2.fault = none) :
    kindAhead 0 s.rest = kind ∧ (Grammar.bump kind s).2 = s.consume := by
  rw [run_bump] at h ⊢
  split at h
  · next hfound =>
    rw [State.fault_consume] at h
    obtain ⟨-, hlook⟩ := look_sound h
    rw [if_pos hfound]
    rw [Grammar.current, hlook] at hfound ⊢
    exact ⟨hfound, State.consume_looked s⟩
  · exact absurd h (State.fault_giveUp_ne_none _ _)

omit hR in
/-- **A `begin` block inside another one is set aside**, and no other. -/
theorem beginOr (m : Unit → Step Unit) [hm : ∀ a, Charted (.nodes .counted) (m a)] :
    Charted (.nodes l) (do
      if ← Grammar.isOutside then Grammar.node .beginStmt (Grammar.bump .kwBegin >>= m)
      else
        Grammar.node .error do
          Grammar.complain .nestedBegin
          Grammar.node .beginStmt (Grammar.bump .kwBegin >>= m)) := by
  have hbody : Charted (.nodes .counted) (Grammar.bump .kwBegin >>= m) := inferInstance
  -- Whether a block is open decides where the node stands.
  have houtside (s : State) : Grammar.isOutside s = (s.begins == 0, s) := rfl
  refine ⟨fun s h => ?_, fun s h => ?_⟩
  all_goals
    rw [run_bind, houtside, run_ite] at h
    split at h
  · exact unbroken_node hbody.unbroken .beginStmt h
  · refine unbroken_node (fun t ht => ?_) .error h
    exact unbroken_node hbody.unbroken .beginStmt (s := t.complained .nestedBegin) ht
  · next hzero =>
    rw [run_bind, houtside, run_ite, if_pos hzero, run_node]
    rw [run_node] at h
    exact (Course.refl _ s).node (by decide) (fun _ => eq_of_beq hzero) (hbody.run _ h)
  · next hopen =>
    rw [run_bind, houtside, run_ite, if_neg hopen]
    have hopen' : s.begins ≠ 0 := fun hzero => hopen (by rw [hzero]; rfl)
    -- Inside of a block the node is set aside, with the complaint made in front of its word.
    have hcomplain (t : State) :
        Grammar.complain .nestedBegin t = ((), t.complained .nestedBegin) := rfl
    rw [run_node, run_bind, hcomplain, run_node] at h ⊢
    have hbump := (hm ()).unbroken _ h
    obtain ⟨hword, hconsumed⟩ := bump_seen hbump
    rw [run_bind, hconsumed] at h ⊢
    exact (Course.refl _ s).nested hopen' (s.kindAhead_aside.symm.trans hword) ((hm ()).run _ h)

instance beginOrNested : Charted (.nodes l) (beginOrNested R) := by
  unfold Grammar.beginOrNested Grammar.beginStatement
  exact beginOr _

instance statement : Charted (.nodes l) (Grammar.statement R) := by
  unfold Grammar.statement
  exact andThen fun kind => by split <;> infer_instance

/-! ## Scripts -/

omit hR in
instance lineBreaks : Charted g (lineBreaks R) := by
  unfold Grammar.lineBreaks
  infer_instance

omit hR in
instance scriptName : Charted (.nodes l) (scriptName R) := by
  unfold Grammar.scriptName
  infer_instance

omit hR in
instance strayCloser (closer : Closer) : Charted (.nodes l) (strayCloser closer) := by
  unfold Grammar.strayCloser
  infer_instance

instance topLevel : Charted (.nodes l) (topLevel R) := by
  unfold Grammar.topLevel
  refine andThen fun kind => ?_
  dsimp only
  split
  · infer_instance
  · split <;> infer_instance

instance scriptTurn : Charted (.nodes l) (scriptTurn R) := by
  unfold Grammar.scriptTurn
  infer_instance

instance script : Charted (.nodes l) (script R) := by
  unfold Grammar.script
  infer_instance

end Charted

/-! ## All levels -/

instance charted_exhausted (f : String → Bool) : (Rules.exhausted f).Charted where
  statement _ := .giveUp .stuck
  block := ⟨fun s h => absurd h (State.fault_giveUp_ne_none _ s),
    fun s h => absurd h (State.fault_giveUp_ne_none _ s)⟩
  branches _ := .giveUp .stuck
  expression _ _ := .giveUp .stuck
  operand _ _ := .bind (.of_charted (.giveUp .stuck)) fun _ => .pure (absurd · Bool.false_ne_true)

instance charted_deeper (R : Rules) [R.Charted] : R.deeper.Charted where
  statement _ := Charted.statement R
  block := Charted.block R
  branches _ := Charted.branches R
  expression _ floor := (Crowned.expression R floor).charted
  operand _ calls := Crowned.operand R calls

instance charted_rules (f : String → Bool) (levels : Nat) : (rules f levels).Charted := by
  induction levels with
  | zero => exact charted_exhausted f
  | succ levels ih => exact charted_deeper (rules f levels)

/-- **A script is read in a course** from the state in front of it. -/
theorem course_script (f : String → Bool) (ts : List Token) :
    Course (.nodes .none) (State.initial ts) (run f script ts) :=
  (Charted.script (rules f _)).run _ (fault_run_script f ts)

end ScriptSense.Grammar
