/-
What the rules are made of.

Every rule is put together from a few makings: looks, tokens consumed, complaints, nodes,
counters and loops. `Made` is the class of what can be put together from them, given the
names known to be functions, which is all of the text that a rule ever asks for. All
rules are in it, and so a property of steps that each of the makings has, or hands on,
is one of the whole grammar, by one induction.

`Alike` judges two steps and how far they agree; here is a single step, and nothing is
asked of how its parts fit together.
-/
import ScriptSense.Proofs.Grammar.Running

set_option autoImplicit false

namespace ScriptSense.Grammar

/-! ## The makings -/

/-- **The step is made of the makings of the grammar**, and asks of names only whether
they are functions. -/
class inductive Made (f : String → Bool) : {α : Type} → Step α → Prop
  | pure {α : Type} (a : α) : Made f (Pure.pure a)
  | bind {α β : Type} {m : Step α} {g : α → Step β} (hm : Made f m) (hg : ∀ a, Made f (g a)) :
      Made f (m >>= g)
  | map {α β : Type} (g : α → β) {m : Step α} (hm : Made f m) : Made f (g <$> m)
  | look (n : Nat) : Made f (look n)
  | textAhead : Made f (textAhead f)
  | isTooDeep : Made f isTooDeep
  | isOutside : Made f isOutside
  | consume : Made f (modify State.consume)
  | complain (p : Problem) : Made f (complain p)
  | giveUp (fault : Fault) : Made f (modify (State.giveUp fault))
  | raise (c : Counter) : Made f (modify (State.raise c))
  | lower (c : Counter) : Made f (modify (State.lower c))
  | setCount (c : Counter) (n : Nat) : Made f (modify (State.setCount c n))
  | restoring {α : Type} (c : Counter) {m : Step α} (hm : Made f m) : Made f (restoring c m)
  | node {α : Type} (k : NodeKind) {m : Step α} (hm : Made f m) : Made f (node k m)
  | nodeAround {α : Type} (k : NodeKind) {m : Step α} (hm : Made f m) : Made f (nodeAround k m)
  | iterate {σ : Type} {step : σ → Step (Option σ)} (hstep : ∀ x, Made f (step x)) (n : Nat)
      (x : σ) : Made f (iterate step n x)

attribute [instance] Made.pure Made.look Made.textAhead Made.isTooDeep Made.isOutside Made.consume
  Made.complain Made.giveUp Made.raise Made.lower Made.setCount

/-- The rules of a level are made of the makings. -/
class Rules.Made (R : Rules) : Prop where
  statement : Grammar.Made R.isFunction R.statement
  block : Grammar.Made R.isFunction R.block
  branches : Grammar.Made R.isFunction R.branches
  expression (floor : Nat) : Grammar.Made R.isFunction (R.expression floor)
  operand (calls : Bool) : Grammar.Made R.isFunction (R.operand calls)

attribute [instance] Rules.Made.statement Rules.Made.block Rules.Made.branches
  Rules.Made.expression Rules.Made.operand

namespace Made

-- The longest rules have more parts than an instance may have otherwise.
set_option synthInstance.maxSize 1000

variable {α β σ : Type} {f : String → Bool}

/-- A step and what comes after it, where that is looked at by cases. -/
theorem andThen {m : Step α} {g : α → Step β} [hm : Made f m] (hg : ∀ a, Made f (g a)) :
    Made f (m >>= g) :=
  bind hm hg

section Parts

variable (m m' : Step α) [hm : Made f m] [hm' : Made f m']

instance instBind (g : α → Step β) [hg : ∀ a, Made f (g a)] : Made f (m >>= g) := bind hm hg

instance instMap (g : α → β) : Made f (g <$> m) := map g hm

instance instRestoring (c : Counter) : Made f (Grammar.restoring c m) := restoring c hm

instance instNode (k : NodeKind) : Made f (Grammar.node k m) := node k hm

instance instNodeAround (k : NodeKind) : Made f (Grammar.nodeAround k m) := nodeAround k hm

instance instIterate (step : σ → Step (Option σ)) [hstep : ∀ x, Made f (step x)] (n : Nat) (x : σ) :
    Made f (Grammar.iterate step n x) :=
  iterate hstep n x

instance ite (c : Prop) [Decidable c] : Made f (if c then m else m') := by
  split <;> assumption

instance discard : Made f (Functor.discard m) := map (fun _ => ()) hm

instance within (c : Counter) : Made f (within c m) := by
  unfold Grammar.within
  infer_instance

instance withoutParens : Made f (withoutParens m) := by
  unfold Grammar.withoutParens
  infer_instance

end Parts

instance climbTurn (check : Step (Option β)) (act : β → Step Bool) [Made f check]
    [∀ b, Made f (act b)] : Made f (climbTurn check act) := by
  unfold Grammar.climbTurn
  exact andThen fun answer => by split <;> infer_instance

instance climb (check : Step (Option β)) (act : β → Step Bool) [Made f check]
    [∀ b, Made f (act b)] (turns : Nat) : Made f (climb check act turns) := by
  unfold Grammar.climb
  infer_instance

/-! ## Tokens -/

instance current : Made f current := look 0

instance isAt (kind : TokenKind) : Made f (isAt kind) := by
  unfold Grammar.isAt
  infer_instance

instance atEnd : Made f atEnd := isAt .eof

instance atLineEnd : Made f atLineEnd := by
  unfold Grammar.atLineEnd
  infer_instance

instance bumpAny : Made f bumpAny := by
  unfold Grammar.bumpAny
  infer_instance

instance eat (kind : TokenKind) : Made f (eat kind) := by
  unfold Grammar.eat
  infer_instance

instance bump (kind : TokenKind) : Made f (bump kind) := by
  unfold Grammar.bump
  infer_instance

instance expect (kind : TokenKind) (wanted : Wanted) : Made f (expect kind wanted) := by
  unfold Grammar.expect
  infer_instance

variable (R : Rules)

instance loopFrom (x : σ) (step : σ → Step (Option σ)) [∀ x, Made f (step x)] :
    Made f (R.loopFrom x step) :=
  instIterate step R.turns x

instance loop (step : Step Bool) [Made f step] : Made f (R.loop step) := by
  unfold Rules.loop
  infer_instance

instance breakOr (step : Step Unit) [Made f step] : Made f (breakOr step) := by
  unfold Grammar.breakOr
  infer_instance

/-! ## Recovery -/

instance setAside (wanted : Wanted) (recovers : TokenKind → Bool) :
    Made f (setAside wanted recovers) := by
  unfold Grammar.setAside
  infer_instance

instance passInLine : Made f passInLine := by
  unfold Grammar.passInLine
  infer_instance

instance lineEnd : Made f (lineEnd R) := by
  unfold Grammar.lineEnd
  infer_instance

instance closing (kind : TokenKind) (wanted : Wanted) : Made f (closing R kind wanted) := by
  unfold Grammar.closing
  infer_instance

instance skipToken (opened : Nat) : Made f (skipToken opened) := by
  unfold Grammar.skipToken
  refine andThen fun ends => ?_
  split
  · infer_instance
  · exact andThen fun kind => by split <;> infer_instance

instance deepExpression : Made f (deepExpression R) := by
  unfold Grammar.deepExpression
  infer_instance

instance skipKind (opened : Nat) (kind : TokenKind) : Made f (skipKind opened kind) := by
  unfold Grammar.skipKind
  split <;> infer_instance

instance skipWord (opened : Nat) : Made f (skipWord opened) := by
  unfold Grammar.skipWord
  infer_instance

instance deepBlock : Made f (deepBlock R) := by
  unfold Grammar.deepBlock
  infer_instance

instance declaredName (wanted : Wanted) : Made f (declaredName wanted) := by
  unfold Grammar.declaredName
  infer_instance

/-! ## Names, calls and parameters -/

instance argumentFollows (afterComma : Bool) : Made f (argumentFollows afterComma) := by
  unfold Grammar.argumentFollows
  infer_instance

instance opensArguments : Made f opensArguments := by
  unfold Grammar.opensArguments
  infer_instance

instance atFunction : Made R.isFunction (atFunction R) := by
  unfold Grammar.atFunction
  infer_instance

instance variableDecl : Made f variableDecl := by
  unfold Grammar.variableDecl
  infer_instance

instance variableOrDecl (recovers : TokenKind → Bool) : Made f (variableOrDecl recovers) := by
  unfold Grammar.variableOrDecl
  infer_instance

instance parameter : Made f parameter := by
  unfold Grammar.parameter
  infer_instance

instance parameters : Made f (parameters R) := by
  unfold Grammar.parameters
  infer_instance

instance noOperand : Made f noOperand := by
  unfold Grammar.noOperand
  infer_instance

instance roomForAccess : Made f (roomForAccess R) := by
  unfold Grammar.roomForAccess
  infer_instance

instance roomForOperator (floor : Nat) : Made f (roomForOperator R floor) := by
  unfold Grammar.roomForOperator
  exact andThen fun kind => by split <;> infer_instance

variable [R.Made]

instance parenArgument : Made R.isFunction (parenArgument R) := by
  unfold Grammar.parenArgument
  infer_instance

instance parenArguments : Made R.isFunction (parenArguments R) := by
  unfold Grammar.parenArguments
  infer_instance

instance bareArgument (afterComma : Bool) : Made R.isFunction (bareArgument R afterComma) := by
  unfold Grammar.bareArgument
  infer_instance

instance bareArguments : Made R.isFunction (bareArguments R) := by
  unfold Grammar.bareArguments
  infer_instance

instance nameOrCall (calls : Bool) : Made R.isFunction (nameOrCall R calls) := by
  unfold Grammar.nameOrCall
  infer_instance

/-! ## Operands and operators -/

instance lambda : Made R.isFunction (lambda R) := by
  unfold Grammar.lambda
  infer_instance

instance parenthesized : Made R.isFunction (parenthesized R) := by
  unfold Grammar.parenthesized
  infer_instance

instance primary (calls : Bool) : Made R.isFunction (primary R calls) := by
  unfold Grammar.primary
  exact andThen fun kind => by split <;> infer_instance

instance access (calls : Bool) : Made R.isFunction (access R calls) := by
  unfold Grammar.access
  exact andThen fun kind => by split <;> infer_instance

instance accesses (calls : Bool) : Made R.isFunction (accesses R calls) := by
  unfold Grammar.accesses
  infer_instance

instance shallowOperand (calls : Bool) : Made R.isFunction (shallowOperand R calls) := by
  unfold Grammar.shallowOperand
  exact andThen fun kind => by split <;> infer_instance

instance operand (calls : Bool) : Made R.isFunction (Grammar.operand R calls) := by
  unfold Grammar.operand
  infer_instance

instance application (power : Nat) : Made R.isFunction (application R power) := by
  unfold Grammar.application
  infer_instance

instance operators (floor : Nat) : Made R.isFunction (operators R floor) := by
  unfold Grammar.operators
  infer_instance

instance expression (floor : Nat) : Made R.isFunction (Grammar.expression R floor) := by
  unfold Grammar.expression
  infer_instance

/-! ## Statements -/

instance declaration : Made R.isFunction (declaration R) := by
  unfold Grammar.declaration
  infer_instance

instance setStatement : Made R.isFunction (setStatement R) := by
  unfold Grammar.setStatement
  infer_instance

instance letStatement : Made R.isFunction (letStatement R) := by
  unfold Grammar.letStatement
  infer_instance

instance returnStatement : Made R.isFunction (returnStatement R) := by
  unfold Grammar.returnStatement
  infer_instance

omit [R.Made] in
instance wordStatement (word : TokenKind) (kind : NodeKind) :
    Made f (wordStatement R word kind) := by
  unfold Grammar.wordStatement
  infer_instance

instance expressionStatement : Made R.isFunction (expressionStatement R) := by
  unfold Grammar.expressionStatement
  infer_instance

instance blockTurn : Made R.isFunction (blockTurn R) := by
  unfold Grammar.blockTurn
  infer_instance

instance block : Made R.isFunction (Grammar.block R) := by
  unfold Grammar.block
  infer_instance

instance branches : Made R.isFunction (Grammar.branches R) := by
  unfold Grammar.branches
  infer_instance

instance ifStatement : Made R.isFunction (ifStatement R) := by
  unfold Grammar.ifStatement
  infer_instance

instance whileStatement : Made R.isFunction (whileStatement R) := by
  unfold Grammar.whileStatement
  infer_instance

instance foreachStatement : Made R.isFunction (foreachStatement R) := by
  unfold Grammar.foreachStatement
  infer_instance

instance beginStatement : Made R.isFunction (beginStatement R) := by
  unfold Grammar.beginStatement
  infer_instance

instance beginOrNested : Made R.isFunction (beginOrNested R) := by
  unfold Grammar.beginOrNested
  infer_instance

instance statement : Made R.isFunction (Grammar.statement R) := by
  unfold Grammar.statement
  exact andThen fun kind => by split <;> infer_instance

/-! ## Scripts -/

omit [R.Made] in
instance lineBreaks : Made f (lineBreaks R) := by
  unfold Grammar.lineBreaks
  infer_instance

omit [R.Made] in
instance scriptName : Made f (scriptName R) := by
  unfold Grammar.scriptName
  infer_instance

instance strayCloser (closer : Closer) : Made f (strayCloser closer) := by
  unfold Grammar.strayCloser
  infer_instance

instance topLevel : Made R.isFunction (topLevel R) := by
  unfold Grammar.topLevel
  refine andThen fun kind => ?_
  dsimp only
  split
  · infer_instance
  · split <;> infer_instance

instance scriptTurn : Made R.isFunction (scriptTurn R) := by
  unfold Grammar.scriptTurn
  infer_instance

instance script : Made R.isFunction (script R) := by
  unfold Grammar.script
  infer_instance

end Made

/-! ## All levels -/

variable (f : String → Bool)

instance made_exhausted : (Rules.exhausted f).Made where
  statement := .giveUp .stuck
  block := .giveUp .stuck
  branches := .giveUp .stuck
  expression _ := .giveUp .stuck
  operand _ := inferInstanceAs (Made f (modify (State.giveUp .stuck) >>= fun _ => pure false))

instance made_deeper (R : Rules) [R.Made] : R.deeper.Made where
  statement := Made.statement R
  block := Made.block R
  branches := Made.branches R
  expression := Made.expression R
  operand := Made.operand R

/-- **Every rule is made of the makings of the grammar.** -/
instance made_rules (levels : Nat) : (rules f levels).Made := by
  induction levels with
  | zero => exact made_exhausted f
  | succ levels ih => exact made_deeper (rules f levels)

end ScriptSense.Grammar
