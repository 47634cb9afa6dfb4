/-
What a step does to the state in front of it.

A step is a function of the state, and each of the makings of the grammar has
one equation here that says which. Later modules run steps by these equations
and by those of `ScriptSense.Syntax.Grammar.Builder` on states, never by opening
the monad.
-/
import Mathlib.Tactic.ByContra
import ScriptSense.Syntax.Grammar.Script

set_option autoImplicit false

namespace ScriptSense.Grammar

variable {α β : Type}

/-! ## The monad -/

@[simp] theorem run_pure (a : α) (s : State) : (pure a : Step α) s = (a, s) := rfl

/-- The second step begins where the first has ended. -/
@[simp] theorem run_bind (m : Step α) (f : α → Step β) (s : State) :
    (m >>= f) s = f (m s).1 (m s).2 := rfl

@[simp] theorem run_map (f : α → β) (m : Step α) (s : State) :
    (f <$> m) s = (f (m s).1, (m s).2) := rfl

@[simp] theorem run_discard (m : Step α) (s : State) :
    (Functor.discard m) s = ((), (m s).2) := rfl

@[simp] theorem run_modify (f : State → State) (s : State) :
    (modify f : Step Unit) s = ((), f s) := rfl

@[simp] theorem run_get (s : State) : (get : Step State) s = (s, s) := rfl

@[simp] theorem run_set (t s : State) : (set t : Step Unit) s = ((), t) := rfl

/-- A choice is made before the step is run. -/
@[simp] theorem run_ite (c : Prop) [Decidable c] (m m' : Step α) (s : State) :
    (if c then m else m') s = if c then m s else m' s := by
  split <;> rfl

/-! ## Looks -/

/-- The state behind a look. -/
def State.looked (s : State) : State := { s with looks := s.looks + 1 }

/-- Where the reading goes on and few looks were taken, a look tells the kind of a
token ahead. -/
theorem run_look {s : State} (hfault : s.fault = none) (hlooks : s.looks ≤ lookLimit) (n : Nat) :
    look n s = (kindAhead n s.rest, s.looked) := by
  unfold look State.looked
  simp [hfault, Nat.not_lt.2 hlooks]

/-- A look either tells the kind of a token ahead or gives up, and then it finds
the end of the text. -/
theorem run_look_cases (n : Nat) (s : State) :
    s.fault = none ∧ s.looks ≤ lookLimit ∧ look n s = (kindAhead n s.rest, s.looked)
      ∨ look n s = (.eof, s.giveUp .stuck) := by
  by_cases h : s.fault = none ∧ s.looks ≤ lookLimit
  · exact .inl ⟨h.1, h.2, run_look h.1 h.2 n⟩
  · refine .inr (if_pos ?_)
    simp only [Bool.or_eq_true, decide_eq_true_eq, Option.isSome_iff_ne_none]
    by_contra hnone
    simp only [not_or, not_not, Nat.not_lt] at hnone
    exact h hnone

/-- A test of the next token is a look and a comparison. -/
theorem run_isAt (kind : TokenKind) (s : State) :
    isAt kind s = ((current s).1 == kind, (current s).2) := rfl

/-- A token is consumed where it is next, and only looked at elsewhere. -/
theorem run_eat (kind : TokenKind) (s : State) :
    eat kind s
      = if (current s).1 = kind then (true, (current s).2.consume) else (false, (current s).2) := by
  have hstep : eat kind s = (do
      if (current s).1 == kind then modify State.consume
      return (current s).1 == kind : Step Bool) (current s).2 := rfl
  rw [hstep]
  by_cases h : (current s).1 = kind
  · simp [h]
  · have hbeq : ((current s).1 == kind) = false := by simpa using h
    simp [h, hbeq]

/-- A token that should be next and is not is a fault. -/
theorem run_bump (kind : TokenKind) (s : State) :
    bump kind s = if (current s).1 = kind then ((), (current s).2.consume)
      else ((), (current s).2.giveUp (.mismatch (.token kind) (.token (current s).1))) := by
  have hstep : bump kind s = (if (current s).1 == kind then modify State.consume
      else modify (State.giveUp (.mismatch (.token kind) (.token (current s).1))) : Step Unit)
        (current s).2 := rfl
  rw [hstep]
  by_cases h : (current s).1 = kind <;> simp [h]

/-- A token that is missing is complained about. -/
theorem run_expect (kind : TokenKind) (wanted : Wanted) (s : State) :
    expect kind wanted s
      = ((eat kind s).1, if (eat kind s).1 then (eat kind s).2
          else (complain (.missing wanted) (eat kind s).2).2) := by
  have hstep : expect kind wanted s = (if (eat kind s).1 = true then pure (eat kind s).1 else do
      complain (.missing wanted)
      pure (eat kind s).1 : Step Bool) (eat kind s).2 := rfl
  rw [hstep]
  split <;> rfl

/-- Only a word is looked up. -/
theorem run_atFunction (R : Rules) (s : State) :
    atFunction R s
      = if (current s).1 = .ident then textAhead R.isFunction (current s).2
        else (false, (current s).2) := by
  have hstep : atFunction R s = (do
      if (current s).1 == .ident then textAhead R.isFunction else return false : Step Bool)
        (current s).2 := rfl
  rw [hstep]
  by_cases h : (current s).1 = .ident <;> simp [h]

/-! ## Nodes and counters -/

/-- The state in which a node of a kind begins: the trivia ahead is outside of it,
unless it is a block. -/
def State.opened (kind : NodeKind) (s : State) : State :=
  if kind = .stmtList then s else s.shiftTrivia

/-- The state inside a node that begins with some children. -/
def State.inside (children : Array Tree) (s : State) : State := { s with out := children }

/-- A node is opened, its content is read from nothing, and then it is closed around it. -/
theorem run_node (kind : NodeKind) (body : Step α) (s : State) :
    node kind body s
      = ((body ((s.opened kind).inside #[])).1,
          (body ((s.opened kind).inside #[])).2.close kind (s.opened kind).offset
            (s.opened kind).out) := by
  unfold node State.opened State.inside
  by_cases h : kind = .stmtList
  · simp [h]
  · simp [h]

/-- A node around the last one begins where that one begins, with it as the first child. -/
theorem run_nodeAround {s : State} {first : NodeKind} {span : Span} {children : List Tree}
    (h : s.out.back? = some (.node first span children)) (kind : NodeKind) (body : Step α) :
    nodeAround kind body s
      = ((body (s.inside #[.node first span children])).1,
          (body (s.inside #[.node first span children])).2.close kind span.start s.out.pop) := by
  unfold nodeAround State.inside
  simp [h]

/-- Without a node to build around, the step gives up. -/
theorem run_nodeAround_none {s : State}
    (h : ∀ first span children, s.out.back? ≠ some (.node first span children))
    (kind : NodeKind) (body : Step α) :
    nodeAround kind body s
      = node kind body (s.giveUp (.mismatch (.built true) (.built false))) := by
  unfold nodeAround
  simp only [run_bind, run_get]
  simp

/-- A counter is raised, and lowered behind the step. -/
theorem run_within (c : Counter) (body : Step α) (s : State) :
    within c body s = ((body (s.raise c)).1, (body (s.raise c)).2.lower c) := by
  simp [within]

/-- A counter has its old value behind the step. -/
theorem run_restoring (c : Counter) (body : Step α) (s : State) :
    restoring c body s = ((body s).1, (body s).2.setCount c (s.count c)) := by
  simp [restoring]

/-- The number of open parentheses is zero inside and what it was behind. -/
theorem run_withoutParens (body : Step α) (s : State) :
    withoutParens body s
      = ((body (s.setCount .parens 0)).1, (body (s.setCount .parens 0)).2.setCount .parens s.parens) := by
  simp [withoutParens, run_restoring, State.count]

/-! ## Loops -/

/-- Without fuel a loop is stuck. -/
@[simp] theorem run_iterate_zero {σ : Type} (step : σ → Step (Option σ)) (x : σ) (s : State) :
    iterate step 0 x s = ((), s.giveUp .stuck) := rfl

/-- A loop takes a turn and goes on with what the turn answers. -/
theorem run_iterate_succ {σ : Type} (step : σ → Step (Option σ)) (n : Nat) (x : σ) (s : State) :
    iterate step (n + 1) x s
      = match (step x s).1 with
        | none => ((), (step x s).2)
        | some y => iterate step n y (step x s).2 := by
  rw [iterate, run_bind]
  cases (step x s).1 <;> simp

/-- A turn ends where the check finds nothing. -/
theorem run_climbTurn_none {check : Step (Option β)} {act : β → Step Bool} {s : State}
    (h : (check s).1 = none) : climbTurn check act s = (none, (check s).2) := by
  unfold climbTurn
  rw [run_bind, h]
  rfl

/-- A turn acts on what the check has found, one level deeper. -/
theorem run_climbTurn_some {check : Step (Option β)} {act : β → Step Bool} {s : State} {b : β}
    (h : (check s).1 = some b) :
    climbTurn check act s
      = (if (act b ((check s).2.raise .nesting)).1 then some () else none,
          (act b ((check s).2.raise .nesting)).2) := by
  unfold climbTurn
  rw [run_bind, h]
  simp only [run_bind, run_modify]
  cases (act b ((check s).2.raise .nesting)).1 <;> rfl

/-! ## Faults -/

namespace State

/-- Giving up is a fault, whether there was one or not. -/
@[simp] theorem isSome_fault_giveUp (f : Fault) (s : State) : (s.giveUp f).fault.isSome = true := by
  simp [giveUp]

/-- Behind giving up there is a fault. -/
@[simp] theorem fault_giveUp_ne_none (f : Fault) (s : State) : (s.giveUp f).fault ≠ none := by
  simp [giveUp]

/-- A counter holds what it was set to. -/
@[simp] theorem count_setCount (c : Counter) (n : Nat) (s : State) :
    (s.setCount c n).count c = n := by
  cases c <;> rfl

/-- The other counters stay. -/
theorem count_setCount_of_ne {c d : Counter} (h : d ≠ c) (n : Nat) (s : State) :
    (s.setCount c n).count d = s.count d := by
  cases c <;> cases d <;> first | rfl | exact absurd rfl h

end State

end ScriptSense.Grammar
