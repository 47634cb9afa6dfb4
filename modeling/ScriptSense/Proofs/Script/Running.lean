/-
Running the steps of the walk from the tree to the meaning.

A step answers something or nothing, and in both cases it leaves behind what has
been collected. These equations say how the answers of a composed step come about,
so that no proof has to open the monads.
-/
import ScriptSense.Script.Lowering

set_option autoImplicit false

namespace ScriptSense.Lower

variable {α β : Type}

/-- The answer of a step and what has been collected behind it. -/
def after (m : Lower α) (g : Gathered) : Option α × Gathered := m.run.run g

@[simp] theorem after_pure (a : α) (g : Gathered) : after (pure a) g = (some a, g) := rfl

@[simp] theorem after_failure (g : Gathered) : after (failure : Lower α) g = (none, g) := rfl

@[simp] theorem after_given (o : Option α) (g : Gathered) : after (given o) g = (o, g) := rfl

theorem after_bind (m : Lower α) (f : α → Lower β) (g : Gathered) :
    after (m >>= f) g = match after m g with
      | (none, g') => (none, g')
      | (some a, g') => after (f a) g' := by
  rw [after, OptionT.run_bind, Option.elimM, StateT.run_bind]
  change Id.run _ = _
  cases h : after m g with
  | mk answer g' =>
    have hrun : StateT.run m.run g = pure (answer, g') := h
    rw [hrun, pure_bind]
    cases answer <;> rfl

theorem after_bind_some {m : Lower α} {f : α → Lower β} {g g' : Gathered} {a : α}
    (h : m.after g = (some a, g')) : after (m >>= f) g = (f a).after g' := by
  rw [after_bind, h]

theorem after_bind_none {m : Lower α} {f : α → Lower β} {g g' : Gathered}
    (h : m.after g = (none, g')) : after (m >>= f) g = (none, g') := by
  rw [after_bind, h]

theorem given_some_bind (a : α) (f : α → Lower β) : given (some a) >>= f = f a := pure_bind a f

theorem after_map (h : α → β) (m : Lower α) (g : Gathered) :
    after (h <$> m) g = ((after m g).1.map h, (after m g).2) := by
  rw [map_eq_pure_bind, after_bind]
  rcases after m g with ⟨_ | a, g'⟩ <;> rfl

@[simp] theorem after_attempt (m : Lower α) (g : Gathered) :
    after (attempt m) g = (some (after m g).1, (after m g).2) := by
  rw [after, attempt, OptionT.run_lift, StateT.run_bind]
  rfl

@[simp] theorem after_get (g : Gathered) : after get g = (some g, g) := rfl

@[simp] theorem after_set (g' g : Gathered) : after (set g') g = (some ⟨⟩, g') := rfl

@[simp] theorem after_modify (h : Gathered → Gathered) (g : Gathered) :
    after (modify h) g = (some ⟨⟩, h g) := rfl

/-- What a step finds of the elements of a list, one after the other, and what has been
collected behind the last one. -/
def afterEach (f : α → Lower β) : List α → Gathered → List β × Gathered
  | [], g => ([], g)
  | a :: as, g =>
    let (b, g') := after (f a) g
    let (bs, g'') := afterEach f as g'
    (b.toList ++ bs, g'')

theorem run_filterMapM (f : α → Lower β) (as : List α) (g : Gathered) :
    (as.filterMapM fun a => (f a).run : StateM Gathered (List β)).run g = afterEach f as g := by
  induction as generalizing g with
  | nil => rfl
  | cons a as ih =>
    rw [List.filterMapM_cons, StateT.run_bind, afterEach]
    have hrun : StateT.run (f a).run g = pure (after (f a) g) := rfl
    rw [hrun, pure_bind]
    cases hanswer : after (f a) g with
    | mk b g' =>
      cases b with
      | none => exact ih g'
      | some b =>
        dsimp only
        rw [StateT.run_bind, ih g']
        rfl

theorem after_filterMapM (f : α → Lower β) (as : List α) (g : Gathered) :
    after (as.filterMapM fun a => attempt (f a)) g
      = (some (afterEach f as g).1, (afterEach f as g).2) := by
  induction as generalizing g with
  | nil => rfl
  | cons a as ih =>
    rw [List.filterMapM_cons, after_bind_some (after_attempt (f a) g), afterEach]
    cases hanswer : after (f a) g with
    | mk b g' =>
      cases b with
      | none => exact ih g'
      | some b =>
        dsimp only
        rw [after_bind_some (ih g')]
        rfl

/-! ## Steps that find something -/

/-- The step finds something with a property, whatever was collected before. -/
def Finds (m : Lower α) (P : α → Prop) : Prop :=
  ∀ g, ∃ a g', m.after g = (some a, g') ∧ P a

namespace Finds

variable {m : Lower α} {f : α → Lower β} {P : α → Prop} {Q : β → Prop} {a : α}

theorem pure (h : P a) : Finds (Pure.pure a) P := fun g => ⟨a, g, rfl, h⟩

theorem bind (hm : Finds m P) (hf : ∀ a, P a → Finds (f a) Q) : Finds (m >>= f) Q := by
  intro g
  obtain ⟨a, g', hrun, ha⟩ := hm g
  obtain ⟨b, g'', hrun', hb⟩ := hf a ha g'
  exact ⟨b, g'', (after_bind_some hrun).trans hrun', hb⟩

/-- What is there is found. -/
theorem given {o : Option α} (h : o = some a) (hf : Finds (f a) Q) :
    Finds (Lower.given o >>= f) Q := by
  subst h
  exact hf

theorem get : Finds MonadState.get (fun _ => True) := fun g => ⟨g, g, rfl, trivial⟩

/-- A name stands for a symbol or for something outside. -/
theorem symbolOrOutside (scope : ScopeId) (name : String) :
    Finds (Lower.symbolOrOutside scope name) fun _ => True := by
  refine bind (P := fun _ => True) (bind get fun g _ => pure trivial) fun symbol _ => ?_
  dsimp only
  split
  · exact bind (P := fun _ => True) (fun g => ⟨_, _, rfl, trivial⟩) fun _ _ => pure trivial
  · exact pure trivial

/-- A name is something wherever it stands. -/
theorem nameUse {scope : ScopeId} {t : Tree} {P : Expr → Prop}
    (h : ∀ symbol ty, P (.mk (.name (View.Identifier.text t) symbol) ty t.span)) :
    Finds (Lower.nameUse scope t) P := by
  refine bind (symbolOrOutside scope _) fun symbol _ => ?_
  cases symbol with
  | none => exact pure (h _ _)
  | some id => exact bind get fun g _ => pure (h _ _)

end Finds

end ScriptSense.Lower

namespace ScriptSense

/-! ## Scripts -/

/-- The state in front of a script. -/
abbrev Gathered.start (span : Span) : Gathered := ⟨.ofRoot ⟨.script, span⟩, .empty⟩

/-- The meaning of a script is its name and what the walk over its statements finds and
collects. -/
theorem Script.ofTree?_node (span : Span) (cs : List Tree) :
    Script.ofTree? (.node .script span cs)
      = (Script.declaredName? (.node .script span cs)).map fun name =>
        let walked := Lower.afterEach
          (fun c : (Tree.node .script span cs).Child => Lower.statement .root c.val)
          (View.Script.statements (.node .script span cs)) (.start span)
        ⟨name.text, name.span, walked.1, walked.2.scopes, walked.2.external.values⟩ := by
  unfold Script.ofTree?
  cases Script.declaredName? (.node .script span cs) with
  | none => rfl
  | some name =>
    have hrun := Lower.run_filterMapM
      (fun c : (Tree.node .script span cs).Child => Lower.statement .root c.val)
      (View.Script.statements (.node .script span cs)) (.start span)
    dsimp only
    rw [Option.map_some, ← hrun]
    rfl

end ScriptSense
