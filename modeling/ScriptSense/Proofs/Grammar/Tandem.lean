/-
Two runs of the grammar side by side.

Two runs that begin in related states end in related states and answer the same: that is
what a simulation between them says, and it is shown of what steps are put together with
once for all relations that looks, moves and complaints keep (`Tandem`) and that nodes
hand on (`Encloses`). A property of one run is the case of a run beside itself.

`Coupled` is the class of pairs of steps for which this is so. A fault in either run
excuses both. Some rules stand only where no parentheses are open, the rules of statements
among them; they are coupled in `calm` states alone. Which nodes a relation hands on may
depend on their kinds, and then the rules that build the others have to be gone through by
hand (`ScriptSense.Proofs.Grammar.TandemRules`).
-/
import ScriptSense.Proofs.Grammar.Budget
import ScriptSense.Proofs.Grammar.Headed

set_option autoImplicit false

namespace ScriptSense

namespace NodeKind

/-- A statement that ends with its line. -/
def isSimple : NodeKind → Bool
  | .varDeclStmt | .setStmt | .letStmt | .returnStmt | .breakStmt | .continueStmt
  | .exprStmt => true
  | _ => false

/-- The node holds an operator and what it is applied to. -/
def isOperation : NodeKind → Bool
  | .binExpr | .unaryExpr => true
  | _ => false

/-- The node is neither of the two, and no call. -/
def isCommon (kind : NodeKind) : Bool :=
  !kind.isSimple && !kind.isOperation && kind != .funcExpr

end NodeKind

namespace Grammar

variable {α β σ : Type}

/-! ## The next token -/

/-- What a rule may see of the tokens ahead: kinds and texts, without the trivia. -/
def faces (ts : List Token) : List (TokenKind × String) :=
  (ts.filter (!·.kind.isTrivia)).map fun t => (t.kind, t.text)

/-- A look sees the faces of the tokens. -/
theorem kindAhead_faces (n : Nat) (ts : List Token) :
    kindAhead n ts = ((faces ts)[n]?.map Prod.fst).getD .eof := by
  have hkinds : (ts.map Token.kind).filter (!·.isTrivia) = (faces ts).map Prod.fst := by
    simp only [faces, List.filter_map, List.map_map]
    rfl
  rw [kindAhead_eq, hkinds, List.getD_eq_getElem?_getD, List.getElem?_map]

/-- A question about the next word is about its face. -/
theorem find?_faces (p : String → Bool) (ts : List Token) :
    (ts.find? (!·.kind.isTrivia)).any (fun t => p t.text)
      = (faces ts).head?.any fun face => p face.2 := by
  rw [faces, List.head?_map, List.head?_filter]
  cases ts.find? (!·.kind.isTrivia) <;> rfl

/-- Trivia in front of the next token is not seen. -/
theorem faces_dropWhile (ts : List Token) :
    faces (ts.dropWhile (·.kind.isTrivia)) = faces ts := by
  induction ts with
  | nil => rfl
  | cons t ts ih =>
    by_cases ht : t.kind.isTrivia
    · rw [List.dropWhile_cons, if_pos ht, ih]
      simp [faces, ht]
    · rw [List.dropWhile_cons, if_neg ht]

/-! ## Later states -/

/-- From the first state to the second the reading went on: a fault stays, the open
parentheses are those that were open, and complaints are added to those made. -/
structure State.Later (s t : State) : Prop where
  unbroken : t.fault = none → s.fault = none
  parens : t.parens = s.parens
  complaints : s.complaints.toList <+: t.complaints.toList

namespace State.Later

variable {s t u : State}

/-- A state is later than itself. -/
theorem refl (s : State) : Later s s := ⟨id, rfl, List.prefix_refl _⟩

/-- What is later than something later is later. -/
theorem trans (h : Later s t) (h' : Later t u) : Later s u :=
  ⟨fun hu => h.unbroken (h'.unbroken hu), h'.parens.trans h.parens,
    h.complaints.trans h'.complaints⟩

/-- Where only other parts of the state differ, nothing changed. -/
theorem of_eq (hfault : t.fault = s.fault) (hparens : t.parens = s.parens)
    (hcomplaints : t.complaints = s.complaints) : Later s t :=
  ⟨fun h => hfault ▸ h, hparens, hcomplaints ▸ List.prefix_refl _⟩

/-- Giving up makes a state later, for it spoils the reading for good. -/
theorem giveUp (f : Fault) (s : State) : Later s (s.giveUp f) :=
  ⟨fun h => absurd h (fault_giveUp_ne_none f s), rfl, List.prefix_refl _⟩

/-- Taking trivia makes a state later. -/
theorem shiftTrivia (s : State) : Later s s.shiftTrivia :=
  of_eq (shiftTrivia_eq fault_shift s) (count_shiftTrivia .parens s)
    (shiftTrivia_eq complaints_shift s)

/-- Opening a node makes a state later. -/
theorem opened (kind : NodeKind) (s : State) : Later s (s.opened kind) := by
  unfold State.opened
  split
  · exact refl s
  · exact shiftTrivia s

/-- Consuming a token makes a state later. -/
theorem consume (s : State) : Later s s.consume :=
  of_eq (fault_consume s) (count_consume .parens s) (consume_eq complaints_shift (fun _ _ => rfl) s)

/-- Setting a counter is no complaint. -/
theorem complaints_setCount (c : Counter) (n : Nat) (s : State) :
    (s.setCount c n).complaints = s.complaints := by
  cases c <;> rfl

/-- What is counted besides parentheses does not matter. -/
theorem setCount {c : Counter} (hc : c ≠ .parens) (n : Nat) (s : State) :
    Later s (s.setCount c n) :=
  of_eq (fault_setCount c n s) (count_setCount_of_ne hc.symm n s) (complaints_setCount c n s)

/-- A counter that is raised and lowered leaves the state later. -/
theorem lower_raise {c : Counter} (h : Later (s.raise c) t) : Later s (t.lower c) := by
  refine ⟨fun hu => ?_, ?_, ?_⟩
  · have hraised := h.unbroken (fault_lower hu)
    rwa [State.raise, fault_setCount] at hraised
  · change (t.lower c).count .parens = s.count .parens
    have hinside : t.count .parens = (s.raise c).count .parens := h.parens
    -- The counter that was raised is lowered again, and the others are left alone.
    by_cases hc : c = .parens
    · subst hc
      rw [count_lower, hinside, count_raise, Nat.add_sub_cancel]
    · have hne : Counter.parens ≠ c := fun heq => hc heq.symm
      rw [count_lower_of_ne hne, hinside, count_raise_of_ne hne]
  · have hlower : (t.lower c).complaints = t.complaints := by
      unfold State.lower
      split
      · rfl
      · exact complaints_setCount c _ t
    rw [hlower, ← complaints_setCount c (s.count c + 1) s]
    exact h.complaints

end State.Later

/-! ## Relations between two runs -/

/-- A node of the kind that is built in both runs is as good in one as in the other. -/
class Encloses (r : State → State → Prop) (kind : NodeKind) : Prop where
  /-- A node of its own. -/
  node {s s' t t' : State} : r s s' → r t t' → s.Later t → s'.Later t' →
    r (t.close kind s.offset s.out) (t'.close kind s'.offset s'.out)
  /-- A node around the one built last. -/
  around {s s' t t' : State} {outer outer' : Array Tree} {x x' : Tree} : r s s' →
    s.out = outer.push x → s'.out = outer'.push x' → x.isNode (fun _ => true) = true →
    x'.isNode (fun _ => true) = true → r t t' → s.Later t → s'.Later t' →
    r (t.close kind x.span.start outer) (t'.close kind x'.span.start outer')

/-- **A relation between the states of two runs that both keep**, whatever they look at,
consume or complain about, as long as they do the same. -/
class Tandem (r : State → State → Prop) : Prop where
  ahead {s s' : State} : r s s' → faces s.rest = faces s'.rest
  count {s s' : State} (c : Counter) : r s s' → s.count c = s'.count c
  looked {s s' : State} : r s s' → r s.looked s'.looked
  shiftTrivia {s s' : State} : r s s' → r s.shiftTrivia s'.shiftTrivia
  consume {s s' : State} : r s s' → r s.consume s'.consume
  complain {s s' : State} (p : Problem) : r s s' →
    r { s with complaints := s.complaints.push ⟨p, s.place⟩ }
      { s' with complaints := s'.complaints.push ⟨p, s'.place⟩ }
  setCount {s s' : State} (c : Counter) (n : Nat) : r s s' → r (s.setCount c n) (s'.setCount c n)
  /-- Inside a node that is opened. -/
  inside {s s' : State} : r s s' → r (s.inside #[]) (s'.inside #[])
  /-- Inside a node that takes over the one built last. -/
  takeOver {s s' : State} {outer outer' : Array Tree} {x x' : Tree} : r s s' →
    s.out = outer.push x → s'.out = outer'.push x' → x.isNode (fun _ => true) = true →
    x'.isNode (fun _ => true) = true → r (s.inside #[x]) (s'.inside #[x'])
  encloses (kind : NodeKind) : kind.isCommon = true → Encloses r kind

namespace Tandem

variable {r : State → State → Prop} [Tandem r] {s s' : State}

/-- Related states have tokens of the same kinds ahead. -/
theorem kindAhead_eq (h : r s s') (n : Nat) : kindAhead n s.rest = kindAhead n s'.rest := by
  rw [kindAhead_faces, ahead h, kindAhead_faces]

/-- Related states open a node alike. -/
theorem opened (kind : NodeKind) (h : r s s') : r (s.opened kind) (s'.opened kind) := by
  unfold State.opened
  split
  · exact h
  · exact shiftTrivia h

/-- Related states raise a counter alike. -/
theorem raise (c : Counter) (h : r s s') : r (s.raise c) (s'.raise c) := by
  unfold State.raise
  rw [count c h]
  exact setCount c _ h

/-- Related states lower a counter alike, unless it stands at zero. -/
theorem lower (c : Counter) (h : r s s') (hfault : (s.lower c).fault = none) :
    r (s.lower c) (s'.lower c) := by
  unfold State.lower at hfault ⊢
  rw [← count c h]
  split
  · next hzero =>
    rw [if_pos hzero] at hfault
    exact absurd hfault (State.fault_giveUp_ne_none _ s)
  · exact setCount c _ h

end Tandem

/-! ## Coupled steps -/

/-- **The two steps, from related states, answer the same and end in related states**,
unless one of them gives up. In a calm place no parentheses are open. -/
class Coupled (r : State → State → Prop) (calm : Bool) (m m' : Step α) : Prop where
  later (s : State) : s.Later (m s).2
  later' (s : State) : s.Later (m' s).2
  run {s s' : State} : r s s' → (calm = true → s.parens = 0) → (m s).2.fault = none →
    (m' s').2.fault = none → (m s).1 = (m' s').1 ∧ r (m s).2 (m' s').2

namespace Coupled

variable {r : State → State → Prop} {calm : Bool}

/-- The answers may be dropped on both sides. -/
theorem discarding {m m' : Step α} (h : Coupled r calm m m') :
    Coupled r calm (Functor.discard m) (Functor.discard m') where
  later := h.later
  later' := h.later'
  run hs hcalm hfault hfault' := ⟨rfl, (h.run hs hcalm hfault hfault').2⟩

/-- Steps of which one always gives up are coupled. -/
theorem lost {m m' : Step α} (hlater : ∀ s : State, s.Later (m s).2)
    (hlater' : ∀ s : State, s.Later (m' s).2)
    (h : (∀ s, (m s).2.fault ≠ none) ∨ ∀ s, (m' s).2.fault ≠ none) : Coupled r calm m m' where
  later := hlater
  later' := hlater'
  run {s s'} _ _ hfault hfault' := (h.elim (· s hfault) (· s' hfault')).elim

instance giveUp (f : Fault) :
    Coupled r calm (modify (State.giveUp f) : Step Unit) (modify (State.giveUp f)) :=
  lost (State.Later.giveUp f) (State.Later.giveUp f) (.inl (State.fault_giveUp_ne_none f))

/-- A loop leaves the state later when its turns do. -/
theorem later_iterate {step : σ → Step (Option σ)} (h : ∀ (x : σ) (s : State), s.Later (step x s).2)
    (n : Nat) (x : σ) (s : State) : s.Later (Grammar.iterate step n x s).2 := by
  induction n generalizing x s with
  | zero => exact .giveUp _ s
  | succ n ih =>
    rw [run_iterate_succ]
    split
    · exact h x s
    · exact (h x s).trans (ih _ _)

instance pure (a : α) : Coupled r calm (Pure.pure a : Step α) (Pure.pure a) where
  later := State.Later.refl
  later' := State.Later.refl
  run hs _ _ _ := ⟨rfl, hs⟩

instance bind (m m' : Step α) (f f' : α → Step β) [hm : Coupled r calm m m']
    [hf : ∀ a, Coupled r calm (f a) (f' a)] : Coupled r calm (m >>= f) (m' >>= f') where
  later s := (hm.later s).trans ((hf _).later _)
  later' s := (hm.later' s).trans ((hf _).later' _)
  run {s s'} hs hcalm hfault hfault' := by
    obtain ⟨hanswer, hbehind⟩ := hm.run hs hcalm (((hf _).later _).unbroken hfault)
      (((hf _).later' _).unbroken hfault')
    rw [run_bind] at hfault hfault' ⊢
    rw [run_bind]
    rw [← hanswer] at hfault' ⊢
    exact (hf _).run hbehind (fun hc => (hm.later s).parens.trans (hcalm hc)) hfault hfault'

/-- A step and what comes after it, where that is looked at by cases. -/
theorem andThen {m m' : Step α} {f f' : α → Step β} [Coupled r calm m m']
    (hf : ∀ a, Coupled r calm (f a) (f' a)) : Coupled r calm (m >>= f) (m' >>= f') :=
  bind m m' f f'

instance map (g : α → β) (m m' : Step α) [Coupled r calm m m'] :
    Coupled r calm (g <$> m) (g <$> m') :=
  bind m m' (fun a => Pure.pure (g a)) fun a => Pure.pure (g a)

instance discard (m m' : Step α) [h : Coupled r calm m m'] :
    Coupled r calm (Functor.discard m) (Functor.discard m') :=
  discarding h

instance ite (c : Prop) [Decidable c] (m m' n n' : Step α) [hm : Coupled r calm m m']
    [hn : Coupled r calm n n'] : Coupled r calm (if c then m else n) (if c then m' else n') := by
  split
  · exact hm
  · exact hn

/-- A look leaves the state later. -/
theorem later_look (n : Nat) (s : State) : s.Later (Grammar.look n s).2 := by
  rcases run_look_cases n s with ⟨-, -, hlook⟩ | hlost
  · rw [hlook]
    exact .of_eq rfl rfl rfl
  · rw [hlost]
    exact .giveUp _ s

/-- A step that changes nothing a fault, a parenthesis or a complaint could tell. -/
theorem of_still {m m' : Step α} (hm : ∀ s, (m s).2 = s) (hm' : ∀ s, (m' s).2 = s)
    (hanswer : ∀ s s', r s s' → (m s).1 = (m' s').1) : Coupled r calm m m' where
  later s := (hm s).symm ▸ .refl s
  later' s := (hm' s).symm ▸ .refl s
  run {s s'} hs _ _ _ := ⟨hanswer s s' hs, by rwa [hm, hm']⟩

section

variable [Tandem r]

/-! ### Looks, moves and complaints -/

instance look (n : Nat) : Coupled r calm (look n) (look n) where
  later := later_look n
  later' := later_look n
  run {s s'} hs _ hfault hfault' := by
    rcases run_look_cases n s with ⟨-, -, hlook⟩ | hlost
    · rcases run_look_cases n s' with ⟨-, -, hlook'⟩ | hlost'
      · rw [hlook, hlook']
        exact ⟨Tandem.kindAhead_eq hs n, Tandem.looked hs⟩
      · rw [hlost'] at hfault'
        exact absurd hfault' (State.fault_giveUp_ne_none _ _)
    · rw [hlost] at hfault
      exact absurd hfault (State.fault_giveUp_ne_none _ _)

instance current : Coupled r calm current current := look 0

instance textAhead (p : String → Bool) : Coupled r calm (textAhead p) (textAhead p) := by
  refine of_still (fun _ => rfl) (fun _ => rfl) fun s s' hs => ?_
  change (s.rest.find? (!·.kind.isTrivia)).any _ = (s'.rest.find? (!·.kind.isTrivia)).any _
  rw [find?_faces, find?_faces, Tandem.ahead hs]

instance isTooDeep : Coupled r calm isTooDeep isTooDeep := by
  refine of_still (fun _ => rfl) (fun _ => rfl) fun s s' hs => ?_
  have hcount : s.nesting = s'.nesting := Tandem.count .nesting hs
  exact congrArg (fun n => decide (nestingLimit ≤ n)) hcount

instance isOutside : Coupled r calm isOutside isOutside := by
  refine of_still (fun _ => rfl) (fun _ => rfl) fun s s' hs => ?_
  have hcount : s.begins = s'.begins := Tandem.count .begins hs
  exact congrArg (· == 0) hcount

instance consume :
    Coupled r calm (modify State.consume : Step Unit) (modify State.consume) where
  later := State.Later.consume
  later' := State.Later.consume
  run hs _ _ _ := ⟨rfl, Tandem.consume hs⟩

/-- A complaint leaves the state later. -/
theorem later_complain (p : Problem) (s : State) : s.Later (Grammar.complain p s).2 :=
  ⟨id, rfl, by simp [Grammar.complain]⟩

instance complain (p : Problem) : Coupled r calm (complain p) (complain p) where
  later := later_complain p
  later' := later_complain p
  run hs _ _ _ := ⟨rfl, Tandem.complain p hs⟩

/-! ### Nodes -/

/-- A node leaves the state later when what is inside of it does. -/
theorem later_node {m : Step α} (hm : ∀ s : State, s.Later (m s).2) (kind : NodeKind) (s : State) :
    s.Later (Grammar.node kind m s).2 := by
  rw [run_node]
  have hinside : ((s.opened kind).inside #[]).Later (m ((s.opened kind).inside #[])).2 := hm _
  exact (State.Later.opened kind s).trans ⟨hinside.unbroken, hinside.parens, hinside.complaints⟩

/-- So does a node around the last one. -/
theorem later_nodeAround {m : Step α} (hm : ∀ s : State, s.Later (m s).2) (kind : NodeKind)
    (s : State) : s.Later (Grammar.nodeAround kind m s).2 := by
  by_cases hlast : ∃ first span cs, s.out.back? = some (.node first span cs)
  · obtain ⟨first, span, cs, hlast⟩ := hlast
    rw [run_nodeAround hlast]
    have hinside := hm (s.inside #[.node first span cs])
    exact ⟨hinside.unbroken, hinside.parens, hinside.complaints⟩
  · rw [run_nodeAround_none fun first span cs hback => hlast ⟨_, _, _, hback⟩]
    exact (State.Later.giveUp _ s).trans (later_node hm kind _)

/-- A node around the one built last finds one, unless it gives up. -/
theorem last_of_nodeAround {m : Step α} (hm : ∀ s : State, s.Later (m s).2) {kind : NodeKind}
    {s : State} (hfault : (Grammar.nodeAround kind m s).2.fault = none) :
    ∃ first span cs outer, s.out = outer.push (.node first span cs)
      ∧ Grammar.nodeAround kind m s = ((m (s.inside #[.node first span cs])).1,
        (m (s.inside #[.node first span cs])).2.close kind span.start outer) := by
  by_cases hlast : ∃ first span cs, s.out.back? = some (.node first span cs)
  · obtain ⟨first, span, cs, hlast⟩ := hlast
    obtain ⟨outer, hout⟩ := Array.back?_eq_some_iff.1 hlast
    refine ⟨first, span, cs, outer, hout, ?_⟩
    rw [run_nodeAround hlast, hout, Array.pop_push]
  · rw [run_nodeAround_none fun first span cs hback => hlast ⟨_, _, _, hback⟩] at hfault
    exact absurd ((later_node hm kind _).unbroken hfault) (State.fault_giveUp_ne_none _ s)

instance node (kind : NodeKind) (m m' : Step α) [hm : Coupled r calm m m']
    [hkind : Encloses r kind] : Coupled r calm (node kind m) (node kind m') where
  later := later_node hm.later kind
  later' := later_node hm.later' kind
  run {s s'} hs hcalm hfault hfault' := by
    rw [run_node] at hfault hfault' ⊢
    rw [run_node]
    have hopened := Tandem.opened kind hs
    have hcalm' (hc : calm = true) : ((s.opened kind).inside #[]).parens = 0 :=
      (State.Later.opened kind s).parens.trans (hcalm hc)
    obtain ⟨hanswer, hbehind⟩ := hm.run (Tandem.inside hopened) hcalm' hfault hfault'
    have hlater := hm.later ((s.opened kind).inside #[])
    have hlater' := hm.later' ((s'.opened kind).inside #[])
    exact ⟨hanswer, hkind.node hopened hbehind ⟨hlater.unbroken, hlater.parens, hlater.complaints⟩
      ⟨hlater'.unbroken, hlater'.parens, hlater'.complaints⟩⟩

instance nodeAround (kind : NodeKind) (m m' : Step α) [hm : Coupled r calm m m']
    [hkind : Encloses r kind] : Coupled r calm (nodeAround kind m) (nodeAround kind m') where
  later := later_nodeAround hm.later kind
  later' := later_nodeAround hm.later' kind
  run {s s'} hs hcalm hfault hfault' := by
    obtain ⟨first, span, cs, outer, hout, hrun⟩ := last_of_nodeAround hm.later hfault
    obtain ⟨first', span', cs', outer', hout', hrun'⟩ := last_of_nodeAround hm.later' hfault'
    rw [hrun] at hfault ⊢
    rw [hrun'] at hfault' ⊢
    obtain ⟨hanswer, hbehind⟩ := hm.run (Tandem.takeOver hs hout hout' rfl rfl) hcalm hfault hfault'
    have hlater := hm.later (s.inside #[.node first span cs])
    have hlater' := hm.later' (s'.inside #[.node first' span' cs'])
    exact ⟨hanswer, hkind.around hs hout hout' rfl rfl hbehind
      ⟨hlater.unbroken, hlater.parens, hlater.complaints⟩
      ⟨hlater'.unbroken, hlater'.parens, hlater'.complaints⟩⟩

/-! ### Counters -/

/-- A counter that is raised on both sides around coupled steps. -/
theorem run_within_coupled {m m' : Step α} {inner : Bool} (c : Counter)
    (hm : Coupled r inner m m') (hcalm : inner = true → calm = true ∧ c ≠ .parens) :
    Coupled r calm (Grammar.within c m) (Grammar.within c m') where
  later s := by
    rw [run_within]
    exact .lower_raise (hm.later _)
  later' s := by
    rw [run_within]
    exact .lower_raise (hm.later' _)
  run {s s'} hs hc hfault hfault' := by
    rw [run_within] at hfault hfault' ⊢
    rw [run_within]
    -- A calm body is not entered through the counter of parentheses.
    have hinner (hi : inner = true) : (s.raise c).parens = 0 :=
      (State.count_raise_of_ne (hcalm hi).2.symm s).trans (hc (hcalm hi).1)
    obtain ⟨hanswer, hbehind⟩ := hm.run (Tandem.raise c hs) hinner (State.fault_lower hfault)
      (State.fault_lower hfault')
    exact ⟨hanswer, Tandem.lower c hbehind hfault⟩

/-- Between parentheses no place is calm. -/
instance withinParens (m m' : Step α) [hm : Coupled r false m m'] :
    Coupled r calm (within .parens m) (within .parens m') :=
  run_within_coupled .parens hm fun h => absurd h Bool.false_ne_true

instance withinBegins (m m' : Step α) [hm : Coupled r calm m m'] :
    Coupled r calm (within .begins m) (within .begins m') :=
  run_within_coupled .begins hm fun h => ⟨h, by decide⟩

instance withinNesting (m m' : Step α) [hm : Coupled r calm m m'] :
    Coupled r calm (within .nesting m) (within .nesting m') :=
  run_within_coupled .nesting hm fun h => ⟨h, by decide⟩

/-- A step outside of all parentheses leaves the state later when the step does. -/
theorem later_withoutParens {m : Step α} (hm : ∀ s : State, s.Later (m s).2) (s : State) :
    s.Later (Grammar.withoutParens m s).2 := by
  have hinside := hm (s.setCount .parens 0)
  rw [run_withoutParens]
  refine ⟨fun h => ?_, rfl, ?_⟩
  · exact hinside.unbroken (by rwa [State.fault_setCount] at h)
  · rw [State.Later.complaints_setCount]
    exact hinside.complaints

/-- Outside the parentheses every place is calm. -/
instance withoutParens (m m' : Step α) [hm : Coupled r true m m'] :
    Coupled r calm (withoutParens m) (withoutParens m') where
  later := later_withoutParens hm.later
  later' := later_withoutParens hm.later'
  run {s s'} hs _ hfault hfault' := by
    rw [run_withoutParens] at hfault hfault' ⊢
    rw [run_withoutParens]
    rw [State.fault_setCount] at hfault hfault'
    obtain ⟨hanswer, hbehind⟩ :=
      hm.run (Tandem.setCount .parens 0 hs) (fun _ => rfl) hfault hfault'
    have hparens : s.parens = s'.parens := Tandem.count .parens hs
    rw [← hparens]
    exact ⟨hanswer, Tandem.setCount .parens _ hbehind⟩

/-! ### Loops -/

/-- A loop goes on as it goes on in the other run, as long as neither runs out of turns. -/
instance iterate (step step' : σ → Step (Option σ)) [h : ∀ x, Coupled r calm (step x) (step' x)]
    (n n' : Nat) (x : σ) : Coupled r calm (iterate step n x) (iterate step' n' x) := by
  induction n generalizing n' x with
  | zero =>
    exact lost (State.Later.giveUp _) (later_iterate (fun x => (h x).later') n' x)
      (.inl (State.fault_giveUp_ne_none _))
  | succ n ih =>
    cases n' with
    | zero =>
      exact lost (later_iterate (fun x => (h x).later) (n + 1) x) (State.Later.giveUp _)
        (.inr (State.fault_giveUp_ne_none _))
    | succ n' =>
      -- Both loops go on or both stop, since their turns answer the same.
      have hturn : ∀ a : Option σ, Coupled r calm
          (match a with
            | none => Pure.pure ()
            | some y => Grammar.iterate step n y : Step Unit)
          (match a with
            | none => Pure.pure ()
            | some y => Grammar.iterate step' n' y : Step Unit) := by
        intro a
        cases a with
        | none => exact pure ()
        | some y => exact ih n' y
      exact bind (step x) (step' x) _ _

instance raiseNesting :
    Coupled r calm (modify (State.raise .nesting) : Step Unit) (modify (State.raise .nesting)) where
  later s := State.Later.setCount (by decide : Counter.nesting ≠ .parens) _ s
  later' s := State.Later.setCount (by decide : Counter.nesting ≠ .parens) _ s
  run hs _ _ _ := ⟨rfl, Tandem.raise .nesting hs⟩

instance climbTurn (check check' : Step (Option β)) (act act' : β → Step Bool)
    [Coupled r calm check check'] [hact : ∀ b, Coupled r calm (act b) (act' b)] :
    Coupled r calm (climbTurn check act) (climbTurn check' act') := by
  unfold Grammar.climbTurn
  refine andThen fun found => ?_
  cases found with
  | none => exact pure none
  | some b => exact andThen fun _ => andThen fun again => by cases again <;> exact pure _

instance climb (check check' : Step (Option β)) (act act' : β → Step Bool)
    [hcheck : Coupled r calm check check'] [hact : ∀ b, Coupled r calm (act b) (act' b)]
    (n n' : Nat) : Coupled r calm (climb check act n) (climb check' act' n') := by
  have hturns : Coupled r calm (Grammar.iterate (fun _ => Grammar.climbTurn check act) n ())
      (Grammar.iterate (fun _ => Grammar.climbTurn check' act') n' ()) :=
    iterate (fun _ => Grammar.climbTurn check act) (fun _ => Grammar.climbTurn check' act') n n' ()
  -- Giving the nesting back has no part in the parentheses.
  have hdepth : Counter.nesting ≠ .parens := by decide
  refine ⟨fun s => ?_, fun s => ?_, fun {s s'} hs hcalm hfault hfault' => ?_⟩
  · exact (hturns.later s).trans (.setCount hdepth _ _)
  · exact (hturns.later' s).trans (.setCount hdepth _ _)
  · unfold Grammar.climb at hfault hfault' ⊢
    rw [run_restoring] at hfault hfault' ⊢
    rw [run_restoring]
    rw [State.fault_setCount] at hfault hfault'
    obtain ⟨hanswer, hbehind⟩ := hturns.run hs hcalm hfault hfault'
    rw [Tandem.count .nesting hs]
    exact ⟨hanswer, Tandem.setCount .nesting _ hbehind⟩

end

end Coupled

/-! ## Steps at a token -/

/-- **The two steps are coupled where the next token is of some kinds** and no parentheses
are open. -/
structure CoupledAt (r : State → State → Prop) (ahead : TokenKind → Prop) (m m' : Step α) :
    Prop where
  later (s : State) : s.Later (m s).2
  later' (s : State) : s.Later (m' s).2
  run {s s' : State} : r s s' → s.parens = 0 → ahead (kindAhead 0 s.rest) →
    (m s).2.fault = none → (m' s').2.fault = none → (m s).1 = (m' s').1 ∧ r (m s).2 (m' s').2

/-- The line does not end here. -/
abbrev WithinLine (kind : TokenKind) : Prop := kind ≠ .newline ∧ kind ≠ .eof

namespace CoupledAt

variable {r : State → State → Prop} {ahead ahead' : TokenKind → Prop} {m m' : Step α}

/-- Coupled steps are coupled at every token. -/
theorem of_coupled (h : Coupled r true m m') : CoupledAt r ahead m m' :=
  ⟨h.later, h.later', fun hs hparens _ => h.run hs fun _ => hparens⟩

/-- Steps that are coupled at every token are coupled. -/
theorem coupled (h : CoupledAt r (fun _ => True) m m') : Coupled r true m m' :=
  ⟨h.later, h.later', fun hs hcalm => h.run hs (hcalm rfl) trivial⟩

/-- More may be known of the token. -/
theorem mono (h : CoupledAt r ahead m m') (himp : ∀ kind, ahead' kind → ahead kind) :
    CoupledAt r ahead' m m' :=
  ⟨h.later, h.later', fun hs hparens hahead => h.run hs hparens (himp _ hahead)⟩

/-- Behind the first step nothing is known of the token any more. -/
theorem bind {f f' : α → Step β} (hm : CoupledAt r ahead m m')
    [hf : ∀ a, Coupled r true (f a) (f' a)] : CoupledAt r ahead (m >>= f) (m' >>= f') where
  later s := (hm.later s).trans ((hf _).later _)
  later' s := (hm.later' s).trans ((hf _).later' _)
  run {s s'} hs hparens hahead hfault hfault' := by
    obtain ⟨hanswer, hbehind⟩ := hm.run hs hparens hahead (((hf _).later _).unbroken hfault)
      (((hf _).later' _).unbroken hfault')
    rw [run_bind] at hfault hfault' ⊢
    rw [run_bind]
    rw [← hanswer] at hfault' ⊢
    exact (hf _).run hbehind (fun _ => (hm.later s).parens.trans hparens) hfault hfault'

section

variable [Tandem r]

/-- What is seen of the next token is known of it in what follows. -/
theorem current {f f' : TokenKind → Step β}
    (h : ∀ kind, CoupledAt r (fun k => ahead k ∧ k = kind) (f kind) (f' kind)) :
    CoupledAt r ahead (current >>= f) (current >>= f') where
  later s := (Coupled.later_look 0 s).trans ((h _).later _)
  later' s := (Coupled.later_look 0 s).trans ((h _).later' _)
  run {s s'} hs hparens hahead hfault hfault' := by
    have hcurrent : Grammar.current = Grammar.look 0 := rfl
    rw [hcurrent] at hfault hfault' ⊢
    rw [run_bind] at hfault hfault' ⊢
    rw [run_bind]
    -- A look that was one too many is a fault, which no later step takes back.
    rcases run_look_cases 0 s with ⟨-, -, hlook⟩ | hlost
    · rcases run_look_cases 0 s' with ⟨-, -, hlook'⟩ | hlost'
      · rw [hlook] at hfault ⊢
        rw [hlook', ← Tandem.kindAhead_eq hs 0] at hfault' ⊢
        exact (h _).run (Tandem.looked hs) hparens ⟨hahead, rfl⟩ hfault hfault'
      · rw [hlost'] at hfault'
        exact absurd (((h _).later' _).unbroken hfault') (State.fault_giveUp_ne_none _ _)
    · rw [hlost] at hfault
      exact absurd (((h _).later _).unbroken hfault) (State.fault_giveUp_ne_none _ _)

/-- Behind a test of the next token it is known what it was. -/
theorem isAt {kind : TokenKind} {f f' : Bool → Step β}
    (h : ∀ there, CoupledAt r (fun k => ahead k ∧ there = (k == kind)) (f there) (f' there)) :
    CoupledAt r ahead (isAt kind >>= f) (isAt kind >>= f') := by
  change CoupledAt r ahead (Grammar.current >>= fun k => f (k == kind))
    (Grammar.current >>= fun k => f' (k == kind))
  exact current fun _ => (h _).mono fun _ hk => ⟨hk.1, by rw [hk.2]⟩

/-- A complaint leaves the token where it is. -/
theorem complain {p : Problem} {f f' : Unit → Step β} (h : CoupledAt r ahead (f ()) (f' ())) :
    CoupledAt r ahead (complain p >>= f) (complain p >>= f') where
  later s := (Coupled.later_complain p s).trans (h.later _)
  later' s := (Coupled.later_complain p s).trans (h.later' _)
  run hs := h.run (Tandem.complain p hs)

end

end CoupledAt

/-! ## One run -/

/-- A property of trees that the grammar hands on, from the elements of a node to the node
unless it is one that stands for more. It may refer to the complaints made so far. -/
class Hereditary (p : List Complaint → Tree → Prop) : Prop where
  leaf (cs : List Complaint) (t : Token) : p cs (.leaf t)
  later {cs cs' : List Complaint} {t : Tree} : cs <+: cs' → p cs t → p cs' t
  node {cs : List Complaint} {kind : NodeKind} {children : List Tree} (span : Span) :
    kind.isCommon = true → (∀ c ∈ children, p cs c) → p cs (.node kind span children)

/-- A property of how far the reading has come: of the tokens ahead, the offset and the end
of the last word. -/
class Steady (inv : State → Prop) : Prop where
  congr {s t : State} : inv s → t.rest = s.rest ∧ t.offset = s.offset ∧ t.anchor = s.anchor → inv t
  shift {s : State} : inv s → inv s.shift

instance : Steady fun _ => True where
  congr _ _ := trivial
  shift _ := trivial

namespace Steady

variable {inv : State → Prop} [hinv : Steady inv] {s : State}

/-- A steady property is kept by any number of tokens. -/
theorem shiftMany (n : Nat) (h : inv s) : inv (s.shiftMany n) := by
  induction n generalizing s with
  | zero => exact h
  | succ n ih => exact ih (hinv.shift h)

/-- A steady property is kept by the consumption of a token. -/
theorem consume (h : inv s) : inv s.consume := by
  have hshift : inv s.shiftTrivia.shift := hinv.shift (shiftMany _ h)
  have hbreaks : inv s.shiftTrivia.shift.shiftBreaks := by
    unfold State.shiftBreaks
    split
    · exact shiftMany _ hshift
    · exact hshift
  exact hinv.congr hbreaks ⟨rfl, rfl, rfl⟩

/-- A node is opened at such a place as well. -/
theorem opened (kind : NodeKind) (h : inv s) : inv ((s.opened kind).inside #[]) := by
  have hmoved : inv (s.opened kind) := by
    unfold State.opened
    split
    · exact h
    · exact shiftMany _ h
  exact hinv.congr hmoved ⟨rfl, rfl, rfl⟩

end Steady

/-- The reading has come to where `inv` holds, and everything built has the property. -/
structure State.Has (inv : State → Prop) (p : List Complaint → Tree → Prop) (s : State) : Prop where
  place : inv s
  out : ∀ c ∈ s.out.toList, p s.complaints.toList c

/-- A run beside itself. -/
def Alone (inv : State → Prop) (p : List Complaint → Tree → Prop) (s s' : State) : Prop :=
  s = s' ∧ s.Has inv p

namespace State.Has

variable {inv : State → Prop} {p : List Complaint → Tree → Prop} {s t : State} [hinv : Steady inv]

/-- The counters do not matter. -/
theorem setCount (c : Counter) (n : Nat) (h : s.Has inv p) : (s.setCount c n).Has inv p := by
  refine ⟨hinv.congr h.place ?_, ?_⟩
  · cases c <;> exact ⟨rfl, rfl, rfl⟩
  · rw [out_setCount, Later.complaints_setCount]
    exact h.out

variable [hp : Hereditary p]

/-- A token that is taken is a leaf, and a leaf has every hereditary property. -/
theorem shift (h : s.Has inv p) : s.shift.Has inv p := by
  refine ⟨hinv.shift h.place, fun c hc => ?_⟩
  have hout : s.shift.out.toList = s.out.toList ++ (s.rest.take 1).map .leaf :=
    toList_out_shiftMany 1 s
  rw [complaints_shift]
  rw [hout, List.mem_append] at hc
  rcases hc with hc | hc
  · exact h.out c hc
  · obtain ⟨t, -, rfl⟩ := List.mem_map.1 hc
    exact hp.leaf _ t

/-- So have any number of tokens. -/
theorem shiftMany (n : Nat) (h : s.Has inv p) : (s.shiftMany n).Has inv p := by
  induction n generalizing s with
  | zero => exact h
  | succ n ih => exact ih h.shift

/-- So has a token that is consumed. -/
theorem consume (h : s.Has inv p) : s.consume.Has inv p := by
  have hshift : s.shiftTrivia.shift.Has inv p := (h.shiftMany _).shift
  have hbreaks : s.shiftTrivia.shift.shiftBreaks.Has inv p := by
    unfold State.shiftBreaks
    split
    · exact hshift.shiftMany _
    · exact hshift
  exact ⟨hinv.congr hbreaks.place ⟨rfl, rfl, rfl⟩, hbreaks.out⟩

/-- A node over what was built inside it, if it has the property itself. -/
theorem close {kind : NodeKind} {start : Nat} {outer : Array Tree} (ht : t.Has inv p)
    (houter : ∀ c ∈ outer.toList, p s.complaints.toList c) (hlater : s.Later t)
    (hnode : p t.complaints.toList (.node kind ⟨start, t.offset⟩ t.out.toList)) :
    (t.close kind start outer).Has inv p := by
  refine ⟨hinv.congr ht.place ⟨rfl, rfl, rfl⟩, fun c hc => ?_⟩
  rw [State.close, Array.toList_push, List.mem_append, List.mem_singleton] at hc
  rcases hc with hc | rfl
  · exact hp.later hlater.complaints (houter c hc)
  · exact hnode

end State.Has

section Alone

variable {inv : State → Prop} {p : List Complaint → Tree → Prop} [hinv : Steady inv]
  [hp : Hereditary p]

/-- A node of the kind has the property if all that is in it has. -/
theorem encloses_alone {kind : NodeKind} (hkind : ∀ (cs : List Complaint) (span : Span)
    (children : List Tree), (∀ c ∈ children, p cs c) → p cs (.node kind span children)) :
    Encloses (Alone inv p) kind where
  node := by
    rintro s _ t _ ⟨rfl, hs⟩ ⟨rfl, ht⟩ hlater -
    exact ⟨rfl, ht.close hs.out hlater (hkind _ _ _ ht.out)⟩
  around := by
    rintro s _ t _ outer outer' x x' ⟨rfl, hs⟩ hout hout' - - ⟨rfl, ht⟩ hlater -
    obtain ⟨rfl, rfl⟩ := Array.push_eq_push.1 (hout.symm.trans hout')
    refine ⟨rfl, ht.close (fun c hc => hs.out c ?_) hlater (hkind _ _ _ ht.out)⟩
    rw [hout, Array.toList_push]
    exact List.mem_append_left _ hc

/-- **What the grammar hands on, a run hands on.** -/
instance tandem_alone : Tandem (Alone inv p) where
  ahead h := by rw [h.1]
  count c h := by rw [h.1]
  looked h := ⟨congrArg State.looked h.1, hinv.congr h.2.place ⟨rfl, rfl, rfl⟩, h.2.out⟩
  shiftTrivia h := ⟨congrArg State.shiftTrivia h.1, h.2.shiftMany _⟩
  consume h := ⟨congrArg State.consume h.1, h.2.consume⟩
  complain q h := by
    obtain ⟨rfl, hs⟩ := h
    refine ⟨rfl, hinv.congr hs.place ⟨rfl, rfl, rfl⟩, fun c hc => hp.later ?_ (hs.out c hc)⟩
    simp
  setCount c n h := ⟨congrArg (State.setCount c n) h.1, h.2.setCount c n⟩
  inside h := ⟨congrArg (State.inside #[]) h.1, hinv.congr h.2.place ⟨rfl, rfl, rfl⟩,
    fun c hc => absurd hc List.not_mem_nil⟩
  takeOver := by
    -- The node that is taken over is the last of what was built, so it has the property.
    rintro s _ outer outer' x x' ⟨rfl, hs⟩ hout hout' - -
    obtain ⟨rfl, rfl⟩ := Array.push_eq_push.1 (hout.symm.trans hout')
    refine ⟨rfl, hinv.congr hs.place ⟨rfl, rfl, rfl⟩, fun c hc => ?_⟩
    have hx : c = x := by simpa [State.inside] using hc
    refine hx ▸ hs.out x ?_
    rw [hout, Array.toList_push]
    exact List.mem_append_right _ (List.mem_singleton_self x)
  encloses kind hkind := encloses_alone fun cs span children => hp.node span hkind

end Alone

/-- A run that ends with the answer and the state behind it. -/
theorem Coupled.alone {inv : State → Prop} {p : List Complaint → Tree → Prop} {calm : Bool}
    {m : Step α} (h : Coupled (Alone inv p) calm m m) {s : State} (hs : s.Has inv p)
    (hcalm : calm = true → s.parens = 0) (hfault : (m s).2.fault = none) :
    (m s).2.Has inv p :=
  (h.run ⟨rfl, hs⟩ hcalm hfault hfault).2.2

/-- **A node is built over what its body reads**, if it has the property itself. -/
theorem Coupled.node_alone {inv : State → Prop} {p : List Complaint → Tree → Prop} [Steady inv]
    [Hereditary p] {calm : Bool} {kind : NodeKind} {m : Step α}
    (hm : Coupled (Alone inv p) calm m m) {s : State} (hs : s.Has inv p)
    (hcalm : calm = true → s.parens = 0) (hfault : (Grammar.node kind m s).2.fault = none)
    (hnode : (m ((s.opened kind).inside #[])).2.Has inv p →
      p (m ((s.opened kind).inside #[])).2.complaints.toList
        (.node kind ⟨(s.opened kind).offset, (m ((s.opened kind).inside #[])).2.offset⟩
          (m ((s.opened kind).inside #[])).2.out.toList)) :
    (Grammar.node kind m s).2.Has inv p := by
  have hopened : Alone inv p (s.opened kind) (s.opened kind) := Tandem.opened kind ⟨rfl, hs⟩
  have hinside : ((s.opened kind).inside #[]).Has inv p := (Tandem.inside hopened).2
  have hcalm' (hc : calm = true) : ((s.opened kind).inside #[]).parens = 0 :=
    (State.Later.opened kind s).parens.trans (hcalm hc)
  rw [run_node] at hfault ⊢
  -- What is built inside has the property, so that the node may be asked to have it too.
  have hbuilt := hm.alone hinside hcalm' hfault
  have hlater := hm.later ((s.opened kind).inside #[])
  exact hbuilt.close hopened.2.out ⟨hlater.unbroken, hlater.parens, hlater.complaints⟩
    (hnode hbuilt)

/-- For a run beside itself it is enough to look at one. -/
theorem Coupled.of_alone {inv : State → Prop} {p : List Complaint → Tree → Prop} {calm : Bool}
    {m : Step α} (hlater : ∀ s : State, s.Later (m s).2)
    (h : ∀ s : State, s.Has inv p → (calm = true → s.parens = 0) → (m s).2.fault = none →
      (m s).2.Has inv p) : Coupled (Alone inv p) calm m m where
  later := hlater
  later' := hlater
  run := by
    rintro s _ ⟨rfl, hs⟩ hcalm hfault -
    exact ⟨rfl, rfl, h s hs hcalm hfault⟩

end Grammar

end ScriptSense
