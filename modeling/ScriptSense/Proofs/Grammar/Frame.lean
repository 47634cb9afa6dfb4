/-
What every step of the grammar leaves as it is.

A frame is a relation between the state in front of a step and the state behind
it that each of the makings of the grammar has. `Alike.frame` carries it from
the makings to all steps that are put together from them, so that nothing has to
be proved rule by rule. Three frames stand here: a reading that was given up stays
given up; the counters behind a step are those in front of it, whatever happened
between; and tokens only move from what is ahead to what is built. A relation on the
tokens and what is built (`Moves`), or on where the reading has come to and what it
complained about (`Remarks`), is a frame if moving a token and complaining are in it.
-/
import ScriptSense.Proofs.Grammar.Alike

set_option autoImplicit false

namespace ScriptSense.Grammar

open ScriptSense.Tree (leavesOfAll)

/-! ## States with a counter put back -/

namespace State

/-- A counter set to what it is. -/
@[simp] theorem setCount_count (c : Counter) (s : State) : s.setCount c (s.count c) = s := by
  cases c <;> rfl

/-- Of two values the later one counts. -/
@[simp] theorem setCount_setCount (c : Counter) (m n : Nat) (s : State) :
    (s.setCount c m).setCount c n = s.setCount c n := by
  cases c <;> rfl

end State

/-! ## Frames -/

/-- Where a node begins that takes over some children built before: in front of the
first of them, and here if there is none. -/
def State.beginning (inner : Array Tree) (s : State) : Nat :=
  (inner[0]?.map fun first => first.span.start).getD s.offset

/-- A relation between the states in front of and behind a step that each of the
makings of the grammar has. -/
structure Frame (r : State → State → Prop) : Prop where
  refl (s : State) : r s s
  trans {s t u : State} : r s t → r t u → r s u
  look (s : State) : r s { s with looks := s.looks + 1 }
  shiftTrivia (s : State) : r s s.shiftTrivia
  consume (s : State) : r s s.consume
  complain (p : Problem) (s : State) :
    r s { s with complaints := s.complaints.push ⟨p, s.place⟩ }
  giveUp (f : Fault) (s : State) : r s (s.giveUp f)
  within (c : Counter) {s t : State} : r (s.raise c) t → r s (t.lower c)
  -- Inside a construct that puts a counter back, that counter is out of the frame.
  carry (c : Counter) {s t u : State} :
    r s (t.setCount c (s.count c)) → r t u → r s (u.setCount c (s.count c))
  -- A node that is no block and not set aside may take over the child that was built last.
  enclose (kind : NodeKind) {s t : State} {outer inner : Array Tree} :
    s.out = outer ++ inner → inner = #[] ∨ (kind ≠ .stmtList ∧ kind ≠ .error) ∧ inner.size = 1 →
      r (s.inside inner) t → r s (t.close kind (s.beginning inner) outer)

namespace Frame

variable {r : State → State → Prop} {α : Type}

/-- A frame of a step is a frame of a node over it. -/
theorem node (hr : Frame r) (kind : NodeKind) {body : Step α} (h : ∀ s, r s (body s).2)
    (s : State) : r s (Grammar.node kind body s).2 := by
  have hopened : r s (s.opened kind) := by
    unfold State.opened
    split
    · exact hr.refl s
    · exact hr.shiftTrivia s
  rw [run_node]
  exact hr.trans hopened (hr.enclose kind (by simp) (.inl rfl) (h _))

/-- A node put around another keeps what the steps of the frame keep. -/
theorem nodeAround (hr : Frame r) {kind : NodeKind} (hkind : kind ≠ .stmtList ∧ kind ≠ .error)
    {body : Step α} (h : ∀ s, r s (body s).2) (s : State) :
    r s (Grammar.nodeAround kind body s).2 := by
  by_cases hlast : ∃ first span children, s.out.back? = some (.node first span children)
  · obtain ⟨first, span, children, hlast⟩ := hlast
    have hsplit : s.out = s.out.pop ++ #[.node first span children] := by
      obtain ⟨ys, hys⟩ := Array.back?_eq_some_iff.1 hlast
      rw [hys]
      simp
    rw [run_nodeAround hlast]
    exact hr.enclose kind hsplit (.inr ⟨hkind, rfl⟩) (h _)
  · rw [run_nodeAround_none fun first span children hback => hlast ⟨_, _, _, hback⟩]
    exact hr.trans (hr.giveUp _ s) (hr.node kind h _)

/-- A loop keeps what its turns keep. -/
theorem iterate (hr : Frame r) {σ : Type} {step : σ → Step (Option σ)}
    (h : ∀ x s, r s (step x s).2) (n : Nat) (x : σ) (s : State) :
    r s (Grammar.iterate step n x s).2 := by
  induction n generalizing x s with
  | zero => exact hr.giveUp _ s
  | succ n ih =>
    rw [run_iterate_succ]
    split
    · exact h x s
    · exact hr.trans (h x s) (ih _ _)

/-- A frame of the two steps is a frame of the climb: each turn starts where the
last one ended, but for the depth. -/
theorem climb (hr : Frame r) {β : Type} {check : Step (Option β)} {act : β → Step Bool}
    (hcheck : ∀ s, r s (check s).2) (hact : ∀ b s, r s (act b s).2) (n : Nat) (s : State) :
    r s (Grammar.climb check act n s).2 := by
  unfold Grammar.climb
  rw [run_restoring]
  -- Read with the counter put back, every turn is a step of the frame.
  suffices hturns : ∀ t, r s (t.setCount .nesting (s.count .nesting)) →
      r s ((Grammar.iterate (fun _ => climbTurn check act) n () t).2.setCount .nesting
        (s.count .nesting)) from hturns s (by simpa using hr.refl s)
  induction n with
  | zero => exact fun t ht => hr.carry _ ht (hr.giveUp _ t)
  | succ n ih =>
    intro t ht
    have hchecked := hr.carry .nesting ht (hcheck t)
    rw [run_iterate_succ]
    cases hcheck' : (check t).1 with
    | none => simpa [run_climbTurn_none hcheck'] using hchecked
    | some b =>
      have hraised : r s (((check t).2.raise .nesting).setCount .nesting (s.count .nesting)) := by
        simpa [State.raise] using hchecked
      have hacted := hr.carry .nesting hraised (hact b _)
      rw [run_climbTurn_some hcheck']
      cases (act b ((check t).2.raise .nesting)).1 with
      | false => simpa using hacted
      | true => simpa using ih _ hacted

/-- A look ends with one more look counted, or gives up. -/
theorem run_look (hr : Frame r) (n : Nat) (s : State) : r s (Grammar.look n s).2 := by
  unfold Grammar.look
  split
  · exact hr.giveUp _ s
  · exact hr.look s

/-- A token is taken or left. -/
theorem eat (hr : Frame r) (kind : TokenKind) (s : State) : r s (Grammar.eat kind s).2 := by
  have hlook : r s (Grammar.look 0 s).2 := hr.run_look 0 s
  rw [run_eat]
  split
  · exact hr.trans hlook (hr.consume _)
  · exact hlook

/-- A word is looked up. -/
theorem atFunction (hr : Frame r) (R : Rules) (s : State) : r s (Grammar.atFunction R s).2 := by
  have hlook : r s (Grammar.look 0 s).2 := hr.run_look 0 s
  rw [run_atFunction]
  split <;> exact hlook

end Frame

/-- **What each of the makings leaves, every step leaves.** -/
theorem Alike.frame {r : State → State → Prop} (hr : Frame r) {α : Type} {i : Sync}
    {o : α → Sync} {m m' : Step α} (h : Alike i o m m') : ∀ s, r s (m s).2 := by
  -- One case for each way in which a step can be put together.
  induction h with
  | pure => exact hr.refl
  | bind _ _ ihm ihf => exact fun s => hr.trans (ihm s) (ihf _ _)
  | weaken _ _ _ ih => exact ih
  | current => exact hr.run_look 0
  | look n => exact hr.run_look n
  | consume | consumeBreak => exact hr.consume
  | eatBreak => exact hr.eat _
  | complain p => exact hr.complain p
  | giveUp f => exact hr.giveUp f
  | lostLeft _ _ _ ih _ | lostRight _ _ _ ih _ => exact ih
  | isTooDeep | isOutside => exact hr.refl
  | @atFunction R => exact hr.atFunction R
  | within c _ ih =>
    intro s
    rw [run_within]
    exact hr.within c (ih _)
  | withoutParens _ ih =>
    intro s
    rw [run_withoutParens]
    refine hr.carry .parens ?_ (ih _)
    simpa [State.count] using hr.carry .parens (by simpa using hr.refl s) (hr.refl s)
  | climb n _ _ _ ihcheck ihact => exact hr.climb ihcheck ihact n
  | node k _ _ _ _ ih => exact hr.node k ih
  | nodeAround k hk _ _ ih => exact hr.nodeAround hk ih
  | passing n _ x _ _ _ ih => exact hr.iterate ih n x
  | block R _ _ _ ihskip ih =>
    refine hr.node _ fun s => ?_
    rw [run_bind]
    split
    · exact hr.node _ (fun s => hr.trans (hr.complain _ s) (hr.iterate ihskip _ _ _)) _
    · exact ih _

/-! ## Moves of tokens leave the rest of the state -/

namespace State

/-- The token that is taken goes from the text into the tree. -/
theorem shift_of_rest {s : State} {t : Token} {ts : List Token} (h : s.rest = t :: ts) :
    s.shift = { s with
      rest := ts
      out := s.out.push (.leaf t)
      offset := t.stop
      anchor := if t.kind.isSignificant then t.stop else s.anchor } := by
  unfold shift
  rw [h]

/-- As many tokens are gone as were taken. -/
theorem rest_shiftMany (n : Nat) (s : State) : (s.shiftMany n).rest = s.rest.drop n := by
  induction n generalizing s with
  | zero => rfl
  | succ n ih =>
    rw [shiftMany, ih]
    cases h : s.rest with
    | nil => simp [shift, h]
    | cons t ts => rw [shift_of_rest h, List.drop_succ_cons]

/-- All leading trivia is taken. -/
theorem rest_shiftTrivia (s : State) : s.shiftTrivia.rest = s.rest.dropWhile (·.kind.isTrivia) := by
  rw [shiftTrivia, rest_shiftMany]
  induction s.rest with
  | nil => rfl
  | cons t ts ih =>
    by_cases h : t.kind.isTrivia
    · simpa [h] using ih
    · simp [h]

/-- A part of the state that a move of one token leaves as it is, any number of
moves leave as it is. -/
theorem shiftMany_eq {β : Type} {p : State → β} (h : ∀ s, p s.shift = p s) (n : Nat)
    (s : State) : p (s.shiftMany n) = p s := by
  induction n generalizing s with
  | zero => rfl
  | succ n ih => exact (ih _).trans (h s)

/-- What one token leaves as it is, all leading trivia leaves as it is. -/
theorem shiftTrivia_eq {β : Type} {p : State → β} (h : ∀ s, p s.shift = p s)
    (s : State) : p s.shiftTrivia = p s :=
  shiftMany_eq h _ s

/-- What a token leaves as it is, the opening of a node leaves as it is. -/
theorem opened_eq {β : Type} {p : State → β} (h : ∀ s, p s.shift = p s) (kind : NodeKind)
    (s : State) : p (s.opened kind) = p s := by
  unfold opened
  split
  · rfl
  · exact shiftTrivia_eq h s

/-- What neither a token nor a look changes, taking a token leaves as it is. -/
theorem consume_eq {β : Type} {p : State → β} (h : ∀ s, p s.shift = p s)
    (hlooks : ∀ s n, p { s with looks := n } = p s) (s : State) :
    p s.consume = p s := by
  rw [consume, hlooks, shiftBreaks]
  split
  · rw [shiftMany_eq h, h, shiftTrivia_eq h]
  · rw [h, shiftTrivia_eq h]

/-- Looks are counted apart from the tokens. -/
theorem shift_looked (s : State) : s.looked.shift = s.shift.looked := by
  cases h : s.rest <;> simp [shift, looked, h]

/-- Looks are counted apart from any number of tokens. -/
theorem shiftMany_looked (n : Nat) (s : State) :
    s.looked.shiftMany n = (s.shiftMany n).looked := by
  induction n generalizing s with
  | zero => rfl
  | succ n ih => rw [shiftMany, shift_looked, ih, shiftMany]

/-- Looks are counted apart from line breaks. -/
theorem shiftBreaks_looked (s : State) : s.looked.shiftBreaks = s.shiftBreaks.looked := by
  have hparens : s.looked.parens = s.parens := rfl
  have hrest : s.looked.rest = s.rest := rfl
  rw [shiftBreaks, shiftBreaks, hparens, hrest, shiftMany_looked]
  split <;> rfl

/-- Looks do not matter to what is consumed. -/
theorem consume_looked (s : State) : s.looked.consume = s.consume := by
  have hrest : s.looked.rest = s.rest := rfl
  rw [consume, shiftTrivia, hrest, shiftMany_looked, shift_looked, shiftBreaks_looked]
  rfl

/-- Taking a token is no fault. -/
theorem fault_shift (s : State) : s.shift.fault = s.fault := by
  unfold shift
  split <;> rfl

/-- Taking a token is no look. -/
theorem looks_shift (s : State) : s.shift.looks = s.looks := by
  unfold shift
  split <;> rfl

/-- Taking a token is no complaint. -/
theorem complaints_shift (s : State) : s.shift.complaints = s.complaints := by
  unfold shift
  split <;> rfl

/-- Taking a token counts nothing. -/
theorem count_shift (c : Counter) (s : State) : s.shift.count c = s.count c := by
  unfold shift
  split <;> cases c <;> rfl

/-- Taking trivia counts nothing. -/
theorem count_shiftTrivia (c : Counter) (s : State) : s.shiftTrivia.count c = s.count c :=
  shiftTrivia_eq (p := fun s => s.count c) (count_shift c) s

/-- Opening a node counts nothing. -/
theorem count_opened (c : Counter) (kind : NodeKind) (s : State) :
    (s.opened kind).count c = s.count c :=
  opened_eq (p := fun s => s.count c) (count_shift c) kind s

/-- Consuming a token counts nothing. -/
theorem count_consume (c : Counter) (s : State) : s.consume.count c = s.count c :=
  consume_eq (p := fun s => s.count c) (count_shift c) (fun _ _ => by cases c <;> rfl) s

/-- Consuming a token is no fault. -/
theorem fault_consume (s : State) : s.consume.fault = s.fault :=
  consume_eq fault_shift (fun _ _ => rfl) s

/-- Setting a counter is no fault. -/
theorem fault_setCount (c : Counter) (n : Nat) (s : State) : (s.setCount c n).fault = s.fault := by
  cases c <;> rfl

/-- Counters have no part in the tokens ahead. -/
@[simp] theorem rest_setCount (c : Counter) (n : Nat) (s : State) :
    (s.setCount c n).rest = s.rest := by
  cases c <;> rfl

/-- Counters have no part in the tree. -/
@[simp] theorem out_setCount (c : Counter) (n : Nat) (s : State) :
    (s.setCount c n).out = s.out := by
  cases c <;> rfl

/-- Lowering a counter takes no token. -/
@[simp] theorem rest_lower (c : Counter) (s : State) : (s.lower c).rest = s.rest := by
  unfold lower
  split
  · rfl
  · exact rest_setCount ..

/-- Lowering a counter builds nothing. -/
@[simp] theorem out_lower (c : Counter) (s : State) : (s.lower c).out = s.out := by
  unfold lower
  split
  · rfl
  · exact out_setCount ..

/-- A counter that is lowered without a fault was above zero. -/
theorem fault_lower {c : Counter} {s : State} (h : (s.lower c).fault = none) :
    s.fault = none := by
  unfold lower at h
  split at h
  · exact absurd h (by simp [giveUp])
  · rwa [fault_setCount] at h

/-- Beginning a node counts nothing. -/
theorem count_inside (c : Counter) (children : Array Tree) (s : State) :
    (s.inside children).count c = s.count c := by
  cases c <;> rfl

/-- Closing a node counts nothing. -/
theorem count_close (c : Counter) (kind : NodeKind) (start : Nat) (outer : Array Tree) (s : State) :
    (s.close kind start outer).count c = s.count c := by
  cases c <;> rfl

/-- Giving up counts nothing. -/
theorem count_giveUp (c : Counter) (f : Fault) (s : State) : (s.giveUp f).count c = s.count c := by
  cases c <;> rfl

/-- A raised counter is one more. -/
theorem count_raise (c : Counter) (s : State) : (s.raise c).count c = s.count c + 1 :=
  count_setCount ..

/-- The other counters stay. -/
theorem count_raise_of_ne {c d : Counter} (h : d ≠ c) (s : State) :
    (s.raise c).count d = s.count d :=
  count_setCount_of_ne h ..

/-- A lowered counter is one less, and none is below zero. -/
theorem count_lower (c : Counter) (s : State) : (s.lower c).count c = s.count c - 1 := by
  unfold lower
  split
  · rw [count_giveUp]
    omega
  · exact count_setCount ..

/-- The other counters stay. -/
theorem count_lower_of_ne {c d : Counter} (h : d ≠ c) (s : State) :
    (s.lower c).count d = s.count d := by
  unfold lower
  split
  · exact count_giveUp ..
  · exact count_setCount_of_ne h ..

end State

/-! ## Frames of the counted parts -/

/-- Once the reading is given up, it stays given up. -/
theorem lost_frame : Frame fun s t => s.fault.isSome → t.fault.isSome where
  refl _ h := h
  trans hst htu h := htu (hst h)
  look _ h := h
  shiftTrivia s h := by rwa [State.shiftTrivia_eq State.fault_shift]
  consume s h := by rwa [State.consume_eq State.fault_shift fun _ _ => rfl]
  complain _ _ h := h
  giveUp f s _ := State.isSome_fault_giveUp f s
  within c s t h hs := by
    have ht := h (by rwa [State.raise, State.fault_setCount])
    -- Lowering a counter that stands at zero gives up, which is no way back either.
    unfold State.lower
    split
    · exact State.isSome_fault_giveUp ..
    · rwa [State.fault_setCount]
  carry c s t u hst htu hs := by
    rw [State.fault_setCount] at hst ⊢
    exact htu (hst hs)
  enclose _ _ _ _ _ _ _ h hs := h hs

/-- **The counters behind a step are those in front of it.** -/
theorem count_frame (c : Counter) : Frame fun s t => t.count c = s.count c where
  refl _ := rfl
  trans hst htu := htu.trans hst
  look s := by cases c <;> rfl
  shiftTrivia := State.count_shiftTrivia c
  consume := State.count_consume c
  complain _ _ := by cases c <;> rfl
  giveUp f s := State.count_giveUp c f s
  within d s t h := by
    by_cases hd : c = d
    · subst hd
      rw [State.count_lower, h, State.count_raise, Nat.add_sub_cancel]
    · rw [State.count_lower_of_ne hd, h, State.count_raise_of_ne hd]
  carry d s t u hst htu := by
    by_cases hd : c = d
    · subst hd
      exact State.count_setCount ..
    · rw [State.count_setCount_of_ne hd] at hst ⊢
      exact htu.trans hst
  enclose _ s t _ _ _ _ h := by
    have hclose : ∀ (kind : NodeKind) (start : Nat) (outer : Array Tree),
        (t.close kind start outer).count c = t.count c := fun _ _ _ => by cases c <;> rfl
    rw [hclose, h]
    cases c <;> rfl

namespace Alike

variable {α : Type} {i : Sync} {o : α → Sync} {m m' : Step α}

/-- A lost reading stays lost. -/
theorem fault_isSome (h : Alike i o m m') {s : State} (hs : s.fault.isSome) :
    (m s).2.fault.isSome :=
  h.frame lost_frame s hs

/-- A step that ends without a fault began without one. -/
theorem fault_eq_none (h : Alike i o m m') {s : State} (hs : (m s).2.fault = none) :
    s.fault = none := by
  cases hfault : s.fault with
  | none => rfl
  | some f =>
    have hlost := h.fault_isSome (s := s) (by rw [hfault]; rfl)
    rw [hs] at hlost
    exact absurd hlost (by decide)

/-- A step that is alike counts nothing in the end. -/
theorem count_eq (h : Alike i o m m') (c : Counter) (s : State) : (m s).2.count c = s.count c :=
  h.frame (count_frame c) s

end Alike

/-! ## Relations on the tokens alone -/

/-- What a relation has to satisfy to be a frame if all that matters to it are the
tokens ahead, their offset, and what is built. -/
structure Moves (r : State → State → Prop) : Prop where
  same {s t : State} : s.rest = t.rest → s.out = t.out → s.offset = t.offset → r s t
  trans {s t u : State} : r s t → r t u → r s u
  shift (s : State) : r s s.shift
  enclose (kind : NodeKind) {s t : State} {outer inner : Array Tree} :
    s.out = outer ++ inner → inner = #[] ∨ (kind ≠ .stmtList ∧ kind ≠ .error) ∧ inner.size = 1 →
      r (s.inside inner) t → r s (t.close kind (s.beginning inner) outer)

namespace Moves

variable {r : State → State → Prop}

/-- Any number of tokens moves the state. -/
theorem shiftMany (hr : Moves r) (n : Nat) (s : State) : r s (s.shiftMany n) := by
  induction n generalizing s with
  | zero => exact hr.same rfl rfl rfl
  | succ n ih => exact hr.trans (hr.shift s) (ih _)

/-- Consuming a token moves the state. -/
theorem consume (hr : Moves r) (s : State) : r s s.consume := by
  have hbreaks (t : State) : r t t.shiftBreaks := by
    unfold State.shiftBreaks
    split
    · exact hr.shiftMany _ t
    · exact hr.same rfl rfl rfl
  have hshift : r s s.shiftTrivia.shift := hr.trans (hr.shiftMany _ s) (hr.shift _)
  exact hr.trans (hr.trans hshift (hbreaks _)) (hr.same rfl rfl rfl)

/-- A counter may change in front. -/
theorem setCount (hr : Moves r) (c : Counter) (n : Nat) (s : State) : r s (s.setCount c n) := by
  cases c <;> exact hr.same rfl rfl rfl

/-- A counter may be changed back. -/
theorem setCount_back (hr : Moves r) (c : Counter) (n : Nat) (s : State) :
    r (s.setCount c n) s := by
  cases c <;> exact hr.same rfl rfl rfl

/-- Lowering a counter keeps the tokens where they are. -/
theorem lower (hr : Moves r) (c : Counter) (s : State) : r s (s.lower c) := by
  unfold State.lower
  split
  · exact hr.same rfl rfl rfl
  · exact hr.setCount c _ s

/-- Every relation on the tokens alone is kept by all steps. -/
theorem frame (hr : Moves r) : Frame r where
  refl _ := hr.same rfl rfl rfl
  trans := hr.trans
  look _ := hr.same rfl rfl rfl
  shiftTrivia s := hr.shiftMany _ s
  consume := hr.consume
  complain _ _ := hr.same rfl rfl rfl
  giveUp _ _ := hr.same rfl rfl rfl
  within c _ t h := hr.trans (hr.setCount c _ _) (hr.trans h (hr.lower c t))
  carry c _ t u hst htu :=
    hr.trans hst (hr.trans (hr.setCount_back c _ t) (hr.trans htu (hr.setCount c _ u)))
  enclose := hr.enclose

end Moves

/-! ## Tokens that move -/

/-- Some tokens ahead of the first state are leaves of the second one. -/
def Advances (s t : State) : Prop :=
  ∃ moved, s.rest = moved ++ t.rest
    ∧ leavesOfAll t.out.toList = leavesOfAll s.out.toList ++ moved

/-- A node over the leaves that were built inside it, whatever it took over. -/
theorem advances_close {s t : State} {outer inner : Array Tree} (kind : NodeKind) (start : Nat)
    (hsplit : s.out = outer ++ inner) (h : Advances (s.inside inner) t) :
    Advances s (t.close kind start outer) := by
  obtain ⟨moved, hrest, hout⟩ := h
  refine ⟨moved, hrest, ?_⟩
  have hinside : (s.inside inner).out = inner := rfl
  rw [hinside] at hout
  simp [State.close, hsplit, hout, List.append_assoc]

/-- Advancing is a matter of the tokens alone. -/
theorem advances_moves : Moves Advances where
  same hrest hout _ := ⟨[], by simp [hrest], by simp [hout]⟩
  trans := by
    rintro s t u ⟨ts, hrest, hout⟩ ⟨us, hrest', hout'⟩
    exact ⟨ts ++ us, by rw [hrest, hrest', List.append_assoc],
      by rw [hout', hout, List.append_assoc]⟩
  shift s := by
    cases h : s.rest with
    | nil => exact ⟨[], by simp [State.shift, h], by simp [State.shift, h]⟩
    | cons t ts =>
      rw [State.shift_of_rest h]
      exact ⟨[t], by simp [h], by simp⟩
  enclose kind _ _ _ _ hsplit _ h := advances_close kind _ hsplit h

/-- **The leaves built so far, followed by the tokens ahead, never change.** -/
theorem advances_frame : Frame Advances := advances_moves.frame

/-! ## Relations on where a state stands and its complaints -/

/-- The two states stand at the same place of the text, with the same complaints. -/
def State.Level (s t : State) : Prop :=
  s.rest = t.rest ∧ s.offset = t.offset ∧ s.anchor = t.anchor ∧ s.complaints = t.complaints

namespace State

/-- A state with another counter stands where it stood. -/
theorem level_setCount (c : Counter) (n : Nat) (s : State) : (s.setCount c n).Level s := by
  cases c <;> exact ⟨rfl, rfl, rfl, rfl⟩

/-- A state with a counter lowered stands where it stood. -/
theorem level_lower (c : Counter) (s : State) : (s.lower c).Level s := by
  unfold lower
  split
  · exact ⟨rfl, rfl, rfl, rfl⟩
  · exact level_setCount c _ s

/-- Of two states at one place each stands where the other does. -/
theorem Level.symm {s t : State} (h : s.Level t) : t.Level s :=
  ⟨h.1.symm, h.2.1.symm, h.2.2.1.symm, h.2.2.2.symm⟩

end State

/-- What a relation has to satisfy to be a frame if all that matters to it is where the
states stand and what was complained about. -/
structure Remarks (r : State → State → Prop) : Prop where
  refl (s : State) : r s s
  trans {s t u : State} : r s t → r t u → r s u
  congr {s t s' t' : State} : r s t → s.Level s' → t.Level t' → r s' t'
  shift (s : State) : r s s.shift
  complain (p : Problem) (s : State) :
    r s { s with complaints := s.complaints.push ⟨p, s.place⟩ }

namespace Remarks

variable {r : State → State → Prop}

/-- Any number of tokens may be taken. -/
theorem shiftMany (hr : Remarks r) (n : Nat) (s : State) : r s (s.shiftMany n) := by
  induction n generalizing s with
  | zero => exact hr.refl s
  | succ n ih => exact hr.trans (hr.shift s) (ih _)

/-- A token may be consumed. -/
theorem consume (hr : Remarks r) (s : State) : r s s.consume := by
  have hbreaks (t : State) : r t t.shiftBreaks := by
    unfold State.shiftBreaks
    split
    · exact hr.shiftMany _ t
    · exact hr.refl t
  have hshift : r s s.shiftTrivia.shift := hr.trans (hr.shiftMany _ s) (hr.shift _)
  exact hr.congr (hr.trans hshift (hbreaks _)) ⟨rfl, rfl, rfl, rfl⟩ ⟨rfl, rfl, rfl, rfl⟩

/-- Every relation on the place and the complaints is kept by all steps. -/
theorem frame (hr : Remarks r) : Frame r where
  refl := hr.refl
  trans := hr.trans
  look s := hr.congr (hr.refl s) ⟨rfl, rfl, rfl, rfl⟩ ⟨rfl, rfl, rfl, rfl⟩
  shiftTrivia s := hr.shiftMany _ s
  consume := hr.consume
  complain := hr.complain
  giveUp _ s := hr.congr (hr.refl s) ⟨rfl, rfl, rfl, rfl⟩ ⟨rfl, rfl, rfl, rfl⟩
  within c s t h := hr.congr h (State.level_setCount c _ s) (State.level_lower c t).symm
  carry c _ t u hst htu :=
    have hback := hr.congr hst ⟨rfl, rfl, rfl, rfl⟩ (State.level_setCount c _ t)
    hr.congr (hr.trans hback htu) ⟨rfl, rfl, rfl, rfl⟩ (State.level_setCount c _ u).symm
  enclose _ _ _ _ _ _ _ h := hr.congr h ⟨rfl, rfl, rfl, rfl⟩ ⟨rfl, rfl, rfl, rfl⟩

end Remarks

end ScriptSense.Grammar
