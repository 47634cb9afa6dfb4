/-
How the makings of the grammar spend.

`After m s q` says that the answer of a step and the state behind it have a
property. Each of the makings has one lemma that says what holds behind it, and a
rule of the grammar is gone through from the front to the back by `After.bind`,
with what was spent so far in `Goes` or `Took`.

Two of the lemmas carry the weight. A loop needs a turn for every token ahead and
one more, because each turn but the last consumes a token (`After.iterate`). A
climb deepens what stands to its left with every turn, and pays for the looks
of a turn with the level that it is deeper (`After.climb`).
-/
import ScriptSense.Proofs.Grammar.Budget

set_option autoImplicit false

namespace ScriptSense.Grammar

variable {α β : Type}

/-- What holds of the answer of a step and of the state behind it. -/
def After (m : Step α) (s : State) (q : α → State → Prop) : Prop := q (m s).1 (m s).2

namespace After

variable {m : Step α} {f : α → Step β} {s : State} {p : α → State → Prop} {q : β → State → Prop}

/-- Less may be said of the answer and of the state. -/
theorem mono {q : α → State → Prop} (h : After m s p) (hpq : ∀ a t, p a t → q a t) :
    After m s q :=
  hpq _ _ h

/-- An answer leaves the state as it is. -/
theorem pure {a : α} {q : α → State → Prop} (h : q a s) : After (Pure.pure a) s q := h

/-- What holds behind the first step is what the second begins with. -/
theorem bind (h : After m s p) (hf : ∀ a t, p a t → After (f a) t q) : After (m >>= f) s q :=
  hf _ _ h

/-- The answer may be dropped. -/
theorem discard {r : State → Prop} (h : After m s fun _ t => r t) :
    After (Functor.discard m) s fun _ t => r t := h

/-- The answer may be changed. -/
theorem map {g : α → β} (h : After m s fun a t => q (g a) t) : After (g <$> m) s q := h

/-- Behind a change of the state the changed state stands. -/
theorem modified {g : State → State} {q : Unit → State → Prop} (h : q () (g s)) :
    After (modify g) s q := h

end After

/-! ## Looks and moves -/

section Moves

variable {s t : State} {a b : Nat}

/-- As long as there is room for looks, a look tells the kind of the token and counts once. -/
theorem look_after (n : Nat) (hs : Room s) :
    After (look n) s fun kind t => kind = kindAhead n s.rest ∧ t = s.looked := by
  unfold After
  rw [run_look hs.fault hs.looks]
  exact ⟨rfl, rfl⟩

/-- A look at the next token. -/
theorem current_after (hs : Room s) :
    After current s fun kind t => kind = s.head ∧ t = s.looked :=
  look_after 0 hs

/-- A test of the next token is one look. -/
theorem isAt_after (kind : TokenKind) (hs : Room s) :
    After (isAt kind) s fun there t => there = (s.head == kind) ∧ t = s.looked := by
  refine .bind (current_after hs) ?_
  rintro _ _ ⟨rfl, rfl⟩
  exact .pure ⟨rfl, rfl⟩

/-- A test for the end of the text is one look. -/
theorem atEnd_after (hs : Room s) :
    After atEnd s fun ends t => ends = (s.head == .eof) ∧ t = s.looked :=
  isAt_after .eof hs

/-- A test for the end of the line is one look. -/
theorem atLineEnd_after (hs : Room s) :
    After atLineEnd s fun ends t => ends = (s.head == .newline || s.head == .eof) ∧ t = s.looked := by
  refine .bind (current_after hs) ?_
  rintro _ _ ⟨rfl, rfl⟩
  exact .pure ⟨rfl, rfl⟩

/-- A token that is there is consumed. Otherwise only a look was spent. -/
theorem eat_after (kind : TokenKind) (hs : Room s) :
    After (eat kind) s fun there t => there = true ∧ s.head = kind ∧ t = s.consume
      ∨ there = false ∧ s.head ≠ kind ∧ t = s.looked := by
  refine .bind (isAt_after kind hs) ?_
  rintro _ _ ⟨rfl, rfl⟩
  by_cases h : s.head = kind
  · have hthere : (s.head == kind) = true := by simp [h]
    rw [hthere]
    exact .inl ⟨rfl, h, State.consume_looked s⟩
  · have hthere : (s.head == kind) = false := by simp [h]
    rw [hthere]
    exact .inr ⟨rfl, h, rfl⟩

/-- Whatever is next is consumed, unless the text is over. -/
theorem bumpAny_after (hs : Room s) (h : s.head ≠ .eof) :
    After bumpAny s fun _ t => t = s.consume := by
  refine .bind (current_after hs) ?_
  rintro _ _ ⟨rfl, rfl⟩
  have hthere : (s.head == .eof) = false := by simp [h]
  rw [hthere]
  exact State.consume_looked s

/-- A token that is known to be next is consumed, without a fault. -/
theorem bump_after {kind : TokenKind} (hs : Room s) (h : s.head = kind) :
    After (bump kind) s fun _ t => t = s.consume := by
  refine .bind (current_after hs) ?_
  rintro _ _ ⟨rfl, rfl⟩
  have hthere : (s.head == kind) = true := by simp [h]
  rw [hthere]
  exact State.consume_looked s

/-! ## What they spend -/

/-- The parts of the state that are not counted do not matter. -/
theorem Goes.same {u : State} (h : Goes a b s t) (hfault : u.fault = t.fault)
    (hcount : ∀ c, u.count c = t.count c) (hinput : u.input = t.input) (hlooks : u.looks = t.looks) :
    Goes a b s u :=
  ⟨hfault.trans h.fault, fun c => (hcount c).trans (h.count c), by rw [hinput, hlooks]; exact h.spent⟩

/-- A complaint spends nothing. -/
theorem complain_goes (problem : Problem) (hs : s.fault = none) :
    After (complain problem) s fun _ t => Goes 0 0 s t ∧ t.input = s.input :=
  ⟨(Goes.refl hs).same rfl (fun c => by cases c <;> rfl) rfl rfl, rfl⟩

/-- Eating a token spends one look at most. -/
theorem eat_goes (kind : TokenKind) (hkind : kind ≠ .eof) (hs : Room s) :
    After (eat kind) s fun _ t => Goes 1 0 s t := by
  refine (eat_after kind hs).mono ?_
  rintro _ _ (⟨-, rfl, rfl⟩ | ⟨-, -, rfl⟩)
  · exact (took_consume hs.fault hkind).goes
  · exact .look hs.fault

/-- The token that is asked for is consumed, or nothing is. -/
theorem expect_after (kind : TokenKind) (hkind : kind ≠ .eof) (wanted : Wanted) (hs : Room s) :
    After (expect kind wanted) s fun there t => there = true ∧ Took 0 s t
      ∨ there = false ∧ Goes 1 0 s t := by
  refine .bind (eat_after kind hs) ?_
  rintro _ _ (⟨rfl, rfl, rfl⟩ | ⟨rfl, -, rfl⟩)
  · exact .inl ⟨rfl, took_consume hs.fault hkind⟩
  · refine .bind (complain_goes _ (s := s.looked) hs.fault) fun _ t ht => ?_
    exact .inr ⟨rfl, (Goes.look hs.fault).trans ht.1⟩

/-- Expecting a token spends one look at most. -/
theorem expect_goes (kind : TokenKind) (hkind : kind ≠ .eof) (wanted : Wanted) (hs : Room s) :
    After (expect kind wanted) s fun _ t => Goes 1 0 s t := by
  refine (expect_after kind hkind wanted hs).mono ?_
  rintro _ _ (⟨-, h⟩ | ⟨-, h⟩)
  · exact h.goes
  · exact h

end Moves

/-! ## Nodes -/

namespace State

/-- The state at the beginning of a node. -/
def begun (kind : NodeKind) (s : State) : State := (s.opened kind).inside #[]

/-- Beginning a node is no fault. -/
theorem fault_begun (kind : NodeKind) (s : State) : (s.begun kind).fault = s.fault :=
  opened_eq fault_shift kind s

/-- Beginning a node counts nothing. -/
theorem count_begun (kind : NodeKind) (c : Counter) (s : State) :
    (s.begun kind).count c = s.count c := by
  rw [begun, count_inside, count_opened]

/-- Beginning a node takes no token but trivia. -/
theorem input_begun (kind : NodeKind) (s : State) : (s.begun kind).input = s.input := by
  unfold begun opened
  split
  · rfl
  · exact input_shiftTrivia s

/-- The token ahead is the same inside of a node that begins. -/
theorem head_begun (kind : NodeKind) (s : State) : (s.begun kind).head = s.head :=
  head_congr (input_begun kind s)

/-- Beginning a node is no look. -/
theorem looks_begun (kind : NodeKind) (s : State) : (s.begun kind).looks = s.looks :=
  opened_eq looks_shift kind s

/-- The element built last is a node. -/
def EndsInNode (s : State) : Prop :=
  ∃ kind span children, s.out.back? = some (.node kind span children)

/-- A node that is closed is the last thing that was built. -/
theorem endsInNode_close (kind : NodeKind) (start : Nat) (outer : Array Tree) (s : State) :
    (s.close kind start outer).EndsInNode :=
  ⟨kind, ⟨start, s.offset⟩, s.out.toList, by simp [close]⟩

end State

section Nodes

variable {R : Rules} {n l : Nat} {kind : NodeKind} {body : Step α} {s t : State} {a b : Nat}

/-- Who is ready outside of a node is ready inside. -/
theorem Ready.begun (hs : Ready R n l s) (kind : NodeKind) : Ready R n l (s.begun kind) :=
  ⟨(State.fault_begun kind s).trans hs.fault, by rw [State.input_begun]; exact hs.levels,
    by rw [State.looks_begun]; exact hs.looks⟩

/-- As much can be unwound inside of a node as outside. -/
theorem unwound_begun (kind : NodeKind) (s : State) : unwound (s.begun kind) = unwound s :=
  unwound_congr (State.count_begun ..)

/-- A node spends what is spent in it. -/
theorem node_goes (h : After body (s.begun kind) fun _ t => Goes a b (s.begun kind) t) :
    After (node kind body) s fun _ t => Goes a b s t ∧ t.EndsInNode := by
  unfold After at h ⊢
  rw [run_node]
  obtain ⟨hfault, hcount, hspent⟩ := h
  rw [State.input_begun, State.looks_begun, unwound_begun] at hspent
  refine ⟨⟨hfault, fun c => ?_, hspent⟩, State.endsInNode_close ..⟩
  rw [State.count_close, ← State.count_begun kind c s]
  exact hcount c

/-- A node takes what its content takes. -/
theorem node_took (h : After body (s.begun kind) fun _ t => Took b (s.begun kind) t) :
    After (node kind body) s fun _ t => Took b s t ∧ t.EndsInNode := by
  unfold After at h ⊢
  rw [run_node]
  obtain ⟨hfault, hcount, hlength, hlooks⟩ := h
  rw [State.input_begun] at hlength
  rw [unwound_begun] at hlooks
  refine ⟨⟨hfault, fun c => ?_, hlength, hlooks⟩, State.endsInNode_close ..⟩
  rw [State.count_close, ← State.count_begun kind c s]
  exact hcount c

/-- A node around the last one spends what its content spends. -/
theorem nodeAround_goes (hs : s.EndsInNode)
    (h : ∀ children, After body (s.inside children) fun _ t => Goes a b (s.inside children) t) :
    After (nodeAround kind body) s fun _ t => Goes a b s t ∧ t.EndsInNode := by
  obtain ⟨first, span, children, hlast⟩ := hs
  obtain ⟨hfault, hcount, hspent⟩ := h #[.node first span children]
  unfold After
  rw [run_nodeAround hlast]
  rw [unwound_congr (State.count_inside ..)] at hspent
  refine ⟨⟨hfault, fun c => ?_, hspent⟩, State.endsInNode_close ..⟩
  rw [State.count_close, hcount, State.count_inside]

/-- A node around the last one takes what its content takes. -/
theorem nodeAround_took (hs : s.EndsInNode)
    (h : ∀ children, After body (s.inside children) fun _ t => Took b (s.inside children) t) :
    After (nodeAround kind body) s fun _ t => Took b s t ∧ t.EndsInNode := by
  obtain ⟨first, span, children, hlast⟩ := hs
  obtain ⟨hfault, hcount, hlength, hlooks⟩ := h #[.node first span children]
  unfold After
  rw [run_nodeAround hlast]
  rw [unwound_congr (State.count_inside ..)] at hlooks
  refine ⟨⟨hfault, fun c => ?_, hlength, hlooks⟩, State.endsInNode_close ..⟩
  rw [State.count_close, hcount, State.count_inside]

/-- Who is ready in front of a node is ready behind its first child. -/
theorem Ready.inside (hs : Ready R n l s) (children : Array Tree) :
    Ready R n l (s.inside children) :=
  ⟨hs.fault, hs.levels, hs.looks⟩

end Nodes

/-! ## Counters -/

namespace State

/-- Counters have no part in the input. -/
theorem input_setCount (c : Counter) (n : Nat) (s : State) :
    (s.setCount c n).input = s.input := by
  cases c <;> rfl

/-- Setting a counter is no look. -/
theorem looks_setCount (c : Counter) (n : Nat) (s : State) :
    (s.setCount c n).looks = s.looks := by
  cases c <;> rfl

end State

section Counters

variable {R : Rules} {n l : Nat} {c : Counter} {body : Step α} {s t u : State} {a b : Nat}
  {p : α → State → Prop}

/-- Counters have no part in being ready. -/
theorem Ready.setCount (hs : Ready R n l s) (c : Counter) (k : Nat) :
    Ready R n l (s.setCount c k) := by
  cases c <;> exact ⟨hs.fault, hs.levels, hs.looks⟩

/-- Raising a counter keeps the parser ready. -/
theorem Ready.raise (hs : Ready R n l s) (c : Counter) : Ready R n l (s.raise c) :=
  hs.setCount c _

/-- Behind a construct that restores the counters, one of them is put back. -/
theorem Goes.putBack {k : Nat} (h : Goes a b (s.setCount c k) t)
    (hunwound : unwound (s.setCount c k) + b ≤ unwound s + n) :
    Goes a n s (t.setCount c (s.count c)) := by
  obtain ⟨hfault, hcount, hspent⟩ := h
  rw [State.input_setCount, State.looks_setCount] at hspent
  refine ⟨(State.fault_setCount ..).trans hfault, fun d => ?_, ?_⟩
  · by_cases hd : d = c
    · rw [hd, State.count_setCount]
    · rw [State.count_setCount_of_ne hd, hcount, State.count_setCount_of_ne hd]
  · rw [State.input_setCount, State.looks_setCount]
    rcases hspent with hspent | ⟨hless, hle⟩
    · exact .inl hspent
    · exact .inr ⟨hless, by omega⟩

/-- Parentheses and `begin` blocks have no part in what is spent. -/
theorem unwound_setCount (hc : c ≠ .nesting) (k : Nat) (s : State) :
    unwound (s.setCount c k) = unwound s :=
  unwound_congr (State.count_setCount_of_ne hc.symm k s)

/-- A level of nesting pays for `unwinding` looks. -/
theorem unwound_deeper {k : Nat} (hdepth : s.count .nesting < nestingLimit)
    (hk : s.count .nesting < k) (b : Nat) :
    unwound (s.setCount .nesting k) + b ≤ unwound s + (b - unwinding) := by
  unfold unwound
  rw [State.count_setCount]
  unfold unwinding
  omega

/-- A counter that was raised by one is lowered to where it was. -/
theorem lower_eq (h : t.count c = (s.raise c).count c) : t.lower c = t.setCount c (s.count c) := by
  rw [State.count_raise] at h
  rw [State.lower, if_neg (by omega), h, Nat.add_sub_cancel]

/-- What holds behind a step under a raised counter holds with the counter lowered. -/
theorem within_after (h : After body (s.raise c) fun x t => p x (t.lower c)) :
    After (within c body) s p := by
  unfold After at h ⊢
  rwa [run_within]

/-- A counter other than the depth changes nothing about what is spent. -/
theorem Goes.lower (hc : c ≠ .nesting) (h : Goes a b (s.raise c) t) : Goes a b s (t.lower c) := by
  rw [lower_eq (h.count c)]
  exact h.putBack (Nat.le_of_eq (by rw [unwound_setCount hc]))

/-- One level down there is more to unwind, and the step may spend it. -/
theorem Goes.lower_nesting (hdepth : s.count .nesting < nestingLimit)
    (h : Goes a b (s.raise .nesting) t) : Goes a (b - unwinding) s (t.lower .nesting) := by
  rw [lower_eq (h.count .nesting)]
  exact h.putBack (unwound_deeper hdepth (Nat.lt_succ_self _) b)

/-- A step that goes on with fewer tokens took some. -/
theorem Goes.took_of_lt (h : Goes a b s t) (hlt : t.input.length < s.input.length) :
    Took b s t := by
  refine ⟨h.fault, h.count, hlt, ?_⟩
  rcases h.spent with ⟨hinput, -⟩ | ⟨-, hle⟩
  · rw [hinput] at hlt
    omega
  · exact hle

/-- Lowering a counter takes no token. -/
theorem input_lower (c : Counter) (t : State) : (t.lower c).input = t.input := by
  unfold State.lower
  split
  · rfl
  · exact State.input_setCount ..

/-- A counter other than the depth changes nothing about what is taken. -/
theorem Took.lower (hc : c ≠ .nesting) (h : Took b (s.raise c) t) : Took b s (t.lower c) := by
  refine (h.goes (a := 0) |>.lower hc).took_of_lt ?_
  rw [input_lower, ← State.input_setCount c (s.count c + 1) s]
  exact h.length

/-- A step under a raised counter spends what it spends without. -/
theorem within_goes (hc : c ≠ .nesting)
    (h : After body (s.raise c) fun _ t => Goes a b (s.raise c) t) :
    After (within c body) s fun _ t => Goes a b s t :=
  within_after (h.mono fun _ _ ht => Goes.lower hc ht)

/-- A step under a raised counter takes what it takes without. -/
theorem within_took (hc : c ≠ .nesting)
    (h : After body (s.raise c) fun _ t => Took b (s.raise c) t) :
    After (within c body) s fun _ t => Took b s t :=
  within_after (h.mono fun _ _ ht => Took.lower hc ht)

/-- One level down a step that takes a token may spend the level as well. -/
theorem Took.lower_nesting (hdepth : s.count .nesting < nestingLimit)
    (h : Took b (s.raise .nesting) t) : Took (b - unwinding) s (t.lower .nesting) := by
  refine (h.goes (a := 0) |>.lower_nesting hdepth).took_of_lt ?_
  rw [input_lower, ← State.input_setCount .nesting (s.count .nesting + 1) s]
  exact h.length

/-- Open parentheses have no part in what is spent. -/
theorem withoutParens_goes
    (h : After body (s.setCount .parens 0) fun _ t => Goes a b (s.setCount .parens 0) t) :
    After (withoutParens body) s fun _ t => Goes a b s t := by
  unfold After at h ⊢
  rw [run_withoutParens]
  exact h.putBack (Nat.le_of_eq (by rw [unwound_setCount (by decide)]))

/-- Open parentheses have no part in what is taken. -/
theorem withoutParens_took
    (h : After body (s.setCount .parens 0) fun _ t => Took b (s.setCount .parens 0) t) :
    After (withoutParens body) s fun _ t => Took b s t := by
  have hgoes := withoutParens_goes (h.mono fun _ _ h => h.goes (a := 0))
  unfold After at h hgoes ⊢
  rw [run_withoutParens] at hgoes ⊢
  refine hgoes.took_of_lt ?_
  rw [State.input_setCount, ← State.input_setCount .parens 0 s]
  exact h.length

end Counters

/-! ## Loops -/

/-- What holds behind a turn of a loop that answered something, and behind one that
did not. -/
def Turned {σ : Type} (done : State → Prop) (again : σ → State → Prop) : Option σ → State → Prop
  | none, u => done u
  | some y, u => again y u

/-- **A loop has turns enough** if each turn but the last consumes a token. -/
theorem After.iterate {σ : Type} {f : σ → Step (Option σ)} (inv : σ → State → Prop)
    {q : State → Prop}
    (hturn : ∀ x t, inv x t →
      After (f x) t (Turned q fun y u => u.input.length < t.input.length ∧ inv y u))
    (n : Nat) {x : σ} {t : State} (ht : inv x t) (hn : t.input.length < n) :
    After (Grammar.iterate f n x) t fun _ u => q u := by
  induction n generalizing x t with
  -- Without fuel there would be fewer than no tokens ahead.
  | zero => omega
  | succ n ih =>
    have hstep := hturn x t ht
    unfold After at hstep ⊢
    rw [run_iterate_succ]
    cases hanswer : (f x t).1 with
    | none =>
      rw [hanswer] at hstep
      exact hstep
    | some y =>
      rw [hanswer] at hstep
      obtain ⟨hless, hinv⟩ := hstep
      exact ih hinv (by omega)

/-- A loop whose turns each take a token ends with what its last turn leaves. -/
theorem After.loop {R : Rules} {step : Step Bool} (inv : State → Prop) {q : State → Prop}
    (hturn : ∀ t, inv t → After step t fun again u =>
      if again then u.input.length < t.input.length ∧ inv u else q u)
    {t : State} (ht : inv t) (hn : t.input.length < R.turns) :
    After (R.loop step) t fun _ u => q u := by
  refine After.iterate (fun _ => inv) (fun _ t ht => ?_) _ ht hn
  refine .bind (hturn t ht) fun again u hu => ?_
  cases again with
  | false => exact .pure hu
  | true => exact .pure hu

/-! ## Climbs -/

/-- With less nesting in front of it and behind it, a step may spend the same. -/
theorem Goes.shallower {a b k : Nat} {t u : State} (h : Goes a b t u) (hk : k ≤ t.count .nesting) :
    Goes a b (t.setCount .nesting k) (u.setCount .nesting k) := by
  have hunwound : unwound t ≤ unwound (t.setCount .nesting k) := by
    unfold unwound unwinding
    rw [State.count_setCount]
    omega
  obtain ⟨hfault, hcount, hspent⟩ := h
  refine ⟨(State.fault_setCount ..).trans hfault, fun c => ?_, ?_⟩
  · by_cases hc : c = .nesting
    · rw [hc, State.count_setCount, State.count_setCount]
    · rw [State.count_setCount_of_ne hc, hcount, State.count_setCount_of_ne hc]
  · rw [State.input_setCount, State.looks_setCount, State.input_setCount, State.looks_setCount]
    rcases hspent with hspent | ⟨hless, hle⟩
    · exact .inl hspent
    · exact .inr ⟨hless, by omega⟩

/-- One level deeper, a step spends `unwinding` looks less. -/
theorem Goes.deeper {a b k : Nat} {t u : State} (h : Goes a b (t.raise .nesting) u)
    (hk : k ≤ t.count .nesting) (hlimit : k < nestingLimit) :
    Goes a (b - unwinding) (t.setCount .nesting k) (u.setCount .nesting k) := by
  have hshallow := h.shallower (k := k + 1) (by rw [State.count_raise]; omega)
  rw [State.raise, State.setCount_setCount] at hshallow
  have hback : Goes a (b - unwinding) (t.setCount .nesting k)
      ((u.setCount .nesting (k + 1)).setCount .nesting ((t.setCount .nesting k).count .nesting)) := by
    refine Goes.putBack (k := k + 1) (by rwa [State.setCount_setCount]) (unwound_deeper ?_ ?_ b)
    · rwa [State.count_setCount]
    · rw [State.count_setCount]
      exact Nat.lt_succ_self k
  rwa [State.count_setCount, State.setCount_setCount] at hback

/-- Where a climb that began in the first state stands in front of a turn. -/
structure Climbing (s : State) (spent : Nat) (t : State) : Prop where
  goes : Goes 0 spent s (t.setCount .nesting (s.count .nesting))
  le : s.count .nesting ≤ t.count .nesting
  node : t.EndsInNode

section Climb

variable {R : Rules} {check : Step (Option β)} {act : β → Step Bool} {b : Nat} {s : State}

/-- In the middle of a climb the parser is as ready as it was before, for some more looks. -/
theorem Climbing.ready {n l l' : Nat} {t : State} (ht : Climbing s b t) (hs : Ready R n l s)
    (hl : l ≤ l') (hb : 2048 + b ≤ l') : Ready R n l' t := by
  have h : Ready R n l' (t.setCount .nesting (s.count .nesting)) :=
    hs.goes ht.goes (Nat.le_refl _) hl hb
  have hback := h.setCount .nesting (t.count .nesting)
  rwa [State.setCount_setCount, State.setCount_count] at hback

/-- A climb looks, acts one level deeper, and looks again. In front of every turn a
node was built last, and the turn builds around it. -/
theorem climb_goes (side : β → State → Prop) (hs : Ready R 1 2900 s) (hout : s.EndsInNode) (hb : b ≤ 900)
    (hcheck : ∀ t, Ready R 1 3000 t → t.EndsInNode → After check t
      (Turned (fun u => Goes 3 2 t u ∧ u.EndsInNode) fun x u => u = t.looked ∧ side x u))
    (hact : ∀ x t, Ready R 1 3001 t → t.EndsInNode → side x t →
      After (act x) (t.raise .nesting) fun again u => u.EndsInNode
        ∧ if again then Took b (t.raise .nesting) u ∧ t.count .nesting < nestingLimit
          else Goes 1 0 (t.raise .nesting) u) :
    After (climb check act R.turns) s fun _ u =>
      Goes 3 (max (b - unwinding + 3) 2) s u ∧ u.EndsInNode := by
  -- The invariant of the loop reads every state with the depth put back.
  have hloop := After.iterate (fun (_ : Unit) t => Climbing s (b - unwinding) t)
    (q := fun u =>
      Goes 3 (max (b - unwinding + 3) 2) s (u.setCount .nesting (s.count .nesting)) ∧ u.EndsInNode)
    (f := fun _ => climbTurn check act) ?_ R.turns (x := ()) (t := s)
    ⟨(Goes.refl hs.fault).weaken (by omega) (by omega), Nat.le_refl _, hout⟩
    (hs.length_lt_turns (Nat.le_refl _))
  · unfold After at hloop ⊢
    unfold climb
    rw [run_restoring]
    exact ⟨hloop.1, hloop.2⟩
  · rintro ⟨⟩ t ht
    have hready : Ready R 1 3000 t := ht.ready hs (by decide) (by omega)
    refine .bind (hcheck t hready ht.node) fun r u hu => ?_
    cases r with
    | none =>
      exact .pure ⟨(ht.goes.trans (hu.1.shallower ht.le)).weaken (by decide) (Nat.le_refl _), hu.2⟩
    | some x =>
      obtain ⟨rfl, hx⟩ := hu
      -- The look of this turn is paid for here, the act below.
      have hlook : Goes 1 0 t t.looked := .look hready.fault
      have hready' : Ready R 1 3001 t.looked :=
        hready.goes hlook (Nat.le_refl _) (by decide) (by decide)
      have hlooked := ht.goes.trans (hlook.shallower ht.le)
      refine .bind (.modified (q := fun _ u => u = t.looked.raise .nesting) rfl) ?_
      rintro - _ rfl
      refine .bind (hact x t.looked hready' ht.node hx) ?_
      have hle : s.count .nesting ≤ t.looked.count .nesting := ht.le
      have hraised : (t.looked.raise .nesting).input = t.input := State.input_setCount ..
      rintro (_ | _) u ⟨hnode, hu⟩
      · have hacted := Goes.shallower (k := s.count .nesting) hu
          (by rw [State.count_raise]; omega)
        rw [State.raise, State.setCount_setCount] at hacted
        exact .pure ⟨(hlooked.trans hacted).weaken (by decide) (by omega), hnode⟩
      -- A turn that goes on has taken a token, so the loop comes to an end.
      · obtain ⟨htook, hdepth⟩ := hu
        have hless : u.input.length < t.input.length := by
          rw [← hraised]
          exact htook.length
        have hacted : Took (b - unwinding) (t.looked.setCount .nesting (s.count .nesting))
            (u.setCount .nesting (s.count .nesting)) := by
          refine ((htook.goes (a := 0)).deeper hle (by omega)).took_of_lt ?_
          rw [State.input_setCount, State.input_setCount]
          exact hless
        refine .pure ⟨hless, ⟨(hlooked.took hacted).goes, ?_, hnode⟩⟩
        rw [htook.count, State.count_raise]
        omega

end Climb

end ScriptSense.Grammar
