/-
Steps that write down what other steps build.

A step records another one if from states that belong together it runs without a breach,
gives the answer that the other gives and leads to states that belong together again,
provided that the other step does not give up (`Tracks`); and if it leaves as it was what
it has not written itself (`Records`).

There is one lemma for each way in which steps are put together. Those for nodes
(`Records.node`, `Records.around`) find the body of a node between its mark and the
completion of the mark (`Closes`).
-/
import ScriptSense.Proofs.Record.Following

set_option autoImplicit false

namespace ScriptSense.Record

open Grammar (Counter kindAhead)

variable {α β γ δ σ τ : Type} {f : String → Bool}

/-! ## Steps beside each other -/

/-- The answer of a turn of a loop, on the side of the tree. -/
def turnOf (as : σ → τ) : ForInStep σ → Option τ
  | .done _ => none
  | .yield x => some (as x)

/-- **Where the reading of the tree goes on, the other one does the same**, provided that
something is known in front; behind, something is known again. -/
structure Tracks (f : String → Bool) (known : Known) (m : Step α) (m' : Grammar.Step β)
    (g : α → β) (o : α → Known) : Prop where
  /-- All answers on the side of the tree are answers on the other. -/
  onto (b : β) : ∃ a, g a = b
  /-- What was given up stays given up. -/
  lost {s : Grammar.State} : s.fault.isSome → (m' s).2.fault.isSome
  run {c : Setting} {r : State} {s : Grammar.State} : Follows f c known r s →
    (m' s).2.fault = none →
      ∃ a r', m r = .ok (a, r') ∧ (m' s).1 = g a ∧ Follows f c (o a) r' (m' s).2

/-- **The step records the other one**, and it leaves as it was what it has not written. -/
structure Records (f : String → Bool) (known : Known) (m : Step α) (m' : Grammar.Step β)
    (g : α → β) (o : α → Known) : Prop extends Tracks f known m m' g o where
  keeps : Keeps m

section Steps

variable {known known' : Known} {m : Step α} {m' : Grammar.Step β} {g : α → β} {o o' : α → Known}
  {k : α → Step γ} {k' : β → Grammar.Step δ} {g' : γ → δ} {p : γ → Known}

namespace Tracks

/-- A step whose reading ends without a fault was begun without one. -/
theorem fault_eq_none (h : Tracks f known m m' g o) {s : Grammar.State}
    (hs : (m' s).2.fault = none) : s.fault = none := by
  cases hfault : s.fault with
  | none => rfl
  | some fault =>
    have hlost := h.lost (s := s) (by rw [hfault]; rfl)
    rw [hs] at hlost
    cases hlost

/-- An answer is tracked by its reading, as long as every answer of the one side is an answer of
the other. -/
theorem pure (a : α) (b : β) (honto : ∀ b, ∃ a, g a = b) (hb : b = g a)
    (hknown : ∀ {c es s}, known.Holds c es s → (o a).Holds c es s) :
    Tracks f known (Pure.pure a) (Pure.pure b) g o where
  onto := honto
  lost h := h
  run h _ := ⟨a, _, rfl, hb, h.weaken (hknown h.known)⟩

/-- Two tracked steps after each other. What is known behind the first is what the second begins
with. -/
theorem bind (hm : Tracks f known m m' g o) (hk : ∀ a, Tracks f (o a) (k a) (k' (g a)) g' p) :
    Tracks f known (m >>= k) (m' >>= k') g' p where
  onto := by
    -- Some answer of the first step is enough to know the answers of the second.
    obtain ⟨a, -⟩ := hm.onto (m' { rest := [] }).1
    exact (hk a).onto
  lost {s} hs := by
    -- The fault of the whole is the one of the second step, so the first ended without any.
    obtain ⟨a, ha⟩ := hm.onto (m' s).1
    have hlost := (hk a).lost (hm.lost hs)
    rw [ha] at hlost
    exact hlost
  run {c r s} h hfault := by
    obtain ⟨a, ha⟩ := hm.onto (m' s).1
    have hmiddle : (m' s).2.fault = none := by
      refine (hk a).fault_eq_none ?_
      rw [ha]
      exact hfault
    obtain ⟨a, r', hrun, hanswer, hfollows⟩ := hm.run h hmiddle
    change (k' (m' s).1 (m' s).2).2.fault = none at hfault
    rw [hanswer] at hfault
    obtain ⟨b, r'', hrun', hanswer', hfollows'⟩ := (hk a).run hfollows hfault
    refine ⟨b, r'', (run_bind_ok hrun).trans hrun', ?_, ?_⟩
    · change (k' (m' s).1 (m' s).2).1 = g' b
      rw [hanswer]
      exact hanswer'
    · change Follows f c (p b) r'' (k' (m' s).1 (m' s).2).2
      rw [hanswer]
      exact hfollows'

/-- More may be known in front of a step than it asks for, and less behind it than it leaves. -/
theorem mono (h : Tracks f known m m' g o)
    (hin : ∀ {c es s}, known'.Holds c es s → known.Holds c es s)
    (hout : ∀ {a c es s}, (o a).Holds c es s → (o' a).Holds c es s) :
    Tracks f known' m m' g o' where
  onto := h.onto
  lost := h.lost
  run hf hfault := by
    obtain ⟨a, r', hrun, hanswer, hfollows⟩ := h.run (hf.weaken (hin hf.known)) hfault
    exact ⟨a, r', hrun, hanswer, hfollows.weaken (hout hfollows.known)⟩

/-- A change of both states that keeps them in step and loses no fault. -/
theorem update {t : State → State} {t' : Grammar.State → Grammar.State} {q : Known}
    (hlost : ∀ s : Grammar.State, s.fault.isSome → (t' s).fault.isSome)
    (hrun : ∀ {c r s}, Follows f c known r s → Follows f c q (t r) (t' s)) :
    Tracks f known (modify t) (modify t') (fun _ => ()) fun _ => q where
  onto _ := ⟨(), rfl⟩
  lost {s} hs := hlost s hs
  run h _ := ⟨(), _, rfl, rfl, hrun h⟩

/-- Steps that are repeated, on what the one before has answered. -/
theorem iterate {step : σ → Step (ForInStep σ)} {step' : τ → Grammar.Step (Option τ)}
    {inv fin : σ → Known} (as : σ → τ)
    (h : ∀ x, Tracks f (inv x) (step x) (step' (as x)) (turnOf as) (Known.ofTurn inv fin))
    (n : Nat) (x : σ) :
    Tracks f (inv x) (iterate step n x) (Grammar.iterate step' n (as x)) (fun _ => ()) fin := by
  induction n generalizing x with
  | zero =>
    refine ⟨fun _ => ⟨x, rfl⟩, fun {s} _ => Grammar.State.isSome_fault_giveUp .stuck s,
      fun {c r s} _ hfault => ?_⟩
    -- Fuel that runs out is a fault, and a run with a fault is not asked about.
    exact absurd hfault (Grammar.State.fault_giveUp_ne_none .stuck s)
  | succ n ih =>
    refine (h x).bind fun turn => ?_
    cases turn with
    | done y => exact .pure y () (fun _ => ⟨y, rfl⟩) rfl id
    | yield y => exact ih y

/-! ### Looks and tokens -/

/-- A look ahead at a lost reading leaves it lost. -/
theorem lost_look {n : Nat} {s : Grammar.State} (hs : s.fault.isSome) :
    (Grammar.look n s).2.fault.isSome := by
  rcases Grammar.run_look_cases n s with ⟨hnone, -⟩ | hlost
  · rw [hnone] at hs
    cases hs
  · rw [hlost]
    exact Grammar.State.isSome_fault_giveUp _ s

/-- The kind of the token read next, and that it has been seen. -/
theorem current : Tracks f known current Grammar.current (fun kind => kind) known.seen where
  onto kind := ⟨kind, rfl⟩
  lost := lost_look
  run h hfault := by
    obtain ⟨hrun, hrun'⟩ := h.look hfault
    rw [Grammar.current, hrun']
    exact ⟨_, _, hrun, rfl, h.looked⟩

/-- A look ahead counts on both sides and moves neither of them. -/
theorem look (n : Nat) :
    Tracks f known (look n) (Grammar.look n) (fun kind => kind) fun _ => .nothing where
  onto kind := ⟨kind, rfl⟩
  lost := lost_look
  run h hfault := by
    obtain ⟨hrun, hrun'⟩ := h.look hfault
    rw [hrun']
    exact ⟨_, _, hrun, rfl, h.looked.weaken h.looked.known.written⟩

/-- Where the answer is yes, the kind of the token read next is known from here on. -/
theorem isAt (kind : TokenKind) : Tracks f .nothing (isAt kind) (Grammar.isAt kind)
    (fun there => there) fun there => if there then .next kind else .nothing := by
  refine current.bind fun found => .pure _ _ (fun there => ⟨there, rfl⟩) rfl fun h => ?_
  by_cases hfound : found = kind
  · rw [if_pos (beq_iff_eq.2 hfound), ← hfound]
    exact h
  · rw [if_neg (by simpa using hfound)]
    exact h.1

/-- Taking a token that is known to be there puts a token event behind the record and a token
into the tree. -/
theorem consume {kind : TokenKind} (hkind : kind ≠ .eof) :
    Tracks f (.next kind) (modify (State.consume kind)) (modify Grammar.State.consume)
      (fun _ => ()) fun _ => .nothing := by
  refine .update (fun s hs => ?_) fun {c r s} h => ?_
  · rwa [Grammar.State.fault_consume]
  · obtain rfl := h.known.2
    exact h.consume hkind

/-- The same word is looked up on both sides, under the same hints. -/
theorem atFunction {R : Grammar.Rules} (hR : R.isFunction = f) :
    Tracks f known atFunction (Grammar.atFunction R) (fun there => there) fun _ => .nothing where
  onto there := ⟨there, rfl⟩
  lost {s} hs := by
    have hlost := lost_look (n := 0) hs
    rw [Grammar.run_atFunction]
    split <;> exact hlost
  run {c r s} h hfault := by
    have hlook : (Grammar.look 0 s).2.fault = none := by
      rw [Grammar.run_atFunction] at hfault
      split at hfault <;> exact hfault
    obtain ⟨hrun, hrun'⟩ := h.look hlook
    -- Both sides spend one look here, whatever it finds.
    have hnothing : Follows f c .nothing { r with looks := r.looks + 1 } s.looked :=
      h.looked.weaken h.looked.known.written
    have hthere : Record.isAt .ident r
        = .ok (kindAhead 0 s.rest == .ident, { r with looks := r.looks + 1 }) := run_bind_ok hrun
    rw [Grammar.run_atFunction, Grammar.current, hrun', Record.atFunction, run_bind_ok hthere]
    by_cases hident : kindAhead 0 s.rest = .ident
    · rw [if_pos hident, if_pos (beq_iff_eq.2 hident)]
      refine ⟨_, _, rfl, ?_, hnothing⟩
      rw [hR]
      exact (hnothing.sees.isFunction hident).symm
    · rw [if_neg hident, if_neg (by simpa using hident)]
      exact ⟨_, _, rfl, rfl, hnothing⟩

/-! ### Counters -/

/-- Both sides are as deep as each other. -/
theorem isTooDeep : Tracks f known isTooDeep Grammar.isTooDeep (fun deep => deep)
    fun _ => known where
  onto deep := ⟨deep, rfl⟩
  lost hs := hs
  run {c r s} h _ := by
    refine ⟨_, r, rfl, ?_, h⟩
    have hcount : r.nesting = s.nesting := h.count .nesting
    change decide (Grammar.nestingLimit ≤ s.nesting) = decide (Grammar.nestingLimit ≤ r.nesting)
    rw [hcount]

/-- Both sides agree on whether a parenthesis is open. -/
theorem isOutside : Tracks f known isOutside Grammar.isOutside (fun outside => outside)
    fun _ => .nothing where
  onto outside := ⟨outside, rfl⟩
  lost hs := hs
  run {c r s} h _ := by
    refine ⟨_, r, rfl, ?_, h.weaken h.known.written⟩
    have hcount : r.begins = s.begins := h.count .begins
    change (s.begins == 0) = (r.begins == 0)
    rw [hcount]

/-- A counter that is raised around a step on both sides. -/
theorem within (n : Counter) (h : Tracks f known m m' g o) :
    Tracks f known (within n m) (Grammar.within n m') g o where
  onto := h.onto
  lost {s} hs := by
    rw [Grammar.run_within]
    exact Grammar.lost_frame.within n h.lost hs
  run {c r s} hr hfault := by
    rw [Grammar.run_within] at hfault ⊢
    obtain ⟨a, r', hrun, hanswer, hinside⟩ :=
      h.run (hr.raise n) (Grammar.State.fault_lower hfault)
    -- The counter stands where the step began, so it can be lowered without a breach.
    obtain ⟨r'', hlower, hbehind⟩ := hinside.lower hfault
    refine ⟨a, r'', ?_, hanswer, hbehind⟩
    have hraise : (modify (State.raise n) : Step Unit) r = .ok ((), r.raise n) := rfl
    rw [Record.within, run_bind_ok hraise, run_bind_ok hrun, run_bind_ok hlower]
    rfl

/-- A step outside of all parentheses, with their number put back behind it. -/
theorem withoutParens (h : Tracks f known m m' g o) :
    Tracks f known (withoutParens m) (Grammar.withoutParens m') g o where
  onto := h.onto
  lost {s} hs := by
    rw [Grammar.run_withoutParens, Grammar.State.fault_setCount]
    exact h.lost (by rwa [Grammar.State.fault_setCount])
  run {c r s} hr hfault := by
    rw [Grammar.run_withoutParens] at hfault ⊢
    rw [Grammar.State.fault_setCount] at hfault
    obtain ⟨a, r', hrun, hanswer, hinside⟩ := h.run (hr.setCount .parens 0) hfault
    have hparens : r.parens = s.parens := hr.count .parens
    refine ⟨a, r'.setCount .parens r.parens, ?_, hanswer, ?_⟩
    · have hset : (modify (State.setCount .parens 0) : Step Unit) r
          = .ok ((), r.setCount .parens 0) := rfl
      rw [Record.withoutParens, run_bind_ok (run_get r), run_bind_ok hset, run_bind_ok hrun]
      rfl
    -- The number put back is the same on both sides, since both began with it.
    · rw [hparens]
      exact hinside.setCount .parens s.parens

/-- A turn of a climb: a check and, one level deeper, an act on what it has answered. -/
theorem climbTurn {check : Step (Option β)} {act : β → Built → Step (Option Built)}
    {check' : Grammar.Step (Option β)} {act' : β → Grammar.Step Bool}
    {inv mid fin : Built → Known} {built : Built}
    (hcheck : Tracks f (inv built) check check' (fun found => found)
      fun found => if found.isSome then mid built else fin built)
    (hact : ∀ x, Tracks f (mid built) (act x built) (act' x) Option.isSome
      fun around => around.elim (fin built) inv) :
    Tracks f (inv built) (climbTurn check act built) (Grammar.climbTurn check' act')
      (turnOf fun _ => ()) (Known.ofTurn inv fin) := by
  -- Whether the chain goes on can be either, so the answers of both sides have the same range.
  have honto (b : Option Unit) :
      ∃ turn : ForInStep Built, turnOf (fun _ => ()) turn = b := by
    cases b with
    | none => exact ⟨.done built, rfl⟩
    | some => exact ⟨.yield built, rfl⟩
  refine hcheck.bind fun found => ?_
  cases found with
  | none => exact .pure _ _ honto rfl id
  | some x =>
    refine (Tracks.update (q := mid built) (fun s hs => ?_) fun h => h.raise .nesting).bind
      fun _ => (hact x).bind fun around => ?_
    · rwa [Grammar.State.raise, Grammar.State.fault_setCount]
    · cases around with
      | none => exact .pure _ _ honto rfl id
      | some around => exact .pure _ _ honto rfl id

/-- A chain of operators around a node that is built already. Each turn checks for an operator
and reads it, and the node that is built is handed on to the next turn. -/
theorem climb {check : Step (Option β)} {act : β → Built → Step (Option Built)}
    {check' : Grammar.Step (Option β)} {act' : β → Grammar.Step Bool}
    {inv mid fin : Built → Known}
    (hcheck : ∀ built, Tracks f (inv built) check check' (fun found => found)
      fun found => if found.isSome then mid built else fin built)
    (hact : ∀ x built, Tracks f (mid built) (act x built) (act' x) Option.isSome
      fun around => around.elim (fin built) inv) (n : Nat) (built : Built) :
    Tracks f (inv built) (climb check act n built) (Grammar.climb check' act' n)
      (fun _ => ()) fin := by
  have hturn (built : Built) := climbTurn (hcheck built) fun x => hact x built
  have hturns : Tracks f (inv built) (Record.iterate (Record.climbTurn check act) n built)
      (Grammar.iterate (fun _ => Grammar.climbTurn check' act') n ()) (fun _ => ()) fin :=
    iterate (fun _ => ()) hturn n built
  refine ⟨fun _ => ⟨built, rfl⟩, fun {s} hs => ?_, fun {c r s} hr hfault => ?_⟩
  · rw [Grammar.climb, Grammar.run_restoring, Grammar.State.fault_setCount]
    exact hturns.lost hs
  · rw [Grammar.climb, Grammar.run_restoring] at hfault ⊢
    rw [Grammar.State.fault_setCount] at hfault
    obtain ⟨last, r', hrun, -, hbehind⟩ := hturns.run hr hfault
    -- Each turn goes one level deeper, and all of them are taken back at once.
    have hnesting : r.nesting = s.count .nesting := hr.count .nesting
    refine ⟨last, r'.setCount .nesting r.nesting, ?_, rfl, ?_⟩
    · rw [Record.climb, run_bind_ok (run_get r), run_bind_ok hrun]
      rfl
    · rw [hnesting]
      exact hbehind.setCount .nesting _

end Tracks

end Steps

/-! ## Nodes -/

/-- A node is completed where its mark stands. -/
theorem run_complete_behind {pre body : List Event} (mark : Mark) {r : State}
    (hplace : mark.place = pre.length) (hevents : r.events.toList = pre ++ .tombstone :: body)
    (kind : NodeKind) :
    complete mark kind r = .ok (⟨mark.place⟩, r.completed mark (.start kind none))
      ∧ (r.completed mark (.start kind none)).events.toList
        = pre ++ enclosed (.start kind none) body := by
  refine ⟨run_complete ?_ kind, ?_⟩
  · rw [← Array.getElem?_toList, hevents, hplace]
    simp
  · simp [State.completed, hevents, hplace, enclosed]

/-- Behind a node both readings go on outside of it. -/
theorem Follows.closed {c inside : Setting} {known : Known} {r : State} {s : Grammar.State}
    (h : Follows f inside .nothing r s) {mark : Mark} {first : Event} {kind : NodeKind}
    {start : Nat} {outer : Array Tree}
    (hknown : known.Holds c (r.completed mark first).events.toList (s.close kind start outer)) :
    Follows f c known (r.completed mark first) (s.close kind start outer) where
  fault := h.fault
  looks := h.looks
  count n := by
    have hcount := h.count n
    cases n <;> exact hcount
  noEnd := h.noEnd
  sees := h.sees.congr rfl rfl rfl
  known := hknown

section Nodes

variable {inner : Step Unit} {body : Grammar.Step Unit}

/-- In front of a node both readings go on inside of it. -/
theorem Follows.opened {c : Setting} {known : Known} {r : State} {s : Grammar.State}
    {es : List Event} (h : Follows f c known r s) (hes : r.events.toList = c.front ++ es)
    (kind : NodeKind) :
    Follows f ⟨c.eof, c.kind_eof, c.front ++ es ++ [.tombstone], (s.opened kind).inside #[]⟩
      known.inside r.begun ((s.opened kind).inside #[]) where
  fault := (Grammar.State.opened_eq Grammar.State.fault_shift kind s).trans h.fault
  looks := h.looks.trans (Grammar.State.opened_eq Grammar.State.looks_shift kind s).symm
  count n := by
    have hcount := (h.count n).trans (Grammar.State.count_opened n kind s).symm
    cases n <;> exact hcount
  noEnd t ht := by
    refine h.noEnd t ?_
    change t ∈ (s.opened kind).rest at ht
    -- The tokens ahead of the node are among those ahead before its trivia was moved out.
    unfold Grammar.State.opened at ht
    split at ht
    · exact ht
    · rw [Grammar.State.rest_shiftTrivia] at ht
      exact (List.dropWhile_suffix _).subset ht
  sees := by
    refine h.sees.congr rfl rfl ?_
    change seen (s.opened kind).rest = seen s.rest
    unfold Grammar.State.opened
    split
    · rfl
    · rw [Grammar.State.rest_shiftTrivia, seen_dropWhile]
  known := by
    have hhead : ((s.opened kind).inside #[]).head = s.head := Grammar.State.kindAhead_opened kind s
    have hwritten : Setting.Written ⟨c.eof, c.kind_eof, c.front ++ es ++ [.tombstone],
        (s.opened kind).inside #[]⟩ r.begun.events.toList
        ((s.opened kind).inside #[]) := ⟨[], by simp [State.begun, State.write, hes], .nil _⟩
    cases known with
    | next => exact ⟨hwritten, hhead.trans h.known.2⟩
    | nothing | built | operand => exact hwritten

/-- **A node is written down between its mark and the completion of the mark.** -/
theorem Tracks.node (kind : NodeKind) {known : Known}
    (h : Tracks f known.inside inner body (fun _ => ()) fun _ => .nothing) :
    Tracks f known (marked start kind inner) (Grammar.node kind body) (fun _ => ()) .built where
  onto _ := ⟨⟨0⟩, rfl⟩
  lost {s} hs := by
    rw [Grammar.run_node]
    refine h.lost (s := (s.opened kind).inside #[]) ?_
    change (s.opened kind).fault.isSome = true
    rwa [Grammar.State.opened_eq Grammar.State.fault_shift]
  run {c r s} hr hfault := by
    rw [Grammar.run_node] at hfault ⊢
    obtain ⟨es, hes, hplays⟩ := hr.known.written
    obtain ⟨_, r', hinner, -, hinside⟩ := h.run (hr.opened hes kind) hfault
    obtain ⟨events, hbody, hplays'⟩ := hinside.known.written
    -- The mark is the place behind all events so far, which is where the node begins.
    have hplace : r.events.size = (c.front ++ es).length := by
      rw [← hes, Array.length_toList]
    rw [List.append_assoc, List.singleton_append] at hbody
    obtain ⟨hcomplete, hevents⟩ := run_complete_behind ⟨r.events.size⟩ hplace hbody kind
    refine ⟨⟨r.events.size⟩, r'.completed ⟨r.events.size⟩ (.start kind none), ?_, rfl,
      hinside.closed ?_⟩
    · rw [marked, run_bind_ok (run_start r), run_bind_ok hinner, hcomplete]
    -- The placeholder has become the start of the node, and its finish is the last event.
    · refine ⟨es ++ enclosed (.start kind none) events, es.length, ?_, ?_,
        .node c.kind_eof kind hplays hplays'⟩
      · rw [hevents, List.append_assoc]
      · rw [hplace, List.length_append]

/-- Where the events end on a node, a mark is set around it. -/
theorem Follows.preceded {c : Setting} {built : Built} {r : State} {s : Grammar.State}
    {es : List Event} {place : Nat} {inner : NodeKind} (h : Follows f c (.built built) r s)
    (children : Array Tree) (hes : r.events.toList = c.front ++ es)
    (hplace : built.place = c.front.length + place)
    (hstart : es[place]? = some (.start inner none)) :
    ∃ r', precede built r = .ok (⟨r.events.size⟩, r')
      ∧ Follows f ⟨c.eof, c.kind_eof, c.front
          ++ es.set place (.start inner (some (es.length - place))) ++ [.tombstone],
          s.inside children⟩ .nothing r' (s.inside children) := by
  have hlt : place < es.length := (List.getElem?_eq_some_iff.1 hstart).1
  have hsize : r.events.size = c.front.length + es.length := by
    rw [← Array.length_toList, hes, List.length_append]
  have hthere : (r.events.push .tombstone)[built.place]? = some (.start inner none) := by
    rw [Array.getElem?_push, if_neg (by omega), ← Array.getElem?_toList, hes, hplace,
      List.getElem?_append_right (Nat.le_add_right _ _), Nat.add_sub_cancel_left, hstart]
  -- The distance between the two starts is counted in events, not in tokens.
  have hdistance : r.events.size - built.place = es.length - place := by omega
  have hlink := link_of_start hthere (show built.place ≤ r.events.size by omega)
  refine ⟨_, run_precede hlink, h.fault, h.looks, fun n => ?_, h.noEnd, h.sees.congr rfl rfl rfl,
    [], ?_, .nil _⟩
  · have hcount := h.count n
    cases n <;> exact hcount
  · rw [hdistance]
    simp [hes, hplace, List.set_append_right, List.set_append_left, hlt]

/-- **A node around the one written down last.** -/
theorem Tracks.around {kind : NodeKind} (hkind : kind ≠ .stmtList) (built : Built)
    (h : Tracks f .nothing inner body (fun _ => ()) fun _ => .nothing) :
    Tracks f (.built built) (marked (precede built) kind inner) (Grammar.nodeAround kind body)
      (fun _ => ()) .built where
  onto _ := ⟨⟨0⟩, rfl⟩
  lost {s} hs := by
    -- Without a node to go around the reading is lost, and then nothing has to be tracked.
    by_cases hlast : ∃ first span children, s.out.back? = some (.node first span children)
    · obtain ⟨first, span, children, hlast⟩ := hlast
      rw [Grammar.run_nodeAround hlast]
      exact h.lost (s := s.inside #[.node first span children]) hs
    · rw [Grammar.run_nodeAround_none fun first span children hback => hlast ⟨_, _, _, hback⟩]
      have hnode : Tracks f .nothing (marked start kind inner) _ _ _ := .node kind h
      exact hnode.lost (Grammar.State.isSome_fault_giveUp _ s)
  run {c r s} hr hfault := by
    obtain ⟨es, place, hes, hplace, hbuilds⟩ := hr.known
    obtain ⟨innermost, first, span, children, hstart, hback, hbuilds'⟩ := hbuilds.around hkind
    rw [Grammar.run_nodeAround hback] at hfault ⊢
    obtain ⟨r', hmark, hinside⟩ :=
      hr.preceded #[.node first span children] hes hplace hstart
    obtain ⟨_, r'', hinner, -, hbehind⟩ := h.run hinside hfault
    obtain ⟨events, hbody, hplays⟩ := hbehind.known.written
    have hsize : r.events.size
        = (c.front ++ es.set place (.start innermost (some (es.length - place)))).length := by
      rw [List.length_append, List.length_set, ← List.length_append, ← hes, Array.length_toList]
    rw [List.append_assoc, List.singleton_append] at hbody
    obtain ⟨hcomplete, hevents⟩ := run_complete_behind ⟨r.events.size⟩ hsize hbody kind
    refine ⟨⟨r.events.size⟩, r''.completed ⟨r.events.size⟩ (.start kind none), ?_, rfl,
      hbehind.closed ?_⟩
    · rw [marked, run_bind_ok hmark, run_bind_ok hinner, hcomplete]
    -- The outer start is the new innermost one, for a node that may go around this one in turn.
    · refine ⟨_, es.length, ?_, ?_, hbuilds' hplays⟩
      · rw [hevents, List.append_assoc]
      · rw [hsize, List.length_append, List.length_set]

end Nodes

/-! ## Steps that record others -/

namespace Records

variable {known known' : Known} {m : Step α} {m' : Grammar.Step β} {g : α → β} {o o' : α → Known}
  {k : α → Step γ} {k' : β → Grammar.Step δ} {g' : γ → δ} {p : γ → Known}

/-! ### What is put together -/

/-- Two steps that record what they read, after each other. -/
theorem bind (hm : Records f known m m' g o) (hk : ∀ a, Records f (o a) (k a) (k' (g a)) g' p) :
    Records f known (m >>= k) (m' >>= k') g' p :=
  ⟨hm.toTracks.bind fun a => (hk a).toTracks, hm.keeps.bind fun a => (hk a).keeps⟩

/-- An answer records nothing and reads nothing. -/
theorem pure (a : α) (b : β) (honto : ∀ b, ∃ a, g a = b) (hb : b = g a)
    (hknown : ∀ {c es s}, known.Holds c es s → (o a).Holds c es s) :
    Records f known (Pure.pure a) (Pure.pure b) g o :=
  ⟨.pure a b honto hb hknown, .pure a⟩

/-- The same answer on both sides. -/
theorem answer (a : α) : Records f known (Pure.pure a) (Pure.pure a) (fun a => a)
    fun _ => .nothing :=
  .pure a a (fun a => ⟨a, rfl⟩) rfl Known.Holds.written

/-- The end of a step that answers nothing. -/
theorem done : Records f known (Pure.pure ()) (Pure.pure ()) (fun _ => ()) fun _ => .nothing :=
  answer ()

/-- A node is handed on. -/
theorem handOn (built : Built) : Records f (.built built) (Pure.pure built) (Pure.pure ())
    (fun _ => ()) .built :=
  .pure built () (fun _ => ⟨built, rfl⟩) rfl id

/-- Whether a node was built can be either of the two. -/
theorem onto_isSome (there : Bool) : ∃ built : Option Built, built.isSome = there := by
  cases there with
  | true => exact ⟨some ⟨0⟩, rfl⟩
  | false => exact ⟨none, rfl⟩

/-- There is a node. -/
theorem found (built : Built) {q : Known} : Records f (.built built) (Pure.pure (some built))
    (Pure.pure true) Option.isSome fun found => found.elim q .built :=
  .pure _ _ onto_isSome rfl id

/-- There is none. -/
theorem missing {q : Known} {p : Built → Known}
    (hknown : ∀ {c es s}, known.Holds c es s → q.Holds c es s) :
    Records f known (Pure.pure none) (Pure.pure false) Option.isSome fun found => found.elim q p :=
  .pure _ _ onto_isSome rfl hknown

/-- More may be known in front and less behind. -/
theorem mono (h : Records f known m m' g o)
    (hin : ∀ {c es s}, known'.Holds c es s → known.Holds c es s)
    (hout : ∀ {a c es s}, (o a).Holds c es s → (o' a).Holds c es s) :
    Records f known' m m' g o' :=
  ⟨h.toTracks.mono hin hout, h.keeps⟩

/-- Where more is known, the step does the same. -/
theorem anywhere (h : Records f .nothing m m' g o) : Records f known m m' g o :=
  h.mono Known.Holds.written id

/-- A node that was built can be an operand. -/
theorem asOperand {m : Step (Option Built)} {g : Option Built → β} {q : Known}
    (h : Records f known m m' g fun found => found.elim q .built) :
    Records f known m m' g fun found => found.elim q .operand :=
  h.mono id fun {found _ _ _} hknown => by
    cases found with
    | none => exact hknown
    | some => exact .inl hknown

/-- Whatever was built last, no operator comes next. -/
theorem ending (h : Records f known m m' g o)
    (hends : ∀ s, (m' s).2.fault = none → (m' s).2.head.binaryPower? = none) (built : Built) :
    Records f known m m' g fun _ => .operand built where
  onto := h.onto
  lost := h.lost
  run hr hfault := by
    obtain ⟨a, r', hrun, hanswer, hbehind⟩ := h.run hr hfault
    exact ⟨a, r', hrun, hanswer, hbehind.weaken (.inr ⟨hbehind.known.written, hends _ hfault⟩)⟩
  keeps := h.keeps

/-- A step that does the same, unless it gives up, is recorded as well. -/
theorem instead {m'' : Grammar.Step β} (h : Records f known m m' g o)
    (hlost : ∀ {s : Grammar.State}, s.fault.isSome → (m'' s).2.fault.isSome)
    (heq : ∀ {c es s}, known.Holds c es s → (m'' s).2.fault = none → m'' s = m' s) :
    Records f known m m'' g o where
  onto := h.onto
  lost := hlost
  run {c r s} hr hfault := by
    have hsame := heq hr.known hfault
    rw [hsame] at hfault ⊢
    exact h.run hr hfault
  keeps := h.keeps

/-- What is known behind the step is not needed. -/
theorem forget (h : Records f known m m' g o) : Records f known m m' g fun _ => .nothing :=
  h.mono id Known.Holds.written

/-- An answer that nobody needs. -/
theorem dropped {m' : Grammar.Step Unit} {g : α → Unit} {q : Known}
    (h : Records f known m m' g fun _ => q) :
    Records f known (Functor.discard m) m' (fun _ => ()) fun _ => q := by
  change Records f known (m >>= fun _ => Pure.pure ()) (m' >>= Pure.pure) _ _
  exact h.bind fun _ => .pure () _ (fun _ => ⟨(), rfl⟩) rfl id

/-- The answer of a step may be dropped on both sides. -/
theorem discard (h : Records f known m m' g o) :
    Records f known (Functor.discard m) (Functor.discard m') (fun _ => ()) fun _ => .nothing := by
  change Records f known (m >>= fun _ => Pure.pure ()) (m' >>= fun _ => Pure.pure ()) _ _
  exact h.bind fun _ => .pure () () (fun _ => ⟨(), rfl⟩) rfl Known.Holds.written

/-- The answers may be changed on both sides, in a way that fits together. -/
theorem map {φ : α → γ} {φ' : β → δ} (h : Records f known m m' g o)
    (honto : ∀ b, ∃ a, g' a = b) (hanswer : ∀ a, φ' (g a) = g' (φ a))
    (hknown : ∀ {a c es s}, (o a).Holds c es s → (p (φ a)).Holds c es s) :
    Records f known (φ <$> m) (φ' <$> m') g' p := by
  change Records f known (m >>= fun a => Pure.pure (φ a)) (m' >>= fun b => Pure.pure (φ' b)) _ _
  exact h.bind fun a => .pure (φ a) (φ' (g a)) honto (hanswer a) hknown

/-- A choice that is made alike on both sides. -/
theorem ite {q : Prop} [Decidable q] {m₁ m₂ : Step α} {m₁' m₂' : Grammar.Step β}
    (h : q → Records f known m₁ m₁' g o) (h' : ¬ q → Records f known m₂ m₂' g o) :
    Records f known (if q then m₁ else m₂) (if q then m₁' else m₂') g o := by
  split
  · next hq => exact h hq
  · next hq => exact h' hq

/-- A step that never ends well records one that always gives up. -/
theorem never {e : Breach} (honto : ∀ b, ∃ a, g a = b)
    (h : ∀ s, (m' s).2.fault.isSome) : Records f known (throw e) m' g o where
  onto := honto
  lost {s} _ := h s
  run {c r s} _ hfault := by
    have hlost := h s
    rw [hfault] at hlost
    cases hlost
  keeps := .breach e

/-! ### Looks and tokens -/

/-- A look at the next token leaves the record as it is. -/
theorem current : Records f known current Grammar.current (fun kind => kind) known.seen :=
  ⟨.current, .look 0⟩

/-- A look ahead leaves the record as it is. -/
theorem look (n : Nat) :
    Records f known (look n) (Grammar.look n) (fun kind => kind) fun _ => .nothing :=
  ⟨.look n, .look n⟩

/-- A test of the next token adds no event. -/
theorem keeps_isAt (kind : TokenKind) : Keeps (isAt kind) :=
  Keeps.bind (.look 0) fun _ => .pure _

/-- A test of the next token leaves the record as it is. -/
theorem isAt (kind : TokenKind) :
    Records f known (isAt kind) (Grammar.isAt kind) (fun there => there) fun _ => .nothing :=
  current.bind fun found => answer (found == kind)

/-- The end of the text is tested for alike. -/
theorem atEnd : Records f known atEnd Grammar.atEnd (fun ends => ends) fun _ => .nothing :=
  isAt .eof

/-- The end of the line is tested for alike. -/
theorem atLineEnd :
    Records f known atLineEnd Grammar.atLineEnd (fun ends => ends) fun _ => .nothing :=
  current.bind fun found => answer (found == .newline || found == .eof)

/-- A function is tested for alike, under the same hints. -/
theorem atFunction {R : Grammar.Rules} (hR : R.isFunction = f) :
    Records f known atFunction (Grammar.atFunction R) (fun there => there) fun _ => .nothing := by
  refine ⟨.atFunction hR, (keeps_isAt .ident).bind fun there => ?_⟩
  cases there with
  | true => exact Keeps.state.bind fun _ => Keeps.state.bind fun _ => .pure _
  | false => exact .pure false

/-- A token whose kind is known is consumed. -/
theorem consume {kind : TokenKind} (hkind : kind ≠ .eof) :
    Records f (.next kind) (modify (State.consume kind)) (modify Grammar.State.consume)
      (fun _ => ()) fun _ => .nothing :=
  ⟨.consume hkind, .update (Undisturbed.consume kind)⟩

/-- Whatever token is next is taken on both sides, and none is taken behind the last. -/
theorem bumpAny :
    Records f known bumpAny Grammar.bumpAny (fun _ => ()) fun _ => .nothing := by
  refine anywhere (current.bind fun kind => ?_)
  by_cases hkind : kind = .eof
  · subst hkind
    exact done
  · have hbeq : ¬ (kind == .eof) = true := by simpa using hkind
    simp only [if_neg hbeq]
    exact consume hkind

/-- A token is taken where it is there, and nothing happens otherwise. -/
theorem eat {kind : TokenKind} (hkind : kind ≠ .eof) :
    Records f known (eat kind) (Grammar.eat kind) (fun there => there) fun _ => .nothing := by
  refine anywhere ((Records.mk (.isAt kind) (keeps_isAt kind)).bind fun there => ?_)
  have hbeq : (kind == .eof) = false := by simpa using hkind
  cases there with
  | true =>
    simp only [hbeq]
    exact (consume hkind).bind fun _ => answer true
  | false => exact (answer false).anywhere

/-- A token that a rule counts on is demanded. -/
theorem bump {kind : TokenKind} (hkind : kind ≠ .eof) :
    Records f known (bump kind) (Grammar.bump kind) (fun _ => ()) fun _ => .nothing := by
  have heat : Records f known (Record.eat kind) (Grammar.eat kind) _ _ := eat hkind
  refine ⟨⟨fun _ => ⟨(), rfl⟩, fun {s} hs => ?_, fun {c r s} h hfault => ?_⟩, ?_⟩
  · have hlost := Tracks.lost_look (n := 0) hs
    rw [Grammar.run_bump]
    split
    · rwa [Grammar.State.fault_consume]
    · exact Grammar.State.isSome_fault_giveUp _ _
  · obtain ⟨hthere, hbump⟩ := Grammar.bump_sound hfault
    rw [hbump] at hfault ⊢
    obtain ⟨there, r', hrun, hanswer, hbehind⟩ := heat.run h hfault
    -- Without a fault the token was there, so the record did not come to the breach.
    obtain rfl : there = true := hanswer.symm.trans hthere
    refine ⟨(), r', ?_, rfl, hbehind⟩
    rw [Record.bump, run_bind_ok hrun]
    rfl
  · refine heat.keeps.bind fun there => ?_
    cases there with
    | true => exact .pure ()
    | false => exact .breach _

/-- A complaint stands at the same place on both sides. -/
theorem complain (problem : Problem) :
    Records f known (complain problem) (Grammar.complain problem) (fun _ => ())
      fun _ => .nothing :=
  ⟨.update (fun _ hs => hs) fun h => h.complain problem, .update (Undisturbed.write (by simp))⟩

/-- A token that is asked for is taken or complained about on both sides. -/
theorem expect {kind : TokenKind} (hkind : kind ≠ .eof) (wanted : Wanted) :
    Records f known (expect kind wanted) (Grammar.expect kind wanted) (fun there => there)
      fun _ => .nothing := by
  refine (eat hkind).bind fun there => ?_
  cases there with
  | true => exact answer true
  | false => exact (complain _).bind fun _ => answer false

/-! ### Counters and loops -/

/-- Whether the parser is too deep is asked alike, and what is known stays known. -/
theorem isTooDeep : Records f known isTooDeep Grammar.isTooDeep (fun deep => deep)
    fun _ => known :=
  ⟨.isTooDeep, Keeps.state.bind fun _ => .pure _⟩

/-- Whether a parenthesis is open is asked alike. -/
theorem isOutside : Records f known isOutside Grammar.isOutside (fun outside => outside)
    fun _ => .nothing :=
  ⟨.isOutside, Keeps.state.bind fun _ => .pure _⟩

/-- A counter that is raised around a step that records what it reads. -/
theorem within (n : Counter) (h : Records f known m m' g o) :
    Records f known (within n m) (Grammar.within n m') g o :=
  ⟨h.toTracks.within n, h.keeps.within n⟩

/-- A step outside of all parentheses records what it reads as well. -/
theorem withoutParens (h : Records f known m m' g o) :
    Records f known (withoutParens m) (Grammar.withoutParens m') g o :=
  ⟨h.toTracks.withoutParens, h.keeps.withoutParens⟩

/-- A loop, turn by turn, with as much fuel on both sides. -/
theorem iterate {step : σ → Step (ForInStep σ)} {step' : σ → Grammar.Step (Option σ)}
    (h : ∀ x, Records f .nothing (step x) (step' x) (turnOf fun x => x) fun _ => .nothing)
    (n : Nat) (x : σ) :
    Records f known (iterate step n x) (Grammar.iterate step' n x) (fun _ => ())
      fun _ => .nothing := by
  have hturn (x : σ) : Tracks f .nothing (step x) (step' x) (turnOf fun x => x)
      (Known.ofTurn (fun _ => .nothing) fun _ => .nothing) :=
    (h x).toTracks.mono id fun {turn _ _ _} hknown => by cases turn <;> exact hknown
  exact anywhere ⟨.iterate (fun x => x) hturn n x, .iterate (fun x => (h x).keeps) n x⟩

/-- A chain of operators records what it reads, as long as each turn does and the node handed on
is at the front of what the turn records. -/
theorem climb {check : Step (Option β)} {act : β → Built → Step (Option Built)}
    {check' : Grammar.Step (Option β)} {act' : β → Grammar.Step Bool}
    {inv mid fin : Built → Known}
    (hcheck : ∀ built, Records f (inv built) check check' (fun found => found)
      fun found => if found.isSome then mid built else fin built)
    (hact : ∀ x built, Records f (mid built) (act x built) (act' x) Option.isSome
      fun around => around.elim (fin built) inv) (n : Nat) (built : Built) :
    Records f (inv built) (climb check act n built) (Grammar.climb check' act' n)
      (fun _ => ()) fin :=
  ⟨.climb (fun built => (hcheck built).toTracks) (fun x built => (hact x built).toTracks) n built,
    .climb (hcheck ⟨0⟩).keeps (fun x built => (hact x built).keeps) n built⟩

end Records

/-! ## Nodes, between their marks and the completion of the marks -/

/-- **What is done with a mark completes it at the end**, and what is done before records
what is inside the node. -/
def Closes (f : String → Bool) (known : Known) (kind : NodeKind) (behind : Built → Step α)
    (rule : Mark → Step α) (body : Grammar.Step Unit) : Prop :=
  ∃ inner : Step Unit, Records f known inner body (fun _ => ()) (fun _ => .nothing)
    ∧ ∀ mark, rule mark = (do inner; let built ← complete mark kind; behind built)

namespace Closes

variable {known : Known} {kind : NodeKind} {behind : Built → Step α}

/-- A step in front of the rest of the node, behind the mark. -/
theorem bind {m : Step γ} {m' : Grammar.Step δ} {g : γ → δ} {o : γ → Known}
    {rule : γ → Mark → Step α} {body : δ → Grammar.Step Unit} (hm : Records f known m m' g o)
    (h : ∀ a, Closes f (o a) kind behind (rule a) (body (g a))) :
    Closes f known kind behind (fun mark => m >>= fun a => rule a mark) (m' >>= body) := by
  refine ⟨m >>= fun a => (h a).choose, hm.bind fun a => (h a).choose_spec.1, fun mark => ?_⟩
  rw [bind_assoc]
  exact congrArg _ (funext fun a => (h a).choose_spec.2 mark)

/-- The last step inside. -/
theorem last {m : Step γ} {body : Grammar.Step Unit} {g : γ → Unit} {o : γ → Known}
    (hm : Records f known m body g o) :
    Closes f known kind behind (fun mark => m >>= fun _ => complete mark kind >>= behind) body :=
  ⟨Functor.discard m, hm.forget.dropped, fun mark => by
    change _ = (m >>= fun _ => pure ()) >>= fun _ => complete mark kind >>= behind
    rw [bind_assoc]
    simp only [pure_bind]⟩

/-- The last step inside a node that nobody asks for. -/
theorem lastDone {m : Step γ} {body : Grammar.Step Unit} {g : γ → Unit} {o : γ → Known}
    (hm : Records f known m body g o) :
    Closes f known kind (fun _ => pure ())
      (fun mark => m >>= fun _ => Functor.discard (complete mark kind)) body :=
  last hm

/-- The last step inside a node that nobody asks for, where the rule goes on. -/
theorem lastThen {m : Step γ} {body : Grammar.Step Unit} {g : γ → Unit} {o : γ → Known}
    {rest : Step α} (hm : Records f known m body g o) :
    Closes f known kind (fun _ => rest)
      (fun mark => m >>= fun _ => Functor.discard (complete mark kind) >>= fun _ => rest) body := by
  have h : Closes f known kind (fun _ => rest)
      (fun mark => m >>= fun _ => complete mark kind >>= fun _ => rest) body := last hm
  obtain ⟨inner, hinner, hrule⟩ := h
  refine ⟨inner, hinner, fun mark => ?_⟩
  rw [← hrule mark]
  change (m >>= fun _ => (complete mark kind >>= fun _ => pure ()) >>= fun _ => rest) = _
  simp only [bind_assoc, pure_bind]

/-- The last step inside a node that is answered. -/
theorem lastBuilt {m : Step γ} {body : Grammar.Step Unit} {g : γ → Unit} {o : γ → Known}
    (hm : Records f known m body g o) :
    Closes f known kind pure (fun mark => m >>= fun _ => complete mark kind) body := by
  have h : Closes f known kind pure (fun mark => m >>= fun _ => complete mark kind >>= pure) body :=
    last hm
  simp only [bind_pure] at h
  exact h

/-- A choice inside a node that is made alike on both sides. -/
theorem ite {q : Prop} [Decidable q] {rule rule' : Mark → Step α} {body body' : Grammar.Step Unit}
    (h : q → Closes f known kind behind rule body)
    (h' : ¬ q → Closes f known kind behind rule' body') :
    Closes f known kind behind (fun mark => if q then rule mark else rule' mark)
      (if q then body else body') := by
  split
  · next hq => exact h hq
  · next hq => exact h' hq

end Closes

namespace Records

variable {known : Known} {kind : NodeKind} {behind : Built → Step α} {rule : Mark → Step α}
  {body : Grammar.Step Unit} {k' : Grammar.Step β} {g : α → β} {o : α → Known}

/-- **A node is recorded** if what is done with its mark records what is inside. -/
theorem node (h : Closes f known.inside kind behind rule body)
    (hbehind : ∀ built, Records f (.built built) (behind built) k' g o) :
    Records f known (start >>= rule) (Grammar.node kind body >>= fun _ => k') g o := by
  obtain ⟨inner, hinner, hrule⟩ := h
  have hmarked : start >>= rule = marked start kind inner >>= behind := by
    simp only [marked, bind_assoc]
    exact congrArg _ (funext hrule)
  rw [hmarked]
  have hnode : Records f known (marked start kind inner) (Grammar.node kind body) (fun _ => ())
      .built :=
    ⟨.node kind hinner.toTracks, .marked sets_start hinner.keeps⟩
  exact hnode.bind hbehind

/-- **A node around another one is recorded** where that one is the last. -/
theorem around {built : Built} (hkind : kind ≠ .stmtList)
    (h : Closes f .nothing kind behind rule body)
    (hbehind : ∀ built, Records f (.built built) (behind built) k' g o) :
    Records f (.built built) (precede built >>= rule)
      (Grammar.nodeAround kind body >>= fun _ => k') g o := by
  obtain ⟨inner, hinner, hrule⟩ := h
  have hmarked : precede built >>= rule = marked (precede built) kind inner >>= behind := by
    simp only [marked, bind_assoc]
    exact congrArg _ (funext hrule)
  rw [hmarked]
  have hnode : Records f (.built built) (marked (precede built) kind inner)
      (Grammar.nodeAround kind body) (fun _ => ()) .built :=
    ⟨.around hkind built hinner.toTracks, .marked (sets_precede built) hinner.keeps⟩
  exact hnode.bind hbehind

/-- A node that nobody asks for. -/
theorem nodeDone {rule : Mark → Step Unit}
    (h : Closes f known.inside kind (fun _ => Pure.pure ()) rule body) :
    Records f known (start >>= rule) (Grammar.node kind body) (fun _ => ()) fun _ => .nothing :=
  node h fun _ => done

/-- A node that is answered. -/
theorem nodeBuilt {rule : Mark → Step Built} (h : Closes f known.inside kind Pure.pure rule body) :
    Records f known (start >>= rule) (Grammar.node kind body) (fun _ => ()) .built :=
  node h handOn

/-- A node that was asked for. -/
theorem nodeFound {rule : Mark → Step (Option Built)} {q : Known}
    (h : Closes f known.inside kind (fun built => Pure.pure (some built)) rule body) :
    Records f known (start >>= rule) (Grammar.node kind body >>= fun _ => Pure.pure true)
      Option.isSome fun found => found.elim q .built :=
  node h fun built => found built

/-- A node around another one that is answered. -/
theorem aroundBuilt {rule : Mark → Step Built} {built : Built} (hkind : kind ≠ .stmtList)
    (h : Closes f .nothing kind Pure.pure rule body) :
    Records f (.built built) (precede built >>= rule) (Grammar.nodeAround kind body)
      (fun _ => ()) .built :=
  around hkind h handOn

/-- A node around another one that was asked for. -/
theorem aroundFound {rule : Mark → Step (Option Built)} {built : Built} {q : Known}
    (hkind : kind ≠ .stmtList)
    (h : Closes f .nothing kind (fun built => Pure.pure (some built)) rule body) :
    Records f (.built built) (precede built >>= rule)
      (Grammar.nodeAround kind body >>= fun _ => Pure.pure true) Option.isSome
      fun found => found.elim q .built :=
  around hkind h fun built => found built

end Records

end ScriptSense.Record
