/-
What a step that writes down events leaves as it was.

Whatever the state in front of it, a step that ends well has put the counters back to
where they were, has settled the marks that it set and no others (`pending`), and has
kept the events in front of it but for one thing: the start of a node may have been
given the distance to the node around it (`Event.Grown`). That is `Undisturbed`, and
`Keeps` says it of all runs of a step. It is closed under sequence, and each way to
control a step has one lemma here.

A place that is kept for a start is not the start of a node, so it cannot be given
anything. That is why a mark still stands on it when the node is completed, whatever
was written down behind it (`run_complete`): nothing that ends well takes a mark away.

A node is written down between a mark and its completion. The rules say so step by
step; `marked` is the same as one step around what is inside, and lets a proof follow
the tree and not the text of the rule.
-/
import Mathlib.Tactic.Common
import ScriptSense.Syntax.Record.Player

set_option autoImplicit false

namespace ScriptSense.Record

open Grammar (Counter)

variable {α β σ : Type}

/-! ## Running steps -/

/-- A step that goes well hands its answer and its state to the next. -/
theorem run_bind_ok {m : Step α} {f : α → Step β} {s t : State} {a : α} (h : m s = .ok (a, t)) :
    (m >>= f) s = f a t := by
  change (m s >>= fun r => f r.1 r.2) = _
  rw [h]
  rfl

/-- A breach ends the run. -/
theorem run_bind_error {m : Step α} {f : α → Step β} {s : State} {e : Breach}
    (h : m s = .error e) : (m >>= f) s = .error e := by
  change (m s >>= fun r => f r.1 r.2) = _
  rw [h]
  rfl

/-- A sequence that ends well is two steps that end well. -/
theorem bind_eq_ok_iff {m : Step α} {f : α → Step β} {s u : State} {b : β} :
    (m >>= f) s = .ok (b, u) ↔ ∃ a t, m s = .ok (a, t) ∧ f a t = .ok (b, u) := by
  cases h : m s with
  | error e => simp [run_bind_error h]
  | ok r =>
    obtain ⟨a, t⟩ := r
    rw [run_bind_ok h]
    constructor
    · exact fun hf => ⟨a, t, rfl, hf⟩
    · rintro ⟨a', t', hat, hf⟩
      simp only [Except.ok.injEq, Prod.mk.injEq] at hat
      obtain ⟨rfl, rfl⟩ := hat
      exact hf

/-- An answer leaves the state alone. -/
@[simp] theorem run_pure (a : α) (s : State) : (pure a : Step α) s = .ok (a, s) := rfl

/-- A change of the state cannot fail. -/
@[simp] theorem run_modify (f : State → State) (s : State) :
    (modify f : Step Unit) s = .ok ((), f s) := rfl

/-- The state may be read at any time. -/
@[simp] theorem run_get (s : State) : (get : Step State) s = .ok (s, s) := rfl

/-- What is thrown is the breach of the run. -/
@[simp] theorem run_throw (e : Breach) (s : State) : (throw e : Step α) s = .error e := rfl

/-- As long as few looks were taken, a question about the next token is answered. -/
theorem run_isAt {s : State} (h : ¬ Grammar.lookLimit < s.looks) (kind : TokenKind) :
    isAt kind s = .ok (s.input.kind s.place == kind, { s with looks := s.looks + 1 }) := by
  have hlook : current s = .ok (s.input.kind s.place, { s with looks := s.looks + 1 }) := if_neg h
  exact run_bind_ok hlook

/-! ## Events that stay -/

/-- The event is the same, or it is a start that was given the distance to the node
around it. -/
def Event.Grown (e e' : Event) : Prop :=
  e' = e ∨ ∃ kind distance, e = .start kind none ∧ e' = .start kind (some distance)

/-- An event that has grown twice has grown. -/
theorem Event.Grown.trans {e e' e'' : Event} (h : e.Grown e') (h' : e'.Grown e'') :
    e.Grown e'' := by
  rcases h with rfl | ⟨kind, distance, rfl, rfl⟩
  · exact h'
  · rcases h' with rfl | ⟨_, _, hstart, -⟩
    · exact .inr ⟨kind, distance, rfl, rfl⟩
    · simp at hstart

/-- A place kept for a start stays what it is. -/
theorem Event.Grown.eq_tombstone {e : Event} (h : Event.tombstone.Grown e) : e = .tombstone := by
  rcases h with rfl | ⟨_, _, hstart, -⟩
  · rfl
  · simp at hstart

/-- The first events are among the second ones, each at its place. -/
def Kept (es es' : Array Event) : Prop :=
  ∀ (i : Nat) (e : Event), es[i]? = some e → ∃ e', es'[i]? = some e' ∧ e.Grown e'

namespace Kept

variable {es es' es'' : Array Event}

/-- Without a change every event is kept. -/
theorem refl (es : Array Event) : Kept es es := fun _ e h => ⟨e, h, .inl rfl⟩

/-- What is kept by two changes is kept by both together. -/
theorem trans (h : Kept es es') (h' : Kept es' es'') : Kept es es'' := by
  intro i e he
  obtain ⟨e', he', hgrown⟩ := h i e he
  obtain ⟨e'', he'', hgrown'⟩ := h' i e' he'
  exact ⟨e'', he'', hgrown.trans hgrown'⟩

/-- An event written behind the others disturbs none of them. -/
theorem push (es : Array Event) (e : Event) : Kept es (es.push e) := by
  intro i e' he
  have hlt := (Array.getElem?_eq_some_iff.1 he).1
  refine ⟨e', ?_, .inl rfl⟩
  rw [Array.getElem?_push, if_neg (by omega)]
  exact he

/-- What is written at a place behind the events does not touch them. -/
theorem set_of_le {i : Nat} (h : Kept es es') (hi : es.size ≤ i) (e : Event) :
    Kept es (es'.setIfInBounds i e) := by
  intro j e' he
  have hlt := (Array.getElem?_eq_some_iff.1 he).1
  have hne : i ≠ j := by omega
  rw [Array.getElem?_setIfInBounds_ne hne]
  exact h j e' he

end Kept

/-- Linking a node to the one around it changes one start and nothing else. -/
theorem kept_link {outer place : Nat} {es es' : Array Event} (h : link outer place es = .ok es') :
    Kept es es' := by
  fun_induction link outer place es with
  | case1 | case2 | case4 => simp at h
  | case3 place kind distance hevent ih => exact ih h
  | case5 place kind hevent hle =>
    have hes : es.setIfInBounds place (.start kind (some (outer - place))) = es' := by
      simpa using h
    subst hes
    -- Only the start at the end of the chain is written over, and only to name the outer one.
    intro i e he
    by_cases hi : place = i
    · subst hi
      have hlt := (Array.getElem?_eq_some_iff.1 he).1
      have hstart : e = .start kind none := by simpa [he] using hevent
      refine ⟨.start kind (some (outer - place)), ?_, .inr ⟨kind, _, hstart, rfl⟩⟩
      rw [Array.getElem?_setIfInBounds_self_of_lt hlt]
    · exact ⟨e, by rwa [Array.getElem?_setIfInBounds_ne hi], .inl rfl⟩
  | case6 place e hevent _ _ _ =>
    have hes : es = es' := by simpa using h
    exact hes ▸ Kept.refl es

/-- Linking a start to its outer node rewrites one event and adds none. -/
theorem size_link {outer place : Nat} {es es' : Array Event} (h : link outer place es = .ok es') :
    es'.size = es.size := by
  fun_induction link outer place es with
  | case1 | case2 | case4 => simp at h
  | case3 place kind distance hevent ih => exact ih h
  | case5 place kind hevent hle =>
    have hes : es.setIfInBounds place (.start kind (some (outer - place))) = es' := by
      simpa using h
    rw [← hes, Array.size_setIfInBounds]
  | case6 place e hevent _ _ _ =>
    have hes : es = es' := by simpa using h
    rw [hes]

/-- A node that has no other around it is given the distance to one. -/
theorem link_of_start {outer place : Nat} {es : Array Event} {kind : NodeKind}
    (h : es[place]? = some (.start kind none)) (hle : place ≤ outer) :
    link outer place es
      = .ok (es.setIfInBounds place (.start kind (some (outer - place)))) := by
  unfold link
  split <;> simp_all

/-- No distance from a start to the one around it leads out of the record. -/
def Linked (es : Array Event) : Prop :=
  ∀ (i : Nat) (kind : NodeKind) (distance : Nat),
    es[i]? = some (.start kind (some distance)) → i + distance < es.size

namespace Linked

variable {es es' : Array Event}

/-- A new event refers to no event behind it, unless it is a start with a distance. -/
theorem push (h : Linked es) {e : Event} (he : ∀ kind distance, e ≠ .start kind (some distance)) :
    Linked (es.push e) := by
  intro i kind distance hi
  rw [Array.getElem?_push] at hi
  split at hi
  · exact absurd (Option.some.inj hi) (he kind distance)
  · have hlt := h i kind distance hi
    rw [Array.size_push]
    omega

/-- An event may be rewritten as long as it points at a place inside the record. -/
theorem set (h : Linked es) (i : Nat) {e : Event}
    (he : ∀ kind distance, e = .start kind (some distance) → i + distance < es.size) :
    Linked (es.setIfInBounds i e) := by
  intro j kind distance hj
  rw [Array.size_setIfInBounds]
  rw [Array.getElem?_setIfInBounds] at hj
  split at hj
  · next hij =>
    split at hj
    · exact hij ▸ he kind distance (Option.some.inj hj)
    · cases hj
  · exact h j kind distance hj

/-- The outer start that a node is linked to lies inside the record. -/
theorem link {outer place : Nat} (h : Linked es) (houter : outer < es.size)
    (hlink : link outer place es = .ok es') : Linked es' := by
  fun_induction Record.link outer place es with
  | case1 | case2 | case4 => simp at hlink
  | case3 place kind distance hevent ih => exact ih hlink
  | case5 place kind hevent hle =>
    have hes : es.setIfInBounds place (.start kind (some (outer - place))) = es' := by
      simpa using hlink
    refine hes ▸ h.set place fun kind distance he => ?_
    obtain ⟨-, rfl⟩ : _ ∧ outer - place = distance := by simpa using he
    omega
  | case6 place e hevent _ _ _ =>
    have hes : es = es' := by simpa using hlink
    exact hes ▸ h

end Linked

/-! ## What a step leaves as it was -/

/-- What the state behind a step has in common with the state in front of it. -/
structure Undisturbed (s t : State) : Prop where
  input : t.input = s.input
  count (c : Counter) : t.count c = s.count c
  pending : t.pending = s.pending
  events : Kept s.events t.events
  linked : Linked s.events → Linked t.events

namespace Undisturbed

variable {s t u : State}

/-- Nothing is disturbed where nothing happens. -/
theorem refl (s : State) : Undisturbed s s := ⟨rfl, fun _ => rfl, rfl, .refl _, id⟩

/-- Two steps that disturb nothing, after each other. -/
theorem trans (h : Undisturbed s t) (h' : Undisturbed t u) : Undisturbed s u :=
  ⟨h'.input.trans h.input, fun c => (h'.count c).trans (h.count c), h'.pending.trans h.pending,
    h.events.trans h'.events, h'.linked ∘ h.linked⟩

/-- Writing down an event disturbs nothing. -/
theorem write {e : Event} (he : ∀ kind distance, e ≠ .start kind (some distance)) (s : State) :
    Undisturbed s (s.write e) :=
  ⟨rfl, fun c => by cases c <;> rfl, rfl, .push _ e, fun h => h.push he⟩

/-- A token that is taken is written behind the record. -/
theorem take (kind : TokenKind) (s : State) : Undisturbed s (s.take kind) :=
  ⟨rfl, fun c => by cases c <;> rfl, rfl, .push _ _, fun h => h.push (by simp)⟩

/-- Line breaks are written behind the record as well. -/
theorem takeBreaks (n : Nat) (s : State) : Undisturbed s (s.takeBreaks n) := by
  induction n generalizing s with
  | zero => exact .refl s
  | succ n ih => exact (take .newline s).trans (ih _)

/-- Line breaks in front of a token and the token itself disturb nothing. -/
theorem consume (kind : TokenKind) (s : State) : Undisturbed s (s.consume kind) := by
  unfold State.consume
  dsimp only
  split
  · exact (take kind s).trans (takeBreaks _ _)
  · exact take kind s

end Undisturbed

/-- **Whenever the step ends well, it disturbed nothing.** -/
def Keeps (m : Step α) : Prop := ∀ ⦃s t : State⦄ ⦃a : α⦄, m s = .ok (a, t) → Undisturbed s t

namespace Keeps

/-- An answer disturbs nothing. -/
theorem pure (a : α) : Keeps (Pure.pure a : Step α) := by
  intro s t b h
  obtain ⟨-, rfl⟩ : a = b ∧ s = t := by simpa using h
  exact .refl s

/-- Two steps of which each keeps what it finds. -/
theorem bind {m : Step α} {f : α → Step β} (hm : Keeps m) (hf : ∀ a, Keeps (f a)) :
    Keeps (m >>= f) := by
  intro s u b h
  obtain ⟨a, t, hrun, hrun'⟩ := bind_eq_ok_iff.1 h
  exact (hm hrun).trans (hf a hrun')

/-- What never ends well keeps everything. -/
theorem breach (e : Breach) : Keeps (throw e : Step α) := by
  intro s t a h
  simp at h

/-- A change that disturbs nothing. -/
theorem update {f : State → State} (h : ∀ s, Undisturbed s (f s)) : Keeps (modify f) := by
  intro s t a hrun
  obtain rfl : f s = t := by simpa using hrun
  exact h s

/-- Reading the state disturbs nothing. -/
theorem state : Keeps (get : Step State) := by
  intro s t a h
  obtain ⟨-, rfl⟩ : s = a ∧ s = t := by simpa using h
  exact .refl s

/-- A look ahead is counted and changes no event. -/
theorem look (n : Nat) : Keeps (look n) := by
  intro s t kind h
  unfold Record.look at h
  split at h
  · simp at h
  · obtain ⟨-, rfl⟩ : _ ∧ { s with looks := s.looks + 1 } = t := by simpa using h
    exact ⟨rfl, fun c => by cases c <;> rfl, rfl, .refl _, id⟩

/-- A loop keeps what each of its turns keeps. That its fuel may run out is no matter, for then
nothing comes back. -/
theorem iterate {step : σ → Step (ForInStep σ)} (h : ∀ x, Keeps (step x)) (n : Nat) (x : σ) :
    Keeps (iterate step n x) := by
  induction n generalizing x with
  | zero => exact breach _
  | succ n ih =>
    unfold Record.iterate
    refine (h x).bind fun r => ?_
    cases r with
    | done y => exact pure y
    | yield y => exact ih y

end Keeps

/-! ## Counters put back -/

/-- A counter holds what it was set to. -/
@[simp] theorem count_setCount (c : Counter) (n : Nat) (s : State) :
    (s.setCount c n).count c = n := by
  cases c <;> rfl

/-- The other counters are left alone. -/
theorem count_setCount_of_ne {c d : Counter} (h : d ≠ c) (n : Nat) (s : State) :
    (s.setCount c n).count d = s.count d := by
  cases c <;> cases d <;> first | rfl | exact absurd rfl h

namespace Undisturbed

variable {s t u : State}

/-- The counter that a construct changes is out of the comparison until the construct
puts it back. -/
theorem carry {c : Counter} (h : Undisturbed s (t.setCount c (s.count c)))
    (h' : Undisturbed t u) : Undisturbed s (u.setCount c (s.count c)) where
  input := by
    have hinput := h.input
    cases c <;> exact h'.input.trans hinput
  count d := by
    by_cases hd : d = c
    · rw [hd, count_setCount]
    · have hcount := h.count d
      rw [count_setCount_of_ne hd] at hcount ⊢
      exact (h'.count d).trans hcount
  pending := by
    have hpending := h.pending
    cases c <;> exact h'.pending.trans hpending
  events := by
    have hevents := h.events
    cases c <;> exact hevents.trans h'.events
  linked := by
    have hlinked := h.linked
    cases c <;> exact h'.linked ∘ hlinked

/-- A counter is changed to be put back later. -/
theorem setting (c : Counter) (n : Nat) (s : State) :
    Undisturbed s ((s.setCount c n).setCount c (s.count c)) := by
  cases c <;> exact refl s

/-- A counter put back to its first value makes up for every change of it in between. -/
theorem resetting {c : Counter} (h : Undisturbed s t) :
    Undisturbed s (t.setCount c (s.count c)) :=
  carry (setting c (s.count c) s) (by cases c <;> exact h)

end Undisturbed

/-- Of two values the later one counts. -/
theorem setCount_setCount (c : Counter) (m n : Nat) (s : State) :
    (s.setCount c m).setCount c n = s.setCount c n := by
  cases c <;> rfl

namespace Keeps

/-- A counter that is raised around a step is lowered behind it. -/
theorem within (c : Counter) {body : Step α} (h : Keeps body) : Keeps (within c body) := by
  intro s v a hrun
  unfold Record.within at hrun
  obtain ⟨_, t, hraise, hrun⟩ := bind_eq_ok_iff.1 hrun
  obtain ⟨b, u, hbody, hrun⟩ := bind_eq_ok_iff.1 hrun
  obtain ⟨_, w, hlower, hrun⟩ := bind_eq_ok_iff.1 hrun
  obtain ⟨rfl, rfl⟩ : b = a ∧ w = v := by simpa using hrun
  obtain rfl : s.raise c = t := by simpa using hraise
  -- The body has given the counter back as it found it, so it can be lowered again.
  have hcount : u.count c = s.count c + 1 := by
    rw [(h hbody).count c, State.raise, count_setCount]
  have hback : u.setCount c (s.count c) = w := by
    have hlower' : lower c u = .ok ((), u.setCount c (s.count c)) := by
      unfold lower
      rw [run_bind_ok (run_get u)]
      simp [hcount]
    rw [hlower'] at hlower
    simpa using hlower
  exact hback ▸ Undisturbed.carry (Undisturbed.setting c _ s) (h hbody)

/-- The number of open parentheses is put back behind a step that begins with none. -/
theorem withoutParens {body : Step α} (h : Keeps body) : Keeps (withoutParens body) := by
  intro s v a hrun
  unfold Record.withoutParens at hrun
  obtain ⟨outer, t, hget, hrun⟩ := bind_eq_ok_iff.1 hrun
  obtain ⟨rfl, rfl⟩ : s = outer ∧ s = t := by simpa using hget
  obtain ⟨_, t, hset, hinside⟩ := bind_eq_ok_iff.1 hrun
  obtain rfl : s.setCount .parens 0 = t := by simpa using hset
  obtain ⟨b, u, hbody, hrun⟩ := bind_eq_ok_iff.1 hinside
  obtain ⟨_, w, hback, hrun⟩ := bind_eq_ok_iff.1 hrun
  obtain ⟨rfl, rfl⟩ : b = a ∧ w = v := by simpa using hrun
  obtain rfl : u.setCount .parens (s.count .parens) = w := by simpa [State.count] using hback
  exact Undisturbed.carry (Undisturbed.setting .parens 0 s) (h hbody)

/-- The turns of a climb, each one level deeper than the one before, disturb nothing but
the depth. -/
theorem turns {check : Step (Option β)} {act : β → Built → Step (Option Built)}
    (hcheck : Keeps check) (hact : ∀ b built, Keeps (act b built)) (n : Nat) {s t u : State}
    {built last : Built} (hst : Undisturbed s (t.setCount .nesting (s.count .nesting)))
    (hrun : Record.iterate (climbTurn check act) n built t = .ok (last, u)) :
    Undisturbed s (u.setCount .nesting (s.count .nesting)) := by
  induction n generalizing t built with
  | zero => simp [Record.iterate] at hrun
  | succ n ih =>
    unfold Record.iterate at hrun
    obtain ⟨r, t', hturn, hrun⟩ := bind_eq_ok_iff.1 hrun
    -- A turn keeps all but the nesting, which it raises where it goes on.
    have hst' : Undisturbed s (t'.setCount .nesting (s.count .nesting)) := by
      unfold climbTurn at hturn
      obtain ⟨found, v, hfound, hturn⟩ := bind_eq_ok_iff.1 hturn
      have hsv := hst.carry (hcheck hfound)
      cases found with
      | none =>
        obtain ⟨-, rfl⟩ : _ ∧ v = t' := by simpa using hturn
        exact hsv
      | some b =>
        obtain ⟨_, v', hraise, hturn⟩ := bind_eq_ok_iff.1 hturn
        obtain rfl : v.raise .nesting = v' := by simpa using hraise
        obtain ⟨around, w, haround, hturn⟩ := bind_eq_ok_iff.1 hturn
        have hraised : Undisturbed s ((v.raise .nesting).setCount .nesting (s.count .nesting)) := by
          rwa [State.raise, setCount_setCount]
        have hsw := hraised.carry (hact b built haround)
        cases around with
        | none =>
          obtain ⟨-, rfl⟩ : _ ∧ w = t' := by simpa using hturn
          exact hsw
        | some around =>
          obtain ⟨-, rfl⟩ : _ ∧ w = t' := by simpa using hturn
          exact hsw
    cases r with
    | done y =>
      obtain ⟨-, rfl⟩ : _ ∧ t' = u := by simpa using hrun
      exact hst'
    | yield y => exact ih hst' hrun

/-- A climb puts the depth back that its turns have added. -/
theorem climb {check : Step (Option β)} {act : β → Built → Step (Option Built)}
    (hcheck : Keeps check) (hact : ∀ b built, Keeps (act b built)) (n : Nat) (built : Built) :
    Keeps (climb check act n built) := by
  intro s v a hrun
  unfold Record.climb at hrun
  obtain ⟨outer, t, hget, hrun⟩ := bind_eq_ok_iff.1 hrun
  obtain ⟨rfl, rfl⟩ : s = outer ∧ s = t := by simpa using hget
  obtain ⟨last, u, hturns, hrun⟩ := bind_eq_ok_iff.1 hrun
  obtain ⟨_, w, hback, hrun⟩ := bind_eq_ok_iff.1 hrun
  obtain ⟨rfl, rfl⟩ : last = a ∧ w = v := by simpa using hrun
  obtain rfl : u.setCount .nesting (s.count .nesting) = w := by simpa [State.count] using hback
  exact turns hcheck hact n (Undisturbed.refl s).resetting hturns

end Keeps

/-! ## Marks -/

/-- A step sets a mark at the end of what is written down, and disturbs nothing else. -/
structure Sets (set : Step Mark) : Prop where
  place {s t : State} {mark : Mark} (h : set s = .ok (mark, t)) : mark.place = s.events.size
  size {s t : State} {mark : Mark} (h : set s = .ok (mark, t)) :
    t.events.size = s.events.size + 1
  last {s t : State} {mark : Mark} (h : set s = .ok (mark, t)) :
    t.events[mark.place]? = some .tombstone
  pending {s t : State} {mark : Mark} (h : set s = .ok (mark, t)) :
    t.pending = mark.place :: s.pending
  undisturbed {s t : State} {mark : Mark} (h : set s = .ok (mark, t)) :
    Undisturbed s { t with pending := s.pending }

/-- A new mark is the place of a placeholder behind all events so far. -/
theorem run_start (s : State) :
    start s = .ok (⟨s.events.size⟩, s.begun) := rfl

/-- A mark behind which nothing is written down is taken back. -/
theorem run_abandon_begun (s : State) : abandon ⟨s.events.size⟩ s.begun = .ok ((), s) := by
  simp [abandon, State.begun, State.write]

/-- A fresh mark has to be completed or abandoned before the step is over. -/
theorem sets_start : Sets start := by
  have hrun {s t : State} {mark : Mark} (h : start s = .ok (mark, t)) :
      mark = ⟨s.events.size⟩ ∧ t = s.begun := by
    simpa [run_start, eq_comm] using h
  constructor
  · intro s t mark h
    rw [(hrun h).1]
  · intro s t mark h
    rw [(hrun h).2]
    simp [State.begun, State.write]
  · intro s t mark h
    rw [(hrun h).1, (hrun h).2]
    simp [State.begun, State.write]
  · intro s t mark h
    rw [(hrun h).1, (hrun h).2]
    rfl
  · intro s t mark h
    rw [(hrun h).2]
    exact .write (by simp) s

/-- A mark in front of a built node stands behind the record, and the start of the node is linked
to it. -/
theorem run_precede {built : Built} {s : State} {es : Array Event}
    (h : link s.events.size built.place (s.events.push .tombstone) = .ok es) :
    precede built s
      = .ok (⟨s.events.size⟩, { s with events := es, pending := s.events.size :: s.pending }) := by
  unfold precede
  dsimp only
  rw [h]
  rfl

/-- A mark that precedes a node has to be completed or abandoned as well. -/
theorem sets_precede (built : Built) : Sets (precede built) := by
  -- The mark is set as any other. Besides it the outer place is written into the chain of
  -- starts.
  have hrun {s t : State} {mark : Mark} (h : precede built s = .ok (mark, t)) :
      ∃ es, link s.events.size built.place (s.events.push .tombstone) = .ok es
        ∧ mark = ⟨s.events.size⟩
        ∧ t = { s with events := es, pending := s.events.size :: s.pending } := by
    cases hlink : link s.events.size built.place (s.events.push .tombstone) with
    | error e =>
      unfold precede at h
      dsimp only at h
      rw [hlink] at h
      simp [bind, Except.bind] at h
    | ok es =>
      rw [run_precede hlink] at h
      exact ⟨es, rfl, by simpa [eq_comm] using h⟩
  -- Linking changes no tombstone, so the new mark is still open.
  have hkept {s : State} {es : Array Event}
      (h : link s.events.size built.place (s.events.push .tombstone) = .ok es) :
      es[s.events.size]? = some .tombstone := by
    obtain ⟨e, he, hgrown⟩ := kept_link h s.events.size .tombstone (by simp)
    rwa [hgrown.eq_tombstone] at he
  constructor
  · intro s t mark h
    obtain ⟨es, -, rfl, -⟩ := hrun h
    rfl
  · intro s t mark h
    obtain ⟨es, hlink, -, rfl⟩ := hrun h
    simpa using size_link hlink
  · intro s t mark h
    obtain ⟨es, hlink, rfl, rfl⟩ := hrun h
    exact hkept hlink
  · intro s t mark h
    obtain ⟨es, -, rfl, rfl⟩ := hrun h
    rfl
  · intro s t mark h
    obtain ⟨es, hlink, -, rfl⟩ := hrun h
    have houter : s.events.size < (s.events.push .tombstone).size := by simp
    exact ⟨rfl, fun c => by cases c <;> rfl, rfl, (Kept.push _ _).trans (kept_link hlink),
      fun h => (h.push (by simp)).link houter hlink⟩

/-- **The start of a node is written where its mark was set.** -/
theorem run_complete {mark : Mark} {s : State} (h : s.events[mark.place]? = some .tombstone)
    (kind : NodeKind) :
    complete mark kind s = .ok (⟨mark.place⟩, s.completed mark (.start kind none)) := by
  unfold complete
  rw [h]

/-- Sets a mark, runs `body` and completes the mark. -/
def marked (set : Step Mark) (kind : NodeKind) (body : Step Unit) : Step Built := do
  let mark ← set
  body
  complete mark kind

section Marked

variable {set : Step Mark} {kind : NodeKind} {body : Step Unit} {s t u : State} {mark : Mark}

/-- A node that is begun and whose inside ends well is completed. -/
theorem run_marked (hset : Sets set) (hbody : Keeps body) (hmark : set s = .ok (mark, t))
    (hrun : body t = .ok ((), u)) :
    marked set kind body s = .ok (⟨mark.place⟩, u.completed mark (.start kind none)) := by
  obtain ⟨e, he, hgrown⟩ := (hbody hrun).events _ _ (hset.last hmark)
  rw [hgrown.eq_tombstone] at he
  unfold marked
  rw [run_bind_ok hmark, run_bind_ok hrun, run_complete he kind]

/-- **A node disturbs nothing in front of it**: its mark is settled. -/
theorem Keeps.marked (hset : Sets set) (hbody : Keeps body) : Keeps (marked set kind body) := by
  intro s v built hrun
  obtain ⟨mark, t, hmark, hinside⟩ := bind_eq_ok_iff.1 hrun
  obtain ⟨_, u, hbodied, -⟩ := bind_eq_ok_iff.1 hinside
  -- A marked step that succeeds has completed its node.
  have hmarked : Record.marked set kind body s = _ := run_marked hset hbody hmark hbodied
  rw [hrun] at hmarked
  obtain ⟨-, rfl⟩ : _ ∧ v = u.completed mark (.start kind none) := by simpa using hmarked
  have hset' := hset.undisturbed hmark
  have hbody' := hbody hbodied
  refine ⟨hbody'.input.trans hset'.input, fun c => ?_, ?_, ?_, fun hlinked => ?_⟩
  · have hmarked : t.count c = s.count c := by
      have hcount := hset'.count c
      cases c <;> exact hcount
    have hcount := (hbody'.count c).trans hmarked
    cases c <;> exact hcount
  -- The mark is the last one that was opened, and the body has closed all of its own.
  · change u.pending.erase mark.place = s.pending
    rw [hbody'.pending, hset.pending hmark, List.erase_cons_head]
  · have hkept : Kept s.events u.events := hset'.events.trans hbody'.events
    exact (hkept.set_of_le (Nat.le_of_eq (hset.place hmark).symm) _).trans (.push _ _)
  · have hbefore : Linked u.events := hbody'.linked (hset'.linked hlinked)
    exact (hbefore.set mark.place (by simp)).push (by simp)

end Marked

end ScriptSense.Record
