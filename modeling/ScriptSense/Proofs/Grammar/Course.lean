/-
The courses that a reading can take.

Of a run of the grammar much less matters than its steps: which tokens were consumed in
which node, what was complained about, and which nodes were closed over what. `Course` is
that record, as a relation between the state in front of a run and the state behind it.
Its constructors are the moves of the grammar. What a property has to do with is then a
matter of the moves alone, and it is proved by one induction over the course of a run,
without a word about the rules.

The relation says more than the makings do. It knows which nodes may hold tokens only,
which may hold a list of statements, and that the list of a `begin` block or a lambda is
read with one more of them open. It knows that nothing but a node is built around, and
that a `begin` block inside another one is complained about and set aside.

`Charted` is the class of steps all of whose runs are courses, unless they give up. The
rules are in it (`ScriptSense.Proofs.Grammar.Charts`).
-/
import ScriptSense.Proofs.Grammar.Headed

set_option autoImplicit false

namespace ScriptSense

/-! ## What may be built -/

/-- The lists of statements that may stand in a node. -/
inductive Lists where
  /-- There are none. -/
  | none
  /-- The block of an `if` or of a loop. -/
  | plain
  /-- The block of a `begin` or of a lambda, which counts as open inside. -/
  | counted

/-- The lists of the sort count as open inside. -/
@[simp] def Lists.isCounted : Lists → Bool
  | .counted => true
  | _ => false

/-- What may be built in the node under construction. -/
inductive Grade where
  /-- Tokens only. -/
  | tokens
  /-- Nodes as well, and lists of statements of the sort. -/
  | nodes (lists : Lists)

namespace NodeKind

/-- The lists of statements that may stand in a node of the kind. -/
@[reducible] def lists : NodeKind → Lists
  | .ifStmt | .elseIfBranch | .elseBranch | .whileStmt | .foreachStmt => .plain
  | .beginStmt | .lambdaExpr => .counted
  | _ => .none

/-- A node of the kind may be built anywhere: it is no list, not set aside and no `begin`
block. -/
@[reducible] def isFree : NodeKind → Bool
  | .error | .stmtList | .beginStmt => false
  | _ => true

end NodeKind

/-- There is a token of the kind: it is not the end of the text. -/
@[reducible] def TokenKind.isReal : TokenKind → Bool
  | .eof => false
  | _ => true

/-- The problem is another one than a `begin` block inside another. -/
@[reducible] def Problem.isFree : Problem → Bool
  | .nestedBegin => false
  | _ => true

/-- A condition on a kind that is written out holds by evaluation. -/
instance fact_true : Fact (true = true) := ⟨rfl⟩

theorem TokenKind.isReal_iff {kind : TokenKind} : kind.isReal = true ↔ kind ≠ .eof := by
  cases kind <;> simp

theorem Problem.isFree_iff {p : Problem} : p.isFree = true ↔ p ≠ .nestedBegin := by
  cases p <;> simp

theorem NodeKind.isFree_iff {kind : NodeKind} :
    kind.isFree = true ↔ kind ≠ .error ∧ kind ≠ .stmtList ∧ kind ≠ .beginStmt := by
  cases kind <;> simp

namespace Grammar

variable {α β σ : Type}

namespace State

/-- The state behind a complaint about the next token. -/
def complained (p : Problem) (s : State) : State :=
  { s with complaints := s.complaints.push ⟨p, s.place⟩ }

/-- The state in which a node of a kind begins that is built over what follows. -/
abbrev entered (kind : NodeKind) (s : State) : State := (s.opened kind).inside #[]

/-- The state behind a node of a kind that was opened in the state, where `t` is the state
behind its last child. -/
abbrev closed (kind : NodeKind) (s t : State) : State :=
  t.close kind (s.opened kind).offset (s.opened kind).out

/-- The state in which a `begin` block is read that is set aside: in an error, behind the
complaint. -/
abbrev aside (s : State) : State := (s.entered .error).complained .nestedBegin

/-- The element built last is a node, and no list of statements. -/
def Capped (s : State) : Prop :=
  ∃ (outer : Array Tree) (first : Tree),
    s.out = outer.push first ∧ first.isNode (· != .stmtList) = true

/-- What is ahead where a block is set aside is ahead in the block. -/
theorem kindAhead_aside (s : State) :
    kindAhead 0 (s.aside.entered .beginStmt).rest = kindAhead 0 s.rest :=
  (kindAhead_opened .beginStmt s.aside).trans (kindAhead_opened .error s)

end State

/-! ## Tokens consumed -/

/-- Line breaks that are passed over end with one. -/
theorem getLast?_breaksAhead (ts : List Token) :
    ∀ t ∈ (ts.take (breaksAhead ts)).getLast?, t.kind = .newline := by
  induction ts with
  | nil => simp
  | cons u ts ih =>
    -- One token more at the front does not change the last, unless it is the only one.
    have hcons (h : breaksAhead ts = 0 → u.kind = .newline) :
        ∀ t ∈ ((u :: ts).take (breaksAhead ts + 1)).getLast?, t.kind = .newline := by
      intro t ht
      rw [List.take_succ_cons, List.getLast?_cons, Option.mem_some_iff] at ht
      subst ht
      cases hlast : (ts.take (breaksAhead ts)).getLast? with
      | some v => exact ih v hlast
      | none =>
        refine h ?_
        have hnone := List.getLast?_eq_none_iff.1 hlast
        cases ts with
        | nil => rfl
        | cons v vs => simpa using hnone
    unfold breaksAhead
    split
    · next hbreak => exact hcons fun _ => eq_of_beq hbreak
    · split
      · split
        · simp
        · next n hn =>
          rw [show n + 2 = breaksAhead ts + 1 by omega]
          exact hcons fun hzero => absurd (hn.symm.trans hzero) (Nat.succ_ne_zero n)
      · simp

/-- **What is consumed where a token is ahead**: the trivia in front of it, the token, and
perhaps line breaks, with which it ends then. -/
theorem State.consumed {s : State} (h : kindAhead 0 s.rest ≠ .eof) :
    ∃ (trivia : List Token) (word : Token) (layout : List Token),
      s.rest = trivia ++ word :: layout ++ s.consume.rest
        ∧ s.consume.out.toList = s.out.toList ++ (trivia ++ word :: layout).map .leaf
        ∧ (∀ t ∈ trivia, t.kind.isTrivia = true) ∧ word.kind = kindAhead 0 s.rest
        ∧ ∀ t ∈ layout.getLast?, t.kind = .newline := by
  -- However many tokens are passed, they are put behind what was built.
  have hsplit (n : Nat) (s : State) : s.rest = s.rest.take n ++ (s.shiftMany n).rest
      ∧ (s.shiftMany n).out.toList = s.out.toList ++ (s.rest.take n).map .leaf :=
    ⟨by rw [rest_shiftMany, List.take_append_drop], toList_out_shiftMany n s⟩
  have hahead := kindAhead_zero s.rest
  rw [← rest_shiftTrivia] at hahead
  obtain ⟨word, more, hword⟩ : ∃ word more, s.shiftTrivia.rest = word :: more := by
    cases hrest : s.shiftTrivia.rest with
    | nil =>
      rw [hrest] at hahead
      exact absurd hahead h
    | cons word more => exact ⟨word, more, rfl⟩
  rw [hword] at hahead
  obtain ⟨hrest, hout⟩ := hsplit (s.rest.takeWhile (·.kind.isTrivia)).length s
  -- Behind the word line breaks may be passed as well, but only inside of parentheses.
  obtain ⟨layout, hrest', hout', hlast⟩ : ∃ layout : List Token,
      s.shiftTrivia.shift.rest = layout ++ s.consume.rest
        ∧ s.consume.out.toList = s.shiftTrivia.shift.out.toList ++ layout.map .leaf
        ∧ ∀ t ∈ layout.getLast?, t.kind = .newline := by
    have hconsume : s.consume.rest = s.shiftTrivia.shift.shiftBreaks.rest
        ∧ s.consume.out = s.shiftTrivia.shift.shiftBreaks.out := ⟨rfl, rfl⟩
    rw [hconsume.1, hconsume.2, shiftBreaks]
    split
    · exact ⟨_, (hsplit _ _).1, (hsplit _ _).2, getLast?_breaksAhead _⟩
    · exact ⟨[], by simp, by simp, by simp⟩
  refine ⟨s.rest.take (s.rest.takeWhile (·.kind.isTrivia)).length, word, layout, ?_, ?_,
    fun t => isTrivia_of_mem_take, hahead.symm, hlast⟩
  · rw [shift_of_rest hword] at hrest'
    simp only [List.append_assoc, List.cons_append, ← hrest']
    rw [← hword]
    exact hrest
  · rw [hout', shift_of_rest hword, Array.toList_push, shiftTrivia, hout]
    simp

/-! ## Courses -/

/-- **The reading may go from the one state to the other** inside one node, in which only
that is built which the grade allows. -/
inductive Course : Grade → State → State → Prop
  | refl (g : Grade) (s : State) : Course g s s
  | looked {g : Grade} {s t : State} (h : Course g s t) : Course g s t.looked
  | consume {g : Grade} {s t : State} (h : Course g s t) (hreal : kindAhead 0 t.rest ≠ .eof) :
      Course g s t.consume
  | complain {g : Grade} {s t : State} (h : Course g s t) {p : Problem} (hp : p ≠ .nestedBegin) :
      Course g s (t.complained p)
  | setCount {g : Grade} {s t : State} (h : Course g s t) {c : Counter} (hc : c ≠ .begins)
      (n : Nat) : Course g s (t.setCount c n)
  | node {l : Lists} {s t u : State} (h : Course (.nodes l) s t) {kind : NodeKind}
      (hkind : kind ≠ .error ∧ kind ≠ .stmtList) (hfree : kind = .beginStmt → t.begins = 0)
      (hbody : Course (.nodes kind.lists) (t.entered kind) u) :
      Course (.nodes l) s (t.closed kind u)
  | error {l : Lists} {s t u : State} (h : Course (.nodes l) s t)
      (hbody : Course .tokens (t.entered .error) u) : Course (.nodes l) s (t.closed .error u)
  | around {l : Lists} {s t u : State} (h : Course (.nodes l) s t) {outer : Array Tree}
      {first : Tree} (hout : t.out = outer.push first)
      (hfirst : first.isNode (· != .stmtList) = true) {kind : NodeKind}
      (hkind : kind.isFree = true) (hbody : Course (.nodes kind.lists) (t.inside #[first]) u) :
      Course (.nodes l) s (u.close kind first.span.start outer)
  | list {s t u : State} (h : Course (.nodes .plain) s t)
      (hbody : Course (.nodes .none) (t.entered .stmtList) u) :
      Course (.nodes .plain) s (t.closed .stmtList u)
  | counted {s t u : State} (h : Course (.nodes .counted) s t)
      (hbody : Course (.nodes .none) ((t.raise .begins).entered .stmtList) u) :
      Course (.nodes .counted) s (((t.raise .begins).closed .stmtList u).lower .begins)
  -- The word is still ahead where the complaint is made, so that is its place.
  | nested {l : Lists} {s t u : State} (h : Course (.nodes l) s t) (hopen : t.begins ≠ 0)
      (hword : kindAhead 0 t.rest = .kwBegin)
      (hbody : Course (.nodes .counted) (t.aside.entered .beginStmt).consume u) :
      Course (.nodes l) s (t.closed .error (t.aside.closed .beginStmt u))

namespace Course

variable {g : Grade} {l : Lists} {s t u : State}

theorem trans (h : Course g s t) (h' : Course g t u) : Course g s u := by
  induction h' with
  | refl => exact h
  | looked _ ih => exact (ih h).looked
  | consume _ hreal ih => exact (ih h).consume hreal
  | complain _ hp ih => exact (ih h).complain hp
  | setCount _ hc n ih => exact (ih h).setCount hc n
  | node _ hkind hfree hbody ih _ => exact (ih h).node hkind hfree hbody
  | error _ hbody ih _ => exact (ih h).error hbody
  | around _ hout hfirst hkind hbody ih _ => exact (ih h).around hout hfirst hkind hbody
  | list _ hbody ih _ => exact (ih h).list hbody
  | counted _ hbody ih _ => exact (ih h).counted hbody
  | nested _ hopen hword hbody ih _ => exact (ih h).nested hopen hword hbody

theorem raise (h : Course g s t) {c : Counter} (hc : c ≠ .begins) : Course g s (t.raise c) :=
  h.setCount hc _

/-- A counter that is lowered without a fault is set. -/
theorem lower (h : Course g s t) {c : Counter} (hc : c ≠ .begins)
    (hfault : (t.lower c).fault = none) : Course g s (t.lower c) := by
  unfold State.lower at hfault ⊢
  split
  · next hzero =>
    rw [if_pos hzero] at hfault
    exact absurd hfault (State.fault_giveUp_ne_none _ t)
  · exact h.setCount hc _

end Course

/-! ## Steps whose runs are courses -/

/-- **Every run of the step is a course**, unless it gives up. -/
class Charted (g : Grade) (m : Step α) : Prop where
  /-- It does not make good a fault. -/
  unbroken (s : State) : (m s).2.fault = none → s.fault = none
  run (s : State) : (m s).2.fault = none → Course g s (m s).2

namespace Charted

variable {g : Grade} {l : Lists}

/-! ### Looks, moves and complaints -/

instance pure (a : α) : Charted g (Pure.pure a : Step α) := ⟨fun _ h => h, fun s _ => .refl g s⟩

instance bind (m : Step α) (f : α → Step β) [hm : Charted g m] [hf : ∀ a, Charted g (f a)] :
    Charted g (m >>= f) where
  unbroken s h := hm.unbroken s ((hf _).unbroken _ h)
  run s h := (hm.run s ((hf _).unbroken _ h)).trans ((hf _).run _ h)

/-- A step and what comes after it, where that is looked at by cases. -/
theorem andThen {m : Step α} {f : α → Step β} [Charted g m] (hf : ∀ a, Charted g (f a)) :
    Charted g (m >>= f) :=
  bind m f

instance map (f : α → β) (m : Step α) [hm : Charted g m] : Charted g (f <$> m) :=
  ⟨hm.unbroken, hm.run⟩

instance discard (m : Step α) [hm : Charted g m] : Charted g (Functor.discard m) :=
  ⟨hm.unbroken, hm.run⟩

instance ite (c : Prop) [Decidable c] (m m' : Step α) [hm : Charted g m] [hm' : Charted g m'] :
    Charted g (if c then m else m') := by
  split <;> assumption

instance giveUp (f : Fault) : Charted g (modify (State.giveUp f) : Step Unit) where
  unbroken s h := absurd h (State.fault_giveUp_ne_none f s)
  run s h := absurd h (State.fault_giveUp_ne_none f s)

/-- A step that only asks. -/
theorem of_still {m : Step α} (h : ∀ s, (m s).2 = s) : Charted g m where
  unbroken s hfault := by rwa [h] at hfault
  run s _ := by
    rw [h]
    exact .refl g s

instance isTooDeep : Charted g isTooDeep := of_still fun _ => rfl

instance isOutside : Charted g isOutside := of_still fun _ => rfl

instance textAhead (p : String → Bool) : Charted g (textAhead p) := of_still fun _ => rfl

/-- Where the reading goes on, a look at the next token tells its kind. -/
theorem look_sound {n : Nat} {s : State} (h : (look n s).2.fault = none) :
    s.fault = none ∧ look n s = (kindAhead n s.rest, s.looked) := by
  rcases run_look_cases n s with ⟨hs, -, hlook⟩ | hlost
  · exact ⟨hs, hlook⟩
  · rw [hlost] at h
    exact absurd h (State.fault_giveUp_ne_none _ s)

instance look (n : Nat) : Charted g (look n) where
  unbroken _ h := (look_sound h).1
  run s h := by
    rw [(look_sound h).2]
    exact (Course.refl g s).looked

instance current : Charted g current := look 0

instance isAt (kind : TokenKind) : Charted g (isAt kind) := by
  unfold Grammar.isAt
  infer_instance

instance complain (p : Problem) [hp : Fact (p.isFree = true)] : Charted g (complain p) :=
  ⟨fun _ h => h, fun s _ => (Course.refl g s).complain (Problem.isFree_iff.1 hp.out)⟩

/-- **A token is consumed where one is seen.** -/
theorem taking {m : TokenKind → Step α} (hunbroken : ∀ k s, (m k s).2.fault = none → s.fault = none)
    (hrun : ∀ k s, kindAhead 0 s.rest = k → (m k s).2.fault = none → Course g s (m k s).2) :
    Charted g (Grammar.current >>= m) where
  unbroken s h := (look 0 (g := g)).unbroken s (hunbroken _ _ h)
  run s h := by
    obtain ⟨-, hlook⟩ := look_sound (hunbroken _ _ h)
    rw [run_bind, Grammar.current, hlook] at h ⊢
    exact (Course.refl g s).looked.trans (hrun _ _ rfl h)

instance bumpAny : Charted g bumpAny := by
  refine taking (fun k s h => ?_) fun k s hk h => ?_
  · rw [run_ite] at h
    split at h
    · exact h
    · exact (State.fault_consume s).symm.trans h
  · rw [run_ite]
    split
    · exact .refl g s
    · next hreal => exact (Course.refl g s).consume fun hend => hreal (by rw [← hk, hend]; rfl)

instance bump (kind : TokenKind) [hkind : Fact (kind.isReal = true)] : Charted g (bump kind) := by
  refine taking (fun k s h => ?_) fun k s hk h => ?_
  all_goals
    rw [run_ite] at h
    split at h
  · exact (State.fault_consume s).symm.trans h
  · exact absurd h (State.fault_giveUp_ne_none _ s)
  · next hfound =>
    rw [run_ite, if_pos hfound]
    refine (Course.refl g s).consume fun hend => TokenKind.isReal_iff.1 hkind.out ?_
    rw [← eq_of_beq hfound, ← hk, hend]
  · exact absurd h (State.fault_giveUp_ne_none _ s)

instance eat (kind : TokenKind) [hkind : Fact (kind.isReal = true)] : Charted g (eat kind) where
  unbroken s h := by
    rw [run_eat] at h
    split at h
    · exact (current (g := g)).unbroken s ((State.fault_consume _).symm.trans h)
    · exact (current (g := g)).unbroken s h
  run s h := by
    rw [run_eat] at h ⊢
    split at h
    -- The word that is next was asked for, so it is not the end of the text and can be
    -- consumed.
    · next hfound =>
      rw [State.fault_consume] at h
      obtain ⟨-, hlook⟩ := look_sound h
      rw [if_pos hfound]
      refine ((current (g := g)).run s h).consume fun hend => TokenKind.isReal_iff.1 hkind.out ?_
      rw [Grammar.current, hlook] at hend hfound
      rw [← hfound]
      exact hend
    · next hmissing =>
      rw [if_neg hmissing]
      exact (current (g := g)).run s h

instance expect (kind : TokenKind) (wanted : Wanted) [Fact (kind.isReal = true)] :
    Charted g (expect kind wanted) := by
  unfold Grammar.expect
  infer_instance

/-! ### Nodes -/

/-- A step inside a node that was opened. -/
theorem unbroken_node {m : Step α} (hm : ∀ s : State, (m s).2.fault = none → s.fault = none)
    (kind : NodeKind) {s : State} (h : (Grammar.node kind m s).2.fault = none) :
    s.fault = none := by
  rw [run_node] at h
  have hopened : (s.opened kind).fault = none := hm (s.entered kind) h
  unfold State.opened at hopened
  split at hopened
  · exact hopened
  · rwa [State.shiftTrivia_eq State.fault_shift] at hopened

instance node (kind : NodeKind) (m : Step α) [hkind : Fact (kind.isFree = true)]
    [hm : Charted (.nodes kind.lists) m] : Charted (.nodes l) (node kind m) where
  unbroken _ := unbroken_node hm.unbroken kind
  run s h := by
    rw [run_node] at h ⊢
    obtain ⟨herror, hlist, hbegin⟩ := NodeKind.isFree_iff.1 hkind.out
    exact (Course.refl _ s).node ⟨herror, hlist⟩ (fun hkind => absurd hkind hbegin) (hm.run _ h)

instance error (m : Step α) [hm : Charted .tokens m] :
    Charted (.nodes l) (Grammar.node .error m) where
  unbroken _ := unbroken_node hm.unbroken .error
  run s h := by
    rw [run_node] at h ⊢
    exact (Course.refl _ s).error (hm.run _ h)

/-! ### Counters and loops -/

/-- Parentheses and the depth are put back by whoever changes them. -/
theorem counting {c : Counter} (hc : c ≠ .begins) {m : Step α} (hm : Charted g m) :
    Charted g (Grammar.within c m) where
  unbroken s h := by
    rw [run_within] at h
    exact (State.fault_setCount c _ s).symm.trans (hm.unbroken _ (State.fault_lower h))
  run s h := by
    rw [run_within] at h ⊢
    exact (((Course.refl g s).raise hc).trans (hm.run _ (State.fault_lower h))).lower hc h

instance raiseNesting : Charted g (modify (State.raise .nesting) : Step Unit) where
  unbroken s h := (State.fault_setCount .nesting _ s).symm.trans h
  run s _ := (Course.refl g s).raise (c := .nesting) (by decide)

instance withinParens (m : Step α) [hm : Charted g m] : Charted g (within .parens m) :=
  counting (by decide) hm

instance withinNesting (m : Step α) [hm : Charted g m] : Charted g (within .nesting m) :=
  counting (by decide) hm

instance withoutParens (m : Step α) [hm : Charted g m] : Charted g (withoutParens m) where
  unbroken s h := by
    rw [run_withoutParens, State.fault_setCount] at h
    exact (State.fault_setCount .parens 0 s).symm.trans (hm.unbroken _ h)
  run s h := by
    rw [run_withoutParens] at h ⊢
    rw [State.fault_setCount] at h
    have hparens : Counter.parens ≠ .begins := by decide
    exact (((Course.refl g s).setCount hparens 0).trans (hm.run _ h)).setCount hparens _

instance iterate (step : σ → Step (Option σ)) [h : ∀ x, Charted g (step x)] (n : Nat) (x : σ) :
    Charted g (iterate step n x) := by
  induction n generalizing x with
  | zero => exact giveUp .stuck
  | succ n ih =>
    have hturn : ∀ r : Option σ, Charted g (match r with
        | none => Pure.pure ()
        | some y => Grammar.iterate step n y : Step Unit) := by
      intro r
      cases r with
      | none => exact pure ()
      | some y => exact ih y
    exact bind (step x) _

end Charted

/-! ## Steps around the node built last -/

/-- Every run of the step is a course, unless it gives up. Where the first flag is set, a
node has to be built last in front of it; where the second one is set for what it answers,
a node is built last behind it. -/
structure Crowned (g : Grade) (before : Bool) (after : α → Bool) (m : Step α) : Prop where
  unbroken (s : State) : (m s).2.fault = none → s.fault = none
  run (s : State) : (before = true → s.Capped) → (m s).2.fault = none → Course g s (m s).2
  capped (s : State) : (before = true → s.Capped) → (m s).2.fault = none →
    after (m s).1 = true → (m s).2.Capped

namespace Crowned

variable {g : Grade} {l : Lists} {before : Bool} {after : α → Bool} {m : Step α}

theorem of_charted (h : Charted g m) : Crowned g before (fun _ => false) m :=
  ⟨h.unbroken, fun s _ => h.run s, fun _ _ _ h => absurd h Bool.false_ne_true⟩

/-- What is built last behind the step may be left unsaid. -/
theorem unsaid (h : Crowned g before after m) : Crowned g before (fun _ => false) m :=
  ⟨h.unbroken, h.run, fun _ _ _ h => absurd h Bool.false_ne_true⟩

/-- Nothing has to be built in front of the step. -/
theorem charted (h : Crowned g false after m) : Charted g m :=
  ⟨h.unbroken, fun s => h.run s (absurd · Bool.false_ne_true)⟩

/-- A node that is there already stays the last one. -/
theorem of_out (h : Charted g m) (hout : ∀ s, (m s).2.fault = none → (m s).2.out = s.out) :
    Crowned g before (fun _ => before) m where
  unbroken := h.unbroken
  run s _ := h.run s
  capped s hs hfault hbefore := by
    obtain ⟨outer, first, hlast, hfirst⟩ := hs hbefore
    exact ⟨outer, first, (hout s hfault).trans hlast, hfirst⟩

theorem pure {a : α} (h : after a = true → before = true) : Crowned g before after (Pure.pure a) :=
  ⟨fun _ h => h, fun s _ _ => .refl g s, fun _ hs _ ha => hs (h ha)⟩

theorem bind {between : α → Bool} {after : β → Bool} {f : α → Step β}
    (hm : Crowned g before between m) (hf : ∀ a, Crowned g (between a) after (f a)) :
    Crowned g before after (m >>= f) where
  unbroken s h := hm.unbroken s ((hf _).unbroken _ h)
  run s hs h :=
    have hfault := (hf _).unbroken _ h
    (hm.run s hs hfault).trans ((hf _).run _ (hm.capped s hs hfault) h)
  capped s hs h := (hf _).capped _ (hm.capped s hs ((hf _).unbroken _ h)) h

theorem map {after : β → Bool} {f : α → β} (hm : Crowned g before (fun a => after (f a)) m) :
    Crowned g before after (f <$> m) :=
  ⟨hm.unbroken, hm.run, hm.capped⟩

theorem look (n : Nat) : Crowned g before (fun _ => before) (look n) :=
  of_out (Charted.look n) fun s h => by
    rw [(Charted.look_sound h).2]
    rfl

theorem current : Crowned g before (fun _ => before) current := look 0

theorem isTooDeep : Crowned g before (fun _ => before) isTooDeep :=
  of_out Charted.isTooDeep fun _ _ => rfl

/-- A node that is built is the last one. -/
theorem node {kind : NodeKind} (hkind : kind ≠ .stmtList)
    (h : Charted (.nodes l) (Grammar.node kind m)) :
    Crowned (.nodes l) before (fun _ => true) (Grammar.node kind m) where
  unbroken := h.unbroken
  run s _ := h.run s
  capped s _ _ _ := by
    rw [run_node]
    exact ⟨_, _, rfl, bne_iff_ne.2 hkind⟩

/-- **A node is built around the last one.** -/
theorem nodeAround (kind : NodeKind) [hkind : Fact (kind.isFree = true)]
    [hm : Charted (.nodes kind.lists) m] :
    Crowned (.nodes l) true (fun _ => true) (nodeAround kind m) := by
  -- What was built last is a node, so the new one is put around it.
  have hlast {s : State} (hs : s.Capped) : ∃ first outer, s.out = outer.push first
      ∧ first.isNode (· != .stmtList) = true ∧ Grammar.nodeAround kind m s
        = ((m (s.inside #[first])).1,
          (m (s.inside #[first])).2.close kind first.span.start outer) := by
    obtain ⟨outer, first, hout, hfirst⟩ := hs
    cases first with
    | leaf => cases hfirst
    | node inner span cs =>
      have hback : s.out.back? = some (.node inner span cs) := by rw [hout, Array.back?_push]
      refine ⟨_, outer, hout, hfirst, ?_⟩
      rw [run_nodeAround hback, hout, Array.pop_push]
      rfl
  refine ⟨fun s h => ?_, fun s hs h => ?_, fun s hs _ _ => ?_⟩
  · by_cases hback : ∃ inner span cs, s.out.back? = some (.node inner span cs)
    · obtain ⟨inner, span, cs, hback⟩ := hback
      rw [run_nodeAround hback] at h
      exact hm.unbroken (s.inside #[.node inner span cs]) h
    · rw [run_nodeAround_none fun inner span cs hlast => hback ⟨_, _, _, hlast⟩] at h
      exact absurd (Charted.unbroken_node hm.unbroken kind h) (State.fault_giveUp_ne_none _ s)
  · obtain ⟨first, outer, hout, hfirst, hrun⟩ := hlast (hs rfl)
    rw [hrun] at h ⊢
    exact (Course.refl _ s).around hout hfirst hkind.out (hm.run _ h)
  · obtain ⟨first, outer, -, -, hrun⟩ := hlast (hs rfl)
    rw [hrun]
    exact ⟨_, _, rfl, bne_iff_ne.2 (NodeKind.isFree_iff.1 hkind.out).2.1⟩

theorem withinNesting (h : Crowned g before after m) :
    Crowned g before after (within .nesting m) where
  unbroken s hs := by
    rw [run_within] at hs
    exact (State.fault_setCount .nesting _ s).symm.trans (h.unbroken _ (State.fault_lower hs))
  run s hs hfault := by
    rw [run_within] at hfault ⊢
    -- The depth of nesting is not the number of open blocks, so that the course may change it.
    have hnesting : Counter.nesting ≠ .begins := by decide
    exact (((Course.refl g s).raise hnesting).trans (h.run _ hs (State.fault_lower hfault))).lower
      hnesting hfault
  capped s hs hfault hafter := by
    rw [run_within] at hfault hafter ⊢
    obtain ⟨outer, first, hout, hfirst⟩ :=
      h.capped (s.raise .nesting) hs (State.fault_lower hfault) hafter
    exact ⟨outer, first, (State.out_lower _ _).trans hout, hfirst⟩

/-- **A climb keeps a node last**, if its steps do. -/
theorem climb {check : Step (Option β)} {act : β → Step Bool}
    (hcheck : Crowned g true (fun _ => true) check)
    (hact : ∀ b, Crowned g true (fun _ => true) (act b)) (turns : Nat) :
    Crowned g true (fun _ => true) (climb check act turns) := by
  have hraise : Crowned g true (fun _ => true) (modify (State.raise .nesting) : Step Unit) :=
    of_out Charted.raiseNesting fun s _ => State.out_setCount _ _ s
  -- Each turn ends with a node on top, as it started, and so does any number of them.
  have hturn : Crowned g true (fun _ => true) (climbTurn check act) := by
    unfold Grammar.climbTurn
    refine hcheck.bind fun found => ?_
    cases found with
    | none => exact pure fun _ => rfl
    | some b =>
      refine hraise.bind fun _ => (hact b).bind fun again => ?_
      cases again <;> exact pure fun _ => rfl
  have hturns :
      Crowned g true (fun _ => true) (iterate (fun _ => climbTurn check act) turns ()) := by
    induction turns with
    | zero =>
      exact ⟨(Charted.giveUp .stuck (g := g)).unbroken, fun s _ => (Charted.giveUp .stuck).run s,
        fun s _ h => absurd h (State.fault_giveUp_ne_none _ s)⟩
    | succ n ih =>
      refine hturn.bind fun found => ?_
      cases found with
      | none => exact pure fun _ => rfl
      | some _ => exact ih
  have hnesting : Counter.nesting ≠ .begins := by decide
  unfold Grammar.climb
  refine ⟨fun s h => ?_, fun s hs h => ?_, fun s hs h _ => ?_⟩
  -- Giving the nesting back changes neither the fault nor what was built.
  all_goals
    rw [run_restoring] at h
    rw [State.fault_setCount] at h
  · exact hturns.unbroken s h
  · rw [run_restoring]
    exact (hturns.run s hs h).setCount hnesting _
  · obtain ⟨outer, first, hout, hfirst⟩ := hturns.capped s hs h rfl
    rw [run_restoring]
    exact ⟨outer, first, (State.out_setCount _ _ _).trans hout, hfirst⟩

end Crowned

end Grammar

end ScriptSense
