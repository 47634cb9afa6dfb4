/-
The shape of the grammar, as a judgement on its steps.

Much of what is true of the grammar does not depend on what its rules say, only
on what they are made of. `Alike` lists the makings: two steps are alike if they
are put together in the same way from the same looks, moves and complaints. A
property that each of the makings has is then proved of the whole grammar by one
induction on the judgement, for one run as well as for two.

For two runs the judgement also tracks how closely they agree on what comes next
(`Sync`). Two texts that differ in their empty lines fall apart at the end of a
line only: there the first run may have line breaks ahead that the second has
not. The rules are written in such a way that the next to look is then always a
loop that passes over line breaks, and behind it both runs are in step again.

The number of levels and of turns takes no part in the judgement. Where one run
has none left it gives up, and a step that gives up is alike to any other.
-/
import ScriptSense.Proofs.Grammar.Running

set_option autoImplicit false

namespace ScriptSense.Grammar

/-! ## The judgement -/

/-- How closely two runs agree on what comes next. -/
inductive Sync where
  /-- The next token is the same, and it is no line break. -/
  | word
  /-- The next token is the same. -/
  | next
  /-- Behind the line breaks ahead in the first run, the next token is the same;
  in the second run there are none ahead. -/
  | fresh
  /-- Behind the line breaks ahead, the next token is the same. -/
  | breaks
deriving DecidableEq, Repr

namespace Sync

/-- The first agreement is at least as close as the second. -/
instance : LE Sync := ⟨fun i j => i = .word ∨ j = .breaks ∨ i = j⟩

instance (i j : Sync) : Decidable (i ≤ j) :=
  inferInstanceAs (Decidable (i = .word ∨ j = .breaks ∨ i = j))

/-- The agreement behind a look at the next token. -/
def seen (kind : TokenKind) : Sync := if kind = .newline then .next else .word

/-- The agreement behind a question that only a line break is answered with
`true`, or only a line break with `false`. -/
def asked (yes answer : Bool) : Sync := if answer = yes then .next else .word

theorem le_refl (i : Sync) : i ≤ i := .inr (.inr rfl)

theorem word_le (i : Sync) : word ≤ i := .inl rfl

theorem le_breaks (i : Sync) : i ≤ breaks := .inr (.inl rfl)

theorem seen_le (kind : TokenKind) : seen kind ≤ next := by
  unfold seen
  split <;> decide

end Sync

/-- A step passes over line breaks: in front of one it consumes it and answers
`again`, unless it gives up. -/
def Passes {α : Type} (again : α) (m : Step α) : Prop :=
  ∀ s, kindAhead 0 s.rest = .newline → (m s).2.fault = none → m s = (again, s.consume)

/-- A step takes nothing in front of a line break, unless it gives up. -/
def Stays {α : Type} (m : Step α) : Prop :=
  ∀ s, kindAhead 0 s.rest = .newline → (m s).2.fault = none → (m s).2.rest = s.rest

/-- **Two steps are put together in the same way.** The first of the two
agreements is needed in front of them, the second holds behind them and may
depend on what they answer. -/
inductive Alike : {α : Type} → Sync → (α → Sync) → Step α → Step α → Prop
  | pure {α : Type} {i : Sync} {o : α → Sync} (a : α) (h : i ≤ o a) :
      Alike i o (Pure.pure a) (Pure.pure a)
  | bind {α β : Type} {i : Sync} {j : α → Sync} {o : β → Sync} {m m' : Step α}
      {f f' : α → Step β} (hm : Alike i j m m') (hf : ∀ a, Alike (j a) o (f a) (f' a)) :
      Alike i o (m >>= f) (m' >>= f')
  | weaken {α : Type} {i i' : Sync} {o o' : α → Sync} {m m' : Step α} (hi : i' ≤ i)
      (ho : ∀ a, o a ≤ o' a) (h : Alike i o m m') : Alike i' o' m m'
  | current : Alike .next Sync.seen current current
  -- Two tokens ahead there may be a line break more in the first run.
  | look (n : Nat) (h : n ≤ 1) : Alike .word (fun _ => .word) (look n) (look n)
  | consume : Alike .word (fun _ => .next) (modify State.consume) (modify State.consume)
  | consumeBreak : Alike .next (fun _ => .breaks) (modify State.consume) (modify State.consume)
  | eatBreak :
      Alike .next (fun eaten => if eaten then .fresh else .word) (eat .newline) (eat .newline)
  | complain {i : Sync} (p : Problem) : Alike i (fun _ => i) (complain p) (complain p)
  | giveUp {i : Sync} {o : Unit → Sync} (f : Fault) :
      Alike i o (modify (State.giveUp f)) (modify (State.giveUp f))
  | lostLeft {α : Type} {i : Sync} {o : α → Sync} {m m' : Step α}
      (h : ∀ s, (m s).2.fault.isSome) (hm : Alike i o m m) (hm' : Alike i o m' m') :
      Alike i o m m'
  | lostRight {α : Type} {i : Sync} {o : α → Sync} {m m' : Step α}
      (h : ∀ s, (m' s).2.fault.isSome) (hm : Alike i o m m) (hm' : Alike i o m' m') :
      Alike i o m m'
  | isTooDeep {i : Sync} : Alike i (fun _ => i) isTooDeep isTooDeep
  | isOutside {i : Sync} : Alike i (fun _ => i) isOutside isOutside
  | atFunction {R R' : Rules} (h : R.isFunction = R'.isFunction) :
      Alike .next (fun _ => .next) (atFunction R) (atFunction R')
  | within {α : Type} {i : Sync} {o : α → Sync} {m m' : Step α} (c : Counter)
      (h : Alike i o m m') : Alike i o (within c m) (within c m')
  | withoutParens {α : Type} {i : Sync} {o : α → Sync} {m m' : Step α} (h : Alike i o m m') :
      Alike i o (withoutParens m) (withoutParens m')
  | climb {β : Type} {j : Sync} {check check' : Step (Option β)} {act act' : β → Step Bool}
      (n n' : Nat) (hcheck : Alike .next (fun r => if r.isSome then j else .next) check check')
      (hact : ∀ b, Alike j (fun _ => .next) (act b) (act' b)) :
      Alike .next (fun _ => .next) (climb check act n) (climb check' act' n')
  -- What is set aside is never made of line breaks alone.
  | node {α : Type} {i : Sync} {o : α → Sync} {m m' : Step α} (k : NodeKind)
      (hk : k ≠ .stmtList) (hi : i ≤ .next) (hset : k = .error → i = .word ∨ Stays m ∧ Stays m')
      (h : Alike i o m m') : Alike i o (node k m) (node k m')
  | nodeAround {α : Type} {i : Sync} {o : α → Sync} {m m' : Step α} (k : NodeKind)
      (hk : k ≠ .stmtList ∧ k ≠ .error) (hi : i ≤ .next) (h : Alike i o m m') :
      Alike i o (nodeAround k m) (nodeAround k m')
  | passing {σ : Type} {e : Sync} {step step' : σ → Step (Option σ)} (n n' : Nat) (x : σ)
      (hp : ∀ x, Passes (some x) (step x)) (hp' : ∀ x, Passes (some x) (step' x))
      (h : ∀ x, Alike .word (fun r => if r.isSome then .breaks else e) (step x) (step' x)) :
      Alike .breaks (fun _ => e) (iterate step n x) (iterate step' n' x)
  -- The one node that is opened where a line break may be ahead in one run only. Too
  -- deep down it is set aside, and then it may be made of line breaks alone.
  | block (R R' : Rules) {m m' : Step Unit}
      (hskip : ∀ opened, Alike .word (fun _ => .next) (skipWord opened) (skipWord opened))
      (h : Alike .breaks (fun _ => .next) m m') :
      Alike .fresh (fun _ => .next)
        (node .stmtList do if ← isTooDeep then deepBlock R else m)
        (node .stmtList do if ← isTooDeep then deepBlock R' else m')

namespace Alike

variable {α β : Type} {i : Sync} {o : α → Sync} {m m' : Step α}

theorem map {f : α → β} {o : β → Sync} (h : Alike i (fun a => o (f a)) m m') :
    Alike i o (f <$> m) (f <$> m') :=
  .bind h fun _ => .pure _ (Sync.le_refl _)

theorem discard (h : Alike i o m m') {j : Sync} (ho : ∀ a, o a ≤ j) :
    Alike i (fun _ => j) (Functor.discard m) (Functor.discard m') :=
  .bind h fun a => .pure _ (ho a)

/-- A node other than a block and other than what is set aside. -/
theorem plain {k : NodeKind} (hk : k ≠ .stmtList ∧ k ≠ .error) (hi : i ≤ .next)
    (h : Alike i o m m') : Alike i o (Grammar.node k m) (Grammar.node k m') :=
  .node k hk.1 hi (fun herror => absurd herror hk.2) h

/-- What is set aside from a word on. -/
theorem aside {m m' : Step α} (h : Alike .word o m m') :
    Alike .word o (Grammar.node .error m) (Grammar.node .error m') :=
  .node .error (by decide) (Sync.word_le _) (fun _ => .inl rfl) h

/-- The same steps where less is known of the two runs behind them. -/
theorem giving {o' : α → Sync} (h : Alike i o m m') (ho : ∀ a, o a ≤ o' a) : Alike i o' m m' :=
  .weaken (Sync.le_refl _) ho h

/-- The same steps where more is known of the two runs in front of them. -/
theorem given {i' : Sync} (h : Alike i o m m') (hi : i' ≤ i) : Alike i' o m m' :=
  .weaken hi (fun _ => Sync.le_refl _) h

end Alike

namespace Alike

/-- What is alike to something is alike to itself. -/
theorem left {α : Type} {i : Sync} {o : α → Sync} {m m' : Step α} (h : Alike i o m m') :
    Alike i o m m := by
  induction h with
  | pure a h => exact .pure a h
  | bind _ _ ihm ihf => exact .bind ihm ihf
  | weaken hi ho _ ih => exact .weaken hi ho ih
  | current => exact .current
  | look n h => exact .look n h
  | consume => exact .consume
  | consumeBreak => exact .consumeBreak
  | eatBreak => exact .eatBreak
  | complain p => exact .complain p
  | giveUp f => exact .giveUp f
  | lostLeft _ hm _ => exact hm
  | lostRight _ hm _ => exact hm
  | isTooDeep => exact .isTooDeep
  | isOutside => exact .isOutside
  | atFunction _ => exact .atFunction rfl
  | within c _ ih => exact .within c ih
  | withoutParens _ ih => exact .withoutParens ih
  | climb n n' _ _ ihcheck ihact => exact .climb n n ihcheck ihact
  | node k hk hi hset _ ih =>
    exact .node k hk hi (fun h => (hset h).imp id fun hstays => ⟨hstays.1, hstays.1⟩) ih
  | nodeAround k hk hi _ ih => exact .nodeAround k hk hi ih
  | passing n n' x hp _ _ ih => exact .passing n n x hp hp ih
  | block R R' hskip _ _ ih => exact .block R R hskip ih

theorem symm {α : Type} {i : Sync} {o : α → Sync} {m m' : Step α} (h : Alike i o m m') :
    Alike i o m' m := by
  induction h with
  | pure a h => exact .pure a h
  | bind _ _ ihm ihf => exact .bind ihm ihf
  | weaken hi ho _ ih => exact .weaken hi ho ih
  | current => exact .current
  | look n h => exact .look n h
  | consume => exact .consume
  | consumeBreak => exact .consumeBreak
  | eatBreak => exact .eatBreak
  | complain p => exact .complain p
  | giveUp f => exact .giveUp f
  | lostLeft h hm hm' => exact .lostRight h hm' hm
  | lostRight h hm hm' => exact .lostLeft h hm' hm
  | isTooDeep => exact .isTooDeep
  | isOutside => exact .isOutside
  | atFunction h => exact .atFunction h.symm
  | within c _ ih => exact .within c ih
  | withoutParens _ ih => exact .withoutParens ih
  | climb n n' _ _ ihcheck ihact => exact .climb n' n ihcheck ihact
  | node k hk hi hset _ ih => exact .node k hk hi (fun h => (hset h).imp id And.symm) ih
  | nodeAround k hk hi _ ih => exact .nodeAround k hk hi ih
  | passing n n' x hp hp' _ ih => exact .passing n' n x hp' hp ih
  | block R R' hskip _ _ ih => exact .block R' R hskip ih

theorem right {α : Type} {i : Sync} {o : α → Sync} {m m' : Step α} (h : Alike i o m m') :
    Alike i o m' m' :=
  h.symm.left

end Alike

/-! ## Looks and moves -/

theorem current_alike : Alike .next Sync.seen current current := .current

theorem look_one_alike_word : Alike .word (fun _ => .word) (look 1) (look 1) :=
  .look 1 (Nat.le_refl 1)

theorem current_alike_word : Alike .word (fun _ => .word) current current :=
  .look 0 (Nat.zero_le 1)

/-- A question about the next token that only a line break is answered with `yes`
to. -/
theorem asked_alike {yes : Bool} {p : TokenKind → Bool}
    (hp : ∀ k, p k ≠ yes → k ≠ .newline) :
    Alike .next (Sync.asked yes) (do return p (← current)) (do return p (← current)) := by
  refine .bind current_alike fun k => .pure _ ?_
  unfold Sync.asked Sync.seen
  split
  · next h =>
    split
    · exact Sync.le_refl _
    · next hne => exact absurd h (hp k hne)
  · exact Sync.word_le _

/-- A token of a kind other than the line break is asked for. -/
theorem isAt_alike {kind : TokenKind} (h : kind ≠ .newline) :
    Alike .next (Sync.asked false) (isAt kind) (isAt kind) :=
  asked_alike (p := (· == kind)) fun k hk => by
    rintro rfl
    simp [h.symm] at hk

theorem isAt_alike_word (kind : TokenKind) :
    Alike .word (fun _ => .word) (isAt kind) (isAt kind) :=
  .bind current_alike_word fun _ => .pure _ (Sync.le_refl _)

theorem atLineEnd_alike : Alike .next (Sync.asked true) atLineEnd atLineEnd :=
  asked_alike (p := fun k => k == .newline || k == .eof) fun k hk => by
    rintro rfl
    simp at hk

theorem bumpAny_alike_word : Alike .word (fun _ => .next) bumpAny bumpAny := by
  refine .bind current_alike_word fun k => ?_
  split
  · exact .pure _ (Sync.word_le _)
  · exact .consume

theorem bumpAny_alike : Alike .next (fun _ => .breaks) bumpAny bumpAny := by
  refine .bind current_alike fun k => ?_
  split
  · exact .pure _ (Sync.le_breaks _)
  · exact Alike.consumeBreak.given (Sync.seen_le k)

theorem eat_alike {kind : TokenKind} (h : kind ≠ .newline) :
    Alike .next (fun _ => .next) (eat kind) (eat kind) := by
  refine .bind (isAt_alike h) fun there => ?_
  dsimp only
  split
  · next hthere =>
    subst hthere
    exact .bind .consume fun _ => .pure _ (Sync.le_refl _)
  · next hthere =>
    refine .pure _ ?_
    simp only [Bool.not_eq_true] at hthere
    subst hthere
    exact Sync.le_refl _

theorem eat_newline_alike_word :
    Alike .word (fun b => if b then .breaks else .word) (eat .newline) (eat .newline) :=
  .weaken (Sync.word_le _) (fun eaten => by cases eaten <;> decide) .eatBreak

end ScriptSense.Grammar
