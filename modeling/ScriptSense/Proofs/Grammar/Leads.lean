/-
From what holds in front of a step to what holds behind it.

`Leads calm p m q` is about all that the rules of expressions go by: what is built of the
node under construction, and the kind of the next token. If `p` holds of the two and the
step does not give up, then `q` holds of its answer and of the two behind it; in a calm
place no parentheses are open. Counters, looks and complaints take no part, so a
construct that only counts leads where its body does.

There is one rule for each way in which steps are put together. A node is entered with
nothing built and left with one element more (`Leads.node`); a node around the one built
last is entered with that and takes its place (`Leads.nodeAround`). A loop is left where
its step answers nothing (`Leads.iterate`), and so is a climb (`Leads.climb`).
-/
import ScriptSense.Proofs.Grammar.Made
import ScriptSense.Proofs.Grammar.Tandem

set_option autoImplicit false

namespace ScriptSense

namespace Grammar

open ScriptSense.Tree (leavesOfAll)

variable {α β σ : Type}

/-! ## Tokens that are consumed -/

/-- A token of a kind as it is consumed: with the trivia in front of it and, outside of
calm places, perhaps with line breaks behind it. -/
def Bite (calm : Bool) (kind : TokenKind) (moved : List Token) : Prop :=
  ∃ (trivia : List Token) (t : Token) (layout : List Token), moved = trivia ++ t :: layout
    ∧ (∀ t ∈ trivia, t.kind.isTrivia = true) ∧ t.kind = kind
    ∧ (∀ t ∈ layout, t.kind.isTrivia = true ∨ t.kind = .newline) ∧ (calm = true → layout = [])

/-- What a consumed token adds is the token with its trivia, and line breaks only behind an open
parenthesis. -/
theorem bite_consume {calm : Bool} {s : State} (hkind : kindAhead 0 s.rest ≠ .eof)
    (hcalm : calm = true → s.parens = 0) : ∃ moved : List Token,
      s.consume.out.toList = s.out.toList ++ moved.map .leaf
        ∧ Bite calm (kindAhead 0 s.rest) moved := by
  have hahead := State.kindAhead_zero s.rest
  rw [← State.rest_shiftTrivia] at hahead
  obtain ⟨t, ts, hrest⟩ : ∃ t ts, s.shiftTrivia.rest = t :: ts := by
    cases hrest : s.shiftTrivia.rest with
    | nil =>
      rw [hrest] at hahead
      exact absurd hahead hkind
    | cons t ts => exact ⟨t, ts, rfl⟩
  rw [hrest] at hahead
  have hshift : s.shiftTrivia.shift.out.toList = s.out.toList
      ++ (s.rest.take (s.rest.takeWhile (·.kind.isTrivia)).length ++ [t]).map .leaf := by
    rw [State.shift_of_rest hrest, Array.toList_push, State.shiftTrivia, State.toList_out_shiftMany,
      List.append_assoc, ← List.map_singleton, ← List.map_append]
  have hparens : s.shiftTrivia.shift.parens = s.parens :=
    (State.count_shift .parens _).trans (State.count_shiftTrivia .parens s)
  have hconsume : s.consume.out = s.shiftTrivia.shift.shiftBreaks.out := rfl
  rw [hconsume, State.shiftBreaks, hparens]
  -- Line breaks are passed over behind the token only where a parenthesis is open.
  by_cases hopen : 0 < s.parens
  · rw [if_pos hopen, State.toList_out_shiftMany, hshift, List.append_assoc, ← List.map_append,
      List.append_assoc]
    refine ⟨_, rfl, _, t, _, rfl, fun _ => State.isTrivia_of_mem_take, hahead.symm,
      fun _ => State.mem_take_breaksAhead, fun hc => ?_⟩
    rw [hcalm hc] at hopen
    exact absurd hopen (Nat.lt_irrefl 0)
  · rw [if_neg hopen, hshift]
    exact ⟨_, rfl, _, t, [], rfl, fun _ => State.isTrivia_of_mem_take, hahead.symm, by simp,
      fun _ => rfl⟩

/-! ## Leaves that are added -/

/-- Whatever is made of the makings adds leaves to what is built, and takes them from
what is ahead. -/
theorem Made.advances {f : String → Bool} {m : Step α} (h : Made f m) (s : State) :
    Advances s (m s).2 := by
  have hr := advances_frame
  induction h generalizing s with
  | pure => exact hr.refl s
  | bind _ _ hm hg => exact hr.trans (hm s) (hg _ _)
  | map _ _ hm => exact hm s
  | look n =>
    rcases run_look_cases n s with ⟨-, -, hlook⟩ | hlost
    · rw [hlook]
      exact hr.look s
    · rw [hlost]
      exact hr.giveUp _ s
  | textAhead | isTooDeep | isOutside => exact hr.refl s
  | consume => exact hr.consume s
  | complain p => exact hr.complain p s
  | giveUp f => exact hr.giveUp f s
  | raise c => exact advances_moves.setCount c _ s
  | lower c => exact advances_moves.lower c s
  | setCount c n => exact advances_moves.setCount c n s
  | restoring c _ hm => exact hr.trans (hm s) (advances_moves.setCount c _ _)
  | node k _ hm => exact hr.node k hm s
  | nodeAround k _ hm =>
    -- Without a node on top there is nothing to put the new one around, so the parser gives up.
    by_cases hlast : ∃ first span children, s.out.back? = some (.node first span children)
    · obtain ⟨first, span, children, hlast⟩ := hlast
      obtain ⟨outer, hout⟩ := Array.back?_eq_some_iff.1 hlast
      rw [run_nodeAround hlast, hout, Array.pop_push]
      exact advances_close k _ (by rw [hout, Array.push_eq_append]) (hm _)
    · rw [run_nodeAround_none fun first span children hback => hlast ⟨_, _, _, hback⟩]
      exact hr.trans (hr.giveUp _ s) (hr.node k hm _)
  | iterate _ n x hstep => exact hr.iterate hstep n x s

/-! ## The judgement -/

/-- What can be said of the elements built and of the kind of the next token. -/
abbrev Outlook := List Tree → TokenKind → Prop

/-- **From where `p` holds, the step leads to where `q` does**, unless it gives up. -/
structure Leads (calm : Bool) (p : Outlook) (m : Step α) (q : α → Outlook) : Prop where
  later (s : State) : s.Later (m s).2
  run {s : State} : (calm = true → s.parens = 0) → p s.out.toList (kindAhead 0 s.rest) →
    (m s).2.fault = none → q (m s).1 (m s).2.out.toList (kindAhead 0 (m s).2.rest)

namespace Leads

variable {calm : Bool} {p p' : Outlook} {m : Step α} {q q' : α → Outlook} {f : α → Step β}
  {t : β → Outlook}

/-! ## What is put together -/

/-- More may be known in front, and less is known behind. -/
theorem mono (h : Leads calm p m q) (hp : ∀ ts k, p' ts k → p ts k)
    (hq : ∀ a ts k, q a ts k → q' a ts k) : Leads calm p' m q' :=
  ⟨h.later, fun hcalm hs hfault => hq _ _ _ (h.run hcalm (hp _ _ hs) hfault)⟩

/-- More may be known in front of a step. -/
theorem given (h : Leads calm p m q) (hp : ∀ ts k, p' ts k → p ts k) : Leads calm p' m q :=
  h.mono hp fun _ _ _ => id

/-- Less may be said of what is behind a step. -/
theorem giving (h : Leads calm p m q) (hq : ∀ a ts k, q a ts k → q' a ts k) : Leads calm p m q' :=
  h.mono (fun _ _ => id) hq

/-- Two things that a step leads to hold together. -/
theorem and (h : Leads calm p m q) (h' : Leads calm p' m q') :
    Leads calm (fun ts k => p ts k ∧ p' ts k) m fun a ts k => q a ts k ∧ q' a ts k :=
  ⟨h.later, fun hcalm hs hfault => ⟨h.run hcalm hs.1 hfault, h'.run hcalm hs.2 hfault⟩⟩

/-- A step that leads there from either outlook leads there from both. -/
theorem or (h : Leads calm p m q) (h' : Leads calm p' m q) :
    Leads calm (fun ts k => p ts k ∨ p' ts k) m q :=
  ⟨h.later, fun hcalm hs hfault =>
    hs.elim (fun hs => h.run hcalm hs hfault) fun hs => h'.run hcalm hs hfault⟩

/-- A step that is coupled to itself leads somewhere. -/
theorem anywhere {r : State → State → Prop} (h : Coupled r calm m m) :
    Leads calm p m fun _ _ _ => True :=
  ⟨h.later, fun _ _ _ => trivial⟩

/-- An answer leaves the outlook as it is. -/
theorem pure (a : α) (h : ∀ ts k, p ts k → q a ts k) : Leads calm p (Pure.pure a) q :=
  ⟨State.Later.refl, fun _ hs _ => h _ _ hs⟩

/-- What the first step leads to is what the second begins with. -/
theorem bind (hm : Leads calm p m q) (hf : ∀ a, Leads calm (q a) (f a) t) :
    Leads calm p (m >>= f) t where
  later s := (hm.later s).trans ((hf _).later _)
  run {s} hcalm hs hfault := by
    have hbehind := hm.run hcalm hs (((hf _).later _).unbroken hfault)
    exact (hf _).run (fun hc => (hm.later s).parens.trans (hcalm hc)) hbehind hfault

/-- The answer may be changed. -/
theorem map {g : α → β} (hm : Leads calm p m fun a => t (g a)) : Leads calm p (g <$> m) t :=
  ⟨hm.later, hm.run⟩

/-- The answer may be dropped. -/
theorem discard {q : Outlook} (hm : Leads calm p m fun _ => q) :
    Leads calm p (Functor.discard m) fun _ => q :=
  ⟨hm.later, hm.run⟩

/-- A choice, of which the condition is known on both ways. -/
theorem ite {c : Prop} [Decidable c] {m' : Step α} (h : c → Leads calm p m q)
    (h' : ¬ c → Leads calm p m' q) : Leads calm p (if c then m else m') q := by
  split
  · next hc => exact h hc
  · next hc => exact h' hc

/-- Where nothing is left of what was needed, anything follows. -/
theorem absurd [hself : Coupled Eq calm m m] (h : ∀ ts k, ¬ p ts k) : Leads calm p m q :=
  ⟨hself.later, fun _ hs => (h _ _ hs).elim⟩

/-! ## Looks, moves and complaints -/

/-- Behind a fault nothing has to be shown. -/
theorem giveUp (f : Fault) {q : Unit → Outlook} : Leads calm p (modify (State.giveUp f)) q :=
  ⟨State.Later.giveUp f, fun {s} _ _ hfault => (State.fault_giveUp_ne_none f s hfault).elim⟩

/-- A look leaves the outlook as it is. -/
theorem look (n : Nat) : Leads calm p (look n) fun _ => p := by
  refine ⟨Coupled.later_look n, fun {s} _ hs hfault => ?_⟩
  rcases run_look_cases n s with ⟨-, -, hlook⟩ | hlost
  · rw [hlook]
    exact hs
  · rw [hlost] at hfault
    exact (State.fault_giveUp_ne_none _ _ hfault).elim

/-- Behind a look at the next token its kind is known. -/
theorem current : Leads calm p current fun kind ts k => p ts k ∧ kind = k := by
  refine ⟨Coupled.later_look 0, fun {s} _ hs hfault => ?_⟩
  rcases run_look_cases 0 s with ⟨-, -, hlook⟩ | hlost
  · rw [Grammar.current, hlook]
    exact ⟨hs, rfl⟩
  · rw [Grammar.current, hlost] at hfault
    exact (State.fault_giveUp_ne_none _ _ hfault).elim

/-- Behind a test of the next token it is known whether it was there. -/
theorem isAt (kind : TokenKind) :
    Leads calm p (isAt kind) fun there ts k => p ts k ∧ there = (k == kind) :=
  current.bind fun _ => .pure _ fun _ _ h => ⟨h.1, by rw [h.2]⟩

/-- Behind a test for the end of the line it is known whether it was there. -/
theorem atLineEnd :
    Leads calm p atLineEnd fun ends ts k => p ts k ∧ ends = (k == .newline || k == .eof) :=
  current.bind fun _ => .pure _ fun _ _ h => ⟨h.1, by rw [h.2]⟩

/-- Asking for the depth leaves the outlook as it is. -/
theorem isTooDeep : Leads calm p isTooDeep fun _ => p := ⟨State.Later.refl, fun _ hs _ => hs⟩

/-- A look at the spelling of a word leaves the outlook as it is. -/
theorem textAhead (f : String → Bool) : Leads calm p (textAhead f) fun _ => p :=
  ⟨State.Later.refl, fun _ hs _ => hs⟩

/-- So does a look whether a word is a function. -/
theorem atFunction (R : Rules) : Leads calm p (atFunction R) fun _ => p :=
  (isAt .ident).bind fun _ =>
    .ite (fun _ => (textAhead _).given fun _ _ h => h.1) fun _ => .pure _ fun _ _ h => h.1

/-- So does a complaint. -/
theorem complain (problem : Problem) : Leads calm p (complain problem) fun _ => p :=
  ⟨Coupled.later_complain problem, fun _ hs _ => hs⟩

/-- Behind a token consumed, it is the last of the elements, but for layout. -/
theorem consume (hp : ∀ ts k, p ts k → k ≠ .eof) :
    Leads calm p (modify State.consume) fun _ ts _ => ∃ (before : List Tree) (k : TokenKind)
      (moved : List Token), p before k ∧ ts = before ++ moved.map .leaf ∧ Bite calm k moved := by
  refine ⟨State.Later.consume, fun {s} hcalm hs _ => ?_⟩
  obtain ⟨moved, hout, hbite⟩ := bite_consume (hp _ _ hs) hcalm
  exact ⟨_, _, moved, hs, hout, hbite⟩

/-- Any token is taken with the layout around it. Of the next one nothing is known. -/
theorem bumpAny (hp : ∀ ts k, p ts k → k ≠ .eof) :
    Leads calm p bumpAny fun _ ts _ => ∃ (before : List Tree) (k : TokenKind)
      (moved : List Token), p before k ∧ ts = before ++ moved.map .leaf ∧ Bite calm k moved := by
  refine current.bind fun kind => ite (fun hkind => .pure _ fun ts k h => ?_) fun _ => ?_
  · exact (hp ts k h.1 (h.2 ▸ eq_of_beq hkind)).elim
  · exact (consume fun ts k h => hp ts k h.1).giving fun _ _ _ ⟨before, k, moved, h, hts⟩ =>
      ⟨before, k, moved, h.1, hts⟩

/-- Whatever comes next, only tokens are added. -/
theorem bumpTokens : Leads calm p Grammar.bumpAny fun _ ts _ =>
    ∃ (before : List Tree) (k : TokenKind) (moved : List Token),
      p before k ∧ ts = before ++ moved.map .leaf := by
  refine current.bind fun kind => ite (fun _ => .pure _ fun ts k h => ?_) fun _ => ?_
  · exact ⟨ts, k, [], h.1, by simp⟩
  · refine ⟨State.Later.consume, fun {s} _ hs _ => ?_⟩
    obtain ⟨trivia, next, layout, hout, -⟩ := s.toList_out_consume
    exact ⟨_, _, _, hs.1, hout⟩

/-- A certain token is taken with the layout around it, or it is known not to be next. -/
theorem eat {kind : TokenKind} (hkind : kind ≠ .eof) :
    Leads calm p (eat kind) fun there ts k =>
      there = true ∧ (∃ (before : List Tree) (moved : List Token), p before kind
          ∧ ts = before ++ moved.map .leaf ∧ Bite calm kind moved)
        ∨ there = false ∧ p ts k ∧ k ≠ kind := by
  refine (isAt kind).bind fun found => ?_
  cases found with
  | true =>
    refine ((consume fun ts k h => ?_).bind fun _ => .pure true ?_)
    · rw [eq_of_beq h.2.symm]
      exact hkind
    · rintro ts k ⟨before, k', moved, ⟨hbefore, hk'⟩, hts, hbite⟩
      obtain rfl := eq_of_beq hk'.symm
      exact .inl ⟨rfl, before, moved, hbefore, hts, hbite⟩
  | false => exact .pure false fun ts k h => .inr ⟨rfl, h.1, by simpa using h.2.symm⟩

/-- So is a token that is expected. -/
theorem expect {kind : TokenKind} (hkind : kind ≠ .eof) (wanted : Wanted) :
    Leads calm p (expect kind wanted) fun there ts k =>
      there = true ∧ (∃ (before : List Tree) (moved : List Token), p before kind
          ∧ ts = before ++ moved.map .leaf ∧ Bite calm kind moved)
        ∨ there = false ∧ p ts k ∧ k ≠ kind :=
  (eat hkind).bind fun found => .ite (fun _ => .pure found fun _ _ h => h) fun _ =>
    (complain _).bind fun _ => .pure found fun _ _ h => h

/-- A token that is taken for certain was next. -/
theorem bump {kind : TokenKind} (hkind : kind ≠ .eof) :
    Leads calm p (bump kind) fun _ ts _ => ∃ (before : List Tree) (moved : List Token),
      p before kind ∧ ts = before ++ moved.map .leaf ∧ Bite calm kind moved := by
  refine current.bind fun found => .ite (fun hfound => ?_) fun _ => .giveUp _
  obtain rfl := eq_of_beq hfound
  have hseen : ∀ ts k, p ts k ∧ found = k → k ≠ .eof := fun ts k h => h.2 ▸ hkind
  refine (consume hseen).giving ?_
  rintro _ ts _ ⟨before, k, moved, ⟨hbefore, rfl⟩, hts, hbite⟩
  exact ⟨before, moved, hbefore, hts, hbite⟩

/-- Leaves are only added: what they say of the text that more of it cannot change stays. -/
theorem grown (f : String → Bool) [hm : Made f m] [hself : Coupled Eq calm m m]
    {p : List Token → Prop} (hp : ∀ ts moved, p ts → p (ts ++ moved)) :
    Leads calm (fun ts _ => p (leavesOfAll ts)) m fun _ ts _ => p (leavesOfAll ts) := by
  refine ⟨hself.later, fun {s} _ hs _ => ?_⟩
  obtain ⟨moved, -, hout⟩ := hm.advances s
  rw [hout]
  exact hp _ moved hs

/-! ## Nodes -/

/-- Behind a node, it is the last of the elements, with layout in front of it. -/
theorem node {kind : NodeKind} {p : List Tree → Prop} {inner : TokenKind → Prop}
    (hm : Leads calm (fun ts k => ts = [] ∧ inner k) m q) :
    Leads calm (fun ts k => p ts ∧ inner k) (node kind m) fun a ts k =>
      ∃ (before : List Tree) (trivia : List Token) (span : Span) (children : List Tree), p before
        ∧ (∀ t ∈ trivia, t.kind.isTrivia = true)
        ∧ ts = before ++ trivia.map .leaf ++ [.node kind span children] ∧ q a children k := by
  refine ⟨Coupled.later_node hm.later kind, fun {s} hcalm hs hfault => ?_⟩
  obtain ⟨trivia, hout, htrivia⟩ := Formal.toList_out_node kind m s
  rw [← List.append_assoc] at hout
  rw [run_node] at hfault
  have hcalm' (hc : calm = true) : ((s.opened kind).inside #[]).parens = 0 :=
    (State.Later.opened kind s).parens.trans (hcalm hc)
  -- Entering the node passes only trivia, so the same word is next inside.
  have hkind : kindAhead 0 ((s.opened kind).inside #[]).rest = kindAhead 0 s.rest :=
    State.kindAhead_opened kind s
  refine ⟨_, trivia, _, _, hs.1, htrivia, hout, ?_⟩
  rw [run_node]
  exact hm.run hcalm' ⟨rfl, by rw [hkind]; exact hs.2⟩ hfault

/-- The same with nothing known of what is in the node. -/
theorem addNode {kind : NodeKind} (hlater : ∀ s : State, s.Later (Grammar.node kind m s).2) :
    Leads calm p (Grammar.node kind m) fun _ ts _ => ∃ (before : List Tree) (k : TokenKind)
      (trivia : List Token) (span : Span) (children : List Tree), p before k
        ∧ (∀ t ∈ trivia, t.kind.isTrivia = true)
        ∧ ts = before ++ trivia.map .leaf ++ [.node kind span children] := by
  refine ⟨hlater, fun {s} _ hs _ => ?_⟩
  obtain ⟨trivia, hout, htrivia⟩ := Formal.toList_out_node kind m s
  rw [← List.append_assoc] at hout
  exact ⟨_, _, trivia, _, _, hs, htrivia, hout⟩

/-- Behind a node around the one built last, it stands in the place of that. -/
theorem nodeAround {kind : NodeKind} {q : List Tree → Tree → α → Outlook}
    (hlater : ∀ s : State, s.Later (m s).2)
    (hm : ∀ before x, Leads calm (fun ts k => ts = [x] ∧ p (before ++ [x]) k) m (q before x)) :
    Leads calm p (nodeAround kind m) fun a ts k => ∃ (before : List Tree) (x : Tree) (span : Span)
      (children : List Tree), x.isNode (fun _ => true) = true
        ∧ ts = before ++ [.node kind span children] ∧ q before x a children k := by
  refine ⟨Coupled.later_nodeAround hlater kind, fun {s} hcalm hs hfault => ?_⟩
  obtain ⟨first, span, cs, outer, hout, hrun⟩ := Coupled.last_of_nodeAround hlater hfault
  rw [hrun] at hfault ⊢
  have hlist : s.out.toList = outer.toList ++ [.node first span cs] := by
    rw [hout, Array.toList_push]
  rw [hlist] at hs
  have hinner := (hm outer.toList (.node first span cs)).run
    (s := s.inside #[.node first span cs]) hcalm ⟨rfl, hs⟩ hfault
  exact ⟨outer.toList, .node first span cs, ⟨span.start, _⟩, _, rfl, Array.toList_push, hinner⟩

/-! ## Counters -/

/-- A counter that is raised around a step has no part in the outlook. -/
theorem withinInner {inner : Bool} (c : Counter) (hm : Leads inner p m q)
    (hc : inner = true → calm = true ∧ c ≠ .parens) : Leads calm p (Grammar.within c m) q where
  later s := by
    rw [run_within]
    exact .lower_raise (hm.later _)
  run {s} hcalm hs hfault := by
    rw [run_within] at hfault ⊢
    rw [State.out_lower, State.rest_lower]
    refine hm.run (fun h => ?_) ?_ (State.fault_lower hfault)
    · exact (State.count_raise_of_ne (hc h).2.symm s).trans (hcalm (hc h).1)
    · rwa [State.raise, State.out_setCount, State.rest_setCount]

/-- A counter other than the one of the parentheses keeps a calm step calm. -/
theorem within (c : Counter) (hm : Leads calm p m q) (hc : c ≠ .parens) :
    Leads calm p (Grammar.within c m) q :=
  withinInner c hm fun h => ⟨h, hc⟩

/-- Between parentheses no place is calm. -/
theorem withinParens (hm : Leads false p m q) : Leads calm p (Grammar.within .parens m) q :=
  withinInner .parens hm nofun

/-- With the open parentheses put aside, the step inside is calm. -/
theorem withoutParens (hm : Leads true p m q) : Leads calm p (withoutParens m) q where
  later := Coupled.later_withoutParens hm.later
  run {s} _ hs hfault := by
    rw [run_withoutParens] at hfault ⊢
    rw [State.fault_setCount] at hfault
    rw [State.out_setCount, State.rest_setCount]
    exact hm.run (fun _ => rfl) (by rwa [State.out_setCount, State.rest_setCount]) hfault

/-! ## Loops -/

/-- A loop is left where its step answers nothing. -/
theorem iterate {step : σ → Step (Option σ)} {p q : Outlook}
    (h : ∀ x, Leads calm p (step x) fun found ts k => if found.isSome then p ts k else q ts k)
    (n : Nat) (x : σ) : Leads calm p (iterate step n x) fun _ => q := by
  induction n generalizing x with
  | zero => exact .giveUp .stuck
  | succ n ih =>
    refine (h x).bind fun found => ?_
    cases found with
    | none => exact .pure () fun _ _ h => h
    | some y => exact ih y

/-- A loop whose turns keep an outlook leads to what its last turn leads to. -/
theorem loop {step : Step Bool} {p q : Outlook}
    (h : Leads calm p step fun again ts k => if again then p ts k else q ts k) (R : Rules) :
    Leads calm p (R.loop step) fun _ => q := by
  refine iterate (fun _ => h.bind fun again => ?_) _ _
  cases again <;> exact .pure _ fun _ _ h => h

/-- A climb is left where its check answers nothing or its act answers `false`. -/
theorem climb {check : Step (Option β)} {act : β → Step Bool} {p q : Outlook} {mid : β → Outlook}
    (hcheck : Leads calm p check fun found ts k => found.elim (q ts k) fun b => mid b ts k)
    (hact : ∀ b, Leads calm (mid b) (act b) fun again ts k => if again then p ts k else q ts k)
    (n : Nat) : Leads calm p (climb check act n) fun _ => q := by
  have hdepth : Counter.nesting ≠ .parens := by decide
  have hraise {p : Outlook} : Leads calm p (modify (State.raise .nesting)) fun _ => p :=
    ⟨fun s => State.Later.setCount hdepth _ s, fun _ hs _ => hs⟩
  have hturns : Leads calm p (Grammar.iterate (fun _ => climbTurn check act) n ()) fun _ => q := by
    refine iterate (fun _ => hcheck.bind fun found => ?_) n ()
    cases found with
    | none => exact .pure _ fun _ _ h => h
    | some b =>
      refine hraise.bind fun _ => (hact b).bind fun again => ?_
      cases again <;> exact .pure _ fun _ _ h => h
  refine ⟨fun s => (hturns.later s).trans (.setCount hdepth _ _), fun {s} hcalm hs hfault => ?_⟩
  exact hturns.run hcalm hs hfault

end Leads

end Grammar

end ScriptSense
