/-
The reading that writes down events beside the reading that builds a tree.

The two states belong together if they stand at the same token with the same counters
and the same looks, and if playing what was written down since some state leads from
there to where the tree has come (`Follows`). Each move that both readings can make has
a lemma here: a look, a token that is consumed, a complaint, a change of a counter.

The two readings do not name their nodes in the same way. One hands on where the start
of a node stands among the events, the other takes the element built last. What has to
be known so that the two agree is on which node the events end (`Known`): a node around
another can be written down only where that other one is the last. After an operand at
the limit of nesting it is not, for what is set aside comes behind it; but then no
operator comes next, and nobody asks.
-/
import ScriptSense.Proofs.Grammar.Budget
import ScriptSense.Proofs.Record.Playing

set_option autoImplicit false

namespace ScriptSense.Record

open Grammar (Counter kindAhead breaksAhead)

variable {σ : Type} {f : String → Bool}

/-! ## The tokens ahead -/

/-- The tokens that the grammar sees. -/
def seen (ts : List Token) : List Token := ts.filter (!·.kind.isTrivia)

/-- Leading trivia is never seen. -/
theorem seen_dropWhile (ts : List Token) : seen (ts.dropWhile (·.kind.isTrivia)) = seen ts := by
  induction ts with
  | nil => rfl
  | cons t ts ih =>
    by_cases h : t.kind.isTrivia
    · simpa [seen, h] using ih
    · simp [h]

/-- The input that is left is what is seen of the tokens that are left. -/
theorem input_eq (s : Grammar.State) : s.input = (seen s.rest).map Token.kind := by
  rw [Grammar.State.input, seen, List.filter_map]
  rfl

/-- **Both readings stand at the same token.** -/
structure Sees (f : String → Bool) (r : State) (s : Grammar.State) : Prop where
  kinds : r.input.kinds.toList.drop r.place = (seen s.rest).map Token.kind
  functions : r.input.functions.toList.drop r.place
    = (seen s.rest).map fun t => t.kind == .ident && f t.text

namespace Sees

variable {r r' : State} {s t : Grammar.State}

/-- Only the tokens ahead matter. -/
theorem congr (h : Sees f r s) (hinput : r'.input = r.input) (hplace : r'.place = r.place)
    (hseen : seen t.rest = seen s.rest) : Sees f r' t where
  kinds := by rw [hinput, hplace, hseen, h.kinds]
  functions := by rw [hinput, hplace, hseen, h.functions]

/-- The token that many ahead is of the same kind on both sides. -/
theorem kind (h : Sees f r s) (n : Nat) : r.input.kind (r.place + n) = kindAhead n s.rest := by
  rw [Input.kind, ← Array.getElem?_toList, ← List.getElem?_drop, h.kinds, ← input_eq,
    Grammar.kindAhead_eq, List.getD_eq_getElem?_getD]
  rfl

/-- A word ahead has the same spelling on both sides, so it is the same function. -/
theorem isFunction (h : Sees f r s) (hident : kindAhead 0 s.rest = .ident) :
    r.input.isFunction r.place = (Grammar.textAhead f s).1 := by
  have hfind : s.rest.find? (!·.kind.isTrivia) = (seen s.rest).head? := by
    rw [seen, List.head?_filter]
  have hfirst : r.input.functions[r.place]? = (r.input.functions.toList.drop r.place)[0]? := by
    rw [List.getElem?_drop, Nat.add_zero, Array.getElem?_toList]
  change _ = (s.rest.find? (!·.kind.isTrivia)).any fun t => f t.text
  rw [Input.isFunction, hfirst, h.functions, hfind]
  rw [Grammar.kindAhead_eq, ← Grammar.State.input, input_eq] at hident
  cases hseen : seen s.rest with
  | nil => rfl
  | cons t ts =>
    have ht : t.kind = .ident := by simpa [hseen] using hident
    simp [ht]

/-- As many line breaks lie ahead on both sides. -/
theorem breaksFrom (h : Sees f r s) :
    r.input.breaksFrom r.place = (s.input.takeWhile (· == .newline)).length := by
  rw [Input.breaksFrom, h.kinds, input_eq]

/-- Both move over a token. -/
theorem moved (h : Sees f r s) (hinput : r'.input = r.input) (hplace : r'.place = r.place + 1)
    (hrest : t.rest = s.shiftTrivia.shift.rest) : Sees f r' t := by
  have hseen : seen t.rest = (seen s.rest).tail := by
    rw [hrest, Grammar.State.rest_shift_shiftTrivia, ← seen_dropWhile s.rest]
    cases hrest : s.rest.dropWhile (·.kind.isTrivia) with
    | nil => rfl
    | cons u us =>
      have hu : u.kind.isTrivia = false := by
        have := List.head_dropWhile_not (·.kind.isTrivia) (l := s.rest) (by simp [hrest])
        simpa [hrest] using this
      simp [seen, hu]
  constructor
  · rw [hinput, hplace, ← List.drop_drop, h.kinds, hseen, List.drop_one, List.map_tail]
  · rw [hinput, hplace, ← List.drop_drop, h.functions, hseen, List.drop_one, List.map_tail]

end Sees

/-! ## What is known of the record -/

/-- What is known when a step begins, besides that both readings stand at the same place. -/
inductive Known where
  /-- Nothing more. -/
  | nothing
  /-- The kind of the next token. -/
  | next (kind : TokenKind)
  /-- The last events are those of the node. -/
  | built (b : Built)
  /-- The same, or no operator comes next. -/
  | operand (b : Built)

/-- Where a record is looked at from: the events in front, and how far they lead. -/
structure Setting where
  /-- The token behind all others. -/
  eof : Token
  kind_eof : eof.kind = .eof
  /-- The events in front. -/
  front : List Event
  /-- The state to which they lead. -/
  start : Grammar.State

namespace Setting

/-- The events behind those in front lead to the state. -/
def Written (c : Setting) (events : List Event) (s : Grammar.State) : Prop :=
  ∃ es, events = c.front ++ es ∧ Plays c.eof es c.start s

/-- The events behind those in front lead to the state, and the last of them are those of
the node. -/
def WrittenLast (c : Setting) (b : Built) (events : List Event) (s : Grammar.State) : Prop :=
  ∃ es place, events = c.front ++ es ∧ b.place = c.front.length + place
    ∧ Builds c.eof es place c.start s

end Setting

namespace Known

/-- What is known holds of some events and of the state to which they lead. -/
def Holds (c : Setting) (events : List Event) (s : Grammar.State) : Known → Prop
  | nothing => c.Written events s
  | next kind => c.Written events s ∧ s.head = kind
  | built b => c.WrittenLast b events s
  | operand b => c.WrittenLast b events s ∨ c.Written events s ∧ s.head.binaryPower? = none

/-- What is known after a look at the next token. -/
def seen (kind : TokenKind) : Known → Known
  | nothing | next _ => next kind
  | built b => built b
  | operand b => if kind.binaryPower?.isSome then built b else operand b

/-- What of it is known inside a node that begins here. -/
def inside : Known → Known
  | next kind => next kind
  | _ => nothing

/-- What is known behind a turn of a loop. -/
def ofTurn (inv fin : σ → Known) : ForInStep σ → Known
  | .done x => fin x
  | .yield x => inv x

variable {c : Setting} {es : List Event} {s t : Grammar.State} {k : Known}

/-- Whatever is known, the events lead to the state. -/
theorem Holds.written (h : k.Holds c es s) : c.Written es s := by
  have hlast {b : Built} (h : c.WrittenLast b es s) : c.Written es s := by
    obtain ⟨es', place, hes, -, hbuilds⟩ := h
    exact ⟨es', hes, hbuilds.plays⟩
  cases k with
  | nothing => exact h
  | next => exact h.1
  | built => exact hlast h
  | operand => exact h.elim hlast fun h => h.1

/-- What is known of the record depends on the text, the tree and the complaints alone. -/
theorem Holds.congr (h : k.Holds c es s) (ht : Same s t) : k.Holds c es t := by
  have hhead : t.head = s.head := by rw [Grammar.State.head, ht.rest, Grammar.State.head]
  have hwritten (h : c.Written es s) : c.Written es t := by
    obtain ⟨es', hes, hplays⟩ := h
    exact ⟨es', hes, hplays.congr (.refl _) ht⟩
  have hlast {b : Built} (h : c.WrittenLast b es s) : c.WrittenLast b es t := by
    obtain ⟨es', place, hes, hplace, hbuilds⟩ := h
    exact ⟨es', place, hes, hplace, hbuilds.congr ht⟩
  cases k with
  | nothing => exact hwritten h
  | next => exact ⟨hwritten h.1, hhead.trans h.2⟩
  | built => exact hlast h
  | operand => exact h.imp hlast fun h => ⟨hwritten h.1, hhead ▸ h.2⟩

/-- After a look, the kind of the next token is known. -/
theorem Holds.seen (h : k.Holds c es s) : (k.seen s.head).Holds c es s := by
  cases k with
  | nothing => exact ⟨h, rfl⟩
  | next => exact ⟨h.1, rfl⟩
  | built => exact h
  | operand b =>
    -- Having seen an operator, the operand is known to be the node that was built last.
    by_cases hsome : s.head.binaryPower?.isSome = true
    · have hseen : (operand b).seen s.head = built b := if_pos hsome
      rw [hseen]
      refine h.resolve_right fun hnone => ?_
      rw [hnone.2] at hsome
      cases hsome
    · have hseen : (operand b).seen s.head = operand b := if_neg hsome
      rw [hseen]
      exact h

end Known

/-! ## States that belong together -/

/-- **The two states belong together.** They stand at the same place, and the events
written down lead to the state of the tree. -/
structure Follows (f : String → Bool) (c : Setting) (known : Known) (r : State)
    (s : Grammar.State) : Prop where
  fault : s.fault = none
  looks : r.looks = s.looks
  count (n : Counter) : r.count n = s.count n
  noEnd : ∀ t ∈ s.rest, t.kind ≠ .eof
  sees : Sees f r s
  known : known.Holds c r.events.toList s

namespace Follows

variable {c : Setting} {known : Known} {r r' : State} {s t : Grammar.State}

/-- States that belong together still do when less is said of the record. -/
theorem weaken (h : Follows f c known r s) {known' : Known}
    (hknown : known'.Holds c r.events.toList s) : Follows f c known' r s :=
  { h with known := hknown }

/-! ### Looks -/

/-- A look counts on both sides. What it finds is known from then on. -/
theorem looked (h : Follows f c known r s) :
    Follows f c (known.seen s.head) { r with looks := r.looks + 1 } s.looked where
  fault := h.fault
  looks := congrArg (· + 1) h.looks
  count n := by
    have hcount := h.count n
    cases n <;> exact hcount
  noEnd := h.noEnd
  sees := h.sees.congr rfl rfl rfl
  known := (h.known.congr (t := s.looked) ⟨rfl, rfl, rfl, rfl⟩).seen

/-- Where the reading of the tree goes on, the other one goes on as well. -/
theorem look (h : Follows f c known r s) {n : Nat} (hfault : (Grammar.look n s).2.fault = none) :
    look n r = .ok (kindAhead n s.rest, { r with looks := r.looks + 1 })
      ∧ Grammar.look n s = (kindAhead n s.rest, s.looked) := by
  have hlooks : s.looks ≤ Grammar.lookLimit := by
    rcases Grammar.run_look_cases n s with ⟨-, hle, -⟩ | hlost
    · exact hle
    · rw [hlost] at hfault
      exact absurd hfault (Grammar.State.fault_giveUp_ne_none _ _)
  refine ⟨?_, Grammar.run_look h.fault hlooks n⟩
  have hlimit : ¬ Grammar.lookLimit < r.looks := by
    rw [h.looks]
    exact Nat.not_lt.2 hlooks
  rw [Record.look, if_neg hlimit, h.sees.kind n]

/-! ### Tokens -/

/-- A token is taken as what it is. -/
theorem take (h : Follows f c known r s) {kind : TokenKind} (hkind : kind ≠ .eof)
    (hhead : s.head = kind) :
    Follows f c .nothing (r.take kind) { s.shiftTrivia.shift with looks := 0 } where
  fault := by
    change s.shiftTrivia.shift.fault = none
    rw [Grammar.State.fault_shift, Grammar.State.shiftTrivia_eq Grammar.State.fault_shift, h.fault]
  looks := rfl
  count n := by
    have hcount := (Grammar.State.count_shift n s.shiftTrivia).trans
      (Grammar.State.count_shiftTrivia n s)
    have hsame := h.count n
    cases n <;> exact hsame.trans hcount.symm
  noEnd := by
    intro t ht
    have hsuffix : s.shiftTrivia.shift.rest <:+ s.rest := by
      rw [Grammar.State.rest_shift_shiftTrivia]
      exact (List.tail_suffix _).trans (List.dropWhile_suffix _)
    exact h.noEnd t (hsuffix.subset ht)
  sees := h.sees.moved rfl rfl rfl
  known := by
    -- The token is one more event, which plays as taking it and the trivia in front.
    obtain ⟨es, hes, hplays⟩ := h.known.written
    refine ⟨es ++ [.token kind 1], ?_, (hplays.append (.token c.kind_eof hkind hhead)).congr
      (.refl _) ⟨rfl, rfl, rfl, rfl⟩⟩
    simp [State.take, State.write, hes]

/-- Line breaks are taken one by one, and with the trivia in front of them. -/
theorem takeBreaks (h : Follows f c .nothing r s) (hlooks : s.looks = 0) {n : Nat}
    (hn : n = (s.input.takeWhile (· == .newline)).length) :
    Follows f c .nothing (r.takeBreaks n) (s.shiftMany (breaksAhead s.rest)) := by
  induction n generalizing r s with
  | zero =>
    -- The kinds ahead begin with no line break, so no break is passed in the tokens either.
    have hnone : kindAhead 0 s.rest ≠ .newline := by
      intro hbreak
      have hinput : s.input ≠ [] := Grammar.State.input_ne_nil (by
        rw [Grammar.State.head, hbreak]
        decide)
      obtain ⟨k, ks, hks⟩ := List.exists_cons_of_ne_nil hinput
      have hk : k = .newline := by
        have hhead := Grammar.State.head_eq s
        rw [hks] at hhead
        exact hhead.symm.trans hbreak
      rw [hks, hk] at hn
      simp at hn
    rw [Grammar.breaksAhead_eq_zero hnone]
    exact h
  | succ n ih =>
    have hbreak : s.head = .newline := by
      rw [Grammar.State.head_eq]
      cases hinput : s.input with
      | nil => simp [hinput] at hn
      | cons k ks =>
        by_contra hk
        rw [hinput, List.takeWhile_cons_of_neg (by simpa using hk)] at hn
        cases hn
    obtain ⟨ks, hks⟩ : ∃ ks, s.input = .newline :: ks := by
      rw [Grammar.State.head_eq] at hbreak
      cases hinput : s.input with
      | nil => simp [hinput] at hbreak
      | cons k ks =>
        rw [hinput] at hbreak
        exact ⟨ks, congrArg (· :: ks) hbreak⟩
    have hshift : s.shiftTrivia.shift.looks = 0 := by
      rw [Grammar.State.looks_shift, Grammar.State.shiftTrivia_eq Grammar.State.looks_shift, hlooks]
    have hsame : ({ s.shiftTrivia.shift with looks := 0 } : Grammar.State)
        = s.shiftTrivia.shift := by
      rw [← hshift]
    have htaken := h.take (by decide) hbreak
    rw [hsame] at htaken
    -- The breaks ahead are the first one, with the trivia in front, and those behind it.
    have hmany : s.shiftMany (breaksAhead s.rest)
        = s.shiftTrivia.shift.shiftMany (breaksAhead s.shiftTrivia.shift.rest) :=
      Grammar.State.shiftMany_breaksAhead hbreak
    rw [hmany]
    refine ih htaken hshift ?_
    rw [Grammar.State.input_shift_shiftTrivia, hks, List.tail_cons]
    rw [hks, List.takeWhile_cons_of_pos (by rfl), List.length_cons] at hn
    exact Nat.succ.inj hn

/-- **A token is consumed**, and between parentheses the line breaks behind it. -/
theorem consume (h : Follows f c known r s) (hhead : s.head ≠ .eof) :
    Follows f c .nothing (r.consume s.head) s.consume := by
  have htaken := h.take hhead rfl
  have hparens : (r.take s.head).parens = s.shiftTrivia.shift.parens := htaken.count .parens
  have hshift (t : Grammar.State) :
      ({ t with looks := 0 } : Grammar.State).shift = { t.shift with looks := 0 } := by
    cases t with
    | mk rest => cases rest <;> rfl
  -- The count of looks has no part in moving tokens.
  have hmany (n : Nat) (t : Grammar.State) :
      ({ t with looks := 0 } : Grammar.State).shiftMany n = { t.shiftMany n with looks := 0 } := by
    induction n generalizing t with
    | zero => rfl
    | succ n ih => rw [Grammar.State.shiftMany, hshift, ih, Grammar.State.shiftMany]
  have hconsume : s.consume
      = ({ s.shiftTrivia.shift with looks := 0 } : Grammar.State).shiftBreaks := by
    rw [Grammar.State.consume, Grammar.State.shiftBreaks, Grammar.State.shiftBreaks, hmany]
    split <;> rfl
  rw [hconsume]
  unfold State.consume Grammar.State.shiftBreaks
  dsimp only
  rw [hparens]
  split
  · refine htaken.takeBreaks rfl ?_
    rw [htaken.sees.breaksFrom]
  · exact htaken

/-! ### Complaints and counters -/

/-- A complaint is an event of the record and a complaint of the reading. -/
theorem complain (h : Follows f c known r s) (p : Problem) :
    Follows f c .nothing (r.write (.complaint p))
      { s with complaints := s.complaints.push ⟨p, s.place⟩ } where
  fault := h.fault
  looks := h.looks
  count n := by
    have hcount := h.count n
    cases n <;> exact hcount
  noEnd := h.noEnd
  sees := h.sees.congr rfl rfl rfl
  known := by
    obtain ⟨es, hes, hplays⟩ := h.known.written
    exact ⟨es ++ [.complaint p], by simp [State.write, hes],
      hplays.append (.complaint c.kind_eof h.noEnd p)⟩

/-- A counter that is set to the same value on both sides. -/
theorem setCount (h : Follows f c known r s) (n : Counter) (value : Nat) :
    Follows f c known (r.setCount n value) (s.setCount n value) where
  fault := by rw [Grammar.State.fault_setCount, h.fault]
  looks := by
    have hlooks := h.looks
    cases n <;> exact hlooks
  count m := by
    by_cases hm : m = n
    · rw [hm, count_setCount, Grammar.State.count_setCount]
    · rw [count_setCount_of_ne hm, Grammar.State.count_setCount_of_ne hm, h.count]
  noEnd := by
    rw [Grammar.State.rest_setCount]
    exact h.noEnd
  sees := by
    have hsees := h.sees
    cases n <;> exact hsees.congr rfl rfl rfl
  known := by
    have hsame : Same s (s.setCount n value) := by cases n <;> exact ⟨rfl, rfl, rfl, rfl⟩
    have hknown := h.known.congr hsame
    cases n <;> exact hknown

/-- A counter that is raised on both sides. -/
theorem raise (h : Follows f c known r s) (n : Counter) :
    Follows f c known (r.raise n) (s.raise n) := by
  rw [State.raise, Grammar.State.raise, h.count]
  exact h.setCount n _

/-- A counter that can be lowered in one state can be lowered in the other. -/
theorem lower (h : Follows f c known r s) {n : Counter} (hfault : (s.lower n).fault = none) :
    ∃ r', lower n r = .ok ((), r') ∧ Follows f c known r' (s.lower n) := by
  have hpos : s.count n ≠ 0 := by
    intro hzero
    rw [Grammar.State.lower, if_pos hzero] at hfault
    exact absurd hfault (Grammar.State.fault_giveUp_ne_none _ _)
  refine ⟨r.setCount n (r.count n - 1), ?_, ?_⟩
  · rw [Record.lower, run_bind_ok (run_get r), if_neg (by rwa [h.count])]
    rfl
  · rw [Grammar.State.lower, if_neg hpos, h.count]
    exact h.setCount n _

end Follows

end ScriptSense.Record
