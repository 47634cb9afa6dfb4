/-
What a step may spend: looks, tokens and levels.

A rule of the grammar either leaves the tokens ahead as they are, or it consumes
some. In the first case it may add a few looks to those taken since the last
token. In the second case the count began anew, and what stands at the end are
the looks that were taken on the way out of the constructs the last token was in.
Each of these is one level of nesting, so the bound falls by `unwinding` looks
with every level and by the time the outermost rule returns it is
`unwinding * nestingLimit` and a few more, which is well below `lookLimit`.

`Goes skip take` states this of two states; `Took take` is the second case alone.
Both are closed under composition with plain arithmetic on the two numbers. What
a rule needs in front of it is `Ready`: enough levels for the tokens ahead, and
few enough looks.
-/
import ScriptSense.Proofs.Grammar.Frame

set_option autoImplicit false

namespace ScriptSense.Grammar

/-! ## The tokens ahead, as the rules see them -/

namespace State

/-- The kinds of the tokens ahead, trivia left out. -/
def input (s : State) : List TokenKind := (s.rest.map Token.kind).filter (!·.isTrivia)

/-- The kind of the next token. -/
def head (s : State) : TokenKind := kindAhead 0 s.rest

end State

/-- A look reads the kinds of the tokens, without the trivia. -/
theorem kindAhead_eq (n : Nat) (ts : List Token) :
    kindAhead n ts = ((ts.map Token.kind).filter (!·.isTrivia)).getD n .eof := by
  induction ts generalizing n with
  | nil => simp [kindAhead]
  | cons t ts ih =>
    by_cases h : t.kind.isTrivia
    · cases n <;> simp [kindAhead, h, ih]
    · cases n <;> simp [kindAhead, h, ih]

/-! ### Line breaks -/

/-- Without a line break ahead there are none to pass over. -/
theorem breaksAhead_eq_zero {ts : List Token} (h : kindAhead 0 ts ≠ .newline) :
    breaksAhead ts = 0 := by
  induction ts with
  | nil => rfl
  | cons t ts ih =>
    unfold kindAhead at h
    unfold breaksAhead
    by_cases ht : t.kind.isTrivia
    · rw [if_pos ht] at h
      have hne : t.kind ≠ .newline := by
        intro hn
        rw [hn] at ht
        cases ht
      rw [if_neg (by simpa using hne), if_pos ht, ih h]
    · rw [if_neg ht] at h
      rw [if_neg (by simpa using h), if_neg ht]

/-- A line break and the trivia in front of it come before the line breaks behind. -/
theorem breaksAhead_of_newline {ts : List Token} (h : kindAhead 0 ts = .newline) :
    breaksAhead ts = (ts.takeWhile (·.kind.isTrivia)).length + 1
      + breaksAhead (ts.dropWhile (·.kind.isTrivia)).tail := by
  induction ts with
  | nil => cases h
  | cons t ts ih =>
    unfold kindAhead at h
    conv_lhs => unfold breaksAhead
    -- Trivia in front of the line break is counted, since a line break comes behind it.
    by_cases ht : t.kind.isTrivia
    · rw [if_pos ht] at h
      have hne : ¬ (t.kind == .newline) = true := by
        intro hbreak
        rw [eq_of_beq hbreak] at ht
        cases ht
      have htake : (t :: ts).takeWhile (·.kind.isTrivia) = t :: ts.takeWhile (·.kind.isTrivia) := by
        simp [ht]
      have hdrop : (t :: ts).dropWhile (·.kind.isTrivia) = ts.dropWhile (·.kind.isTrivia) := by
        simp [ht]
      rw [if_neg hne, if_pos ht, htake, hdrop, List.length_cons, ih h]
      split <;> omega
    · rw [if_neg ht] at h
      have hbreak : (t.kind == .newline) = true := beq_iff_eq.2 h
      rw [if_pos hbreak]
      simp [ht, Nat.add_comm]

/-! ### The input -/

namespace State

/-- The token ahead is the first one of the input. -/
theorem head_eq (s : State) : s.head = s.input.getD 0 .eof := kindAhead_eq 0 s.rest

/-- Where the text does not end, there is a token to consume. -/
theorem input_ne_nil {s : State} (h : s.head ≠ .eof) : s.input ≠ [] := by
  intro hnil
  rw [head_eq, hnil] at h
  exact h rfl

/-- States with the same tokens ahead have the same input. -/
theorem input_congr {s t : State} (h : s.rest = t.rest) : s.input = t.input := by
  rw [input, input, h]

/-- States with the same input have the same tokens to look at. -/
theorem kindAhead_congr {s t : State} (h : s.input = t.input) (n : Nat) :
    kindAhead n s.rest = kindAhead n t.rest := by
  rw [kindAhead_eq, kindAhead_eq]
  exact congrArg (·.getD n .eof) h

/-- States with the same input have the same token ahead. -/
theorem head_congr {s t : State} (h : s.input = t.input) : s.head = t.head :=
  kindAhead_congr h 0

/-- A look leaves the token ahead. -/
@[simp] theorem head_looked (s : State) : s.looked.head = s.head := rfl

/-- Trivia is no input. -/
theorem input_shiftTrivia (s : State) : s.shiftTrivia.input = s.input := by
  rw [input, input, rest_shiftTrivia]
  induction s.rest with
  | nil => rfl
  | cons t ts ih =>
    by_cases h : t.kind.isTrivia
    · simpa [h] using ih
    · simp [h]

/-- Tokens that are taken leave an end of the input. -/
theorem input_shiftMany_suffix (n : Nat) (s : State) : (s.shiftMany n).input <:+ s.input := by
  rw [input, input, rest_shiftMany]
  exact ((List.drop_suffix n s.rest).map Token.kind).filter _

/-- Behind trivia and a token stands the rest of the text. -/
theorem rest_shift_shiftTrivia (s : State) :
    s.shiftTrivia.shift.rest = (s.rest.dropWhile (·.kind.isTrivia)).tail := by
  rw [← rest_shiftTrivia, ← List.drop_one]
  exact rest_shiftMany 1 s.shiftTrivia

/-- Behind the trivia, the next token moved is the next token of the input. -/
theorem input_shift_shiftTrivia (s : State) : s.shiftTrivia.shift.input = s.input.tail := by
  rw [← input_shiftTrivia s, input, input, rest_shift_shiftTrivia, rest_shiftTrivia]
  cases hdrop : s.rest.dropWhile (·.kind.isTrivia) with
  | nil => rfl
  | cons t ts =>
    have ht : t.kind.isTrivia = false := by
      have := List.head_dropWhile_not (·.kind.isTrivia) (l := s.rest) (by simp [hdrop])
      simpa [hdrop] using this
    simp [ht]

/-- A token that is consumed leaves an end of what is behind it. -/
theorem input_consume_suffix (s : State) : s.consume.input <:+ s.input.tail := by
  rw [← input_shift_shiftTrivia]
  have hbreaks : s.shiftTrivia.shift.shiftBreaks.input <:+ s.shiftTrivia.shift.input := by
    unfold shiftBreaks
    split
    · exact input_shiftMany_suffix ..
    · exact List.suffix_refl _
  exact hbreaks

/-- Outside of parentheses exactly one token is consumed. -/
theorem input_consume {s : State} (h : s.parens = 0) : s.consume.input = s.input.tail := by
  have hparens : ¬ 0 < s.shiftTrivia.shift.parens := by
    have : s.shiftTrivia.shift.count .parens = s.count .parens := by
      rw [count_shift, count_shiftTrivia]
    simp only [count] at this
    omega
  rw [← input_shift_shiftTrivia]
  have hconsume : s.consume.rest = s.shiftTrivia.shift.rest := by
    rw [consume, shiftBreaks, if_neg hparens]
  exact input_congr hconsume

/-- A token that is consumed makes the input shorter. -/
theorem length_input_consume {s : State} (h : s.head ≠ .eof) :
    s.consume.input.length < s.input.length := by
  have hpos : 0 < s.input.length := List.length_pos_iff.2 (input_ne_nil h)
  have hle := (input_consume_suffix s).length_le
  rw [List.length_tail] at hle
  omega

/-- Line breaks are moved one by one. -/
theorem shiftMany_breaksAhead {s : State} (h : s.head = .newline) :
    s.shiftMany (breaksAhead s.rest)
      = s.shiftTrivia.shift.shiftMany (breaksAhead s.shiftTrivia.shift.rest) := by
  have hadd (m n : Nat) (s : State) : s.shiftMany (m + n) = (s.shiftMany m).shiftMany n := by
    induction m generalizing s with
    | zero => rw [Nat.zero_add, shiftMany]
    | succ m ih => rw [Nat.succ_add, shiftMany, ih, shiftMany]
  rw [breaksAhead_of_newline h, rest_shift_shiftTrivia, hadd, hadd]
  rfl

end State

/-! ## What a step spends -/

/-- The looks taken on the way out of one level of nesting. -/
def unwinding : Nat := 16

/-- The looks taken at most on the way out of the levels that are left below. -/
def unwound (s : State) : Nat := unwinding * (nestingLimit - s.count .nesting)

/-- From the first state to the second the reading went on, and some tokens were
consumed. -/
structure Took (take : Nat) (s t : State) : Prop where
  fault : t.fault = none
  count (c : Counter) : t.count c = s.count c
  length : t.input.length < s.input.length
  looks : t.looks ≤ unwound s + take

/-- From the first state to the second the reading went on, and either a few looks
were taken or some tokens consumed. -/
structure Goes (skip take : Nat) (s t : State) : Prop where
  fault : t.fault = none
  count (c : Counter) : t.count c = s.count c
  spent : t.input = s.input ∧ t.looks ≤ s.looks + skip
    ∨ t.input.length < s.input.length ∧ t.looks ≤ unwound s + take

/-- How much can be unwound is a matter of the depth alone. -/
theorem unwound_congr {s t : State} (h : t.count .nesting = s.count .nesting) :
    unwound t = unwound s := by
  rw [unwound, unwound, h]

namespace Took

variable {a b c d : Nat} {s t u : State}

/-- A step that has taken a token has gone on. -/
theorem goes (h : Took b s t) : Goes a b s t :=
  ⟨h.fault, h.count, .inr ⟨h.length, h.looks⟩⟩

/-- A step may be said to leave more looks spent than it does. -/
theorem weaken (h : Took b s t) (hb : b ≤ d) : Took d s t :=
  ⟨h.fault, h.count, h.length, by have := h.looks; omega⟩

/-- What a second step spends comes on top, unless it takes a token itself. -/
theorem trans (h : Took b s t) (h' : Goes c d t u) : Took (max (b + c) d) s u := by
  have hunwound := unwound_congr (h.count .nesting)
  have hlength := h.length
  have hlooks := h.looks
  refine ⟨h'.fault, fun c => (h'.count c).trans (h.count c), ?_, ?_⟩
  · rcases h'.spent with ⟨hinput, -⟩ | ⟨hless, -⟩
    · rwa [hinput]
    · omega
  · rcases h'.spent with ⟨-, hle⟩ | ⟨-, hle⟩ <;> omega

end Took

namespace Goes

variable {a b c d : Nat} {s t u : State}

/-- Where nothing is done nothing is spent. -/
theorem refl (h : s.fault = none) : Goes 0 0 s s :=
  ⟨h, fun _ => rfl, .inl ⟨rfl, Nat.le_refl _⟩⟩

/-- A step may be said to spend more than it does. -/
theorem weaken (h : Goes a b s t) (ha : a ≤ c) (hb : b ≤ d) : Goes c d s t := by
  refine ⟨h.fault, h.count, ?_⟩
  rcases h.spent with ⟨hinput, hle⟩ | ⟨hless, hle⟩
  · exact .inl ⟨hinput, by omega⟩
  · exact .inr ⟨hless, by omega⟩

/-- A step that takes a token makes all looks before it good. -/
theorem took (h : Goes a b s t) (h' : Took d t u) : Took d s u := by
  have hunwound := unwound_congr (h.count .nesting)
  have hlength := h'.length
  have hlooks := h'.looks
  refine ⟨h'.fault, fun c => (h'.count c).trans (h.count c), ?_, by omega⟩
  rcases h.spent with ⟨hinput, -⟩ | ⟨hless, -⟩
  · rwa [hinput] at hlength
  · omega

/-- What two steps spend is what the one and the other spend. -/
theorem trans (h : Goes a b s t) (h' : Goes c d t u) : Goes (a + c) (max (b + c) d) s u := by
  have hunwound := unwound_congr (h.count .nesting)
  refine ⟨h'.fault, fun c => (h'.count c).trans (h.count c), ?_⟩
  rcases h.spent with ⟨hinput, hle⟩ | ⟨hless, hle⟩
  · rcases h'.spent with ⟨hinput', hle'⟩ | ⟨hless', hle'⟩
    · exact .inl ⟨hinput'.trans hinput, by omega⟩
    · exact .inr ⟨by rwa [hinput] at hless', by omega⟩
  · rcases h'.spent with ⟨hinput', hle'⟩ | ⟨hless', hle'⟩
    · exact .inr ⟨by rwa [hinput'], by omega⟩
    · exact .inr ⟨by omega, by omega⟩

/-- A look spends one look. -/
theorem look (h : s.fault = none) : Goes 1 0 s s.looked :=
  ⟨h, fun c => by cases c <;> rfl, .inl ⟨rfl, Nat.le_refl _⟩⟩

/-- One more look. -/
theorem looked (h : Goes a b s t) : Goes (a + 1) (b + 1) s t.looked :=
  (h.trans (look h.fault)).weaken (Nat.le_refl _) (by omega)

end Goes

/-- One more look. -/
theorem Took.looked {b : Nat} {s t : State} (h : Took b s t) : Took (b + 1) s t.looked :=
  (h.trans (.look h.fault)).weaken (by omega)

/-- A token that is consumed leaves no look spent. -/
theorem took_consume {s : State} (hfault : s.fault = none) (h : s.head ≠ .eof) :
    Took 0 s s.consume :=
  ⟨(State.fault_consume s).trans hfault, fun c => State.count_consume c s,
    State.length_input_consume h, Nat.zero_le _⟩

/-! ## What a rule needs -/

/-- A rule may begin: the reading goes on, there are enough levels for the tokens
ahead, and not too many looks were taken. -/
structure Ready (R : Rules) (rank looks : Nat) (s : State) : Prop where
  fault : s.fault = none
  levels : 8 * s.input.length + rank ≤ R.turns
  looks : s.looks ≤ looks

/-- A look may be taken. -/
structure Room (s : State) : Prop where
  fault : s.fault = none
  looks : s.looks ≤ lookLimit

/-- There are levels to unwind up to the limit of nesting only. -/
theorem unwound_le (s : State) : unwound s ≤ 2048 := by
  unfold unwound unwinding nestingLimit
  omega

namespace Ready

variable {R : Rules} {m n l k a b : Nat} {s t : State}

/-- Behind a step that goes on, as much is ready as the step has left. -/
theorem goes (hs : Ready R n l s) (h : Goes a b s t) (hm : m ≤ n) (ha : l + a ≤ k)
    (hb : 2048 + b ≤ k) : Ready R m k t := by
  have hle := unwound_le s
  obtain ⟨-, hlevels, hlooks⟩ := hs
  rcases h.spent with ⟨hinput, hspent⟩ | ⟨hless, hspent⟩
  · exact ⟨h.fault, by rw [hinput]; omega, by omega⟩
  · exact ⟨h.fault, by omega, by omega⟩

/-- Behind a step that consumed a token, there are eight levels more than before. -/
theorem took (hs : Ready R n l s) (h : Took b s t) (hm : m ≤ n + 8) (hb : 2048 + b ≤ k) :
    Ready R m k t := by
  have hle := unwound_le s
  have hless := h.length
  have hspent := h.looks
  have hlevels := hs.levels
  exact ⟨h.fault, by omega, by omega⟩

/-- Who is ready has room for a look. -/
theorem room (hs : Ready R n l s) (hl : l ≤ lookLimit) : Room s :=
  ⟨hs.fault, Nat.le_trans hs.looks hl⟩

/-- Who is ready for much is ready for less. -/
theorem weaken (hs : Ready R n l s) (hm : m ≤ n) (hl : l ≤ k) : Ready R m k s :=
  ⟨hs.fault, Nat.le_trans (Nat.add_le_add_left hm _) hs.levels, Nat.le_trans hs.looks hl⟩

/-- A loop has a turn for every token ahead and one more. -/
theorem length_lt_turns (hs : Ready R n l s) (hn : 1 ≤ n) : s.input.length < R.turns := by
  have hlevels := hs.levels
  omega

end Ready

/-- Behind a step there is room for a look, if it has not spent too much. -/
theorem Goes.room {R : Rules} {n l a b : Nat} {s t : State} (h : Goes a b s t)
    (hs : Ready R n l s) (hl : l + a ≤ lookLimit) (hb : b ≤ 2048) : Room t :=
  (hs.goes (k := lookLimit) h (Nat.le_refl n) hl (by simp only [lookLimit]; omega)).room
    (Nat.le_refl _)

/-- Behind a token that was taken there is room for a look. -/
theorem Took.room {b : Nat} {s t : State} (h : Took b s t) (hb : b ≤ 2048) : Room t := by
  have hle := unwound_le s
  have hlooks := h.looks
  exact ⟨h.fault, by simp only [lookLimit]; omega⟩

end ScriptSense.Grammar
