/-
Two readings in step.

What two steps do that are put together in the same way (`Alike`) is the same, as far
as the meaning of a text goes, in front of two texts that differ in their layout only:
they answer the same, build the same but for the layout, complain about the same
things, and the texts behind them again differ in their layout only.

Of the two texts the second has every run of line breaks as a single one (`Settled`).
So the two readings need not be told apart in more than one way: where a rule has
consumed one line break, the first may have others ahead, the second has none. That is
how far the readings fall apart, and the levels of agreement of the judgement
(`Sync`) say where. Two texts with several line breaks each are compared by way of
a third one.

Nothing is said of readings that are given up.
-/
import ScriptSense.Proofs.Grammar.Headed
import ScriptSense.Proofs.Grammar.Sight
import ScriptSense.Proofs.Scanning
import ScriptSense.Proofs.Totality

set_option autoImplicit false

namespace ScriptSense.Grammar

open ScriptSense.Tree (bareOfAll)

variable {α β σ : Type}

/-! ## Runs of line breaks -/

/-- The token is a line break. -/
def isLineBreak (g : Glyph) : Bool := g.1 == .newline

/-- What stands behind the line breaks at the front. -/
def afterBreaks (gs : List Glyph) : List Glyph := gs.dropWhile isLineBreak

/-- **The tokens with every run of line breaks as a single one**, whatever characters
it is made of. -/
def squeeze : List Glyph → List Glyph
  | [] => []
  | g :: gs =>
    if isLineBreak g then (.newline, "") :: afterBreaks (squeeze gs) else g :: squeeze gs

/-- Every run of line breaks is a single one. -/
def Settled (gs : List Glyph) : Prop := squeeze gs = gs

/-- What is built of tokens alone. -/
def marks (gs : List Glyph) : List Bare := (gs.filter (!isLineBreak ·)).map .leaf

section Breaks

variable {g : Glyph} {gs : List Glyph}

/-- Of a run of line breaks a single one is left, without its characters. -/
theorem squeeze_break (hg : isLineBreak g = true) :
    squeeze (g :: gs) = (.newline, "") :: afterBreaks (squeeze gs) := if_pos hg

/-- A word is left as it is. -/
theorem squeeze_word (hg : isLineBreak g = false) : squeeze (g :: gs) = g :: squeeze gs :=
  if_neg (by simp [hg])

/-- A line break at the front is passed over. -/
theorem afterBreaks_break (hg : isLineBreak g = true) : afterBreaks (g :: gs) = afterBreaks gs :=
  List.dropWhile_cons_of_pos hg

/-- In front of a word there is nothing to pass over. -/
theorem afterBreaks_word (hg : isLineBreak g = false) : afterBreaks (g :: gs) = g :: gs :=
  List.dropWhile_cons_of_neg (by simp [hg])

/-- Behind the line breaks there are no more of them. -/
@[simp] theorem afterBreaks_afterBreaks (gs : List Glyph) :
    afterBreaks (afterBreaks gs) = afterBreaks gs :=
  List.dropWhile_idempotent ..

/-- The first token is of the same kind, squeezed or not. -/
@[simp] theorem kindOf_squeeze (gs : List Glyph) : kindOf (squeeze gs) = kindOf gs := by
  cases gs with
  | nil => rfl
  | cons g gs =>
    cases hg : isLineBreak g with
    | true =>
      rw [squeeze_break hg]
      exact (eq_of_beq hg).symm
    | false => rw [squeeze_word hg, kindOf_cons, kindOf_cons]

/-- Where no line break is next there is nothing to pass over. -/
theorem afterBreaks_of_kindOf (h : kindOf gs ≠ .newline) : afterBreaks gs = gs := by
  cases gs with
  | nil => rfl
  | cons g gs => exact afterBreaks_word (by simpa [isLineBreak] using h)

/-- It does not matter whether line breaks are squeezed before or after they are passed over. -/
theorem squeeze_afterBreaks (gs : List Glyph) :
    squeeze (afterBreaks gs) = afterBreaks (squeeze gs) := by
  induction gs with
  | nil => rfl
  | cons g gs ih =>
    cases hg : isLineBreak g with
    | true =>
      rw [afterBreaks_break hg, ih, squeeze_break hg, afterBreaks_break rfl,
        afterBreaks_afterBreaks]
    | false =>
      have hkind : kindOf (squeeze (g :: gs)) ≠ .newline := by
        rw [kindOf_squeeze, kindOf_cons]
        simpa [isLineBreak] using hg
      rw [afterBreaks_word hg, afterBreaks_of_kindOf hkind]

/-- **Squeezed line breaks are single ones.** -/
theorem settled_squeeze (gs : List Glyph) : Settled (squeeze gs) := by
  unfold Settled
  induction gs with
  | nil => rfl
  | cons g gs ih =>
    cases hg : isLineBreak g with
    | true =>
      rw [squeeze_break hg, squeeze_break rfl, squeeze_afterBreaks, ih, afterBreaks_afterBreaks]
    | false => rw [squeeze_word hg, squeeze_word hg, ih]

/-- Single line breaks stay single behind the first token. -/
theorem Settled.tail (h : Settled gs) : Settled gs.tail := by
  cases gs with
  | nil => exact h
  | cons g gs =>
    cases hg : isLineBreak g with
    | true =>
      have hrest := congrArg List.tail h
      rw [squeeze_break hg, List.tail_cons] at hrest
      change squeeze gs = gs
      rw [List.tail_cons] at hrest
      rw [← hrest, squeeze_afterBreaks, settled_squeeze]
    | false =>
      rw [Settled, squeeze_word hg, List.cons.injEq] at h
      exact h.2

/-- Single line breaks stay single behind those at the front. -/
theorem Settled.afterBreaks (h : Settled gs) : Settled (afterBreaks gs) := by
  rw [Settled, squeeze_afterBreaks, h]

end Breaks

/-- The token means something, unless it is trivia or a line break. -/
theorem bare_leaf_of_not_trivia {t : Token} (ht : t.kind.isTrivia = false) :
    (Tree.leaf t).bare = marks [t.glyph] := by
  have hsig : t.kind.isSignificant = !isLineBreak t.glyph := by
    simp [TokenKind.isSignificant, ht, isLineBreak, bne]
  rw [Tree.bare_leaf, hsig, marks]
  cases hn : isLineBreak t.glyph <;> simp [hn]

/-- What is left of tokens without their layout. -/
theorem bareOfAll_map_leaf (ts : List Token) :
    bareOfAll (ts.map .leaf) = marks ((ts.filter (!·.kind.isTrivia)).map Token.glyph) := by
  induction ts with
  | nil => rfl
  | cons t ts ih =>
    rw [List.map_cons, Tree.bareOfAll_cons, ih]
    cases ht : t.kind.isTrivia with
    | true =>
      rw [List.filter_cons_of_neg (by simp [ht]), Tree.bare_leaf,
        if_neg (by simp [TokenKind.isSignificant, ht]), List.nil_append]
    | false =>
      rw [List.filter_cons_of_pos (by simp [ht]), bare_leaf_of_not_trivia ht, List.map_cons, marks,
        marks, marks, ← List.map_append, ← List.filter_append, List.singleton_append]

/-! ## What is consumed -/

namespace State

/-- The tokens ahead as the grammar sees them, line breaks included. -/
abbrev ahead (s : State) : List Glyph := s.sight.ahead

/-- What was built so far of the node under construction. -/
abbrev built (s : State) : List Bare := s.sight.built

/-- A look reads the tokens as the grammar sees them. -/
theorem kindAhead_ahead (n : Nat) (s : State) : kindAhead n s.rest = kindOf (s.ahead.drop n) :=
  Does.kindAhead_sight rfl n

/-- Behind the line breaks at the front stands what comes after them. -/
theorem ahead_drop_breaksAhead (ts : List Token) :
    ((ts.drop (breaksAhead ts)).filter (!·.kind.isTrivia)).map Token.glyph
      = afterBreaks ((ts.filter (!·.kind.isTrivia)).map Token.glyph) := by
  induction ts with
  | nil => rfl
  | cons t ts ih =>
    unfold breaksAhead
    by_cases hbreak : t.kind = .newline
    · have hvisible : t.kind.isTrivia = false := by
        rw [hbreak]
        rfl
      rw [if_pos (by simp [hbreak]), List.drop_succ_cons, ih,
        List.filter_cons_of_pos (by simp [hvisible]), List.map_cons,
        afterBreaks_break (by simp [isLineBreak, hbreak])]
    · rw [if_neg (by simpa using hbreak)]
      -- Trivia are seen by nobody, but they belong to the breaks only if a break stands behind
      -- them.
      by_cases htrivia : t.kind.isTrivia = true
      · rw [if_pos htrivia, List.filter_cons_of_neg (by simp [htrivia]), ← ih]
        cases breaksAhead ts with
        | zero => rw [List.drop_zero, List.drop_zero, List.filter_cons_of_neg (by simp [htrivia])]
        | succ n => rw [List.drop_succ_cons]
      · rw [if_neg htrivia, List.drop_zero, List.filter_cons_of_pos (by simp [htrivia]),
          List.map_cons, afterBreaks_word (by simpa [isLineBreak] using hbreak)]

/-- Between parentheses the line breaks ahead are passed over, elsewhere they stay. Nothing is
built of them. -/
theorem sight_shiftBreaks (s : State) :
    s.shiftBreaks.ahead = (if 0 < s.parens then afterBreaks s.ahead else s.ahead)
      ∧ s.shiftBreaks.built = s.built := by
  unfold shiftBreaks
  split
  · refine ⟨?_, ?_⟩
    · rw [ahead, sight, rest_shiftMany]
      exact ahead_drop_breaksAhead s.rest
    -- What is passed here is trivia and line breaks, and neither is built visibly.
    · have hlayout : bareOfAll ((s.rest.take (breaksAhead s.rest)).map .leaf) = [] := by
        rw [bareOfAll_map_leaf, marks, List.filter_eq_nil_iff.2 fun g hg => ?_, List.map_nil]
        obtain ⟨t, ht, rfl⟩ := List.mem_map.1 hg
        obtain ⟨ht, htrivia⟩ := List.mem_filter.1 ht
        have hbreak := (mem_take_breaksAhead ht).resolve_left (by simpa using htrivia)
        simp [isLineBreak, hbreak]
      rw [built, sight, toList_out_shiftMany, Tree.bareOfAll_append, hlayout, List.append_nil]
      rfl
  · exact ⟨rfl, rfl⟩

/-- **A token is consumed**, in parentheses with the line breaks after it. -/
theorem sight_consume (s : State) :
    s.consume.ahead = (if 0 < s.parens then afterBreaks s.ahead.tail else s.ahead.tail)
      ∧ s.consume.built = s.built ++ marks (s.ahead.take 1) := by
  -- The trivia and the word leave the number of parentheses as it is.
  have hparens : s.shiftTrivia.shift.parens = s.parens := by
    have hcount := count_shift .parens s.shiftTrivia
    rw [count_shiftTrivia] at hcount
    exact hcount
  obtain ⟨hahead, hbuilt⟩ := sight_shiftBreaks s.shiftTrivia.shift
  rw [hparens] at hahead
  have hconsume : s.consume.ahead = s.shiftTrivia.shift.shiftBreaks.ahead
      ∧ s.consume.built = s.shiftTrivia.shift.shiftBreaks.built := ⟨rfl, rfl⟩
  rw [hconsume.1, hconsume.2, hahead, hbuilt]
  have hshift : s.shiftTrivia.shift.ahead = s.ahead.tail
      ∧ s.shiftTrivia.shift.built = s.built ++ marks (s.ahead.take 1) := by
    cases h : s.ahead with
    | nil =>
      -- Nothing is in sight, so only trivia were left.
      have hrest : s.shiftTrivia.rest = [] := by
        have hnone : s.shiftTrivia.ahead = [] := by rw [ahead, Does.sight_shiftTrivia]; exact h
        rw [ahead, sight, List.map_eq_nil_iff, List.filter_eq_nil_iff] at hnone
        rw [rest_shiftTrivia] at hnone ⊢
        cases hdrop : s.rest.dropWhile (·.kind.isTrivia) with
        | nil => rfl
        | cons t ts =>
          have hhead := List.head_dropWhile_not (·.kind.isTrivia) (l := s.rest) (by simp [hdrop])
          have hleft := hnone t (by rw [hdrop]; exact List.mem_cons_self)
          simp only [hdrop, List.head_cons] at hhead
          simp [hhead] at hleft
      have hsame : s.shiftTrivia.shift = s.shiftTrivia := by simp [shift, hrest]
      rw [hsame, built, ahead, Does.sight_shiftTrivia]
      exact ⟨h, by simp [marks]⟩
    | cons g gs =>
      obtain ⟨t, ts, hrest, ht, rfl, hgs⟩ := Does.exists_next h
      obtain ⟨hshifted, hout⟩ := Does.sight_shift hrest
      refine ⟨?_, ?_⟩
      · rw [ahead, sight, hshifted]
        exact hgs
      · have hstill : bareOfAll s.shiftTrivia.out.toList = s.built :=
          congrArg Sight.built (Does.sight_shiftTrivia s)
        rw [built, sight, hout, hstill, bare_leaf_of_not_trivia ht]
        rfl
  rw [hshift.1, hshift.2]
  exact ⟨rfl, rfl⟩

end State

/-! ## States in step -/

/-- How the tokens ahead agree in two runs, of which the second has single line breaks
only. -/
def Sync.Agrees : Sync → List Glyph → List Glyph → Prop
  | .word, gs, gs' => squeeze gs = gs' ∧ kindOf gs ≠ .newline
  | .next, gs, gs' => squeeze gs = gs'
  | .fresh, gs, gs' => squeeze (afterBreaks gs) = gs'
  | .breaks, gs, gs' => squeeze (afterBreaks gs) = afterBreaks gs'

/-- What agrees in one way agrees in every looser way. -/
theorem Sync.Agrees.mono {i j : Sync} {gs gs' : List Glyph} (h : i.Agrees gs gs') (hij : i ≤ j) :
    j.Agrees gs gs' := by
  -- A word at the front is agreed upon whatever else is.
  have hword : i = .word → j.Agrees gs gs' := by
    rintro rfl
    have hstill : afterBreaks gs = gs := afterBreaks_of_kindOf h.2
    cases j with
    | word => exact h
    | next => exact h.1
    | fresh => exact (congrArg squeeze hstill).trans h.1
    | breaks =>
      change squeeze (afterBreaks gs) = afterBreaks gs'
      rw [squeeze_afterBreaks, h.1]
  rcases hij with hi | rfl | rfl
  · exact hword hi
  · cases i with
    | word => exact hword rfl
    | next => exact (squeeze_afterBreaks gs).trans (congrArg afterBreaks h)
    | fresh =>
      change squeeze (afterBreaks gs) = afterBreaks gs'
      rw [← (h : squeeze (afterBreaks gs) = gs'), squeeze_afterBreaks, afterBreaks_afterBreaks]
    | breaks => exact h
  · exact h

/-- What a complaint says, wherever it belongs. -/
def State.problems (s : State) : List Problem := s.complaints.toList.map Complaint.problem

/-- **Two states in step**: they agree on the tokens ahead, built the same, complained
about the same, and counted the same. -/
structure InStep (i : Sync) (s s' : State) : Prop where
  agrees : i.Agrees s.ahead s'.ahead
  /-- The second run has single line breaks only. -/
  settled : Settled s'.ahead
  built : s.built = s'.built
  problems : s.problems = s'.problems
  count (c : Counter) : s.count c = s'.count c

namespace InStep

variable {i j : Sync} {s s' : State}

/-- States in step in one way are in step in every looser way. -/
theorem mono (h : InStep i s s') (hij : i ≤ j) : InStep j s s' :=
  { h with agrees := h.agrees.mono hij }

/-- What is seen of a state, with its counters, is all that matters to being in step. -/
theorem of_eq {t t' : State} (h : InStep i s s') (hahead : t.ahead = s.ahead)
    (hahead' : t'.ahead = s'.ahead) (hbuilt : t.built = t'.built)
    (hproblems : t.problems = t'.problems) (hcount : ∀ c, t.count c = t'.count c) :
    InStep i t t' where
  agrees := by rw [hahead, hahead']; exact h.agrees
  settled := by rw [hahead']; exact h.settled
  built := hbuilt
  problems := hproblems
  count := hcount

/-- The next token is of the same kind. -/
theorem kindAhead (h : InStep .next s s') : kindAhead 0 s.rest = kindAhead 0 s'.rest := by
  rw [State.kindAhead_ahead, State.kindAhead_ahead, List.drop_zero, List.drop_zero,
    ← (h.agrees : squeeze s.ahead = s'.ahead), kindOf_squeeze]

/-- Where there are no line breaks ahead in either run, the next token is the same. -/
theorem word (h : InStep .breaks s s') (hs : Grammar.kindAhead 0 s.rest ≠ .newline)
    (hs' : Grammar.kindAhead 0 s'.rest ≠ .newline) : InStep .word s s' := by
  rw [State.kindAhead_ahead, List.drop_zero] at hs hs'
  have hagrees : squeeze (afterBreaks s.ahead) = afterBreaks s'.ahead := h.agrees
  rw [afterBreaks_of_kindOf hs, afterBreaks_of_kindOf hs'] at hagrees
  exact { h with agrees := ⟨hagrees, hs⟩ }

/-! ### Looks -/

/-- A question about the text of an identifier ahead. -/
theorem textAhead (h : InStep .next s s') (hs : Grammar.kindAhead 0 s.rest = .ident)
    (p : String → Bool) : (Grammar.textAhead p s).1 = (Grammar.textAhead p s').1 := by
  -- The spelling asked for is the one that is seen, since a word keeps its spelling.
  have hglyph : ∀ t : State, kindOf t.ahead = .ident → (Grammar.textAhead p t).1
      = (t.ahead.head?.map Prod.snd).any p := by
    intro t ht
    have hrun : (Grammar.textAhead p t).1
        = (t.rest.find? (!·.kind.isTrivia)).any fun u => p u.text := rfl
    rw [hrun, ← List.head?_filter]
    rw [State.ahead, State.sight] at ht ⊢
    rw [List.head?_map]
    cases hnext : (t.rest.filter (!·.kind.isTrivia)) with
    | nil => rfl
    | cons u us =>
      rw [hnext, List.map_cons, kindOf_cons, Token.glyph_fst] at ht
      have htext : u.glyph.2 = u.text := Token.glyph_snd (by rw [ht]; rfl) (by rw [ht]; rfl)
      rw [List.head?_cons, Option.map_some, Option.map_some, htext]
      rfl
  have hagrees : squeeze s.ahead = s'.ahead := h.agrees
  have hs' := hs
  rw [h.kindAhead] at hs'
  rw [State.kindAhead_ahead, List.drop_zero] at hs hs'
  rw [hglyph s hs, hglyph s' hs', ← hagrees]
  cases hgs : s.ahead with
  | nil => rfl
  | cons g gs =>
    have hg : isLineBreak g = false := by
      rw [hgs, kindOf_cons] at hs
      simp [isLineBreak, hs]
    rw [squeeze_word hg]
    rfl

/-- A look changes nothing that is seen. -/
theorem looked (h : InStep i s s') : InStep i s.looked s'.looked :=
  h.of_eq rfl rfl h.built h.problems h.count

/-- The same counter is set to the same value in both runs. -/
theorem setCount (h : InStep i s s') (c : Counter) (n : Nat) :
    InStep i (s.setCount c n) (s'.setCount c n) := by
  have hsame : ∀ t : State, (t.setCount c n).ahead = t.ahead ∧ (t.setCount c n).built = t.built
      ∧ (t.setCount c n).problems = t.problems := by
    intro t
    cases c <;> exact ⟨rfl, rfl, rfl⟩
  refine h.of_eq (hsame s).1 (hsame s').1 ?_ ?_ fun d => ?_
  · rw [(hsame s).2.1, (hsame s').2.1, h.built]
  · rw [(hsame s).2.2, (hsame s').2.2, h.problems]
  · by_cases hd : d = c
    · subst hd
      rw [State.count_setCount, State.count_setCount]
    · rw [State.count_setCount_of_ne hd, State.count_setCount_of_ne hd, h.count]

/-- The same counter is raised in both runs. -/
theorem raise (h : InStep i s s') (c : Counter) : InStep i (s.raise c) (s'.raise c) := by
  rw [State.raise, State.raise, h.count]
  exact h.setCount c _

/-- The same counter is lowered in both runs. -/
theorem lower (h : InStep i s s') (c : Counter) (hs : (s.lower c).fault = none) :
    InStep i (s.lower c) (s'.lower c) := by
  have hcount : s.count c ≠ 0 := fun hzero => by
    rw [State.lower, if_pos hzero] at hs
    exact State.fault_giveUp_ne_none _ _ hs
  have hcount' : s'.count c ≠ 0 := by rwa [← h.count]
  rw [State.lower, State.lower, if_neg hcount, if_neg hcount', h.count]
  exact h.setCount c _

/-- Both runs make the same complaint, at places of their own. -/
theorem complain (h : InStep i s s') (p : Problem) :
    InStep i (Grammar.complain p s).2 (Grammar.complain p s').2 := by
  refine h.of_eq rfl rfl h.built ?_ h.count
  have hpush : ∀ t : State, (Grammar.complain p t).2.problems = t.problems ++ [p] := fun t => by
    simp [State.problems, Grammar.complain]
  rw [hpush, hpush, h.problems]

/-! ### Tokens -/

/-- A token is consumed in one run. -/
theorem problems_consume (s : State) : s.consume.problems = s.problems :=
  congrArg (fun cs : Array Complaint => cs.toList.map Complaint.problem)
    (State.consume_eq (p := State.complaints) State.complaints_shift (fun _ _ => rfl) s)

/-- Behind a token consumed in both runs. -/
theorem of_consume (h : InStep i s s')
    (hnext : j.Agrees s.ahead.tail s'.ahead.tail
      ∧ j.Agrees (afterBreaks s.ahead.tail) (afterBreaks s'.ahead.tail))
    (hmarks : marks (s.ahead.take 1) = marks (s'.ahead.take 1)) :
    InStep j s.consume s'.consume where
  agrees := by
    have hparens : s.parens = s'.parens := h.count .parens
    rw [(State.sight_consume s).1, (State.sight_consume s').1, hparens]
    -- Inside of parentheses line breaks are passed behind the word, in both texts.
    split
    · exact hnext.2
    · exact hnext.1
  settled := by
    rw [(State.sight_consume s').1]
    split
    · exact h.settled.tail.afterBreaks
    · exact h.settled.tail
  built := by rw [(State.sight_consume s).2, (State.sight_consume s').2, h.built, hmarks]
  problems := by rw [problems_consume, problems_consume, h.problems]
  count c := by rw [State.count_consume, State.count_consume, h.count]

/-- A word is consumed. -/
theorem consume (h : InStep .word s s') : InStep .next s.consume s'.consume := by
  obtain ⟨hagrees, hword⟩ : squeeze s.ahead = s'.ahead ∧ kindOf s.ahead ≠ .newline := h.agrees
  have htail : squeeze s.ahead.tail = s'.ahead.tail
      ∧ s.ahead.take 1 = s'.ahead.take 1 := by
    rw [← hagrees]
    cases hgs : s.ahead with
    | nil => exact ⟨rfl, rfl⟩
    | cons g gs =>
      have hg : isLineBreak g = false := by
        rw [hgs, kindOf_cons] at hword
        simpa [isLineBreak] using hword
      rw [squeeze_word hg]
      exact ⟨rfl, rfl⟩
  refine h.of_consume ⟨htail.1, ?_⟩ (congrArg marks htail.2)
  change squeeze (afterBreaks s.ahead.tail) = afterBreaks s'.ahead.tail
  rw [squeeze_afterBreaks, htail.1]

/-- A line break is consumed: in the second run no other one is ahead. -/
theorem consumeBreak (h : InStep .next s s') (hs : Grammar.kindAhead 0 s.rest = .newline) :
    InStep .fresh s.consume s'.consume := by
  have hagrees : squeeze s.ahead = s'.ahead := h.agrees
  rw [State.kindAhead_ahead, List.drop_zero] at hs
  cases hgs : s.ahead with
  | nil =>
    rw [hgs] at hs
    cases hs
  | cons g gs =>
    have hg : isLineBreak g = true := by
      rw [hgs, kindOf_cons] at hs
      simp [isLineBreak, hs]
    rw [hgs, squeeze_break hg] at hagrees
    -- In the second run all other line breaks are gone, so only the first run passes over some.
    refine h.of_consume ⟨?_, ?_⟩ ?_
    · rw [hgs, ← hagrees]
      exact squeeze_afterBreaks gs
    · rw [hgs, ← hagrees]
      change squeeze (afterBreaks (afterBreaks gs)) = afterBreaks (afterBreaks (squeeze gs))
      rw [afterBreaks_afterBreaks, afterBreaks_afterBreaks, squeeze_afterBreaks]
    · rw [hgs, ← hagrees]
      change marks [g] = []
      simp [marks, hg]

/-- What a line break consumed in one run alone leaves as it is. -/
theorem sight_consumeBreak {s : State} (hs : Grammar.kindAhead 0 s.rest = .newline) :
    afterBreaks s.consume.ahead = afterBreaks s.ahead ∧ s.consume.built = s.built := by
  obtain ⟨hahead, hbuilt⟩ := State.sight_consume s
  rw [State.kindAhead_ahead, List.drop_zero] at hs
  cases hgs : s.ahead with
  | nil =>
    rw [hgs] at hs
    cases hs
  | cons g gs =>
    have hg : isLineBreak g = true := by
      rw [hgs, kindOf_cons] at hs
      simp [isLineBreak, hs]
    rw [hahead, hbuilt, hgs, afterBreaks_break hg]
    refine ⟨?_, by simp [marks, hg]⟩
    rw [List.tail_cons]
    -- Passing the breaks that follow makes no difference behind a break.
    split
    · exact afterBreaks_afterBreaks gs
    · rfl

/-- A line break is consumed in the first run alone. -/
theorem passLeft (h : InStep .breaks s s') (hs : Grammar.kindAhead 0 s.rest = .newline) :
    InStep .breaks s.consume s' where
  agrees := by
    change squeeze (afterBreaks s.consume.ahead) = afterBreaks s'.ahead
    rw [(sight_consumeBreak hs).1]
    exact h.agrees
  settled := h.settled
  built := by rw [(sight_consumeBreak hs).2, h.built]
  problems := by rw [problems_consume, h.problems]
  count c := by rw [State.count_consume, h.count]

/-- A line break is consumed in the second run alone. -/
theorem passRight (h : InStep .breaks s s') (hs' : Grammar.kindAhead 0 s'.rest = .newline) :
    InStep .breaks s s'.consume where
  agrees := by
    change squeeze (afterBreaks s.ahead) = afterBreaks s'.consume.ahead
    rw [(sight_consumeBreak hs').1]
    exact h.agrees
  settled := by
    rw [(State.sight_consume s').1]
    split
    · exact h.settled.tail.afterBreaks
    · exact h.settled.tail
  built := by rw [(sight_consumeBreak hs').2, h.built]
  problems := by rw [problems_consume, h.problems]
  count c := by rw [State.count_consume, h.count]

/-! ### Nodes -/

/-- Both runs begin a node, with children that are alike. -/
theorem inside (h : InStep i s s') {children children' : Array Tree}
    (hchildren : bareOfAll children.toList = bareOfAll children'.toList) :
    InStep i (s.inside children) (s'.inside children') :=
  h.of_eq rfl rfl hchildren h.problems h.count

/-- Trivia in front of a node is not seen. -/
theorem opened (h : InStep i s s') (kind : NodeKind) :
    InStep i (s.opened kind) (s'.opened kind) := by
  unfold State.opened
  split
  · exact h
  · have hsight := Does.sight_shiftTrivia
    refine h.of_eq ?_ ?_ ?_ ?_ fun c => ?_
    · rw [State.ahead, hsight]
    · rw [State.ahead, hsight]
    · rw [State.built, State.built, hsight, hsight]
      exact h.built
    · rw [State.problems, State.problems, State.shiftTrivia_eq State.complaints_shift,
        State.shiftTrivia_eq State.complaints_shift]
      exact h.problems
    · rw [State.count_shiftTrivia, State.count_shiftTrivia, h.count]

/-- Both runs close a node of the same kind. -/
theorem close (h : InStep i s s') (kind : NodeKind) (start start' : Nat) {outer outer' : Array Tree}
    (houter : bareOfAll outer.toList = bareOfAll outer'.toList) :
    InStep i (s.close kind start outer) (s'.close kind start' outer') := by
  refine h.of_eq rfl rfl ?_ h.problems h.count
  have hbuilt : ∀ (t : State) (start : Nat) (outer : Array Tree),
      (t.close kind start outer).built = bareOfAll outer.toList ++ [.node kind t.built] :=
    fun t start outer => by simp [State.built, State.sight, State.close]
  rw [hbuilt, hbuilt, houter, h.built]

end InStep

/-! ## Steps in step -/

/-- **From states in step, two steps answer the same and end in step**, unless one of
them gives up. -/
def Lockstep (i : Sync) (o : α → Sync) (m m' : Step α) : Prop :=
  ∀ s s' : State, InStep i s s' → (m s).2.fault = none → (m' s').2.fault = none →
    (m s).1 = (m' s').1 ∧ InStep (o (m s).1) (m s).2 (m' s').2

namespace Lockstep

variable {i j : Sync} {o : α → Sync} {m m' : Step α}

/-- Less may be asked behind a step, and more in front of it. -/
theorem weaken {i' : Sync} {o' : α → Sync} (hi : i' ≤ i) (ho : ∀ a, o a ≤ o' a)
    (h : Lockstep i o m m') : Lockstep i' o' m m' := by
  intro s s' hs hfault hfault'
  obtain ⟨hanswer, hbehind⟩ := h s s' (hs.mono hi) hfault hfault'
  exact ⟨hanswer, hbehind.mono (ho _)⟩

/-- Two steps in step, after each other. Steps that keep a fault are needed here, since a lost
run need not be in step. -/
theorem bind {j : α → Sync} {o : β → Sync} {f f' : α → Step β} (hf : ∀ a, Tame (f a))
    (hf' : ∀ a, Tame (f' a)) (hm : Lockstep i j m m')
    (hnext : ∀ a, Lockstep (j a) o (f a) (f' a)) : Lockstep i o (m >>= f) (m' >>= f') := by
  intro s s' hs hfault hfault'
  rw [run_bind] at hfault hfault' ⊢
  obtain ⟨hanswer, hbehind⟩ :=
    hm s s' hs ((hf _).keeps _ hfault) ((hf' _).keeps _ hfault')
  rw [← hanswer] at hfault'
  rw [run_bind, ← hanswer]
  exact hnext _ _ _ hbehind hfault hfault'

/-- The same answer in both runs. -/
theorem pure (a : α) (h : i ≤ o a) : Lockstep i o (Pure.pure a) (Pure.pure a) :=
  fun _ _ hs _ _ => ⟨rfl, hs.mono h⟩

/-- Both runs raise the same counter. -/
theorem raise (c : Counter) :
    Lockstep i (fun _ => i) (modify (State.raise c)) (modify (State.raise c)) :=
  fun _ _ hs _ _ => ⟨rfl, hs.raise c⟩

/-- A look tells the same if the tokens ahead are the same. -/
theorem look {n : Nat} {o : TokenKind → Sync}
    (hkind : ∀ s s' : State, InStep i s s' → kindAhead n s.rest = kindAhead n s'.rest
      ∧ InStep (o (kindAhead n s.rest)) s s') :
    Lockstep i o (Grammar.look n) (Grammar.look n) := by
  intro s s' hs hfault hfault'
  have hlook : ∀ t : State, (Grammar.look n t).2.fault = none →
      Grammar.look n t = (kindAhead n t.rest, t.looked) := fun t ht => by
    rcases run_look_cases n t with ⟨-, -, hlook⟩ | hlost
    · exact hlook
    · rw [hlost] at ht
      exact absurd ht (State.fault_giveUp_ne_none _ _)
  rw [hlook s hfault, hlook s' hfault']
  exact ⟨(hkind s s' hs).1, (hkind s s' hs).2.looked⟩

/-- A look at the next token tells whether it is a word. -/
theorem current : Lockstep .next Sync.seen Grammar.current Grammar.current := by
  refine look fun s s' hs => ⟨hs.kindAhead, ?_⟩
  unfold Sync.seen
  split
  · exact hs
  · next hword =>
    rw [State.kindAhead_ahead, List.drop_zero] at hword
    exact { hs with agrees := ⟨hs.agrees, hword⟩ }

/-- In front of a word even the token behind it is the same. -/
theorem look_word (n : Nat) (hn : n ≤ 1) :
    Lockstep .word (fun _ => .word) (Grammar.look n) (Grammar.look n) := by
  refine look fun s s' hs => ⟨?_, hs⟩
  obtain ⟨hagrees, hword⟩ : squeeze s.ahead = s'.ahead ∧ kindOf s.ahead ≠ .newline := hs.agrees
  rw [State.kindAhead_ahead, State.kindAhead_ahead, ← hagrees]
  cases hgs : s.ahead with
  | nil => rfl
  | cons g gs =>
    have hg : isLineBreak g = false := by
      rw [hgs, kindOf_cons] at hword
      simpa [isLineBreak] using hword
    rw [squeeze_word hg]
    rcases Nat.le_one_iff_eq_zero_or_eq_one.1 hn with rfl | rfl
    · rfl
    · exact (kindOf_squeeze gs).symm

/-- A word is taken in both runs. Behind it line breaks may be ahead. -/
theorem consume : Lockstep .word (fun _ => .next) (modify State.consume) (modify State.consume) :=
  fun _ _ hs _ _ => ⟨rfl, hs.consume⟩

/-- A line break is taken in both runs. -/
theorem consumeBreak :
    Lockstep .next (fun _ => .breaks) (modify State.consume) (modify State.consume) := by
  intro s s' hs _ _
  refine ⟨rfl, ?_⟩
  by_cases hbreak : kindAhead 0 s.rest = .newline
  · exact (hs.consumeBreak hbreak).mono (Sync.le_breaks _)
  · rw [State.kindAhead_ahead, List.drop_zero] at hbreak
    have hword : InStep .word s s' := { hs with agrees := ⟨hs.agrees, hbreak⟩ }
    exact hword.consume.mono (Sync.le_breaks _)

/-- A line break is eaten in both runs or in neither. -/
theorem eatBreak : Lockstep .next (fun eaten => if eaten then .fresh else .word)
    (eat .newline) (eat .newline) := by
  intro s s' hs hfault hfault'
  -- Without a fault behind the whole there is none behind its look.
  have hcurrent : (Grammar.current s).2.fault = none ∧ (Grammar.current s').2.fault = none := by
    refine ⟨?_, ?_⟩
    · rw [run_eat] at hfault
      split at hfault
      · rwa [State.fault_consume] at hfault
      · exact hfault
    · rw [run_eat] at hfault'
      split at hfault'
      · rwa [State.fault_consume] at hfault'
      · exact hfault'
  obtain ⟨hanswer, hbehind⟩ := current s s' hs hcurrent.1 hcurrent.2
  have hsound := (current_sound hcurrent.1).1
  rw [run_eat, run_eat, ← hanswer]
  split
  · next hbreak =>
    rw [hbreak] at hbehind hsound
    exact ⟨rfl, InStep.consumeBreak hbehind hsound.symm⟩
  · next hbreak =>
    rw [Sync.seen, if_neg hbreak] at hbehind
    exact ⟨rfl, hbehind⟩

/-- Both runs complain. -/
theorem complain (p : Problem) :
    Lockstep i (fun _ => i) (Grammar.complain p) (Grammar.complain p) :=
  fun _ _ hs _ _ => ⟨rfl, hs.complain p⟩

/-- Both runs are as deep as each other. -/
theorem isTooDeep : Lockstep i (fun _ => i) Grammar.isTooDeep Grammar.isTooDeep := by
  intro s s' hs _ _
  refine ⟨?_, hs⟩
  have hnesting : s.nesting = s'.nesting := hs.count .nesting
  change decide (nestingLimit ≤ s.nesting) = decide (nestingLimit ≤ s'.nesting)
  rw [hnesting]

/-- Both runs are inside of as many parentheses. -/
theorem isOutside : Lockstep i (fun _ => i) Grammar.isOutside Grammar.isOutside := by
  intro s s' hs _ _
  refine ⟨?_, hs⟩
  have hbegins : s.begins = s'.begins := hs.count .begins
  change (s.begins == 0) = (s'.begins == 0)
  rw [hbegins]

/-- Both runs look up the same word under the same hints. -/
theorem atFunction {R R' : Rules} (h : R.isFunction = R'.isFunction) :
    Lockstep .next (fun _ => .next) (Grammar.atFunction R) (Grammar.atFunction R') := by
  intro s s' hs hfault hfault'
  have hcurrent : ∀ {R : Rules} {t : State}, (Grammar.atFunction R t).2.fault = none →
      (Grammar.current t).2.fault = none := fun {R t} ht => by
    rw [run_atFunction] at ht
    split at ht <;> exact ht
  obtain ⟨hanswer, hbehind⟩ := current s s' hs (hcurrent hfault) (hcurrent hfault')
  have hnext : InStep .next (Grammar.current s).2 (Grammar.current s').2 :=
    hbehind.mono (Sync.seen_le _)
  have hkind := (current_sound (hcurrent hfault)).1
  rw [run_atFunction, run_atFunction, ← hanswer, ← h]
  split
  -- An identifier is no line break, so the next token has the same text in both.
  · next hident =>
    refine ⟨?_, hnext⟩
    rw [hident] at hkind
    exact hnext.textAhead hkind.symm _
  · exact ⟨rfl, hnext⟩

/-- A counter is raised around the step in both runs. -/
theorem within (c : Counter) (h : Lockstep i o m m') :
    Lockstep i o (Grammar.within c m) (Grammar.within c m') := by
  intro s s' hs hfault hfault'
  rw [run_within] at hfault hfault' ⊢
  obtain ⟨hanswer, hbehind⟩ := h _ _ (hs.raise c) (State.fault_lower hfault)
    (State.fault_lower hfault')
  rw [run_within]
  exact ⟨hanswer, hbehind.lower c hfault⟩

/-- A counter is put back behind the step in both runs. -/
theorem restoring (c : Counter) (h : Lockstep i o m m') :
    Lockstep i o (Grammar.restoring c m) (Grammar.restoring c m') := by
  intro s s' hs hfault hfault'
  rw [run_restoring] at hfault hfault' ⊢
  rw [State.fault_setCount] at hfault hfault'
  obtain ⟨hanswer, hbehind⟩ := h _ _ hs hfault hfault'
  rw [run_restoring, hs.count]
  exact ⟨hanswer, hbehind.setCount c _⟩

/-- Open parentheses are put aside in both runs. -/
theorem withoutParens (h : Lockstep i o m m') :
    Lockstep i o (Grammar.withoutParens m) (Grammar.withoutParens m') := by
  refine restoring .parens fun s s' hs hfault hfault' => ?_
  exact h _ _ (hs.setCount .parens 0) hfault hfault'

/-- A node of the same kind around steps that are in step. -/
theorem node (k : NodeKind) (h : Lockstep i o m m') :
    Lockstep i o (Grammar.node k m) (Grammar.node k m') := by
  intro s s' hs hfault hfault'
  rw [run_node] at hfault hfault' ⊢
  obtain ⟨hanswer, hbehind⟩ :=
    h _ _ ((hs.opened k).inside (Eq.refl (bareOfAll (#[] : Array Tree).toList))) hfault hfault'
  rw [run_node]
  exact ⟨hanswer, hbehind.close k _ _ (hs.opened k).built⟩

/-- What was built last is a node in both runs, or both give up. -/
theorem nodeAround (k : NodeKind) [hm : Tame m] [hm' : Tame m'] (h : Lockstep i o m m') :
    Lockstep i o (Grammar.nodeAround k m) (Grammar.nodeAround k m') := by
  intro s s' hs hfault hfault'
  -- Where there is no node to go around the run is lost, so both have one.
  have hlast : ∀ {n : Step α} [Tame n] {t : State}, (Grammar.nodeAround k n t).2.fault = none →
      ∃ outer first span cs, t.out = Array.push outer (.node first span cs) := by
    intro n hn t ht
    by_contra hnone
    have hback : ∀ first span cs, t.out.back? ≠ some (.node first span cs) := by
      intro first span cs hback
      obtain ⟨outer, hout⟩ := Array.back?_eq_some_iff.1 hback
      exact hnone ⟨outer, first, span, cs, hout⟩
    rw [run_nodeAround_none hback] at ht
    exact State.fault_giveUp_ne_none _ _ ((Tame.node k n).keeps _ ht)
  obtain ⟨outer, first, span, cs, hout⟩ := hlast hfault
  obtain ⟨outer', first', span', cs', hout'⟩ := hlast hfault'
  have hbuilt := hs.built
  -- What was built agrees, so the last nodes do, and what stands in front of them.
  have hparts : bareOfAll outer.toList = bareOfAll outer'.toList
      ∧ first = first' ∧ bareOfAll cs = bareOfAll cs' := by
    simp only [State.built, State.sight, hout, hout', Array.toList_push, Tree.bareOfAll_append,
      Tree.bareOfAll_singleton, Tree.bare_node] at hbuilt
    obtain ⟨houter, hlast⟩ := List.append_inj' hbuilt rfl
    simp only [List.cons.injEq, Bare.node.injEq, and_true] at hlast
    exact ⟨houter, hlast⟩
  obtain ⟨houter, rfl, hcs⟩ := hparts
  have hrun : s.out.back? = some (.node first span cs) := by rw [hout, Array.back?_push]
  have hrun' : s'.out.back? = some (.node first span' cs') := by rw [hout', Array.back?_push]
  rw [run_nodeAround hrun] at hfault ⊢
  rw [run_nodeAround hrun'] at hfault' ⊢
  have hinside : InStep i (s.inside #[.node first span cs]) (s'.inside #[.node first span' cs']) :=
    hs.inside (by simp [hcs])
  obtain ⟨hanswer, hbehind⟩ := h _ _ hinside hfault hfault'
  refine ⟨hanswer, hbehind.close k _ _ ?_⟩
  rw [hout, hout', Array.pop_push, Array.pop_push, houter]

/-- Without a fault behind a loop there is none behind its first turn. -/
theorem fault_turn {step : σ → Step (Option σ)} [∀ x, Tame (step x)] {n : Nat} {x : σ} {s : State}
    (h : (Grammar.iterate step n x s).2.fault = none) :
    ∃ k, n = k + 1 ∧ (step x s).2.fault = none := by
  cases n with
  | zero => exact absurd h (State.fault_giveUp_ne_none _ _)
  | succ k =>
    refine ⟨k, rfl, ?_⟩
    rw [run_iterate_succ] at h
    cases hanswer : (step x s).1 with
    | none => rwa [hanswer] at h
    | some y =>
      rw [hanswer] at h
      exact (Tame.iterate step k y).keeps _ h

/-- A climb in both runs, with fuel of their own. Whoever runs out of it is lost. -/
theorem climb {check check' : Step (Option β)} {act act' : β → Step Bool} {j : Sync}
    [Tame check] [Tame check'] [∀ b, Tame (act b)] [∀ b, Tame (act' b)]
    (hcheck : Lockstep .next (fun r => if r.isSome then j else .next) check check')
    (hact : ∀ b, Lockstep j (fun _ => .next) (act b) (act' b)) (n n' : Nat) :
    Lockstep .next (fun _ => .next) (Grammar.climb check act n) (Grammar.climb check' act' n') := by
  refine restoring .nesting ?_
  have hturn : Lockstep .next (fun _ => .next) (climbTurn check act) (climbTurn check' act') := by
    refine bind (fun r => by split <;> infer_instance) (fun r => by split <;> infer_instance) hcheck
      fun r => ?_
    cases r with
    | none => exact pure none (Sync.le_refl _)
    | some b =>
      refine bind inferInstance inferInstance (raise .nesting) fun _ => ?_
      refine bind inferInstance inferInstance (hact b) fun again => ?_
      cases again <;> exact pure _ (Sync.le_refl _)
  -- Induction on the fuel of the first run. The second has some left because it is not lost.
  induction n generalizing n' with
  | zero => exact fun s _ _ hfault _ => absurd hfault (State.fault_giveUp_ne_none _ s)
  | succ n ih =>
    intro s s' hs hfault hfault'
    obtain ⟨-, -, hfirst⟩ := fault_turn hfault
    obtain ⟨n', rfl, hfirst'⟩ := fault_turn hfault'
    obtain ⟨hanswer, hbehind⟩ := hturn s s' hs hfirst hfirst'
    rw [run_iterate_succ] at hfault ⊢
    rw [run_iterate_succ, ← hanswer] at hfault' ⊢
    cases hnext : (climbTurn check act s).1 with
    | none => exact ⟨rfl, hbehind⟩
    | some y =>
      rw [hnext] at hfault hfault'
      exact ih n' _ _ hbehind hfault hfault'

/-- A loop that passes over line breaks: those ahead in one run only are passed over
by this run alone. -/
theorem passing {e : Sync} {step step' : σ → Step (Option σ)} [∀ x, Tame (step x)]
    [∀ x, Tame (step' x)] (hp : ∀ x, Passes (some x) (step x))
    (hp' : ∀ x, Passes (some x) (step' x))
    (h : ∀ x, Lockstep .word (fun r => if r.isSome then .breaks else e) (step x) (step' x))
    (n n' : Nat) (x : σ) :
    Lockstep .breaks (fun _ => e) (Grammar.iterate step n x) (Grammar.iterate step' n' x) := by
  intro s s' hs hfault hfault'
  -- One of the two runs takes a turn each time, and at times both do.
  induction hturns : n + n' using Nat.strongRecOn generalizing n n' x s s' with
  | ind total ih =>
    obtain ⟨n, rfl, hfirst⟩ := fault_turn hfault
    obtain ⟨n', rfl, hfirst'⟩ := fault_turn hfault'
    by_cases hbreak : kindAhead 0 s.rest = .newline
    · have hpass := hp x s hbreak hfirst
      rw [run_iterate_succ, hpass] at hfault ⊢
      exact ih (n + (n' + 1)) (by omega) n (n' + 1) x _ s' (hs.passLeft hbreak) hfault hfault' rfl
    · by_cases hbreak' : kindAhead 0 s'.rest = .newline
      · have hpass := hp' x s' hbreak' hfirst'
        rw [run_iterate_succ step' n', hpass] at hfault' ⊢
        exact ih (n + 1 + n') (by omega) (n + 1) n' x s _ (hs.passRight hbreak') hfault hfault' rfl
      · obtain ⟨hanswer, hbehind⟩ := h x s s' (hs.word hbreak hbreak') hfirst hfirst'
        rw [run_iterate_succ] at hfault ⊢
        rw [run_iterate_succ, ← hanswer] at hfault' ⊢
        cases hnext : (step x s).1 with
        | none =>
          rw [hnext] at hbehind
          exact ⟨rfl, hbehind⟩
        | some y =>
          rw [hnext] at hfault hfault' hbehind
          exact ih (n + n') (by omega) n n' y _ _ hbehind hfault hfault' rfl

/-- Too deep down, a block is set aside wherever it begins. -/
theorem deepBlock (R R' : Rules)
    (hskip : ∀ opened, Lockstep .word (fun _ => .next) (skipWord opened) (skipWord opened)) :
    Lockstep .breaks (fun _ => .next) (Grammar.deepBlock R) (Grammar.deepBlock R') := by
  have := fun opened => (skipWord_alike opened).tame
  have htame : ∀ R : Rules, Tame (R.loopFrom 0 skipWord) := fun R => Tame.iterate skipWord R.turns 0
  refine node _ (bind (fun _ => htame R) (fun _ => htame R') (complain _) fun _ => ?_)
  refine passing skipWord_passes skipWord_passes (fun opened => ?_) _ _ _
  refine (hskip opened).weaken (Sync.le_refl _) fun r => ?_
  cases r with
  | none => exact Sync.le_refl _
  | some _ => exact Sync.le_breaks _

end Lockstep

end ScriptSense.Grammar
