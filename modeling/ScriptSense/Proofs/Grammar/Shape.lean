/-
The grammar has the shape that the judgement describes.

One lemma for each rule, in the order of the grammar. Each says how closely two
runs have to agree in front of the rule and how closely they then agree behind
it: behind a statement, up to line breaks; behind a block or an expression, on
the next token. `rules_alike` ties the rules for any two numbers of levels.
-/
import Mathlib.Tactic.Set
import ScriptSense.Proofs.Grammar.Frame

set_option autoImplicit false

namespace ScriptSense.Grammar

/-- The rules of two levels are alike. -/
structure Rules.Alike (R R' : Rules) : Prop where
  isFunction : R.isFunction = R'.isFunction
  statement : Grammar.Alike .next (fun _ => .breaks) R.statement R'.statement
  block : Grammar.Alike .fresh (fun _ => .next) R.block R'.block
  branches : Grammar.Alike .next (fun _ => .next) R.branches R'.branches
  expression : ∀ floor,
    Grammar.Alike .next (fun _ => .next) (R.expression floor) (R'.expression floor)
  operand : ∀ calls, Grammar.Alike .next (fun _ => .next) (R.operand calls) (R'.operand calls)

/-- Which of the two levels comes first does not matter. -/
theorem Rules.Alike.symm {R R' : Rules} (h : R.Alike R') : R'.Alike R :=
  ⟨h.isFunction.symm, h.statement.symm, h.block.symm, h.branches.symm,
    fun floor => (h.expression floor).symm, fun calls => (h.operand calls).symm⟩

/-! ## Looks and moves at a word -/

/-- At a word both runs find the same answer, and neither moves. -/
theorem atLineEnd_alike_word : Alike .word (fun _ => .word) atLineEnd atLineEnd :=
  .bind current_alike_word fun _ => .pure _ (Sync.le_refl _)

/-- A token other than a line break is demanded in both runs or missing in both. -/
theorem bump_alike {kind : TokenKind} (h : kind ≠ .newline) :
    Alike .next (fun _ => .next) (bump kind) (bump kind) := by
  refine .bind current_alike fun found => ?_
  split
  · next hfound =>
    have hword : Sync.seen found = .word := by
      rw [eq_of_beq hfound]
      exact if_neg h
    rw [hword]
    exact .consume
  · exact .giveUp _

/-- A token other than a line break is taken by both runs or complained about by both. -/
theorem expect_alike {kind : TokenKind} (h : kind ≠ .newline) (wanted : Wanted) :
    Alike .next (fun _ => .next) (expect kind wanted) (expect kind wanted) := by
  refine .bind (eat_alike h) fun there => ?_
  split
  · exact .pure _ (Sync.le_refl _)
  · exact .bind (.complain _) fun _ => .pure _ (Sync.le_refl _)

/-! ## Loops -/

/-- A loop that no line break gets past. Where one run has no turns left, the
other goes on alone. -/
theorem iterate_alike {σ : Type} {i : Sync} {step step' : σ → Step (Option σ)}
    (h : ∀ x, Alike i (fun _ => i) (step x) (step' x)) (n n' : Nat) (x : σ) :
    Alike i (fun _ => i) (iterate step n x) (iterate step' n' x) := by
  -- Where one loop runs out of turns before the other, each of them is compared with itself.
  have hself {f : σ → Step (Option σ)} (hf : ∀ x, Alike i (fun _ => i) (f x) (f x)) (n : Nat) :
      ∀ x, Alike i (fun _ => i) (iterate f n x) (iterate f n x) := by
    induction n with
    | zero => exact fun _ => .giveUp _
    | succ n ih =>
      refine fun x => .bind (hf x) fun r => ?_
      cases r with
      | none => exact .pure _ (Sync.le_refl _)
      | some y => exact ih y
  have hleft := hself fun x => (h x).left
  have hright := hself fun x => (h x).right
  -- The loops take their turns together as long as both have some left.
  induction n generalizing n' x with
  | zero => exact .lostLeft (fun s => by simp) (hleft _ _) (hright _ _)
  | succ n ih =>
    cases n' with
    | zero => exact .lostRight (fun s => by simp) (hleft _ _) (hright _ _)
    | succ n' =>
      refine .bind (h x) fun r => ?_
      cases r with
      | none => exact .pure _ (Sync.le_refl _)
      | some y => exact ih n' y

/-- A loop that no line break gets past. -/
theorem loop_alike {R R' : Rules} {step step' : Step Bool}
    (h : Alike .next (fun _ => .next) step step') :
    Alike .next (fun _ => .next) (R.loop step) (R'.loop step') := by
  refine iterate_alike (fun _ => .bind h fun again => ?_) _ _ _
  split <;> exact .pure _ (Sync.le_refl _)

/-! ## Loops that pass over line breaks -/

namespace Passes

/-- What consumes the line break and goes on passes over it. -/
theorem consume : Passes true (do modify State.consume; return true) := fun _ _ _ => rfl

/-- In front of a line break, a look at it changes nothing. -/
theorem look {α : Type} {again : α} {f : TokenKind → Step α} (hf : Passes again (f .newline))
    (hlost : ∀ s, s.fault.isSome → (f .eof s).2.fault.isSome) : Passes again (current >>= f) := by
  intro s hk hfault
  rw [run_bind] at hfault ⊢
  rcases run_look_cases 0 s with ⟨-, -, hlook⟩ | hlook
  · rw [hk] at hlook
    rw [current, hlook] at hfault ⊢
    rw [hf s.looked hk hfault, State.consume_looked]
  · have := hlost (s.giveUp .stuck) (by simp)
    rw [current, hlook] at hfault
    simp [hfault] at this

/-- What eats line breaks passes over them. -/
theorem eat_newline : Passes true (eat .newline) :=
  look (f := fun kind => do
    if kind == .newline then modify State.consume
    return kind == .newline) consume fun _ h => h

/-- A step that eats a line break where there is one passes over it, whatever it does elsewhere. -/
theorem breakOr {step : Step Unit} (hlost : ∀ s, s.fault.isSome → (step s).2.fault.isSome) :
    Passes true (breakOr step) :=
  look (f := fun kind =>
    (do
      if kind == .newline then modify State.consume
      return kind == .newline : Step Bool)
    >>= fun eaten => do
      if eaten then return true
      step
      return true) consume fun s h => hlost s h

end Passes

/-- A loop whose step passes over line breaks. -/
theorem loop_alike_breaks {R R' : Rules} {e : Sync} {step step' : Step Bool} (hp : Passes true step)
    (hp' : Passes true step')
    (h : Alike .word (fun again => if again then .breaks else e) step step') :
    Alike .breaks (fun _ => e) (R.loop step) (R'.loop step') := by
  -- The step of the loop is the step with its answer turned into one of the loop.
  have hpass {f : Step Bool} (hf : Passes true f) :
      Passes (some ()) (do if ← f then return some () else return none) := by
    intro s hk hfault
    have hfault' : (f s).2.fault = none := by
      simp only [run_bind] at hfault
      split at hfault <;> simpa using hfault
    simp [hf s hk hfault']
  refine .passing _ _ _ (fun _ => hpass hp) (fun _ => hpass hp') fun _ => .bind h fun again => ?_
  split <;> exact .pure _ (by simp [*, Sync.le_refl])

/-- A line break, or what both runs read alike in its place. -/
theorem breakOr_alike_word {step step' : Step Unit}
    (h : Alike .word (fun _ => .breaks) step step') :
    Alike .word (fun again => if again then .breaks else .next) (breakOr step) (breakOr step') := by
  refine .bind eat_newline_alike_word fun eaten => ?_
  split
  · exact .pure _ (by simp [Sync.le_refl])
  · exact .bind (h.given (by simp [*, Sync.le_refl])) fun _ => .pure _ (Sync.le_refl _)

/-! ## Recovery -/

/-- What is set aside is a single word, so behind it both runs are at the same token. -/
theorem setAside_alike (wanted : Wanted) (recovers : TokenKind → Bool) :
    Alike .next (fun _ => .next) (setAside wanted recovers) (setAside wanted recovers) := by
  refine .bind current_alike fun kind => ?_
  split
  · exact ((Alike.complain _).given (Sync.seen_le kind))
  · refine .bind (atLineEnd_alike.given (Sync.seen_le _)) fun ends => ?_
    cases ends with
    | true => exact .complain _
    | false =>
      exact .aside (.bind (.complain _) fun _ => bumpAny_alike_word)

/-- Both runs pass over the tokens of a line and stop in front of the line break. -/
theorem passInLine_alike : Alike .next (fun _ => .next) passInLine passInLine := by
  refine .bind atLineEnd_alike fun ends => ?_
  cases ends with
  | true => exact .pure _ (Sync.le_refl _)
  | false => exact .bind bumpAny_alike_word fun _ => .pure _ (Sync.le_refl _)

/-- Behind the end of a line the second run has one line break taken where the first may have
more of them ahead. -/
theorem lineEnd_alike_fresh (R R' : Rules) :
    Alike .next (fun _ => .fresh) (lineEnd R) (lineEnd R') := by
  refine .bind .eatBreak fun eaten => ?_
  cases eaten with
  | true => exact .pure _ (Sync.le_refl _)
  | false =>
    refine .bind (isAt_alike_word _) fun ends => ?_
    cases ends with
    | true => exact .pure _ (Sync.word_le _)
    | false =>
      refine .bind (.aside (.bind (.complain _) fun _ =>
        (loop_alike passInLine_alike).given (by decide))) fun _ => ?_
      exact Alike.eatBreak.discard fun eaten => by cases eaten <;> decide

/-- Behind the end of a line both runs agree up to line breaks. -/
theorem lineEnd_alike (R R' : Rules) :
    Alike .next (fun _ => .breaks) (lineEnd R) (lineEnd R') :=
  (lineEnd_alike_fresh R R').giving fun _ => Sync.le_breaks _

/-- Both runs skip the same token of an expression that is too deep. -/
theorem skipToken_alike (opened : Nat) :
    Alike .next (fun _ => .next) (skipToken opened) (skipToken opened) := by
  -- However the depth changes, the token is skipped.
  have hbump (r : Option Nat) : Alike .word (fun _ => .next)
      (do bumpAny; return r) (do bumpAny; return r) :=
    .bind bumpAny_alike_word fun _ => .pure _ (Sync.le_refl _)
  refine .bind atLineEnd_alike fun ends => ?_
  cases ends with
  | true => exact .pure _ (Sync.le_refl _)
  | false =>
    refine .bind current_alike_word fun kind => ?_
    split
    all_goals first
      | exact hbump _
      | split
        · exact .pure _ (Sync.word_le _)
        · exact hbump _

/-- In front of a line break, an expression that is set aside is empty. -/
theorem deepExpression_stays (R : Rules) :
    Stays (do complain .deepExpression; withoutParens (R.loopFrom 0 skipToken)) := by
  intro s hk hfault
  simp only [run_bind, run_withoutParens, Rules.loopFrom] at hfault ⊢
  -- The loop is left in its first turn, whose look finds the line break.
  set t := ((complain .deepExpression s).2.setCount .parens 0) with ht
  have hrest : t.rest = s.rest := rfl
  cases hturns : R.turns with
  | zero => simp [hturns, State.fault_setCount] at hfault
  | succ n =>
    have hends : atLineEnd t = (true, (current t).2) := by
      rcases run_look_cases 0 t with ⟨-, -, hlook⟩ | hlook
      · rw [hrest, hk] at hlook
        simp [atLineEnd, current, hlook]
      · simp [atLineEnd, current, hlook]
    have hturn : skipToken 0 t = (none, (current t).2) := by
      simp [skipToken, hends]
    have hlook : (current t).2.rest = t.rest := by
      rcases run_look_cases 0 t with ⟨-, -, hlook⟩ | hlook <;> rw [current, hlook] <;> rfl
    rw [run_iterate_succ, hturn]
    exact hlook.trans hrest

/-- An expression that is too deep ends at the same token in both runs, and where it is empty in
one it is empty in the other. -/
theorem deepExpression_alike (R R' : Rules) :
    Alike .next (fun _ => .next) (deepExpression R) (deepExpression R') :=
  .node _ (by decide) (Sync.le_refl _)
    (fun _ => .inr ⟨deepExpression_stays R, deepExpression_stays R'⟩) <|
    .bind (.complain _) fun _ => .withoutParens (iterate_alike skipToken_alike _ _ _)

/-- A word of a block that is too deep is counted alike and passed over in both runs. -/
theorem skipKind_alike (opened : Nat) (kind : TokenKind) :
    Alike .word (fun _ => .next) (skipKind opened kind) (skipKind opened kind) := by
  have hbump (r : Option Nat) : Alike .word (fun _ => .next)
      (do bumpAny; return r) (do bumpAny; return r) :=
    .bind bumpAny_alike_word fun _ => .pure _ (Sync.le_refl _)
  unfold skipKind
  split
  all_goals first
    | exact hbump _
    | split
      · split
        · exact .pure _ (Sync.word_le _)
        · exact hbump _
      -- In a block that was opened on the way every word is skipped, those that close it as well.
      · refine .bind bumpAny_alike_word fun _ => ?_
        split <;> exact .pure _ (Sync.le_refl _)

/-- At a word both runs skip it or stop in front of it. -/
theorem skipWord_alike (opened : Nat) :
    Alike .word (fun _ => .next) (skipWord opened) (skipWord opened) := by
  refine .bind (isAt_alike_word _) fun ends => ?_
  split
  · exact .pure _ (Sync.word_le _)
  · exact .bind current_alike_word fun kind => skipKind_alike opened kind

/-- What takes any token takes a line break. -/
theorem bumpAny_passes {α : Type} (again : α) : Passes again (do bumpAny; return again) :=
  .look (f := fun kind =>
    (do unless kind == .eof do modify State.consume : Step Unit) >>= fun _ => pure again)
    (fun _ _ _ => rfl) fun _ h => h

/-- Between the words of a block that is too deep line breaks are passed over, and no count
changes. -/
theorem skipWord_passes (opened : Nat) : Passes (some opened) (skipWord opened) := by
  have hbreak : skipKind opened .newline = (do bumpAny; return some opened : Step _) := by
    unfold skipKind
    simp only [closesBlock, Closer.ofToken?, Option.isSome_none]
    split <;> rfl
  refine .look (f := fun kind => do
    if kind == .eof then return none
    skipKind opened (← current)) ?_ fun _ h => h
  refine .look (f := skipKind opened) ?_ fun s hs => ?_
  · rw [hbreak]
    exact bumpAny_passes _
  · exact (skipKind_alike opened .eof).fault_isSome hs

/-- A block that is too deep ends in front of the same word in both runs. -/
theorem deepBlock_alike_word (R R' : Rules) :
    Alike .word (fun _ => .next) (deepBlock R) (deepBlock R') :=
  .aside <| .bind (.complain _) fun _ =>
    (Alike.passing _ _ _ skipWord_passes skipWord_passes fun opened =>
      (skipWord_alike opened).giving fun r => by
        cases r with
        | none => exact Sync.le_refl _
        | some _ => exact Sync.le_breaks _).given (Sync.word_le _)

/-- A name is declared in both runs or missing in both. -/
theorem declaredName_alike (wanted : Wanted) :
    Alike .next (fun _ => .next) (declaredName wanted) (declaredName wanted) := by
  refine .bind (isAt_alike (by decide)) fun there => ?_
  cases there with
  | true => exact .plain (i := .word) (k := .name) (by decide) (by decide) .consume
  | false => exact .complain _

section Rules

variable {R R' : Rules}

/-! ## Arguments and names -/

/-- An argument between parentheses, with the comma behind it. -/
theorem parenArgument_alike (h : R.Alike R') :
    Alike .next (fun _ => .next) (parenArgument R) (parenArgument R') := by
  refine .bind (isAt_alike (by decide)) fun closes => ?_
  split
  · exact .pure _ (by cases closes <;> decide)
  · refine .bind (atLineEnd_alike.given (by cases closes <;> decide)) fun ends => ?_
    split
    · exact .pure _ (by cases ends <;> decide)
    · refine .bind (current_alike.given (by cases ends <;> decide)) fun kind => ?_
      -- Behind an argument, read or set aside, a comma is taken.
      have hcomma : Alike .next (fun _ : Bool => .next)
          (do discard <| eat .comma; return true) (do discard <| eat .comma; return true) :=
        .bind ((eat_alike (by decide)).discard (j := .next) fun _ => Sync.le_refl _)
          fun _ => .pure _ (Sync.le_refl _)
      dsimp only
      split
      · exact .bind ((h.expression 0).given (Sync.seen_le _)) fun _ => hcomma
      · exact .bind ((setAside_alike _ _).given (Sync.seen_le _)) fun _ => hcomma

/-- Arguments between parentheses, down to the closing one. -/
theorem parenArguments_alike (h : R.Alike R') :
    Alike .next (fun _ => .next) (parenArguments R) (parenArguments R') :=
  .bind (.within _ (.bind (bump_alike (by decide)) fun _ => loop_alike (parenArgument_alike h)))
    fun _ => (expect_alike (by decide) _).discard fun _ => Sync.le_refl _

/-- Whether another argument follows is decided by the next token alone. -/
theorem argumentFollows_alike (afterComma : Bool) :
    Alike .next (fun _ => .next) (argumentFollows afterComma) (argumentFollows afterComma) := by
  refine .bind current_alike fun kind => ?_
  split
  · exact .pure _ (Sync.seen_le _)
  · split
    · exact .bind (current_alike.given (Sync.seen_le _)) fun _ => .pure _ (Sync.seen_le _)
    · exact .pure _ (Sync.seen_le _)

/-- An argument without parentheses, with the comma behind it. -/
theorem bareArgument_alike (h : R.Alike R') (afterComma : Bool) :
    Alike .next (fun _ => .next) (bareArgument R afterComma) (bareArgument R' afterComma) := by
  refine .bind (argumentFollows_alike _) fun follows => ?_
  split
  · exact .bind ((h.operand false).discard (j := .next) fun _ => Sync.le_refl _) fun _ =>
      .bind (eat_alike (by decide)) fun _ => .pure _ (Sync.le_refl _)
  · exact .pure _ (Sync.le_refl _)

/-- Arguments without parentheses end where the line does, if not before. -/
theorem bareArguments_alike (h : R.Alike R') :
    Alike .next (fun _ => .next) (bareArguments R) (bareArguments R') :=
  iterate_alike (bareArgument_alike h) _ _ _

/-- Whether a parenthesis opens arguments or a lambda is seen one token further on, where no line
break can make a difference. -/
theorem opensArguments_alike :
    Alike .next (fun _ => .next) opensArguments opensArguments := by
  refine .bind (isAt_alike (by decide)) fun opens => ?_
  split
  · next hopens =>
    subst hopens
    exact .bind look_one_alike_word fun _ => .pure _ (Sync.word_le _)
  · exact .pure _ (by cases opens <;> decide)

/-- A name, or a call with its arguments: whether it is one both runs decide alike, by the name
or by the next token. -/
theorem nameOrCall_alike (h : R.Alike R') (calls : Bool) :
    Alike .next (fun _ => .next) (nameOrCall R calls) (nameOrCall R' calls) := by
  -- What is done once it is known whether the name is a call.
  have hcall (called : Bool) : Alike .next (fun _ => .next)
      (if called then
        nodeAround .funcExpr do
          node .argList do
            if ← opensArguments then parenArguments R else bareArguments R
      else pure ())
      (if called then
        nodeAround .funcExpr do
          node .argList do
            if ← opensArguments then parenArguments R' else bareArguments R'
      else pure ()) := by
    split
    · refine .nodeAround _ (by decide) (Sync.le_refl _) (.plain (by decide) (Sync.le_refl _) (.bind opensArguments_alike fun opens => ?_))
      split
      · exact parenArguments_alike h
      · exact bareArguments_alike h
    · exact .pure _ (Sync.le_refl _)
  refine .bind (.atFunction h.isFunction) fun known =>
    .bind (.plain (by decide) (Sync.le_refl _) (bump_alike (by decide))) fun _ => ?_
  split
  · cases known with
    | true => exact .bind (.pure true (Sync.le_refl _)) hcall
    | false => exact .bind (Alike.map (current_alike.giving Sync.seen_le)) hcall
  · exact .pure _ (Sync.le_refl _)

/-! ## Lambdas -/

/-- A declaration begins with a word, and its name is behind that word. -/
theorem variableDecl_alike_word : Alike .word (fun _ => .next) variableDecl variableDecl :=
  .plain (by decide) (by decide) (.bind bumpAny_alike_word fun _ => declaredName_alike _)

/-- A parameter or the variable of a loop, declared or used. -/
theorem variableOrDecl_alike (recovers : TokenKind → Bool) :
    Alike .next (fun _ => .next) (variableOrDecl recovers) (variableOrDecl recovers) := by
  refine .bind current_alike fun kind => ?_
  split
  · next htype =>
    have hkind : Sync.seen kind = .word := if_neg (by rintro rfl; simp [TokenKind.isTypeName, TokenKind.family] at htype)
    rw [hkind]
    exact variableDecl_alike_word
  · refine .bind ((isAt_alike (by decide)).given (Sync.seen_le _)) fun there => ?_
    split
    · exact .plain (by decide) (by cases there <;> decide) ((bump_alike (by decide)).given (by cases there <;> decide))
    · exact (setAside_alike _ _).given (by cases there <;> decide)

/-- A parameter, with the comma behind it. -/
theorem parameter_alike : Alike .next (fun _ => .next) parameter parameter := by
  refine .bind (isAt_alike (by decide)) fun closes => ?_
  split
  · exact .pure _ (by cases closes <;> decide)
  · refine .bind (atLineEnd_alike.given (by cases closes <;> decide)) fun ends => ?_
    split
    · exact .pure _ (by cases ends <;> decide)
    · exact .bind ((variableOrDecl_alike _).given (by cases ends <;> decide)) fun _ =>
        .bind ((eat_alike (by decide)).discard (j := .next) fun _ => Sync.le_refl _) fun _ =>
          .pure _ (Sync.le_refl _)

/-- Parameters between braces. -/
theorem parameters_alike (R R' : Rules) :
    Alike .next (fun _ => .next) (parameters R) (parameters R') :=
  .plain (by decide) (Sync.le_refl _) (.bind (bump_alike (by decide)) fun _ =>
    .bind (loop_alike parameter_alike) fun _ =>
      (expect_alike (by decide) _).discard fun _ => Sync.le_refl _)

/-- A lambda. Its line breaks count although parentheses are open around it. -/
theorem lambda_alike (h : R.Alike R') :
    Alike .next (fun _ => .next) (lambda R) (lambda R') := by
  refine .plain (by decide) (Sync.le_refl _) (.bind (.withoutParens ?_) fun _ =>
    (expect_alike (by decide) _).discard fun _ => Sync.le_refl _)
  refine .bind (bump_alike (by decide)) fun _ => .bind (bump_alike (by decide)) fun _ =>
    .bind (declaredName_alike _) fun _ => .bind (isAt_alike (by decide)) fun opens => ?_
  have hrest : Alike .next (fun _ => .next)
      (do lineEnd R; within .begins R.block; discard <| expect .kwEnd .kwEnd)
      (do lineEnd R'; within .begins R'.block; discard <| expect .kwEnd .kwEnd) :=
    .bind (lineEnd_alike_fresh R R') fun _ => .bind (.within _ h.block) fun _ =>
      (expect_alike (by decide) _).discard fun _ => Sync.le_refl _
  split
  · exact .bind ((parameters_alike R R').given (by cases opens <;> decide)) fun _ => hrest
  · exact hrest.given (by cases opens <;> decide)

/-! ## Operands -/

/-- An expression between parentheses. -/
theorem parenthesized_alike (h : R.Alike R') :
    Alike .next (fun _ => .next) (parenthesized R) (parenthesized R') :=
  .plain (by decide) (Sync.le_refl _) <|
    .bind (.within _ (.bind (bump_alike (by decide)) fun _ => h.expression 0)) fun _ =>
      (expect_alike (by decide) _).discard fun _ => Sync.le_refl _

/-- Where no operand begins, both runs complain at the same place and set aside the same word or
none. -/
theorem noOperand_alike : Alike .next (fun _ => .next) noOperand noOperand := by
  -- What is done once it is known whether the line ends or a word stops the expression.
  have hrest (stops : Bool) : Alike (Sync.asked true stops) (fun _ => .next)
      (do
        if stops then
          complain (.missing .expression)
          return false
        node .error do
          complain (.missing .expression)
          bumpAny
        return true)
      (do
        if stops then
          complain (.missing .expression)
          return false
        node .error do
          complain (.missing .expression)
          bumpAny
        return true) := by
    cases stops with
    | true => exact .bind (.complain _) fun _ => .pure _ (Sync.le_refl _)
    | false =>
      exact .bind (.aside (.bind (.complain _) fun _ => bumpAny_alike_word))
        fun _ => .pure _ (Sync.le_refl _)
  refine .bind atLineEnd_alike fun ends => ?_
  cases ends with
  | true => exact .bind (.pure true (Sync.le_refl _)) hrest
  | false =>
    have hword : Alike .word (Sync.asked true) (stopsExpression <$> current) (stopsExpression <$> current) :=
      Alike.map (current_alike_word.giving fun _ => Sync.word_le _)
    exact .bind hword hrest

/-- An operand without what accesses it. -/
theorem primary_alike (h : R.Alike R') (calls : Bool) :
    Alike .next (fun _ => .next) (primary R calls) (primary R' calls) := by
  -- The three kinds of literal are read alike.
  have hliteral : Alike .word (fun _ => .next)
      (do node .literal bumpAny; return true) (do node .literal bumpAny; return true) :=
    .bind (.plain (by decide) (by decide) bumpAny_alike_word) fun _ => .pure _ (Sync.le_refl _)
  refine .bind current_alike fun kind => ?_
  cases kind
  case number => exact hliteral
  case hexNumber => exact hliteral
  case string => exact hliteral
  case ident =>
    exact .bind ((nameOrCall_alike h calls).given (Sync.seen_le _)) fun _ => .pure _ (Sync.le_refl _)
  case lParen =>
    refine .bind (look_one_alike_word.giving fun _ => Sync.word_le .next) fun second => ?_
    have hdone : Alike .next (fun _ : Bool => .next) (pure true) (pure true) :=
      .pure _ (Sync.le_refl _)
    dsimp only
    split
    · exact .bind (lambda_alike h) fun _ => hdone
    · exact .bind (parenthesized_alike h) fun _ => hdone
  all_goals exact noOperand_alike.given (Sync.seen_le _)

/-- Whether an access follows, and whether there is a level left for it. -/
theorem roomForAccess_alike (R R' : Rules) :
    Alike .next (fun _ => .next) (roomForAccess R) (roomForAccess R') := by
  have hrest (deep : Bool) : Alike .next (fun _ => .next)
      (do if deep then deepExpression R; return none else return some ())
      (do if deep then deepExpression R'; return none else return some ()) := by
    split
    · exact .bind (deepExpression_alike R R') fun _ => .pure _ (Sync.le_refl _)
    · exact .pure _ (Sync.le_refl _)
  refine .bind current_alike fun kind => ?_
  split
  · exact .bind (Alike.isTooDeep.giving fun _ => Sync.seen_le _) hrest
  · exact .bind (.pure false (Sync.seen_le _)) hrest

/-- A member or an element of the operand in front. -/
theorem access_alike (h : R.Alike R') (calls : Bool) :
    Alike .next (fun _ => .next) (access R calls) (access R' calls) := by
  -- A point and an arrow are followed by the same rule.
  have hmember : Alike .word (fun _ => .next)
      (do
        nodeAround .memberExpr do
          bumpAny
          if ← isAt .ident then nameOrCall R calls else complain (.missing .memberName)
        return true)
      (do
        nodeAround .memberExpr do
          bumpAny
          if ← isAt .ident then nameOrCall R' calls else complain (.missing .memberName)
        return true) := by
    refine .bind (.nodeAround _ (by decide) (by decide) (.bind bumpAny_alike_word fun _ =>
      .bind (isAt_alike (by decide)) fun there => ?_)) fun _ => .pure _ (Sync.le_refl _)
    split
    · exact (nameOrCall_alike h calls).given (by cases there <;> decide)
    · exact (Alike.complain _).given (by cases there <;> decide)
  refine .bind current_alike fun kind => ?_
  split
  · exact hmember
  · exact hmember
  · exact .bind (.nodeAround _ (by decide) (Sync.seen_le _) (.bind ((bump_alike (by decide)).given (Sync.seen_le _)) fun _ =>
      .bind (h.expression 0) fun _ =>
        (expect_alike (by decide) _).discard fun _ => Sync.le_refl _)) fun _ => .pure _ (Sync.le_refl _)
  · exact .pure _ (Sync.seen_le _)

/-- All accesses to an operand. -/
theorem accesses_alike (h : R.Alike R') (calls : Bool) :
    Alike .next (fun _ => .next) (accesses R calls) (accesses R' calls) :=
  .climb (j := .next) _ _ ((roomForAccess_alike R R').giving fun r => by cases r <;> exact Sync.le_refl _)
    fun _ => access_alike h calls

/-- An operand with the operators in front of it, where a level is left. -/
theorem shallowOperand_alike (h : R.Alike R') (calls : Bool) :
    Alike .next (fun _ => .next) (shallowOperand R calls) (shallowOperand R' calls) := by
  refine .bind current_alike fun kind => ?_
  split
  · next power hpower =>
    -- An operator is no line break, so both runs are at the word itself.
    have hkind : Sync.seen kind = .word := if_neg (by rintro rfl; simp [TokenKind.unaryPower?] at hpower)
    rw [hkind]
    refine .bind (.plain (by decide) (by decide) (.bind bumpAny_alike_word fun _ => ?_)) fun _ => .pure _ (Sync.le_refl _)
    split
    · exact h.expression power
    · exact (h.operand false).discard fun _ => Sync.le_refl _
  · refine .bind ((primary_alike h calls).given (Sync.seen_le _)) fun there => ?_
    dsimp only
    split
    · exact .bind (accesses_alike h calls) fun _ => .pure _ (Sync.le_refl _)
    · exact .pure _ (Sync.le_refl _)

/-- An operand, or what is set aside where no level is left. -/
theorem operand_alike (h : R.Alike R') (calls : Bool) :
    Alike .next (fun _ => .next) (operand R calls) (operand R' calls) := by
  refine .bind .isTooDeep fun deep => ?_
  split
  · exact .bind (deepExpression_alike R R') fun _ => .pure _ (Sync.le_refl _)
  · exact .within _ (shallowOperand_alike h calls)

/-- Whether an operator follows that binds at the floor. If one does, both runs are at a word. -/
theorem roomForOperator_alike (R R' : Rules) (floor : Nat) :
    Alike .next (fun r => if r.isSome then .word else .next)
      (roomForOperator R floor) (roomForOperator R' floor) := by
  refine .bind current_alike fun kind => ?_
  split
  · exact .pure _ (Sync.seen_le _)
  · next left right hpower =>
    -- An operator is no line break, so the next token is known to be in the line.
    have hkind : Sync.seen kind = .word :=
      if_neg (by rintro rfl; simp [TokenKind.binaryPower?] at hpower)
    rw [hkind]
    split
    · exact .pure _ (Sync.word_le _)
    · refine .bind .isTooDeep fun deep => ?_
      split
      · exact .bind ((deepExpression_alike R R').given (Sync.word_le _)) fun _ =>
          .pure _ (Sync.le_refl _)
      · exact .pure _ (Sync.word_le _)

/-- An operator with the operand behind it. -/
theorem application_alike (h : R.Alike R') (power : Nat) :
    Alike .word (fun _ => .next) (application R power) (application R' power) :=
  .bind (.nodeAround _ (by decide) (by decide) (.bind bumpAny_alike_word fun _ => h.expression power))
    fun _ => .pure _ (Sync.le_refl _)

/-- All operators that bind at the floor. -/
theorem operators_alike (h : R.Alike R') (floor : Nat) :
    Alike .next (fun _ => .next) (operators R floor) (operators R' floor) :=
  .climb _ _ (roomForOperator_alike R R' floor) fun power => application_alike h power

/-- An expression ends at the same token in both runs. -/
theorem expression_alike (h : R.Alike R') (floor : Nat) :
    Alike .next (fun _ => .next) (expression R floor) (expression R' floor) := by
  refine .bind (h.operand true) fun there => ?_
  split
  · exact operators_alike h floor
  · exact .pure _ (Sync.le_refl _)

/-! ## Statements -/

/-- A declaration, with a value or without. -/
theorem declaration_alike (h : R.Alike R') :
    Alike .word (fun _ => .breaks) (declaration R) (declaration R') := by
  refine .plain (by decide) (by decide) (.bind variableDecl_alike_word fun _ =>
    .bind (eat_alike (by decide)) fun valued => ?_)
  split
  · exact .bind (h.expression 0) fun _ => lineEnd_alike R R'
  · exact lineEnd_alike R R'

/-- An assignment whose value stands behind `to`; without the word the rest of the line is no
part of it. -/
theorem setStatement_alike (h : R.Alike R') :
    Alike .next (fun _ => .breaks) (setStatement R) (setStatement R') := by
  refine .plain (by decide) (Sync.le_refl _) (.bind (bump_alike (by decide)) fun _ =>
    .bind (h.expression 0) fun _ => .bind (expect_alike (by decide) _) fun there => ?_)
  split
  · exact .bind (h.expression 0) fun _ => lineEnd_alike R R'
  · exact lineEnd_alike R R'

/-- An assignment that is an expression. -/
theorem letStatement_alike (h : R.Alike R') :
    Alike .next (fun _ => .breaks) (letStatement R) (letStatement R') :=
  .plain (by decide) (Sync.le_refl _) (.bind (bump_alike (by decide)) fun _ =>
    .bind (h.expression 0) fun _ => lineEnd_alike R R')

/-- A `return`, with a value or without. -/
theorem returnStatement_alike (h : R.Alike R') :
    Alike .next (fun _ => .breaks) (returnStatement R) (returnStatement R') := by
  refine .plain (by decide) (Sync.le_refl _) (.bind (bump_alike (by decide)) fun _ =>
    .bind current_alike fun kind => ?_)
  split
  · exact .bind ((h.expression 0).given (Sync.seen_le _)) fun _ => lineEnd_alike R R'
  · exact (lineEnd_alike R R').given (Sync.seen_le _)

/-- A statement that is a single word. -/
theorem wordStatement_alike (R R' : Rules) {word : TokenKind} (hword : word ≠ .newline)
    {kind : NodeKind} (hkind : kind ≠ .stmtList ∧ kind ≠ .error) :
    Alike .next (fun _ => .breaks) (wordStatement R word kind) (wordStatement R' word kind) :=
  .plain hkind (Sync.le_refl _) (.bind (bump_alike hword) fun _ => lineEnd_alike R R')

/-- A statement that is an expression. -/
theorem expressionStatement_alike (h : R.Alike R') :
    Alike .next (fun _ => .breaks) (expressionStatement R) (expressionStatement R') :=
  .plain (by decide) (Sync.le_refl _) (.bind (h.expression 0) fun _ => lineEnd_alike R R')

/-! ## Blocks -/

/-- A turn of the loop over a block ends the block in both runs or reads the same statement in
both. -/
theorem blockTurn_alike (h : R.Alike R') :
    Alike .word (fun again => if again then .breaks else .next) (blockTurn R) (blockTurn R') := by
  refine .bind (isAt_alike_word _) fun ends => ?_
  split
  · exact .pure _ (Sync.word_le _)
  · refine .bind current_alike_word fun kind => ?_
    split
    · exact .pure _ (Sync.word_le _)
    · exact breakOr_alike_word (h.statement.given (by decide))

/-- Line breaks between statements are passed over. -/
theorem blockTurn_passes (h : R.Alike R') : Passes true (blockTurn R) := by
  have hstatement := h.statement.left.given (Sync.word_le _)
  -- Both looks in front of the step find the line break and change nothing.
  refine .look (f := fun kind => do
    if kind == .eof then return false
    if closesBlock (← current) then return false
    breakOr R.statement) (.look (f := fun kind => do
      if closesBlock kind then return false
      breakOr R.statement) (.breakOr fun _ => hstatement.fault_isSome) ?_) fun _ h => h
  exact fun _ => (breakOr_alike_word hstatement).fault_isSome

/-- A block begins behind the line breaks ahead. It is the one construct that may find some in
one run and none in the other. -/
theorem block_alike (h : R.Alike R') :
    Alike .fresh (fun _ => .next) (block R) (block R') :=
  .block R R' skipWord_alike <| .within _ <|
    loop_alike_breaks (blockTurn_passes h) (blockTurn_passes h.symm) (blockTurn_alike h)

/-- The word that closes a block, with the end of its line; where the word is missing, nothing is
read. -/
theorem closing_alike (R R' : Rules) {kind : TokenKind} (hkind : kind ≠ .newline)
    (wanted : Wanted) :
    Alike .next (fun _ => .breaks) (closing R kind wanted) (closing R' kind wanted) := by
  refine .bind (expect_alike hkind _) fun there => ?_
  split
  · exact lineEnd_alike R R'
  · exact .pure _ (by decide)

/-- What follows the block of an `if`: branches down to an `else`, or nothing. -/
theorem branches_alike (h : R.Alike R') :
    Alike .next (fun _ => .next) (branches R) (branches R') := by
  refine .bind (isAt_alike (by decide)) fun isElseIf => ?_
  split
  · exact .plain (by decide) (by cases isElseIf <;> decide) (.bind ((bump_alike (by decide)).given (by cases isElseIf <;> decide)) fun _ =>
      .bind (h.expression 0) fun _ => .bind (lineEnd_alike_fresh R R') fun _ =>
        .bind h.block fun _ => h.branches)
  · refine .bind ((isAt_alike (by decide)).given (by cases isElseIf <;> decide)) fun isElse => ?_
    split
    · exact .plain (by decide) (by cases isElse <;> decide) (.bind ((bump_alike (by decide)).given (by cases isElse <;> decide)) fun _ =>
        .bind (lineEnd_alike_fresh R R') fun _ => h.block)
    · exact .pure _ (by cases isElse <;> decide)

/-- An `if` with its branches. -/
theorem ifStatement_alike (h : R.Alike R') :
    Alike .next (fun _ => .breaks) (ifStatement R) (ifStatement R') :=
  .plain (by decide) (Sync.le_refl _) (.bind (bump_alike (by decide)) fun _ =>
    .bind (h.expression 0) fun _ => .bind (lineEnd_alike_fresh R R') fun _ =>
      .bind h.block fun _ => .bind h.branches fun _ => closing_alike R R' (by decide) _)

/-- A `while` with its block. -/
theorem whileStatement_alike (h : R.Alike R') :
    Alike .next (fun _ => .breaks) (whileStatement R) (whileStatement R') :=
  .plain (by decide) (Sync.le_refl _) (.bind (bump_alike (by decide)) fun _ =>
    .bind (h.expression 0) fun _ => .bind (lineEnd_alike_fresh R R') fun _ =>
      .bind h.block fun _ => closing_alike R R' (by decide) _)

/-- A `foreach` with its block. Without the arrow the line is at its end. -/
theorem foreachStatement_alike (h : R.Alike R') :
    Alike .next (fun _ => .breaks) (foreachStatement R) (foreachStatement R') := by
  -- What follows the collection.
  have hrest : Alike .next (fun _ => .breaks)
      (do lineEnd R; R.block; closing R .kwLoop .kwLoop)
      (do lineEnd R'; R'.block; closing R' .kwLoop .kwLoop) :=
    .bind (lineEnd_alike_fresh R R') fun _ => .bind h.block fun _ => closing_alike R R' (by decide) _
  refine .plain (by decide) (Sync.le_refl _) (.bind (bump_alike (by decide)) fun _ =>
    .bind (variableOrDecl_alike _) fun _ => .bind (expect_alike (by decide) _) fun there => ?_)
  split
  · exact .bind (h.expression 0) fun _ => hrest
  · exact hrest

/-- A `begin` block, with parameters, with arguments or with neither. -/
theorem beginStatement_alike (h : R.Alike R') :
    Alike .next (fun _ => .breaks) (beginStatement R) (beginStatement R') := by
  -- What follows the parameters or the arguments.
  have hrest : Alike .next (fun _ => .breaks)
      (do lineEnd R; within .begins R.block; closing R .kwEnd .kwEnd)
      (do lineEnd R'; within .begins R'.block; closing R' .kwEnd .kwEnd) :=
    .bind (lineEnd_alike_fresh R R') fun _ => .bind (.within _ h.block) fun _ =>
      closing_alike R R' (by decide) _
  refine .plain (by decide) (Sync.le_refl _) (.bind (bump_alike (by decide)) fun _ =>
    .bind (declaredName_alike _) fun _ => .bind (isAt_alike (by decide)) fun opens => ?_)
  split
  · exact .bind ((parameters_alike R R').given (by cases opens <;> decide)) fun _ => hrest
  · refine .bind (current_alike.given (by cases opens <;> decide)) fun kind => ?_
    split
    · exact .bind (.plain (by decide) (Sync.seen_le _) ((bareArguments_alike h).given (Sync.seen_le _))) fun _ => hrest
    · exact hrest.given (Sync.seen_le _)

/-- A `begin` block inside of another one is set aside as a whole. -/
theorem beginOrNested_alike_word (h : R.Alike R') :
    Alike .word (fun _ => .breaks) (beginOrNested R) (beginOrNested R') := by
  have hbegin := (beginStatement_alike h).given (Sync.word_le _)
  refine .bind .isOutside fun outside => ?_
  split
  · exact hbegin
  · exact .aside (.bind (.complain _) fun _ => hbegin)

/-- **A statement**, by its first word. -/
theorem statement_alike (h : R.Alike R') :
    Alike .next (fun _ => .breaks) (statement R) (statement R') := by
  refine .bind current_alike fun kind => ?_
  -- The first word says which statement it is, and each rule is entered with that word ahead.
  cases kind
  case kwShort | kwInt | kwLong | kwFloat | kwRef | kwStringVar | kwArrayVar =>
    exact declaration_alike h
  case kwSet => exact (setStatement_alike h).given (Sync.seen_le _)
  case kwLet => exact (letStatement_alike h).given (Sync.seen_le _)
  case kwIf => exact (ifStatement_alike h).given (Sync.seen_le _)
  case kwWhile => exact (whileStatement_alike h).given (Sync.seen_le _)
  case kwForeach => exact (foreachStatement_alike h).given (Sync.seen_le _)
  case kwBegin => exact beginOrNested_alike_word h
  case kwReturn => exact (returnStatement_alike h).given (Sync.seen_le _)
  case kwBreak => exact (wordStatement_alike R R' (by decide) (by decide)).given (Sync.seen_le _)
  case kwContinue => exact (wordStatement_alike R R' (by decide) (by decide)).given (Sync.seen_le _)
  all_goals exact (expressionStatement_alike h).given (Sync.seen_le _)

/-! ## Whole texts -/

/-- Line breaks in front of a text: behind them both runs are at the same word. -/
theorem lineBreaks_alike (R R' : Rules) :
    Alike .breaks (fun _ => .word) (lineBreaks R) (lineBreaks R') :=
  loop_alike_breaks .eat_newline .eat_newline eat_newline_alike_word

/-- The name of a script. -/
theorem scriptName_alike (R R' : Rules) :
    Alike .next (fun _ => .breaks) (scriptName R) (scriptName R') :=
  .plain (by decide) (Sync.le_refl _) (.bind (bump_alike (by decide)) fun _ =>
    .bind (declaredName_alike _) fun _ => lineEnd_alike R R')

/-- A closer that closes nothing is a word, so setting it aside needs no agreement on line
breaks. -/
theorem strayCloser_alike_word (closer : Closer) :
    Alike .word (fun _ => .breaks) (strayCloser closer) (strayCloser closer) := by
  refine .bind (current_alike_word.discard fun _ => Sync.le_refl _) fun _ =>
    .bind atLineEnd_alike_word fun ends => ?_
  split
  · exact .pure _ (Sync.word_le _)
  · exact .aside (.bind (.complain _) fun _ =>
      bumpAny_alike_word.giving fun _ => Sync.le_breaks _)

/-- What stands outside every block. -/
theorem topLevel_alike_word (h : R.Alike R') :
    Alike .word (fun _ => .breaks) (topLevel R) (topLevel R') := by
  refine .bind current_alike_word fun kind => ?_
  split
  · exact .bind (.complain _) fun _ => (scriptName_alike R R').given (by decide)
  · split
    · exact strayCloser_alike_word _
    · split
      · exact h.statement.given (by decide)
      · exact .bind (.complain _) fun _ => h.statement.given (by decide)

/-- A turn of the loop over a script. -/
theorem scriptTurn_alike (h : R.Alike R') :
    Alike .word (fun again => if again then .breaks else .next) (scriptTurn R) (scriptTurn R') := by
  refine .bind (isAt_alike_word _) fun ends => ?_
  split
  · exact .pure _ (Sync.word_le _)
  · exact breakOr_alike_word (topLevel_alike_word h)

/-- Line breaks between the statements of a script are passed over. -/
theorem scriptTurn_passes (h : R.Alike R') : Passes true (scriptTurn R) :=
  .look (f := fun kind => do
    if kind == .eof then return false
    breakOr (topLevel R)) (.breakOr fun _ => (topLevel_alike_word h).fault_isSome) fun _ h => h

/-- **A script**, behind whatever line breaks. -/
theorem script_alike (h : R.Alike R') :
    Alike .breaks (fun _ => .next) (script R) (script R') := by
  refine .bind (lineBreaks_alike R R') fun _ => .bind (isAt_alike_word _) fun named => ?_
  have hrest : Alike .breaks (fun _ => .next) (R.loop (scriptTurn R)) (R'.loop (scriptTurn R')) :=
    loop_alike_breaks (scriptTurn_passes h) (scriptTurn_passes h.symm) (scriptTurn_alike h)
  split
  · exact .bind ((scriptName_alike R R').given (Sync.word_le _)) fun _ => hrest
  · exact .bind (.complain _) fun _ => hrest.given (Sync.le_breaks _)

/-- Both runs pass over any token, also over a line break. -/
theorem passToken_alike :
    Alike .word (fun again => if again then .breaks else .word) passToken passToken := by
  refine .bind (isAt_alike_word _) fun ends => ?_
  split
  · exact .pure _ (Sync.word_le _)
  · exact .bind bumpAny_alike_word fun _ => .pure _ (by decide)

/-- What passes over tokens passes over line breaks. -/
theorem passToken_passes : Passes true passToken :=
  .look (f := fun kind => do
    if kind == .eof then return false
    bumpAny
    return true) (bumpAny_passes true) fun _ h => h

/-- **A text that is one expression**, with what is left behind it. -/
theorem onlyExpression_alike (h : R.Alike R') :
    Alike .breaks (fun _ => .word) (onlyExpression R) (onlyExpression R') := by
  refine .bind (lineBreaks_alike R R') fun _ =>
    .bind ((h.expression 0).given (Sync.word_le _)) fun _ =>
      .bind ((lineBreaks_alike R R').given (Sync.le_breaks _)) fun _ =>
        .bind (isAt_alike_word _) fun ends => ?_
  split
  · exact .pure _ (Sync.le_refl _)
  · exact .aside (.bind (.complain _) fun _ =>
      (loop_alike_breaks passToken_passes passToken_passes passToken_alike).given (Sync.word_le _))

end Rules

/-! ## The rules of any two levels -/

namespace Rules

/-- One level up, each rule is put together as before from rules that are alike. -/
theorem deeper_alike {R R' : Rules} (h : R.Alike R') : R.deeper.Alike R'.deeper where
  isFunction := h.isFunction
  statement := statement_alike h
  block := block_alike h
  branches := branches_alike h
  expression := expression_alike h
  operand := operand_alike h

/-- Where no level is left, all rules give up. -/
theorem exhausted_alike (f : String → Bool) : (exhausted f).Alike (exhausted f) where
  isFunction := rfl
  statement := .giveUp _
  block := .giveUp _
  branches := .giveUp _
  expression _ := .giveUp _
  operand _ := .bind (.giveUp (o := fun _ => .next) _) fun _ => .pure _ (Sync.le_refl _)

/-- Where no level is left, every rule gives up. -/
theorem exhausted_alike_of {R : Rules} (h : R.Alike R) : (exhausted R.isFunction).Alike R where
  isFunction := rfl
  statement := .lostLeft (fun s => by simp [exhausted]) (exhausted_alike _).statement h.statement
  block := .lostLeft (fun s => by simp [exhausted]) (exhausted_alike _).block h.block
  branches := .lostLeft (fun s => by simp [exhausted]) (exhausted_alike _).branches h.branches
  expression _ :=
    .lostLeft (fun s => by simp [exhausted]) ((exhausted_alike _).expression _) (h.expression _)
  operand _ :=
    .lostLeft (fun s => by simp [exhausted]) ((exhausted_alike _).operand _) (h.operand _)

end Rules

/-- The names known to be functions are the same at all levels. -/
theorem isFunction_rules (f : String → Bool) (levels : Nat) : (rules f levels).isFunction = f := by
  induction levels with
  | zero => rfl
  | succ levels ih => exact ih

/-- The rules of a level are alike with themselves. -/
theorem rules_alike_self (f : String → Bool) (levels : Nat) :
    (rules f levels).Alike (rules f levels) := by
  induction levels with
  | zero => exact Rules.exhausted_alike f
  | succ levels ih => exact Rules.deeper_alike ih

/-- **The rules of any two numbers of levels are alike.** -/
theorem rules_alike (f : String → Bool) (levels levels' : Nat) :
    (rules f levels).Alike (rules f levels') := by
  have hzero (n : Nat) : (rules f 0).Alike (rules f n) := by
    have h := Rules.exhausted_alike_of (rules_alike_self f n)
    rwa [isFunction_rules] at h
  induction levels generalizing levels' with
  | zero => exact hzero levels'
  | succ levels ih =>
    cases levels' with
    | zero => exact (hzero _).symm
    | succ levels' => exact Rules.deeper_alike (ih levels')

end ScriptSense.Grammar
