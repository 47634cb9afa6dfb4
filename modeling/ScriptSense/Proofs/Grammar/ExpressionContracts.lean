/-
What each rule of the grammar spends.

One lemma for each rule, in the order of the grammar: with how many levels and
looks it may begin, what it has spent behind it, and in front of which tokens it
is certain to consume one. `Rules.Sound` are the contracts of the rules that the
rules use; `rules_sound` ties them, by induction on the number of levels.

The numbers are the looks of the longest way through a rule, and they are exact
up to one or two. That they can be tied at all rests on the levels of nesting:
an operand takes fourteen looks after its last token, more than the expression
it is part of allows it, but it is one level deeper.
-/
import ScriptSense.Proofs.Grammar.Spending

set_option autoImplicit false

namespace ScriptSense.Grammar

/-! ## Kinds of tokens -/

/-- What begins an expression ends no line, closes nothing and stops nothing. -/
theorem starts_excludes {kind : TokenKind} (h : kind.canStartExpression = true) :
    kind ≠ .newline ∧ kind ≠ .eof ∧ stopsExpression kind = false := by
  cases kind <;> revert h <;> decide

/-- What can begin an argument can begin an expression. -/
theorem starts_of_argument {kind : TokenKind} (h : kind.canStartArgument = true) :
    kind.canStartExpression = true := by
  cases kind <;> revert h <;> decide

section Recovery

variable {R : Rules} {n l : Nat} {s : State}

/-! ## Recovery -/

/-- A single token set aside. -/
theorem aside_took (problem : Problem) (hs : Ready R n 3900 s) (hend : s.head ≠ .eof) :
    After (node .error do complain problem; bumpAny) s fun _ t => Took 0 s t ∧ t.EndsInNode := by
  have hbegun := hs.begun .error
  refine node_took (.bind (complain_goes problem hbegun.fault) ?_)
  rintro - t ⟨ht, hinput⟩
  have hhead : t.head ≠ .eof := by rwa [State.head_congr hinput, State.head_begun]
  refine (bumpAny_after (ht.room hbegun (by decide) (by decide)) hhead).mono ?_
  rintro - _ rfl
  exact ht.took (took_consume ht.fault hhead)

/-- Setting aside takes two looks, and takes a token wherever it does not recover at once. -/
theorem setAside_goes (wanted : Wanted) (recovers : TokenKind → Bool) (hs : Ready R n 3500 s) :
    After (setAside wanted recovers) s fun _ t => Goes 2 1 s t
      ∧ (recovers s.head = false → s.head ≠ .newline → s.head ≠ .eof → Took 0 s t) := by
  refine .bind (current_after (hs.room (by decide))) ?_
  rintro _ _ ⟨rfl, rfl⟩
  have h1 : Goes 1 0 s s.looked := .look hs.fault
  have h2 : Goes 2 1 s s.looked.looked := h1.looked
  -- A complaint alone, at a token where recovery begins or at the end of the line. Else one
  -- token is taken.
  split
  · next hrecovers =>
    refine (complain_goes _ h1.fault).mono fun _ t ht => ⟨(h1.trans ht.1).weaken (by decide) (by decide), ?_⟩
    intro hfalse
    rw [hfalse] at hrecovers
    exact absurd hrecovers (by decide)
  · refine .bind (atLineEnd_after (h1.room hs (by decide) (by decide))) ?_
    rintro _ _ ⟨rfl, rfl⟩
    have hhead : s.looked.head = s.head := rfl
    rw [hhead]
    split
    · next hends =>
      refine (complain_goes _ h2.fault).mono fun _ t ht => ⟨(h2.trans ht.1).weaken (by decide) (by decide), ?_⟩
      intro _ hnewline heof
      simp [hnewline, heof] at hends
    · next hends =>
      simp only [Bool.or_eq_true, beq_iff_eq, not_or] at hends
      refine (aside_took _ (hs.goes (m := n) h2 (Nat.le_refl _) (by decide) (by decide)) hends.2).mono ?_
      rintro - t ⟨ht, -⟩
      exact ⟨(h2.took ht).goes.weaken (Nat.le_refl _) (by decide), fun _ _ _ => h2.took ht⟩

/-- A loop that passes over tokens one by one, up to one at which it stops. -/
theorem loopFrom_goes {σ : Type} {step : σ → Step (Option σ)} (stops : σ → TokenKind → Prop)
    {a : Nat} (ha : a ≤ 10)
    (hturn : ∀ x t, Ready R 1 3900 t →
      After (step x) t (Turned (fun u => Goes a 0 t u ∧ stops x t.head) fun _ u => Took 0 t u))
    (x : σ) (hs : Ready R 1 3800 s) :
    After (R.loopFrom x step) s fun _ t => Goes a a s t ∧ (¬ stops x s.head → Took a s t) := by
  -- The loop stands at its beginning, or it has taken a token.
  refine After.iterate (fun y t => y = x ∧ t = s ∨ Took 0 s t) (fun y t ht => ?_) _
    (.inl ⟨rfl, rfl⟩) (hs.length_lt_turns (Nat.le_refl _))
  have hgoes : Goes 0 0 s t := by
    rcases ht with ⟨-, rfl⟩ | ht
    · exact .refl hs.fault
    · exact ht.goes
  refine (hturn y t (hs.goes hgoes (Nat.le_refl _) (by decide) (by decide))).mono ?_
  rintro (_ | z) u hu
  · obtain ⟨hgo, hstop⟩ := hu
    refine ⟨(hgoes.trans hgo).weaken (by omega) (by omega), fun hnot => ?_⟩
    rcases ht with ⟨rfl, rfl⟩ | ht
    · exact absurd hstop hnot
    · exact (ht.trans hgo).weaken (by omega)
  · exact ⟨hu.length, .inr (hgoes.took hu)⟩

/-- A loop whose turns each take a token spends what its last turn spends. -/
theorem loop_goes {step : Step Bool} (stops : TokenKind → Prop) {a : Nat} (ha : a ≤ 10)
    (hturn : ∀ t, Ready R 1 3900 t → After step t fun again u =>
      if again then Took 0 t u else Goes a 0 t u ∧ stops t.head)
    (hs : Ready R 1 3800 s) :
    After (R.loop step) s fun _ t => Goes a a s t ∧ (¬ stops s.head → Took a s t) := by
  refine loopFrom_goes (fun _ => stops) ha (fun _ t ht => ?_) () hs
  refine .bind (hturn t ht) fun again u hu => ?_
  cases again with
  | false => exact .pure hu
  | true => exact .pure hu

/-- A token of the line is taken, or the line is over. -/
theorem passInLine_after (hs : Ready R n 3900 s) :
    After passInLine s fun again t =>
      if again then Took 0 s t else Goes 1 0 s t ∧ (s.head = .newline ∨ s.head = .eof) := by
  have h1 : Goes 1 0 s s.looked := .look hs.fault
  refine .bind (atLineEnd_after (hs.room (by decide))) ?_
  rintro _ _ ⟨rfl, rfl⟩
  split
  · next hends => exact .pure ⟨h1, by simpa using hends⟩
  · next hends =>
    simp only [Bool.or_eq_true, beq_iff_eq, not_or] at hends
    refine .bind (bumpAny_after (h1.room hs (by decide) (by decide)) hends.2) ?_
    rintro - _ rfl
    exact .pure (h1.took (took_consume h1.fault hends.2))

/-- The end of a line takes what is left of it. -/
theorem lineEnd_goes (hs : Ready R 1 3500 s) :
    After (lineEnd R) s fun _ t => Goes 2 2 s t ∧ (s.head ≠ .eof → Took 2 s t) := by
  refine .bind (eat_after .newline (hs.room (by decide))) ?_
  rintro _ _ (⟨rfl, hhead, rfl⟩ | ⟨rfl, hbreak, rfl⟩)
  · have htook : Took 0 s s.consume := took_consume hs.fault (by simp [hhead])
    exact .pure ⟨htook.goes.weaken (Nat.le_refl _) (by decide), fun _ => htook.weaken (by decide)⟩
  have h1 : Goes 1 0 s s.looked := .look hs.fault
  have h2 : Goes 2 1 s s.looked.looked := h1.looked
  refine .bind (atEnd_after (h1.room hs (by decide) (by decide))) ?_
  rintro _ _ ⟨rfl, rfl⟩
  have hready : Ready R 1 3510 s.looked.looked := hs.goes h2 (by decide) (by decide) (by decide)
  split
  · next hends =>
    refine .pure ⟨h2.weaken (by decide) (by decide), fun hne => absurd ?_ hne⟩
    exact eq_of_beq hends
  · next hends =>
    have hend : s.head ≠ .eof := fun h => hends (beq_iff_eq.2 h)
    have hbegun := hready.begun .error
    -- Neither a line break nor the end of the text is next, so the junk is not empty.
    have hjunk : After (node .error do complain (.missing .lineEnd); R.loop passInLine)
        s.looked.looked fun _ t => Took 1 s.looked.looked t ∧ t.EndsInNode := by
      refine node_took (.bind (complain_goes _ hbegun.fault) ?_)
      rintro - t ⟨ht, hinput⟩
      have hhead : t.head = s.head := by
        rw [State.head_congr hinput, State.head_begun]
        rfl
      refine (loop_goes (fun kind => kind = .newline ∨ kind = .eof) (a := 1) (by decide)
        (fun _ => passInLine_after)
        (hbegun.goes ht (Nat.le_refl _) (by decide) (by decide))).mono fun _ u hu => ?_
      exact ht.took (hu.2 (by rw [hhead]; simp [hbreak, hend]))
    refine .bind hjunk fun _ t ht => ?_
    have h3 : Took 1 s t := h2.took ht.1
    refine .discard ((eat_goes .newline (by decide) (h3.room (by decide))).mono fun _ u hu => ?_)
    have h4 : Took 2 s u := h3.trans hu
    exact ⟨h4.goes, fun _ => h4⟩

/-- A declared name takes one look. -/
theorem declaredName_goes (wanted : Wanted) (hs : Ready R n 3500 s) :
    After (declaredName wanted) s fun _ t => Goes 1 0 s t := by
  have h1 : Goes 1 0 s s.looked := .look hs.fault
  refine .bind (isAt_after .ident (hs.room (by decide))) ?_
  rintro _ _ ⟨rfl, rfl⟩
  split
  · next hthere =>
    have hready : Ready R n 3510 s.looked := hs.goes h1 (Nat.le_refl _) (by decide) (by decide)
    have hbegun := hready.begun .name
    have hhead : (s.looked.begun .name).head ≠ .eof := by
      rw [State.head_begun, (eq_of_beq hthere : s.looked.head = .ident)]
      decide
    refine (node_took (.modified (took_consume hbegun.fault hhead))).mono fun _ t ht => ?_
    exact (h1.took ht.1).goes
  · exact (complain_goes _ h1.fault).mono fun _ t ht => (h1.trans ht.1)

/-- A token of an expression that is too deep: what stops the skipping is the end
of the line or a bracket that was open before. -/
theorem skipToken_after (opened : Nat) (hs : Ready R n 3900 s) :
    After (skipToken opened) s (Turned
      (fun t => Goes 2 0 s t ∧ s.head.canStartExpression = false) fun _ t => Took 0 s t) := by
  have h1 : Goes 1 0 s s.looked := .look hs.fault
  have h2 : Goes 2 1 s s.looked.looked := h1.looked
  have h2' : Goes 2 0 s s.looked.looked :=
    ⟨h2.fault, h2.count, .inl ⟨rfl, Nat.le_refl _⟩⟩
  refine .bind (atLineEnd_after (hs.room (by decide))) ?_
  rintro _ _ ⟨rfl, rfl⟩
  split
  · next hends =>
    refine .pure ⟨h1.weaken (by decide) (Nat.le_refl _), ?_⟩
    -- The end of the line does not begin an expression.
    by_contra hstart
    have := starts_excludes (by simpa using hstart)
    simp [this.1, this.2.1] at hends
  · next hends =>
    simp only [Bool.or_eq_true, beq_iff_eq, not_or] at hends
    have htook : Took 0 s s.consume := took_consume hs.fault hends.2
    have hbump (r : Option Nat) (hr : r.isSome) : After (do bumpAny; return r) s.looked.looked
        (Turned (fun t => Goes 2 0 s t ∧ s.head.canStartExpression = false)
          fun _ t => Took 0 s t) := by
      refine .bind (bumpAny_after (h2.room hs (by decide) (by decide)) hends.2) ?_
      rintro - _ rfl
      obtain ⟨opened, rfl⟩ := Option.isSome_iff_exists.1 hr
      refine .pure ?_
      rw [State.consume_looked, State.consume_looked]
      exact htook
    refine .bind (current_after (h1.room hs (by decide) (by decide))) ?_
    rintro _ _ ⟨rfl, rfl⟩
    split
    all_goals first
      | exact hbump _ rfl
      | split
        · next hhead _ =>
          refine .pure ⟨h2', ?_⟩
          rw [show s.head = _ from hhead]
          rfl
        · exact hbump _ rfl

/-- All tokens of an expression that is too deep. One that begins an expression is certain to be
among them. -/
theorem skipTokens_goes (hs : Ready R 1 3800 s) :
    After (R.loopFrom 0 skipToken) s fun _ t =>
      Goes 2 2 s t ∧ (s.head.canStartExpression = true → Took 2 s t) := by
  refine (loopFrom_goes (fun _ kind => kind.canStartExpression = false) (by decide)
    (fun opened _ ht => skipToken_after opened ht) 0 hs).mono fun _ t ht => ⟨ht.1, fun h => ht.2 ?_⟩
  simp [h]

/-- An expression that is too deep is set aside. -/
theorem deepExpression_goes (hs : Ready R 1 3500 s) :
    After (deepExpression R) s fun _ t =>
      Goes 2 2 s t ∧ t.EndsInNode ∧ (s.head.canStartExpression = true → Took 2 s t) := by
  have hbegun := hs.begun .error
  have hready {t : State} (ht : Goes 0 0 (s.begun .error) t) :
      Ready R 1 3800 (t.setCount .parens 0) :=
    Ready.setCount (hbegun.goes ht (Nat.le_refl _) (by decide) (by decide)) .parens 0
  -- Only where an expression can begin is a token certain to be taken.
  by_cases hstart : s.head.canStartExpression = true
  · refine (node_took (b := 2) (.bind (complain_goes _ hbegun.fault) ?_)).mono
      fun _ t ht => ⟨ht.1.goes, ht.2, fun _ => ht.1⟩
    rintro - t ⟨ht, hinput⟩
    have hhead : (t.setCount .parens 0).head = s.head := by
      rw [State.head_congr (State.input_setCount ..), State.head_congr hinput, State.head_begun]
    refine (withoutParens_took ((skipTokens_goes (hready ht)).mono fun _ u hu => ?_)).mono
      fun _ u hu => ht.took hu
    exact hu.2 (by rwa [hhead])
  · refine (node_goes (.bind (complain_goes _ hbegun.fault) ?_)).mono
      fun _ t ht => ⟨ht.1, ht.2, fun h => absurd h hstart⟩
    rintro - t ⟨ht, -⟩
    refine (withoutParens_goes ((skipTokens_goes (hready ht)).mono fun _ u hu => hu.1)).mono ?_
    exact fun _ u hu => ht.trans hu

/-- A token of a block that is too deep: nothing but the end of the text and the
word that closes the block stops the skipping. -/
theorem skipWord_after (opened : Nat) (hs : Ready R n 3900 s) :
    After (skipWord opened) s (Turned
      (fun t => Goes 2 0 s t ∧ (s.head = .eof ∨ closesBlock s.head = true))
      fun _ t => Took 0 s t) := by
  have h1 : Goes 1 0 s s.looked := .look hs.fault
  have h2 : Goes 2 1 s s.looked.looked := h1.looked
  have h2' : Goes 2 0 s s.looked.looked :=
    ⟨h2.fault, h2.count, .inl ⟨rfl, Nat.le_refl _⟩⟩
  refine .bind (atEnd_after (hs.room (by decide))) ?_
  rintro _ _ ⟨rfl, rfl⟩
  split
  · next hends => exact .pure ⟨h1.weaken (by decide) (Nat.le_refl _), .inl (eq_of_beq hends)⟩
  · next hends =>
    have hend : s.head ≠ .eof := fun h => hends (beq_iff_eq.2 h)
    have hbumped : After bumpAny s.looked.looked fun _ t => Took 0 s t := by
      refine (bumpAny_after (h2.room hs (by decide) (by decide)) hend).mono ?_
      rintro - _ rfl
      exact h2.took (took_consume h2.fault hend)
    have hbump (r : Option Nat) (hr : r.isSome) : After (do bumpAny; return r) s.looked.looked
        (Turned (fun t => Goes 2 0 s t ∧ (s.head = .eof ∨ closesBlock s.head = true))
          fun _ t => Took 0 s t) := by
      obtain ⟨opened, rfl⟩ := Option.isSome_iff_exists.1 hr
      exact .bind hbumped fun _ _ ht => .pure ht
    refine .bind (current_after (h1.room hs (by decide) (by decide))) ?_
    rintro _ _ ⟨rfl, rfl⟩
    unfold skipKind
    split
    all_goals first
      | exact hbump _ rfl
      | split
        · split
          · next hcloses => exact .pure ⟨h2', .inr hcloses⟩
          · exact hbump _ rfl
        · refine .bind hbumped fun _ _ ht => ?_
          split <;> exact .pure ht

/-- A block that is too deep takes two looks behind its last token. -/
theorem deepBlock_goes (hs : Ready R 1 3500 s) :
    After (deepBlock R) s fun _ t => Goes 2 2 s t := by
  have hbegun := hs.begun .error
  refine (node_goes (.bind (complain_goes _ hbegun.fault) ?_)).mono fun _ _ h => h.1
  rintro - t ⟨ht, -⟩
  have hready : Ready R 1 3800 t := hbegun.goes ht (Nat.le_refl _) (by decide) (by decide)
  refine (loopFrom_goes (fun _ kind => kind = .eof ∨ closesBlock kind = true) (a := 2) (by decide)
    (fun opened _ ht => skipWord_after opened ht) 0 hready).mono fun _ u hu => ?_
  exact ht.trans hu.1

end Recovery

/-- The rules keep their contracts. -/
structure Rules.Sound (R : Rules) : Prop where
  operand {s : State} (hs : Ready R 2 2800 s) (calls : Bool) :
    After (R.operand calls) s fun there t => Goes 4 2 s t ∧ (there = true → t.EndsInNode)
      ∧ (s.head.canStartExpression = true → Took 2 s t)
  expression {s : State} (hs : Ready R 3 2700 s) (floor : Nat) :
    After (R.expression floor) s fun _ t =>
      Goes 7 5 s t ∧ (s.head.canStartExpression = true → Took 5 s t)
  statement {s : State} (hs : Ready R 4 2600 s) (hbreak : s.head ≠ .newline)
    (hend : s.head ≠ .eof) : After R.statement s fun _ t => Took 14 s t
  block {s : State} (hs : Ready R 5 2500 s) : After R.block s fun _ t => Goes 2 2 s t
  branches {s : State} (hs : Ready R 2 2800 s) : After R.branches s fun _ t => Goes 2 13 s t

section Expressions

variable {R : Rules} {n l : Nat} {s : State}

/-! ## Arguments and names -/

/-- An argument between parentheses takes a token, or the list is over. -/
theorem parenArgument_after (hR : R.Sound) (hs : Ready R 3 2600 s) :
    After (parenArgument R) s fun again t => if again then Took 6 s t else Goes 2 1 s t := by
  have h1 : Goes 1 0 s s.looked := .look hs.fault
  have h2 : Goes 2 1 s s.looked.looked := h1.looked
  have h3 : Goes 3 2 s s.looked.looked.looked := h2.looked
  refine .bind (isAt_after .rParen (hs.room (by decide))) ?_
  rintro _ _ ⟨rfl, rfl⟩
  split
  · exact .pure (h1.weaken (by decide) (by decide))
  next hclose =>
  refine .bind (atLineEnd_after (h1.room hs (by decide) (by decide))) ?_
  rintro _ _ ⟨rfl, rfl⟩
  split
  · exact .pure h2
  next hends =>
  simp only [Bool.or_eq_true, beq_iff_eq, not_or] at hends
  refine .bind (current_after (h2.room hs (by decide) (by decide))) ?_
  rintro _ _ ⟨rfl, rfl⟩
  have hready : Ready R 3 2700 s.looked.looked.looked :=
    hs.goes h3 (by decide) (by decide) (by decide)
  -- Behind the argument a comma may follow, for one look more.
  have hcomma {t : State} (ht : Took 5 s t) :
      After (do discard <| eat .comma; return true) t fun again u =>
        if again then Took 6 s u else Goes 2 1 s u := by
    refine .bind (.discard (eat_goes .comma (by decide) (ht.room (by decide)))) fun _ u hu => ?_
    exact .pure ((ht.trans hu).weaken (by decide))
  split
  · next hstart =>
    exact .bind (hR.expression hready 0) fun _ t ht => hcomma (h3.took (ht.2 hstart))
  · refine .bind (setAside_goes _ _ (hready.weaken (Nat.le_refl _) (by decide))) fun _ t ht => ?_
    have htook := ht.2 (by simpa using hclose) hends.1 hends.2
    exact hcomma ((h3.took htook).weaken (by decide))

/-- The arguments between parentheses take at least the first one. -/
theorem parenArguments_took (hR : R.Sound) (hs : Ready R 1 3000 s) (hhead : s.head = .lParen) :
    After (parenArguments R) s fun _ t => Took 9 s t := by
  have hraised := hs.raise .parens
  have hlist : After (within .parens do bump .lParen; R.loop (parenArgument R)) s
      fun _ t => Took 8 s t := by
    refine within_took (by decide) ?_
    have hhead' : (s.raise .parens).head = .lParen := hhead
    refine .bind (bump_after (hraised.room (by decide)) hhead') ?_
    rintro - _ rfl
    have hopen : Took 0 (s.raise .parens) (s.raise .parens).consume :=
      took_consume hraised.fault (by rw [hhead']; decide)
    have hready : Ready R 9 3000 (s.raise .parens).consume :=
      hraised.took hopen (by decide) (by decide)
    refine After.loop (fun t => Took 6 (s.raise .parens) t) (fun t ht => ?_)
      (hopen.weaken (by decide)) (hready.length_lt_turns (by decide))
    refine (parenArgument_after hR (hraised.took ht (by decide) (by decide))).mono ?_
    rintro (_ | _) u hu
    · exact ht.trans hu
    · exact ⟨hu.length, (ht.goes (a := 0)).took hu⟩
  refine .bind hlist fun _ t ht => ?_
  exact .discard ((expect_goes .rParen (by decide) _ (ht.room (by decide))).mono
    fun _ u hu => ht.trans hu)

/-- Whether an argument follows takes two looks and no token. -/
theorem argumentFollows_goes (afterComma : Bool) (hs : Ready R n 3500 s) :
    After (argumentFollows afterComma) s fun follows t =>
      Goes 2 1 s t ∧ t.head = s.head ∧ (follows = true → s.head.canStartExpression = true) := by
  have h1 : Goes 1 0 s s.looked := .look hs.fault
  refine .bind (current_after (hs.room (by decide))) ?_
  rintro _ _ ⟨rfl, rfl⟩
  split
  · next hstart =>
    exact .pure ⟨h1.weaken (by decide) (by decide), rfl, fun _ => starts_of_argument hstart⟩
  · split
    · refine .bind (current_after (h1.room hs (by decide) (by decide))) ?_
      rintro _ _ ⟨rfl, rfl⟩
      exact .pure ⟨h1.looked, rfl, id⟩
    · exact .pure ⟨h1.weaken (by decide) (by decide), rfl, fun h => absurd h (by decide)⟩

/-- An argument without parentheses takes a token, or the list is over. -/
theorem bareArgument_after (hR : R.Sound) (hs : Ready R 2 2700 s) (afterComma : Bool) :
    After (bareArgument R afterComma) s
      (Turned (fun t => Goes 2 1 s t) fun _ t => Took 3 s t) := by
  refine .bind (argumentFollows_goes afterComma (hs.weaken (Nat.le_refl _) (by decide))) ?_
  rintro follows t ⟨ht, hhead, hstart⟩
  split
  · next hfollows =>
    have hready : Ready R 2 2800 t := hs.goes ht (by decide) (by decide) (by decide)
    have hstart' : t.head.canStartExpression = true := by
      rw [hhead]
      exact hstart hfollows
    refine .bind (.discard ((hR.operand hready false).mono fun _ _ h => h.2.2 hstart')) ?_
    intro _ u hu
    have htook : Took 2 s u := ht.took hu
    refine .bind (eat_goes .comma (by decide) (htook.room (by decide))) fun _ v hv => ?_
    exact .pure (htook.trans hv)
  · exact .pure ht

/-- The arguments without parentheses may be none. -/
theorem bareArguments_goes (hR : R.Sound) (hs : Ready R 2 2700 s) :
    After (bareArguments R) s fun _ t => Goes 2 5 s t := by
  refine After.iterate (fun _ t => Goes 0 3 s t) (fun afterComma t ht => ?_) _
    ((Goes.refl hs.fault).weaken (by decide) (by decide)) (hs.length_lt_turns (by decide))
  have hready : Ready R 2 2700 t := hs.goes ht (by decide) (by decide) (by decide)
  refine (bareArgument_after hR hready afterComma).mono ?_
  rintro (_ | again) u hu
  · exact ht.trans hu
  · exact ⟨hu.length, (ht.took hu).goes⟩

/-- Whether a parenthesis opens the arguments takes two looks and no token. -/
theorem opensArguments_goes (hs : Ready R n 3500 s) :
    After opensArguments s fun opens t =>
      Goes 2 1 s t ∧ t.head = s.head ∧ (opens = true → s.head = .lParen) := by
  have h1 : Goes 1 0 s s.looked := .look hs.fault
  refine .bind (isAt_after .lParen (hs.room (by decide))) ?_
  rintro _ _ ⟨rfl, rfl⟩
  split
  · next hopens =>
    refine .bind (look_after 1 (h1.room hs (by decide) (by decide))) ?_
    rintro _ _ ⟨rfl, rfl⟩
    exact .pure ⟨h1.looked, rfl, fun _ => eq_of_beq hopens⟩
  · exact .pure ⟨h1.weaken (by decide) (by decide), rfl, fun h => absurd h (by decide)⟩

/-- Whether a word is a function takes one look. -/
theorem atFunction_goes (hs : Ready R n 3500 s) :
    After (atFunction R) s fun _ t => t = s.looked := by
  refine .bind (isAt_after .ident (hs.room (by decide))) ?_
  rintro _ _ ⟨rfl, rfl⟩
  split <;> exact rfl

/-- The arguments of a call, around the name. -/
theorem call_goes (hR : R.Sound) (hs : Ready R 8 2600 s) (hout : s.EndsInNode) :
    After (nodeAround .funcExpr do
      node .argList do
        if ← opensArguments then parenArguments R else bareArguments R) s
      fun _ t => Goes 4 9 s t ∧ t.EndsInNode := by
  refine nodeAround_goes hout fun children => ?_
  have hinner := (hs.inside children).begun .argList
  refine (node_goes (.bind (opensArguments_goes (hinner.weaken (Nat.le_refl _) (by decide))) ?_)).mono
    fun _ _ h => h.1
  rintro opens t ⟨ht, hhead, hopen⟩
  split
  · next hopens =>
    have hready : Ready R 1 3000 t := hinner.goes ht (by decide) (by decide) (by decide)
    refine (parenArguments_took hR hready (hhead.trans (hopen hopens))).mono fun _ u hu => ?_
    exact (ht.took hu).goes
  · have hready : Ready R 2 2700 t := hinner.goes ht (by decide) (by decide) (by decide)
    exact (bareArguments_goes hR hready).mono fun _ u hu =>
      (ht.trans hu).weaken (by decide) (by decide)

/-- A name that is there. -/
theorem name_took (hs : Ready R n 3900 s) (hhead : s.head = .ident) :
    After (node .nameRef (bump .ident)) s fun _ t => Took 0 s t ∧ t.EndsInNode := by
  have hbegun := hs.begun .nameRef
  have hhead' : (s.begun .nameRef).head = .ident := by rw [State.head_begun, hhead]
  refine node_took ((bump_after (hbegun.room (by decide)) hhead').mono ?_)
  rintro - _ rfl
  exact took_consume hbegun.fault (by rw [hhead']; decide)

/-- A name or a call takes at least the name. -/
theorem nameOrCall_took (hR : R.Sound) (hs : Ready R 1 3000 s) (hhead : s.head = .ident)
    (calls : Bool) :
    After (nameOrCall R calls) s fun _ t => Took 9 s t ∧ t.EndsInNode := by
  have h1 : Goes 1 0 s s.looked := .look hs.fault
  refine .bind (atFunction_goes (hs.weaken (Nat.le_refl _) (by decide))) ?_
  rintro known _ rfl
  have hready : Ready R 1 3900 s.looked := hs.goes h1 (Nat.le_refl _) (by decide) (by decide)
  refine .bind (name_took hready hhead) ?_
  rintro - t ⟨ht, hnode⟩
  have htook : Took 0 s t := h1.took ht
  have hcalled (called : Bool) {u : State} (hu : Took 1 s u) (hnode : u.EndsInNode) :
      After (if called then
        nodeAround .funcExpr do
          node .argList do
            if ← opensArguments then parenArguments R else bareArguments R
      else pure ()) u fun _ v => Took 9 s v ∧ v.EndsInNode := by
    split
    · refine (call_goes hR (hs.took hu (by decide) (by decide)) hnode).mono fun _ v hv => ?_
      exact ⟨hu.trans hv.1, hv.2⟩
    · exact .pure ⟨hu.weaken (by decide), hnode⟩
  split
  · cases known with
    | true => exact hcalled true (htook.weaken (by decide)) hnode
    | false =>
      refine .bind (.map (q := fun _ u => u = t.looked)
        ((current_after (htook.room (by decide))).mono fun _ _ h => h.2)) ?_
      rintro called _ rfl
      exact hcalled called htook.looked hnode
  · exact .pure ⟨htook.weaken (by decide), hnode⟩

/-! ## Lambdas -/

/-- A declaration in the place of a variable takes its type. -/
theorem variableDecl_took (hs : Ready R n 3500 s) (hend : s.head ≠ .eof) :
    After variableDecl s fun _ t => Took 1 s t := by
  have hbegun := hs.begun .varDecl
  have hend' : (s.begun .varDecl).head ≠ .eof := by rwa [State.head_begun]
  refine (node_took (.bind (bumpAny_after (hbegun.room (by decide)) hend') ?_)).mono
    fun _ _ h => h.1
  rintro - _ rfl
  have htook := took_consume hbegun.fault hend'
  exact (declaredName_goes _ (hbegun.took (m := n) htook (by omega) (by decide))).mono
    fun _ _ hu => htook.trans hu

/-- A variable may be missing, and is taken where nothing stops it. -/
theorem variableOrDecl_goes (recovers : TokenKind → Bool) (hs : Ready R n 3400 s) :
    After (variableOrDecl recovers) s fun _ t => Goes 4 3 s t
      ∧ (recovers s.head = false → s.head ≠ .newline → s.head ≠ .eof → Took 2 s t) := by
  have h1 : Goes 1 0 s s.looked := .look hs.fault
  have h2 : Goes 2 1 s s.looked.looked := h1.looked
  refine .bind (current_after (hs.room (by decide))) ?_
  rintro _ _ ⟨rfl, rfl⟩
  split
  · next htype =>
    have hend : s.looked.head ≠ .eof := by
      intro h
      rw [State.head_looked] at h
      rw [h] at htype
      exact absurd htype (by decide)
    have hready : Ready R n 3500 s.looked := hs.goes h1 (Nat.le_refl _) (by decide) (by decide)
    refine (variableDecl_took hready hend).mono fun _ t ht => ?_
    have htook : Took 1 s t := h1.took ht
    exact ⟨(htook.weaken (by decide)).goes, fun _ _ _ => htook.weaken (by decide)⟩
  · refine .bind (isAt_after .ident (h1.room hs (by decide) (by decide))) ?_
    rintro _ _ ⟨rfl, rfl⟩
    have hready : Ready R n 3500 s.looked.looked :=
      hs.goes h2 (Nat.le_refl _) (by decide) (by decide)
    split
    · next hident =>
      refine (name_took (hready.weaken (Nat.le_refl _) (by decide)) (eq_of_beq hident)).mono
        fun _ t ht => ?_
      have htook : Took 0 s t := h2.took ht.1
      exact ⟨(htook.weaken (by decide)).goes, fun _ _ _ => htook.weaken (by decide)⟩
    · refine (setAside_goes _ recovers hready).mono fun _ t ht => ⟨h2.trans ht.1, ?_⟩
      exact fun hrecovers hbreak hend => (h2.took (ht.2 hrecovers hbreak hend)).weaken (by decide)

/-- A parameter takes a token, or the list is over. -/
theorem parameter_after (hs : Ready R n 3300 s) :
    After parameter s fun again t => if again then Took 3 s t else Goes 2 1 s t := by
  have h1 : Goes 1 0 s s.looked := .look hs.fault
  have h2 : Goes 2 1 s s.looked.looked := h1.looked
  refine .bind (isAt_after .rBrace (hs.room (by decide))) ?_
  rintro _ _ ⟨rfl, rfl⟩
  split
  · exact .pure (h1.weaken (by decide) (by decide))
  next hclose =>
  refine .bind (atLineEnd_after (h1.room hs (by decide) (by decide))) ?_
  rintro _ _ ⟨rfl, rfl⟩
  split
  · exact .pure h2
  next hends =>
  simp only [Bool.or_eq_true, beq_iff_eq, not_or] at hends
  have hready : Ready R n 3400 s.looked.looked :=
    hs.goes h2 (Nat.le_refl _) (by decide) (by decide)
  refine .bind (variableOrDecl_goes _ hready) fun _ t ht => ?_
  have htook : Took 2 s t := h2.took (ht.2 (by simpa using hclose) hends.1 hends.2)
  refine .bind (.discard (eat_goes .comma (by decide) (htook.room (by decide)))) fun _ u hu => ?_
  exact .pure (htook.trans hu)

/-- The parameters take at least their opening brace. -/
theorem parameters_took (hs : Ready R 1 3000 s) (hhead : s.head = .lBrace) :
    After (parameters R) s fun _ t => Took 6 s t := by
  have hbegun := hs.begun .paramList
  have hhead' : (s.begun .paramList).head = .lBrace := by rw [State.head_begun, hhead]
  refine (node_took (.bind (bump_after (hbegun.room (by decide)) hhead') ?_)).mono fun _ _ h => h.1
  rintro - _ rfl
  have hopen := took_consume hbegun.fault (by rw [hhead']; decide)
  have hready : Ready R 9 3000 (s.begun .paramList).consume :=
    hbegun.took hopen (by decide) (by decide)
  refine .bind (After.loop (q := fun t => Took 5 (s.begun .paramList) t)
    (fun t => Took 3 (s.begun .paramList) t) (fun t ht => ?_) (hopen.weaken (by decide))
    (hready.length_lt_turns (by decide))) fun _ t ht => ?_
  · refine (parameter_after (hbegun.took (m := 1) ht (by decide) (by decide))).mono ?_
    rintro (_ | _) u hu
    · exact ht.trans hu
    · exact ⟨hu.length, (ht.goes (a := 0)).took hu⟩
  · exact .discard ((expect_goes .rBrace (by decide) _ (ht.room (by decide))).mono
      fun _ u hu => ht.trans hu)

/-- The second token ahead is the next one behind the first, if line breaks count. -/
theorem head_consume (hparens : s.parens = 0) : s.consume.head = kindAhead 1 s.rest := by
  have hsecond : kindAhead 1 s.rest = s.input.getD 1 .eof := kindAhead_eq 1 s.rest
  rw [State.head_eq, State.input_consume hparens, hsecond]
  cases s.input <;> rfl

/-- From the head of a lambda to its end, without the parenthesis. -/
theorem lambdaBlock_took (hR : R.Sound) (hs : Ready R 1 3000 s) (hparens : s.parens = 0)
    (hhead : s.head = .lParen) (hsecond : kindAhead 1 s.rest = .kwBegin) :
    After (do
      bump .lParen
      bump .kwBegin
      declaredName .blockType
      if ← isAt .lBrace then parameters R
      lineEnd R
      within .begins R.block
      discard <| expect .kwEnd .kwEnd) s fun _ t => Took 11 s t := by
  refine .bind (bump_after (hs.room (by decide)) hhead) ?_
  rintro - _ rfl
  have h1 : Took 0 s s.consume := took_consume hs.fault (by rw [hhead]; decide)
  have hsecond' : s.consume.head = .kwBegin := (head_consume hparens).trans hsecond
  refine .bind (bump_after (h1.room (by decide)) hsecond') ?_
  rintro - _ rfl
  have h2 : Took 0 s s.consume.consume :=
    (h1.goes (a := 0)).took (took_consume h1.fault (by rw [hsecond']; decide))
  refine .bind (declaredName_goes _ (hs.took (m := 9) h2 (by decide) (by decide))) fun _ t ht => ?_
  have h3 : Took 1 s t := h2.trans ht
  refine .bind (isAt_after .lBrace (h3.room (by decide))) ?_
  rintro _ _ ⟨rfl, rfl⟩
  have h4 : Took 2 s t.looked := h3.looked
  have hrest {u : State} (hu : Took 6 s u) : After (do
      lineEnd R
      within .begins R.block
      discard <| expect .kwEnd .kwEnd) u fun _ v => Took 11 s v := by
    refine .bind (lineEnd_goes (hs.took hu (by decide) (by decide))) fun _ v hv => ?_
    have h5 : Took 8 s v := hu.trans hv.1
    have hready : Ready R 5 2500 v := hs.took h5 (by decide) (by decide)
    refine .bind (within_goes (by decide) (hR.block (hready.raise .begins))) fun _ w hw => ?_
    have h6 : Took 10 s w := h5.trans hw
    exact .discard ((expect_goes .kwEnd (by decide) _ (h6.room (by decide))).mono
      fun _ x hx => h6.trans hx)
  split
  · next hopens =>
    refine .bind (parameters_took (hs.took h4 (by decide) (by decide)) (eq_of_beq hopens)) ?_
    exact fun _ u hu => hrest ((h4.goes (a := 0)).took hu)
  · exact hrest (h4.weaken (by decide))

/-- A lambda takes at least its opening parenthesis. -/
theorem lambda_took (hR : R.Sound) (hs : Ready R 1 3000 s) (hhead : s.head = .lParen)
    (hsecond : kindAhead 1 s.rest = .kwBegin) :
    After (lambda R) s fun _ t => Took 12 s t ∧ t.EndsInNode := by
  have hbegun := hs.begun .lambdaExpr
  have hinput : ((s.begun .lambdaExpr).setCount .parens 0).input = s.input := by
    rw [State.input_setCount, State.input_begun]
  refine node_took (.bind (withoutParens_took (lambdaBlock_took hR (hbegun.setCount .parens 0) rfl
    ?_ ?_)) fun _ t ht => ?_)
  · rw [State.head_congr hinput, hhead]
  · rw [State.kindAhead_congr hinput, hsecond]
  · exact .discard ((expect_goes .rParen (by decide) _ (ht.room (by decide))).mono
      fun _ u hu => ht.trans hu)

/-! ## Operands -/

/-- So does an expression between parentheses. -/
theorem parenthesized_took (hR : R.Sound) (hs : Ready R 1 3000 s) (hhead : s.head = .lParen) :
    After (parenthesized R) s fun _ t => Took 8 s t ∧ t.EndsInNode := by
  have hbegun := hs.begun .parenExpr
  have hraised := hbegun.raise .parens
  have hhead' : ((s.begun .parenExpr).raise .parens).head = .lParen :=
    (State.head_begun .parenExpr s).trans hhead
  refine node_took (.bind (within_took (b := 7) (by decide)
    (.bind (bump_after (hraised.room (by decide)) hhead') ?_)) fun _ t ht => ?_)
  · rintro - _ rfl
    have hopen := took_consume hraised.fault (by rw [hhead']; decide)
    exact (hR.expression (hraised.took hopen (by decide) (by decide)) 0).mono
      fun _ u hu => hopen.trans hu.1
  · exact .discard ((expect_goes .rParen (by decide) _ (ht.room (by decide))).mono
      fun _ u hu => ht.trans hu)

/-- Nothing that begins an expression is refused as an operand. -/
theorem noOperand_goes (hs : Ready R n 3500 s) :
    After noOperand s fun there t => Goes 2 1 s t
      ∧ (there = true → Took 0 s t ∧ t.EndsInNode)
      ∧ (s.head.canStartExpression = true → there = true) := by
  have h1 : Goes 1 0 s s.looked := .look hs.fault
  have h2 : Goes 2 1 s s.looked.looked := h1.looked
  have hstop {t : State} (ht : Goes 2 1 s t) (hstart : s.head.canStartExpression = false) :
      After (do complain (.missing .expression); return false) t fun there u => Goes 2 1 s u
        ∧ (there = true → Took 0 s u ∧ u.EndsInNode)
        ∧ (s.head.canStartExpression = true → there = true) := by
    refine .bind (complain_goes _ ht.fault) fun _ u hu => .pure ⟨ht.trans hu.1, ?_, ?_⟩
    · exact fun h => absurd h (by decide)
    · exact fun h => absurd (h.symm.trans hstart) (by decide)
  refine .bind (atLineEnd_after (hs.room (by decide))) ?_
  rintro _ _ ⟨rfl, rfl⟩
  by_cases hends : s.head = .newline ∨ s.head = .eof
  · have hstart : s.head.canStartExpression = false := by
      rcases hends with h | h <;> rw [h] <;> rfl
    have htrue : (s.head == .newline || s.head == .eof) = true := by simpa using hends
    rw [htrue]
    exact hstop (h1.weaken (by decide) (by decide)) hstart
  · have hfalse : (s.head == .newline || s.head == .eof) = false := by simpa using hends
    rw [hfalse]
    refine .bind (.map (q := fun stops t => stops = stopsExpression s.head ∧ t = s.looked.looked)
      ((current_after (h1.room hs (by decide) (by decide))).mono ?_)) ?_
    · rintro _ _ ⟨rfl, rfl⟩
      exact ⟨rfl, rfl⟩
    rintro _ _ ⟨rfl, rfl⟩
    by_cases hstops : stopsExpression s.head = true
    · rw [hstops]
      refine hstop h2 ?_
      by_contra hstart
      have hfree := (starts_excludes (by simpa using hstart)).2.2
      exact absurd (hstops.symm.trans hfree) (by decide)
    · rw [Bool.eq_false_iff.2 hstops]
      have hready : Ready R n 3900 s.looked.looked :=
        hs.goes h2 (Nat.le_refl _) (by decide) (by decide)
      have hend : s.looked.looked.head ≠ .eof := fun h => hends (.inr h)
      refine .bind (aside_took _ hready hend) fun _ t ht => ?_
      have htook : Took 0 s t := h2.took ht.1
      exact .pure ⟨(htook.weaken (by decide)).goes, fun _ => ⟨htook, ht.2⟩, fun _ => rfl⟩

/-- An innermost operand is there and takes a token, or it is missing. -/
theorem primary_after (hR : R.Sound) (hs : Ready R 1 2900 s) (calls : Bool) :
    After (primary R calls) s fun there t =>
      there = true ∧ Took 12 s t ∧ t.EndsInNode
        ∨ there = false ∧ Goes 3 2 s t ∧ s.head.canStartExpression = false := by
  have h1 : Goes 1 0 s s.looked := .look hs.fault
  have hready : Ready R 1 3000 s.looked := hs.goes h1 (Nat.le_refl _) (by decide) (by decide)
  refine .bind (current_after (hs.room (by decide))) ?_
  rintro _ _ ⟨rfl, rfl⟩
  have hliteral (hend : s.head ≠ .eof) : After (do node .literal bumpAny; return true) s.looked
      fun there t => there = true ∧ Took 12 s t ∧ t.EndsInNode
        ∨ there = false ∧ Goes 3 2 s t ∧ s.head.canStartExpression = false := by
    have hbegun := hready.begun .literal
    have hend' : (s.looked.begun .literal).head ≠ .eof := by
      rw [State.head_begun]
      exact hend
    refine .bind (node_took (b := 0)
      ((bumpAny_after (hbegun.room (by decide)) hend').mono ?_)) ?_
    · rintro - _ rfl
      exact took_consume hbegun.fault hend'
    · rintro - t ⟨ht, hnode⟩
      exact .pure (.inl ⟨rfl, (h1.took ht).weaken (by decide), hnode⟩)
  split
  case h_1 hhead => exact hliteral (by rw [hhead]; decide)
  case h_2 hhead => exact hliteral (by rw [hhead]; decide)
  case h_3 hhead => exact hliteral (by rw [hhead]; decide)
  case h_4 hhead =>
    refine .bind (nameOrCall_took hR hready hhead calls) ?_
    rintro - t ⟨ht, hnode⟩
    exact .pure (.inl ⟨rfl, (h1.took ht).weaken (by decide), hnode⟩)
  case h_5 hhead =>
    have h2 : Goes 2 1 s s.looked.looked := h1.looked
    have hready' : Ready R 1 3000 s.looked.looked :=
      hs.goes h2 (Nat.le_refl _) (by decide) (by decide)
    refine .bind (look_after 1 (hready.room (by decide))) ?_
    rintro _ _ ⟨rfl, rfl⟩
    split
    · next hsecond =>
      refine .bind (lambda_took hR hready' hhead (eq_of_beq hsecond)) ?_
      rintro - t ⟨ht, hnode⟩
      exact .pure (.inl ⟨rfl, h2.took ht, hnode⟩)
    · refine .bind (parenthesized_took hR hready' hhead) ?_
      rintro - t ⟨ht, hnode⟩
      exact .pure (.inl ⟨rfl, (h2.took ht).weaken (by decide), hnode⟩)
  case h_6 =>
    refine (noOperand_goes (hready.weaken (Nat.le_refl _) (by decide))).mono ?_
    rintro (_ | _) t ⟨ht, hthere, hstart⟩
    · refine .inr ⟨rfl, h1.trans ht, ?_⟩
      by_contra hne
      exact absurd (hstart (by simpa using hne)) (by decide)
    · obtain ⟨htook, hnode⟩ := hthere rfl
      exact .inl ⟨rfl, (h1.took htook).weaken (by decide), hnode⟩

/-! ## Accesses -/

/-- Asking for the depth takes no look at all. -/
theorem isTooDeep_after (s : State) :
    After isTooDeep s fun deep t => deep = decide (nestingLimit ≤ s.count .nesting) ∧ t = s :=
  ⟨rfl, rfl⟩

/-- An access at the limit of nesting is set aside. -/
theorem roomForAccess_after (hs : Ready R 1 3000 s) :
    After (roomForAccess R) s (Turned (fun t => Goes 3 2 s t ∧ t.EndsInNode)
      fun _ t => t = s.looked
        ∧ (opensAccess t.head = true → t.count .nesting < nestingLimit)) := by
  have h1 : Goes 1 0 s s.looked := .look hs.fault
  refine .bind (current_after (hs.room (by decide))) ?_
  rintro _ _ ⟨rfl, rfl⟩
  by_cases hopens : opensAccess s.head = true
  · rw [if_pos hopens]
    refine .bind (isTooDeep_after s.looked) ?_
    rintro _ _ ⟨rfl, rfl⟩
    by_cases hdeep : nestingLimit ≤ s.looked.count .nesting
    · rw [decide_eq_true hdeep]
      have hready : Ready R 1 3500 s.looked := hs.goes h1 (Nat.le_refl _) (by decide) (by decide)
      refine .bind (deepExpression_goes hready) fun _ t ht => ?_
      exact .pure ⟨h1.trans ht.1, ht.2.1⟩
    · rw [decide_eq_false hdeep]
      exact .pure ⟨rfl, fun _ => Nat.lt_of_not_le hdeep⟩
  · rw [if_neg hopens]
    exact .pure ⟨rfl, fun h => absurd h hopens⟩

/-- An access takes a token, or there is none. -/
theorem access_after (hR : R.Sound) (hs : Ready R 1 3100 s) (hnode : s.EndsInNode)
    (calls : Bool) :
    After (access R calls) s fun again t => t.EndsInNode
      ∧ if again then Took 9 s t ∧ opensAccess s.head = true else Goes 1 0 s t := by
  have h1 : Goes 1 0 s s.looked := .look hs.fault
  have hnode' : s.looked.EndsInNode := hnode
  have hready : Ready R 1 3200 s.looked := hs.goes h1 (Nat.le_refl _) (by decide) (by decide)
  refine .bind (current_after (hs.room (by decide))) ?_
  rintro _ _ ⟨rfl, rfl⟩
  have hmember (hend : s.head ≠ .eof) (hopens : opensAccess s.head = true) : After (do
      nodeAround .memberExpr do
        bumpAny
        if ← isAt .ident then nameOrCall R calls else complain (.missing .memberName)
      return true) s.looked fun again t => t.EndsInNode
        ∧ if again then Took 9 s t ∧ opensAccess s.head = true else Goes 1 0 s t := by
    refine .bind (nodeAround_took (b := 9) hnode' fun children => ?_) ?_
    · have hinner := hready.inside children
      refine .bind (bumpAny_after (hinner.room (by decide)) hend) ?_
      rintro - _ rfl
      have h2 := took_consume hinner.fault hend
      refine .bind (isAt_after .ident (h2.room (by decide))) ?_
      rintro _ _ ⟨rfl, rfl⟩
      split
      · next hident =>
        refine (nameOrCall_took hR (hinner.took h2.looked (by decide) (by decide))
          (eq_of_beq hident) calls).mono fun _ t ht => ?_
        exact (h2.looked.goes (a := 0)).took ht.1
      · refine (complain_goes _ h2.looked.fault).mono fun _ t ht => ?_
        exact (h2.looked.trans ht.1).weaken (by decide)
    · rintro - t ⟨ht, hnode⟩
      exact .pure ⟨hnode, h1.took ht, hopens⟩
  split
  case h_1 hhead => exact hmember (by rw [hhead]; decide) (by rw [hhead]; rfl)
  case h_2 hhead => exact hmember (by rw [hhead]; decide) (by rw [hhead]; rfl)
  case h_3 hhead =>
    refine .bind (nodeAround_took (b := 8) hnode' fun children => ?_) ?_
    · have hinner := hready.inside children
      have hhead' : (s.looked.inside children).head = .lBracket := hhead
      refine .bind (bump_after (hinner.room (by decide)) hhead') ?_
      rintro - _ rfl
      have h2 := took_consume hinner.fault (by rw [hhead']; decide)
      refine .bind (hR.expression (hinner.took h2 (by decide) (by decide)) 0) fun _ t ht => ?_
      have h3 := h2.trans ht.1
      exact .discard ((expect_goes .rBracket (by decide) _ (h3.room (by decide))).mono
        fun _ u hu => h3.trans hu)
    · rintro - t ⟨ht, hnode⟩
      exact .pure ⟨hnode, (h1.took ht).weaken (by decide), by rw [hhead]; rfl⟩
  case h_4 => exact .pure ⟨hnode', h1⟩

/-- The accesses behind an operand may be none. -/
theorem accesses_goes (hR : R.Sound) (hs : Ready R 1 2900 s) (hnode : s.EndsInNode)
    (calls : Bool) :
    After (accesses R calls) s fun _ t => Goes 3 3 s t ∧ t.EndsInNode := by
  refine climb_goes (b := 9)
    (fun _ t => opensAccess t.head = true → t.count .nesting < nestingLimit) hs hnode
    (by decide) (fun _ ht _ => roomForAccess_after ht) fun _ t ht hnode hside => ?_
  have hraised : Ready R 1 3100 (t.raise .nesting) := (ht.raise _).weaken (Nat.le_refl _) (by decide)
  refine (access_after hR hraised hnode calls).mono ?_
  rintro (_ | _) u ⟨hnode', hu⟩
  · exact ⟨hnode', hu⟩
  · exact ⟨hnode', hu.1, hside hu.2⟩

/-! ## Expressions -/

/-- An operand without signs is there and takes a token, or it is missing. -/
theorem shallowOperand_after (hR : R.Sound) (hs : Ready R 1 2800 s) (calls : Bool) :
    After (shallowOperand R calls) s fun there t =>
      there = true ∧ Took 15 s t ∧ t.EndsInNode
        ∨ there = false ∧ Goes 4 3 s t ∧ s.head.canStartExpression = false := by
  have h1 : Goes 1 0 s s.looked := .look hs.fault
  have hready : Ready R 1 2900 s.looked := hs.goes h1 (Nat.le_refl _) (by decide) (by decide)
  refine .bind (current_after (hs.room (by decide))) ?_
  rintro _ _ ⟨rfl, rfl⟩
  split
  · next power hpower =>
    have hbegun := hready.begun .unaryExpr
    have hend : (s.looked.begun .unaryExpr).head ≠ .eof := by
      rw [State.head_begun, State.head_looked]
      intro h
      simp [h, TokenKind.unaryPower?] at hpower
    refine .bind (node_took (b := 7) (.bind (bumpAny_after (hbegun.room (by decide)) hend) ?_)) ?_
    · rintro - _ rfl
      have h2 := took_consume hbegun.fault hend
      split
      · exact (hR.expression (hbegun.took h2 (by decide) (by decide)) power).mono
          fun _ t ht => h2.trans ht.1
      · exact .discard ((hR.operand (hbegun.took h2 (by decide) (by decide)) false).mono
          fun _ t ht => (h2.trans ht.1).weaken (by decide))
    · rintro - t ⟨ht, hnode⟩
      exact .pure (.inl ⟨rfl, (h1.took ht).weaken (by decide), hnode⟩)
  · refine .bind (primary_after hR hready calls) ?_
    rintro there t (⟨rfl, ht, hnode⟩ | ⟨rfl, ht, hstart⟩)
    · have h2 : Took 12 s t := h1.took ht
      have hready' : Ready R 1 2900 t := hs.took h2 (by decide) (by decide)
      refine .bind (accesses_goes hR hready' hnode calls) ?_
      rintro - u ⟨hu, hnode'⟩
      exact .pure (.inl ⟨rfl, h2.trans hu, hnode'⟩)
    · exact .pure (.inr ⟨rfl, (h1.trans ht).weaken (by decide) (by decide), hstart⟩)

/-- Lowering a counter leaves the last node the last. -/
theorem endsInNode_lower {c : Counter} {t : State} (h : t.EndsInNode) : (t.lower c).EndsInNode := by
  unfold State.lower
  split
  · exact h
  · cases c <;> exact h

/-- An operand takes a token wherever an expression can begin. -/
theorem operand_goes (hR : R.Sound) (hs : Ready R 1 2800 s) (calls : Bool) :
    After (operand R calls) s fun there t => Goes 4 2 s t ∧ (there = true → t.EndsInNode)
      ∧ (s.head.canStartExpression = true → Took 2 s t) := by
  refine .bind (isTooDeep_after s) ?_
  rintro _ t ⟨rfl, ht⟩
  subst t
  by_cases hdeep : nestingLimit ≤ s.count .nesting
  · rw [decide_eq_true hdeep]
    refine .bind (deepExpression_goes (hs.weaken (Nat.le_refl _) (by decide))) ?_
    rintro - t ⟨ht, hnode, htook⟩
    exact .pure ⟨ht.weaken (by decide) (by decide), fun _ => hnode, htook⟩
  · rw [decide_eq_false hdeep]
    have hdepth : s.count .nesting < nestingLimit := Nat.lt_of_not_le hdeep
    refine within_after ((shallowOperand_after hR (hs.raise .nesting) calls).mono ?_)
    rintro there t (⟨rfl, ht, hnode⟩ | ⟨rfl, ht, hstart⟩)
    · have htook : Took 2 s (t.lower .nesting) := (ht.lower_nesting hdepth).weaken (by decide)
      exact ⟨htook.goes, fun _ => endsInNode_lower hnode, fun _ => htook⟩
    · have hgoes : Goes 4 2 s (t.lower .nesting) :=
        (ht.lower_nesting hdepth).weaken (by decide) (by decide)
      refine ⟨hgoes, fun h => absurd h (by decide), fun h => ?_⟩
      exact absurd (h.symm.trans hstart) (by decide)

/-- Whether an operator follows takes one look, and some more where the chain is too deep. -/
theorem roomForOperator_after (hs : Ready R 1 3000 s) (hnode : s.EndsInNode) (floor : Nat) :
    After (roomForOperator R floor) s (Turned (fun t => Goes 3 2 s t ∧ t.EndsInNode)
      fun _ t => t = s.looked ∧ t.head ≠ .eof ∧ t.count .nesting < nestingLimit) := by
  have h1 : Goes 1 0 s s.looked := .look hs.fault
  refine .bind (current_after (hs.room (by decide))) ?_
  rintro _ _ ⟨rfl, rfl⟩
  split
  · exact .pure ⟨h1.weaken (by decide) (by decide), hnode⟩
  · next left right hpower =>
    have hend : s.looked.head ≠ .eof := by
      intro h
      rw [State.head_looked] at h
      simp [h, TokenKind.binaryPower?] at hpower
    split
    · exact .pure ⟨h1.weaken (by decide) (by decide), hnode⟩
    · refine .bind (isTooDeep_after s.looked) ?_
      rintro _ _ ⟨rfl, rfl⟩
      by_cases hdeep : nestingLimit ≤ s.looked.count .nesting
      · rw [decide_eq_true hdeep]
        have hready : Ready R 1 3500 s.looked := hs.goes h1 (Nat.le_refl _) (by decide) (by decide)
        refine .bind (deepExpression_goes hready) fun _ t ht => ?_
        exact .pure ⟨h1.trans ht.1, ht.2.1⟩
      · rw [decide_eq_false hdeep]
        exact .pure ⟨rfl, hend, Nat.lt_of_not_le hdeep⟩

/-- An operator takes at least its own token. -/
theorem application_after (hR : R.Sound) (hs : Ready R 1 3100 s) (hnode : s.EndsInNode)
    (hend : s.head ≠ .eof) (power : Nat) :
    After (application R power) s fun again t => again = true ∧ Took 7 s t ∧ t.EndsInNode := by
  refine .bind (nodeAround_took (b := 7) hnode fun children => ?_) ?_
  · have hinner := hs.inside children
    refine .bind (bumpAny_after (hinner.room (by decide)) hend) ?_
    rintro - _ rfl
    have h1 := took_consume hinner.fault hend
    exact (hR.expression (hinner.took h1 (by decide) (by decide)) power).mono
      fun _ t ht => h1.trans ht.1
  · rintro - t ⟨ht, hnode'⟩
    exact .pure ⟨rfl, ht, hnode'⟩

/-- The operators behind an operand may be none. -/
theorem operators_goes (hR : R.Sound) (hs : Ready R 1 2900 s) (hnode : s.EndsInNode)
    (floor : Nat) : After (operators R floor) s fun _ t => Goes 3 3 s t := by
  refine (climb_goes (b := 7) (fun _ t => t.head ≠ .eof ∧ t.count .nesting < nestingLimit) hs
    hnode (by decide) (fun _ ht hnode => roomForOperator_after ht hnode floor)
    fun power t ht hnode hside => ?_).mono fun _ t ht => ht.1
  have hraised : Ready R 1 3100 (t.raise .nesting) := (ht.raise _).weaken (Nat.le_refl _) (by decide)
  refine (application_after hR hraised hnode hside.1 power).mono ?_
  rintro _ u ⟨rfl, hu, hnode'⟩
  exact ⟨hnode', hu, hside.2⟩

/-- An expression takes a token wherever one can begin. -/
theorem expression_goes (hR : R.Sound) (hs : Ready R 2 2700 s) (floor : Nat) :
    After (expression R floor) s fun _ t =>
      Goes 7 5 s t ∧ (s.head.canStartExpression = true → Took 5 s t) := by
  refine .bind (hR.operand (hs.weaken (Nat.le_refl _) (by decide)) true) ?_
  rintro (_ | _) t ⟨ht, hnode, htook⟩
  · exact .pure ⟨ht.weaken (by decide) (by decide), fun h => (htook h).weaken (by decide)⟩
  · have hready : Ready R 1 2900 t := hs.goes ht (by decide) (by decide) (by decide)
    refine (operators_goes hR hready (hnode rfl) floor).mono fun _ u hu => ?_
    exact ⟨ht.trans hu, fun h => (htook h).trans hu⟩

end Expressions

end ScriptSense.Grammar
