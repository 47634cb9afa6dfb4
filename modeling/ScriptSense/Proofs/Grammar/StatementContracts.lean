/-
What the statements and the content of a whole text spend.

The second half of the contracts, up to the knot: `rules_sound` says that the
rules with any number of levels keep their contracts, by induction on the number
of levels. No level means that nothing may begin, because even at the end of the
text a rule needs a few levels. From there on the fault that an exhausted rule
would raise is out of reach.
-/
import ScriptSense.Proofs.Grammar.ExpressionContracts

set_option autoImplicit false

namespace ScriptSense.Grammar

section Statements

variable {R : Rules} {n l a b : Nat} {s t : State}

/-! ## Behind what a statement took

Every statement begins with a token, and behind it the parts of a statement may
begin without further ado. -/

/-- A word that is there, as the first of a node. -/
theorem bump_took {kind : TokenKind} (hs : Ready R n 3900 s) (hhead : s.head = kind)
    (hkind : kind ≠ .eof) : After (bump kind) s fun _ t => Took 0 s t := by
  refine (bump_after (hs.room (by decide)) hhead).mono ?_
  rintro - _ rfl
  exact took_consume hs.fault (by rwa [hhead])

/-- A node that begins with a word that is there. -/
theorem wordNode_took {word : TokenKind} {kind : NodeKind} {rest : Step Unit}
    (hs : Ready R n 3900 s) (hhead : s.head = word) (hword : word ≠ .eof)
    (h : ∀ t, Took 0 (s.begun kind) t → After rest t fun _ u => Took b (s.begun kind) u) :
    After (node kind do bump word; rest) s fun _ t => Took b s t := by
  have hhead' : (s.begun kind).head = word := by rw [State.head_begun, hhead]
  refine (node_took (.bind (bump_took (hs.begun kind) hhead' hword) ?_)).mono fun _ _ h => h.1
  exact fun _ t ht => h t ht

/-- Behind what was taken the line ends, for two looks more. -/
theorem Took.lineEnd (hs : Ready R n l s) (ht : Took a s t) (ha : a + 2 ≤ b) (hb : b ≤ 100) :
    After (lineEnd R) t fun _ u => Took b s u :=
  (lineEnd_goes (hs.took ht (by omega) (by omega))).mono fun _ _ hu =>
    (ht.trans hu.1).weaken (by omega)

/-- Behind what was taken an expression follows, for seven looks more. -/
theorem Took.expression (hR : R.Sound) (hs : Ready R n l s) (ht : Took a s t) (ha : a + 7 ≤ b)
    (hb : b ≤ 100) : After (R.expression 0) t fun _ u => Took b s u :=
  (hR.expression (hs.took ht (by omega) (by omega)) 0).mono fun _ _ hu =>
    (ht.trans hu.1).weaken (by omega)

/-- Behind what was taken a block follows, for two looks more. -/
theorem Took.block (hR : R.Sound) (hs : Ready R n l s) (ht : Took a s t) (ha : a + 2 ≤ b)
    (hb : b ≤ 100) : After R.block t fun _ u => Took b s u :=
  (hR.block (hs.took ht (by omega) (by omega))).mono fun _ _ hu =>
    (ht.trans hu).weaken (by omega)

/-- The block of a `begin` statement. -/
theorem Took.beginBlock (hR : R.Sound) (hs : Ready R n l s) (ht : Took a s t) (ha : a + 2 ≤ b)
    (hb : b ≤ 100) : After (within .begins R.block) t fun _ u => Took b s u := by
  have hready : Ready R 5 2500 t := hs.took ht (by omega) (by omega)
  exact (within_goes (by decide) (hR.block (hready.raise .begins))).mono fun _ _ hu =>
    (ht.trans hu).weaken (by omega)

/-- Behind what was taken the later branches follow. -/
theorem Took.branches (hR : R.Sound) (hs : Ready R n l s) (ht : Took a s t) (ha : a + 2 ≤ b)
    (hb : b ≤ 100) (hb' : 13 ≤ b) : After R.branches t fun _ u => Took b s u :=
  (hR.branches (hs.took ht (by omega) (by omega))).mono fun _ _ hu =>
    (ht.trans hu).weaken (by omega)

/-- The word that closes a block statement, and its line. -/
theorem Took.closing (hs : Ready R n l s) (ht : Took a s t) (ha : a + 1 ≤ b) (hb : b ≤ 100)
    (hb' : 2 ≤ b) {kind : TokenKind} (hkind : kind ≠ .eof) (wanted : Wanted) :
    After (closing R kind wanted) t fun _ u => Took b s u := by
  refine .bind (expect_after kind hkind wanted (ht.room (by omega))) ?_
  rintro _ u (⟨rfl, hu⟩ | ⟨rfl, hu⟩)
  · exact Took.lineEnd hs ((ht.goes (a := 0)).took hu) (by omega) hb
  · exact .pure ((ht.trans hu).weaken (by omega))

/-! ## Statements of one line -/

/-- A declaration takes its type. -/
theorem declaration_took (hR : R.Sound) (hs : Ready R 3 2650 s) (hend : s.head ≠ .eof) :
    After (declaration R) s fun _ t => Took 11 s t := by
  have hbegun := hs.begun .varDeclStmt
  refine (node_took (.bind (variableDecl_took (hbegun.weaken (Nat.le_refl _) (by decide))
    (by rwa [State.head_begun])) fun _ t h1 => ?_)).mono fun _ _ h => h.1
  refine .bind (eat_goes .colonEq (by decide) (h1.room (by decide))) fun valued u hu => ?_
  have h2 := h1.trans hu
  split
  · exact .bind (Took.expression (b := 9) hR hbegun h2 (by decide) (by decide)) fun _ v h3 =>
      Took.lineEnd hbegun h3 (by decide) (by decide)
  · exact Took.lineEnd hbegun h2 (by decide) (by decide)

/-- An assignment takes its word. -/
theorem setStatement_took (hR : R.Sound) (hs : Ready R 3 2650 s) (hhead : s.head = .kwSet) :
    After (setStatement R) s fun _ t => Took 10 s t := by
  have hbegun := hs.begun .setStmt
  refine wordNode_took (hs.weaken (Nat.le_refl _) (by decide)) hhead (by decide) fun t h1 => ?_
  refine .bind (Took.expression (b := 7) hR hbegun h1 (by decide) (by decide)) fun _ u h2 => ?_
  refine .bind (expect_after .kwTo (by decide) _ (h2.room (by decide))) ?_
  rintro _ v (⟨rfl, hv⟩ | ⟨rfl, hv⟩)
  · have h3 : Took 0 (s.begun .setStmt) v := (h2.goes (a := 0)).took hv
    exact .bind (Took.expression (b := 7) hR hbegun h3 (by decide) (by decide)) fun _ w h4 =>
      Took.lineEnd hbegun h4 (by decide) (by decide)
  · exact Took.lineEnd hbegun (h2.trans hv) (by decide) (by decide)

/-- So does an assignment by an operator. -/
theorem letStatement_took (hR : R.Sound) (hs : Ready R 3 2650 s) (hhead : s.head = .kwLet) :
    After (letStatement R) s fun _ t => Took 9 s t := by
  have hbegun := hs.begun .letStmt
  refine wordNode_took (hs.weaken (Nat.le_refl _) (by decide)) hhead (by decide) fun t h1 => ?_
  exact .bind (Took.expression (b := 7) hR hbegun h1 (by decide) (by decide)) fun _ u h2 =>
    Took.lineEnd hbegun h2 (by decide) (by decide)

/-- So does a return. -/
theorem returnStatement_took (hR : R.Sound) (hs : Ready R 3 2650 s) (hhead : s.head = .kwReturn) :
    After (returnStatement R) s fun _ t => Took 10 s t := by
  have hbegun := hs.begun .returnStmt
  refine wordNode_took (hs.weaken (Nat.le_refl _) (by decide)) hhead (by decide) fun t h1 => ?_
  refine .bind (current_after (h1.room (by decide))) ?_
  rintro _ _ ⟨rfl, rfl⟩
  have h2 : Took 1 (s.begun .returnStmt) t.looked := h1.looked
  split
  · exact .bind (Took.expression (b := 8) hR hbegun h2 (by decide) (by decide)) fun _ u h3 =>
      Took.lineEnd hbegun h3 (by decide) (by decide)
  · exact Took.lineEnd hbegun h2 (by decide) (by decide)

/-- So does a statement of one word. -/
theorem wordStatement_took (hs : Ready R 3 2650 s) {word : TokenKind} (hhead : s.head = word)
    (hword : word ≠ .eof) (kind : NodeKind) :
    After (wordStatement R word kind) s fun _ t => Took 2 s t := by
  have hbegun := hs.begun kind
  refine wordNode_took (hs.weaken (Nat.le_refl _) (by decide)) hhead hword fun t h1 => ?_
  exact Took.lineEnd hbegun h1 (by decide) (by decide)

/-- Where the expression takes nothing, the end of the line takes the token that it
left. -/
theorem expressionStatement_took (hR : R.Sound) (hs : Ready R 3 2650 s) (hend : s.head ≠ .eof) :
    After (expressionStatement R) s fun _ t => Took 9 s t := by
  have hbegun := hs.begun .exprStmt
  have hend' : (s.begun .exprStmt).head ≠ .eof := by rwa [State.head_begun]
  refine (node_took (.bind (hR.expression (hbegun.weaken (Nat.le_refl _) (by decide)) 0)
    ?_)).mono fun _ _ h => h.1
  rintro - t ⟨h1, -⟩
  have hready : Ready R 1 3500 t := hbegun.goes h1 (by decide) (by decide) (by decide)
  refine (lineEnd_goes hready).mono ?_
  rintro - u ⟨hu, htook⟩
  rcases h1.spent with ⟨hinput, -⟩ | ⟨hless, -⟩
  · exact (h1.took (htook (by rwa [State.head_congr hinput]))).weaken (by decide)
  · exact ((h1.took_of_lt hless).trans hu).weaken (by decide)

/-! ## Blocks -/

/-- A turn of a block takes a token, or the block is over. -/
theorem blockTurn_after (hR : R.Sound) (hs : Ready R 4 2500 s) :
    After (blockTurn R) s fun again t => if again then Took 14 s t else Goes 2 1 s t := by
  have h1 : Goes 1 0 s s.looked := .look hs.fault
  have h2 : Goes 2 1 s s.looked.looked := h1.looked
  have h3 : Goes 3 2 s s.looked.looked.looked := h2.looked
  refine .bind (atEnd_after (hs.room (by decide))) ?_
  rintro _ _ ⟨rfl, rfl⟩
  split
  · exact .pure (h1.weaken (by decide) (by decide))
  next hend =>
  have hend' : s.head ≠ .eof := fun h => hend (beq_iff_eq.2 h)
  refine .bind (current_after (h1.room hs (by decide) (by decide))) ?_
  rintro _ _ ⟨rfl, rfl⟩
  split
  · exact .pure h2
  · refine .bind (eat_after .newline (h2.room hs (by decide) (by decide))) ?_
    rintro _ _ (⟨rfl, hhead, rfl⟩ | ⟨rfl, hbreak, rfl⟩)
    · exact .pure ((h2.took (took_consume h2.fault hend')).weaken (by decide))
    · have hready : Ready R 4 2600 s.looked.looked.looked :=
        hs.goes h3 (Nat.le_refl _) (by decide) (by decide)
      exact .bind (hR.statement hready hbreak hend') fun _ t ht => .pure (h3.took ht)

/-- A level of nesting pays for the last statement of a block. -/
theorem block_goes (hR : R.Sound) (hs : Ready R 4 2500 s) :
    After (block R) s fun _ t => Goes 2 2 s t := by
  have hbegun := hs.begun .stmtList
  refine (node_goes (.bind (isTooDeep_after _) ?_)).mono fun _ _ h => h.1
  rintro _ _ ⟨rfl, rfl⟩
  -- At the limit the block is passed over. Below it there is one level more to unwind.
  by_cases hdeep : nestingLimit ≤ (s.begun .stmtList).count .nesting
  · rw [decide_eq_true hdeep]
    exact deepBlock_goes (hbegun.weaken (by decide) (by decide))
  · rw [decide_eq_false hdeep]
    have hraised := hbegun.raise .nesting
    refine within_after ((After.loop (q := fun t => Goes 2 16 ((s.begun .stmtList).raise .nesting) t)
      (fun t => Goes 0 14 ((s.begun .stmtList).raise .nesting) t) (fun t ht => ?_)
      ((Goes.refl hraised.fault).weaken (by decide) (by decide))
      (hraised.length_lt_turns (by decide))).mono fun _ t ht => ?_)
    · refine (blockTurn_after hR (hraised.goes ht (by decide) (by decide) (by decide))).mono ?_
      rintro (_ | _) u hu
      · exact (ht.trans hu).weaken (by decide) (by decide)
      · exact ⟨hu.length, (ht.took hu).goes⟩
    · exact (ht.lower_nesting (Nat.lt_of_not_le hdeep)).weaken (by decide) (by decide)

/-- The later branches may be none. -/
theorem branches_goes (hR : R.Sound) (hs : Ready R 1 2800 s) :
    After (branches R) s fun _ t => Goes 2 13 s t := by
  have h1 : Goes 1 0 s s.looked := .look hs.fault
  have h2 : Goes 2 1 s s.looked.looked := h1.looked
  refine .bind (isAt_after .kwElseIf (hs.room (by decide))) ?_
  rintro _ _ ⟨rfl, rfl⟩
  -- Another condition, a last branch without one, or no branch at all.
  split
  · next hhead =>
    have hready : Ready R 1 3900 s.looked := hs.goes h1 (Nat.le_refl _) (by decide) (by decide)
    have hbegun := hready.begun .elseIfBranch
    refine (wordNode_took (b := 13) hready (eq_of_beq hhead) (by decide) fun t h3 => ?_).mono
      fun _ u hu => (h1.took hu).goes
    exact .bind (Took.expression (b := 7) hR hbegun h3 (by decide) (by decide)) fun _ u h4 =>
      .bind (Took.lineEnd (b := 9) hbegun h4 (by decide) (by decide)) fun _ v h5 =>
        .bind (Took.block (b := 11) hR hbegun h5 (by decide) (by decide)) fun _ w h6 =>
          Took.branches hR hbegun h6 (by decide) (by decide) (by decide)
  · refine .bind (isAt_after .kwElse (h1.room hs (by decide) (by decide))) ?_
    rintro _ _ ⟨rfl, rfl⟩
    split
    · next hhead =>
      have hready : Ready R 1 3900 s.looked.looked :=
        hs.goes h2 (Nat.le_refl _) (by decide) (by decide)
      have hbegun := hready.begun .elseBranch
      refine (wordNode_took (b := 4) hready (eq_of_beq hhead) (by decide) fun t h3 => ?_).mono
        fun _ u hu => ((h2.took hu).weaken (by decide)).goes
      exact .bind (Took.lineEnd (b := 2) hbegun h3 (by decide) (by decide)) fun _ u h4 =>
        Took.block hR hbegun h4 (by decide) (by decide)
    · exact .pure (h2.weaken (by decide) (by decide))

/-- A condition takes its word. -/
theorem ifStatement_took (hR : R.Sound) (hs : Ready R 3 2650 s) (hhead : s.head = .kwIf) :
    After (ifStatement R) s fun _ t => Took 14 s t := by
  have hbegun := hs.begun .ifStmt
  refine wordNode_took (hs.weaken (Nat.le_refl _) (by decide)) hhead (by decide) fun t h1 => ?_
  exact .bind (Took.expression (b := 7) hR hbegun h1 (by decide) (by decide)) fun _ u h2 =>
    .bind (Took.lineEnd (b := 9) hbegun h2 (by decide) (by decide)) fun _ v h3 =>
      .bind (Took.block (b := 11) hR hbegun h3 (by decide) (by decide)) fun _ w h4 =>
        .bind (Took.branches (b := 13) hR hbegun h4 (by decide) (by decide) (by decide)) fun _ x h5 =>
          Took.closing hbegun h5 (by decide) (by decide) (by decide) (by decide) _

/-- A loop takes its word. -/
theorem whileStatement_took (hR : R.Sound) (hs : Ready R 3 2650 s) (hhead : s.head = .kwWhile) :
    After (whileStatement R) s fun _ t => Took 12 s t := by
  have hbegun := hs.begun .whileStmt
  refine wordNode_took (hs.weaken (Nat.le_refl _) (by decide)) hhead (by decide) fun t h1 => ?_
  exact .bind (Took.expression (b := 7) hR hbegun h1 (by decide) (by decide)) fun _ u h2 =>
    .bind (Took.lineEnd (b := 9) hbegun h2 (by decide) (by decide)) fun _ v h3 =>
      .bind (Took.block (b := 11) hR hbegun h3 (by decide) (by decide)) fun _ w h4 =>
        Took.closing hbegun h4 (by decide) (by decide) (by decide) (by decide) _

/-- A loop over an array takes its word. -/
theorem foreachStatement_took (hR : R.Sound) (hs : Ready R 3 2650 s)
    (hhead : s.head = .kwForeach) :
    After (foreachStatement R) s fun _ t => Took 12 s t := by
  have hbegun := hs.begun .foreachStmt
  refine wordNode_took (hs.weaken (Nat.le_refl _) (by decide)) hhead (by decide) fun t h1 => ?_
  -- With the arrow or without, the rest of the statement is the same.
  have hrest {u : State} (hu : Took 7 (s.begun .foreachStmt) u) :
      After (do lineEnd R; R.block; closing R .kwLoop .kwLoop) u
        fun _ v => Took 12 (s.begun .foreachStmt) v :=
    .bind (Took.lineEnd (b := 9) hbegun hu (by decide) (by decide)) fun _ v h3 =>
      .bind (Took.block (b := 11) hR hbegun h3 (by decide) (by decide)) fun _ w h4 =>
        Took.closing hbegun h4 (by decide) (by decide) (by decide) (by decide) _
  refine .bind (variableOrDecl_goes _ (hbegun.took (m := 3) h1 (by decide) (by decide)))
    fun _ u hu => ?_
  have h2 := h1.trans hu.1
  refine .bind (expect_after .lArrow (by decide) _ (h2.room (by decide))) ?_
  rintro _ v (⟨rfl, hv⟩ | ⟨rfl, hv⟩)
  · have h3 : Took 0 (s.begun .foreachStmt) v := (h2.goes (a := 0)).took hv
    exact .bind (Took.expression (b := 7) hR hbegun h3 (by decide) (by decide)) fun _ w h4 =>
      hrest h4
  · exact hrest ((h2.trans hv).weaken (by decide))

/-- A block of a script takes its word. -/
theorem beginStatement_took (hR : R.Sound) (hs : Ready R 3 2650 s) (hhead : s.head = .kwBegin) :
    After (beginStatement R) s fun _ t => Took 13 s t := by
  have hbegun := hs.begun .beginStmt
  refine wordNode_took (hs.weaken (Nat.le_refl _) (by decide)) hhead (by decide) fun t h1 => ?_
  -- With parameters, with arguments or with neither, the rest is the same.
  have hrest {u : State} (hu : Took 8 (s.begun .beginStmt) u) :
      After (do lineEnd R; within .begins R.block; closing R .kwEnd .kwEnd) u
        fun _ v => Took 13 (s.begun .beginStmt) v :=
    .bind (Took.lineEnd (b := 10) hbegun hu (by decide) (by decide)) fun _ v h3 =>
      .bind (Took.beginBlock (b := 12) hR hbegun h3 (by decide) (by decide)) fun _ w h4 =>
        Took.closing hbegun h4 (by decide) (by decide) (by decide) (by decide) _
  refine .bind (declaredName_goes _ (hbegun.took (m := 3) h1 (by decide) (by decide)))
    fun _ u hu => ?_
  have h2 := h1.trans hu
  refine .bind (isAt_after .lBrace (h2.room (by decide))) ?_
  rintro _ _ ⟨rfl, rfl⟩
  have h3 := h2.looked
  split
  · next hopens =>
    refine .bind (parameters_took (hbegun.took h3 (by decide) (by decide)) (eq_of_beq hopens))
      fun _ v hv => ?_
    exact hrest (((h3.goes (a := 0)).took hv).weaken (by decide))
  · refine .bind (current_after (h3.room (by decide))) ?_
    rintro _ _ ⟨rfl, rfl⟩
    have h4 := h3.looked
    split
    · have hready : Ready R 2 2700 u.looked.looked := hbegun.took h4 (by decide) (by decide)
      refine .bind (node_goes (bareArguments_goes hR (hready.begun .argList))) fun _ v hv => ?_
      exact hrest ((h4.trans hv.1).weaken (by decide))
    · exact hrest (h4.weaken (by decide))

/-- So does a block that is set aside. -/
theorem beginOrNested_took (hR : R.Sound) (hs : Ready R 3 2650 s) (hhead : s.head = .kwBegin) :
    After (beginOrNested R) s fun _ t => Took 13 s t := by
  have houtside : After isOutside s fun _ t => t = s := rfl
  refine .bind houtside fun outside t ht => ?_
  subst t
  split
  · exact beginStatement_took hR hs hhead
  · have hbegun := hs.begun .error
    refine (node_took (.bind (complain_goes _ hbegun.fault) ?_)).mono fun _ _ h => h.1
    rintro - t ⟨ht, hinput⟩
    have hready : Ready R 3 2650 t :=
      ⟨ht.fault, by rw [hinput]; exact hbegun.levels, by
        rcases ht.spent with ⟨-, hle⟩ | ⟨hless, -⟩
        · exact Nat.le_trans hle hbegun.looks
        · rw [hinput] at hless
          exact absurd hless (Nat.lt_irrefl _)⟩
    have hhead' : t.head = .kwBegin := by rw [State.head_congr hinput, State.head_begun, hhead]
    exact (beginStatement_took hR hready hhead').mono fun _ u hu => ht.took hu

/-- A statement takes a token, whatever it begins with. -/
theorem statement_took (hR : R.Sound) (hs : Ready R 3 2600 s) (hend : s.head ≠ .eof) :
    After (statement R) s fun _ t => Took 14 s t := by
  have h1 : Goes 1 0 s s.looked := .look hs.fault
  have hready : Ready R 3 2650 s.looked := hs.goes h1 (Nat.le_refl _) (by decide) (by decide)
  have hdone {m : Step Unit} {c : Nat} (hc : c ≤ 14) (h : After m s.looked fun _ t => Took c s.looked t) :
      After m s.looked fun _ t => Took 14 s t :=
    h.mono fun _ _ ht => (h1.took ht).weaken hc
  refine .bind (current_after (hs.room (by decide))) ?_
  rintro kind _ ⟨hkind, rfl⟩
  have hhead : s.looked.head = kind := hkind.symm
  cases kind
  case kwShort | kwInt | kwLong | kwFloat | kwRef | kwStringVar | kwArrayVar =>
    exact hdone (by decide) (declaration_took hR hready hend)
  case kwSet => exact hdone (by decide) (setStatement_took hR hready hhead)
  case kwLet => exact hdone (by decide) (letStatement_took hR hready hhead)
  case kwIf => exact hdone (by decide) (ifStatement_took hR hready hhead)
  case kwWhile => exact hdone (by decide) (whileStatement_took hR hready hhead)
  case kwForeach => exact hdone (by decide) (foreachStatement_took hR hready hhead)
  case kwBegin => exact hdone (by decide) (beginOrNested_took hR hready hhead)
  case kwReturn => exact hdone (by decide) (returnStatement_took hR hready hhead)
  case kwBreak => exact hdone (by decide) (wordStatement_took hready hhead (by decide) _)
  case kwContinue => exact hdone (by decide) (wordStatement_took hready hhead (by decide) _)
  all_goals exact hdone (by decide) (expressionStatement_took hR hready hend)

end Statements

/-! ## The knot -/

/-- The rules of a level have as many turns as there are levels below. -/
theorem turns_rules (f : String → Bool) (levels : Nat) : (rules f levels).turns = levels := by
  induction levels with
  | zero => rfl
  | succ levels ih => exact congrArg (· + 1) ih

/-- One level up, the same is ready as below and one level more. -/
theorem Ready.below {R : Rules} {n l : Nat} {s : State} (hs : Ready R.deeper (n + 1) l s) :
    Ready R n l s := by
  obtain ⟨hfault, hlevels, hlooks⟩ := hs
  have hturns : R.deeper.turns = R.turns + 1 := rfl
  exact ⟨hfault, by omega, hlooks⟩

/-- Rules that keep their contracts make rules that do, one level up. -/
theorem Rules.Sound.deeper {R : Rules} (hR : R.Sound) : R.deeper.Sound where
  operand hs calls := operand_goes hR hs.below calls
  expression hs floor := expression_goes hR hs.below floor
  statement hs _ hend := statement_took hR hs.below hend
  block hs := block_goes hR hs.below
  branches hs := branches_goes hR hs.below

/-- Where no level is left, no rule may begin. -/
theorem not_ready_exhausted {f : String → Bool} {n l : Nat} {s : State} :
    ¬ Ready (.exhausted f) (n + 1) l s := by
  intro hs
  have hlevels := hs.levels
  simp [Rules.exhausted] at hlevels

/-- **The rules of every number of levels keep their contracts.** -/
theorem rules_sound (f : String → Bool) (levels : Nat) : (rules f levels).Sound := by
  induction levels with
  | zero =>
    exact ⟨fun hs => absurd hs not_ready_exhausted, fun hs => absurd hs not_ready_exhausted,
      fun hs => absurd hs not_ready_exhausted, fun hs => absurd hs not_ready_exhausted,
      fun hs => absurd hs not_ready_exhausted⟩
  | succ levels ih => exact ih.deeper

/-! ## Whole texts -/

section Texts

variable {R : Rules} {n l : Nat} {s : State}

/-- Line breaks in front of a script may be none. -/
theorem lineBreaks_goes (hs : Ready R 1 3800 s) :
    After (lineBreaks R) s fun _ t => Goes 1 1 s t := by
  refine (loop_goes (fun _ => True) (a := 1) (by decide) (fun t ht => ?_) hs).mono fun _ _ h => h.1
  refine (eat_after .newline (ht.room (by decide))).mono ?_
  rintro _ _ (⟨rfl, hhead, rfl⟩ | ⟨rfl, -, rfl⟩)
  · exact took_consume ht.fault (by rw [hhead]; decide)
  · exact ⟨.look ht.fault, trivial⟩

/-- The line that names a script takes its word. -/
theorem scriptName_took (hs : Ready R 1 3000 s) (hhead : s.head = .kwScriptName) :
    After (scriptName R) s fun _ t => Took 3 s t := by
  have hbegun := hs.begun .scriptNameDecl
  refine wordNode_took (hs.weaken (Nat.le_refl _) (by decide)) hhead (by decide) fun t h1 => ?_
  refine .bind (declaredName_goes _ (hbegun.took (m := 1) h1 (by decide) (by decide)))
    fun _ u hu => ?_
  exact Took.lineEnd hbegun (h1.trans hu) (by decide) (by decide)

/-- A closing word without its opening one is taken. -/
theorem strayCloser_took (closer : Closer) (hs : Ready R n 3000 s) (hbreak : s.head ≠ .newline)
    (hend : s.head ≠ .eof) : After (strayCloser closer) s fun _ t => Took 0 s t := by
  have h1 : Goes 1 0 s s.looked := .look hs.fault
  have h2 : Goes 2 1 s s.looked.looked := h1.looked
  refine .bind (.discard ((current_after (hs.room (by decide))).mono fun _ _ h => h.2)) ?_
  rintro _ _ rfl
  refine .bind (atLineEnd_after (h1.room hs (by decide) (by decide))) ?_
  rintro _ _ ⟨rfl, rfl⟩
  have hfalse : (s.looked.head == .newline || s.looked.head == .eof) = false := by
    simp [hbreak, hend]
  rw [hfalse]
  have hready : Ready R n 3900 s.looked.looked := hs.goes h2 (Nat.le_refl _) (by decide) (by decide)
  exact (aside_took _ hready hend).mono fun _ t ht => h2.took ht.1

/-- What stands at the top of a script takes a token. -/
theorem topLevel_took (hR : R.Sound) (hs : Ready R 4 2500 s) (hbreak : s.head ≠ .newline)
    (hend : s.head ≠ .eof) : After (topLevel R) s fun _ t => Took 14 s t := by
  have h1 : Goes 1 0 s s.looked := .look hs.fault
  have hready : Ready R 4 2600 s.looked := hs.goes h1 (Nat.le_refl _) (by decide) (by decide)
  refine .bind (current_after (hs.room (by decide))) ?_
  rintro _ _ ⟨rfl, rfl⟩
  split
  · next hname =>
    refine .bind (complain_goes _ h1.fault) ?_
    rintro - t ⟨ht, hinput⟩
    have hhead : t.head = .kwScriptName := by
      rw [State.head_congr hinput]
      exact eq_of_beq hname
    have hgoes := h1.trans ht
    refine (scriptName_took (hs.goes hgoes (by decide) (by decide) (by decide)) hhead).mono ?_
    exact fun _ u hu => (hgoes.took hu).weaken (by decide)
  · split
    · exact (strayCloser_took _ (hready.weaken (Nat.le_refl _) (by decide)) hbreak hend).mono
        fun _ t ht => (h1.took ht).weaken (by decide)
    · have hstatement {t : State} (ht : Goes 0 0 s.looked t) (hinput : t.input = s.looked.input) :
          After R.statement t fun _ u => Took 14 s u := by
        have hhead : t.head = s.head := State.head_congr hinput
        have hgoes := h1.trans ht
        refine (hR.statement (hs.goes hgoes (Nat.le_refl _) (by decide) (by decide))
          (by rwa [hhead]) (by rwa [hhead])).mono fun _ u hu => hgoes.took hu
      split
      · exact hstatement (.refl h1.fault) rfl
      · exact .bind (complain_goes _ h1.fault) fun _ t ht => hstatement ht.1 ht.2

/-- A turn of a script takes a token, or the script is over. -/
theorem scriptTurn_after (hR : R.Sound) (hs : Ready R 4 2400 s) :
    After (scriptTurn R) s fun again t => if again then Took 14 s t else Goes 1 0 s t := by
  have h1 : Goes 1 0 s s.looked := .look hs.fault
  have h2 : Goes 2 1 s s.looked.looked := h1.looked
  refine .bind (atEnd_after (hs.room (by decide))) ?_
  rintro _ _ ⟨rfl, rfl⟩
  split
  · exact .pure h1
  next hend =>
  have hend' : s.head ≠ .eof := fun h => hend (beq_iff_eq.2 h)
  refine .bind (eat_after .newline (h1.room hs (by decide) (by decide))) ?_
  rintro _ _ (⟨rfl, hhead, rfl⟩ | ⟨rfl, hbreak, rfl⟩)
  · exact .pure ((h1.took (took_consume h1.fault hend')).weaken (by decide))
  · have hready : Ready R 4 2500 s.looked.looked :=
      hs.goes h2 (Nat.le_refl _) (by decide) (by decide)
    exact .bind (topLevel_took hR hready hbreak hend') fun _ t ht => .pure (h2.took ht)

/-- A script is read to its end without a fault. -/
theorem script_goes (hR : R.Sound) (hs : Ready R 4 100 s) :
    After (script R) s fun _ t => t.fault = none := by
  refine .bind (lineBreaks_goes (hs.weaken (by decide) (by decide))) fun _ t h1 => ?_
  refine .bind (isAt_after .kwScriptName (h1.room hs (by decide) (by decide))) ?_
  rintro _ _ ⟨rfl, rfl⟩
  have h2 := h1.looked
  have hrest {u : State} (hu : Goes 2 20 s u) : After (R.loop (scriptTurn R)) u
      fun _ v => v.fault = none := by
    have hready : Ready R 4 2100 u := hs.goes hu (Nat.le_refl _) (by decide) (by decide)
    refine After.loop (fun v => Goes 2 20 s v) (fun v hv => ?_) hu
      (hready.length_lt_turns (by decide))
    refine (scriptTurn_after hR (hs.goes hv (Nat.le_refl _) (by decide) (by decide))).mono ?_
    rintro (_ | _) w hw
    · exact hw.fault
    · exact ⟨hw.length, ((hv.took hw).weaken (by decide)).goes⟩
  split
  · next hname =>
    refine .bind (scriptName_took (hs.goes h2 (by decide) (by decide) (by decide))
      (eq_of_beq hname)) fun _ u hu => ?_
    exact hrest ((h2.took hu).weaken (by decide)).goes
  · exact .bind (complain_goes _ h2.fault) fun _ u hu =>
      hrest ((h2.trans hu.1).weaken (by decide) (by decide))

end Texts

end ScriptSense.Grammar
