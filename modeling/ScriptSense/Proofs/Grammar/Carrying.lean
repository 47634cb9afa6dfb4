/-
Statements that end with the text, in front of a longer one.

A step that leaves something does the same in front of a longer text (`Alike.blind`).
The last statement of a text leaves nothing, so for statements there is more to show:
that they do not look at the end of the text either. A statement of one line ends with
its line break, and looks no further. A block would look further, to see whether it
ends; but where the text is read without an error no block is open at its end, because
the word that closes it would be missing (`Asks`).

So a statement that begins in the text and is read without an error does the same in
front of a longer text, whether or not something is left behind it (`Carries`).
-/
import ScriptSense.Proofs.Grammar.InLine

set_option autoImplicit false

namespace ScriptSense.Grammar

variable {α β σ : Type}

/-! ## At the end of the text -/

/-- At the end of the text, where line breaks count, the step ends with an error. -/
def Asks (m : Step α) : Prop := ∀ s, s.rest = [] → s.parens = 0 → ¬ (m s).2.Clean

/-- The tokens of no line at all. -/
theorem wholeLines_nil : WholeLines [] where
  last _ h := absurd h (by simp)
  inner _ h := absurd h List.not_mem_nil

namespace Asks

variable {m : Step α} {f : α → Step β}

/-- What leaves something ahead needs something ahead. -/
theorem of_lands (h : Lands m) : Asks m := by
  intro s hnil hparens hclean
  have hsuffix := h.orderly.suffix s
  rw [hnil] at hsuffix
  exact h.lands s (hnil ▸ wholeLines_nil) hparens hclean (List.suffix_nil.1 hsuffix)

theorem bind (hm : Asks m) (hf : ∀ a, Honest (f a)) : Asks (m >>= f) :=
  fun s hnil hparens hclean => hm s hnil hparens (hf _ _ hclean)

theorem ite {c : Prop} [Decidable c] {m m' : Step α} (h : Asks m) (h' : Asks m') :
    Asks (if c then m else m') := by
  split
  · exact h
  · exact h'

theorem node (kind : NodeKind) (h : Asks m) : Asks (node kind m) := by
  intro s hnil hparens hclean
  have hsuffix := State.opened_suffix kind s
  rw [hnil] at hsuffix
  rw [run_node] at hclean
  exact h ((s.opened kind).inside #[]) (List.suffix_nil.1 hsuffix)
    ((State.parens_opened kind s).trans hparens) hclean

/-- What is done at the end of the text leaves it at its end. -/
theorem after (hm : Orderly m) (hf : ∀ a, Asks (f a)) : Asks (m >>= f) := by
  intro s hnil hparens
  refine hf _ _ ?_ ((hm.parens s).trans hparens)
  have hsuffix := hm.suffix s
  rw [hnil] at hsuffix
  exact List.suffix_nil.1 hsuffix

end Asks

/-! ## Where nothing is left -/

/-- Outside of parentheses a token is consumed in front of a longer text as it is in front
of this one, even if it is the last one. -/
theorem State.longer_consume_of_parens {s : State} {more : List Token} (h : WholeLines s.rest)
    (hsome : s.rest ≠ []) (hparens : s.parens = 0) :
    (s.longer more).consume = s.consume.longer more := by
  -- A word stands in front of what is put behind, so the trivia end with it.
  have htrivia : s.shiftTrivia.rest ≠ [] := by
    obtain ⟨front, t, back, hsplit, ht, hfront⟩ := h.exists_split hsome
    rw [rest_shiftTrivia, hsplit, List.dropWhile_append_of_pos hfront,
      List.dropWhile_cons_of_neg (by simp [ht])]
    exact List.cons_ne_nil _ _
  have hcount : s.shiftTrivia.shift.parens = 0 := by
    rw [← hparens]
    exact (count_shift .parens _).trans (count_shiftTrivia .parens s)
  -- Outside of parentheses no line break is passed.
  have hstill {t : State} (ht : t.parens = 0) : t.shiftBreaks = t := by
    rw [shiftBreaks, if_neg (by omega)]
  have hcount' : (s.shiftTrivia.shift.longer more).parens = 0 := hcount
  rw [consume, consume, longer_shiftTrivia h hsome, longer_shift htrivia, hstill hcount',
    hstill hcount]
  rfl

/-- **A step that is read without an error, from within the text, does the same in front of
a longer text**, even if nothing is left behind it. -/
structure Carries (i : Sync) (m m' : Step α) : Prop where
  honest : Honest m
  keeps (s : State) : (m' s).2.fault = none → s.fault = none
  carries (more : List Token) (s : State) : WholeLines s.rest → s.parens = 0 → s.rest ≠ [] →
    i.Word s → (m s).2.Clean → (m' (s.longer more)).2.fault = none →
    m' (s.longer more) = ((m s).1, (m s).2.longer more)

namespace Carries

variable {i j : Sync} {o : α → Sync} {m m' : Step α} {f f' : α → Step β}

theorem given {i' : Sync} (h : Carries i m m') (hi : i' ≤ i) : Carries i' m m' :=
  ⟨h.honest, h.keeps, fun more s hlines hparens hsome hword =>
    h.carries more s hlines hparens hsome (hword.mono hi)⟩

theorem pure (a : α) : Carries i (Pure.pure a) (Pure.pure a) :=
  ⟨.pure a, fun _ h => h, fun _ _ _ _ _ _ _ _ => rfl⟩

/-- A step of which nothing has to be shown. -/
theorem never (h : Fails m) (hkeeps : ∀ s, (m' s).2.fault = none → s.fault = none) :
    Carries i m m' :=
  ⟨h.honest, hkeeps, fun _ s _ _ _ _ hclean => absurd hclean (h.fails s)⟩

/-- Behind a step that leaves something the text goes on. -/
theorem goOn {j : α → Sync} (hm : Alike i j m m') (hf : ∀ a, Carries (j a) (f a) (f' a))
    (hleft : ∀ s, WholeLines s.rest → s.parens = 0 → s.rest ≠ [] → ((m >>= f) s).2.Clean →
      (m s).2.rest ≠ []) : Carries i (m >>= f) (m' >>= f') where
  honest := hm.honest.bind fun a => (hf a).honest
  keeps s h := hm.right.fault_eq_none ((hf _).keeps _ h)
  carries more s hlines hparens hsome hword hclean hfault' := by
    have hleft := hleft s hlines hparens hsome hclean
    rw [run_bind] at hclean hfault' ⊢
    obtain ⟨hrun, hbehind⟩ := hm.blind more s hlines hword hleft ((hf _).honest _ hclean).1
      ((hf _).keeps _ hfault')
    rw [hrun] at hfault'
    rw [run_bind, hrun]
    exact (hf _).carries more _ (hlines.suffix (hm.orderly.suffix s))
      ((hm.orderly.parens s).trans hparens) hleft hbehind hclean hfault'

/-- The part of a statement that does not end its line. -/
theorem bind {j : α → Sync} (hm : Alike i j m m') (hline : InLine m)
    (hf : ∀ a, Carries (j a) (f a) (f' a)) : Carries i (m >>= f) (m' >>= f') :=
  goOn hm hf fun s hlines hparens hsome hclean =>
    hline.stays s hlines hparens hsome ((hf _).honest _ hclean)

/-- The part of a statement that is still asked for something. -/
theorem andAsked {j : α → Sync} (hm : Alike i j m m') (hf : ∀ a, Carries (j a) (f a) (f' a))
    (hasks : ∀ a, Asks (f a)) : Carries i (m >>= f) (m' >>= f') :=
  goOn hm hf fun s _ hparens _ hclean hnil =>
    hasks _ _ hnil ((hm.orderly.parens s).trans hparens) hclean

theorem ite {c : Prop} [Decidable c] {n n' : Step α} (h : Carries i m m') (h' : Carries i n n') :
    Carries i (if c then m else n) (if c then m' else n') := by
  split
  · exact h
  · exact h'

theorem node (kind : NodeKind) (h : Carries i m m') : Carries i (node kind m) (node kind m') where
  honest := h.honest.node
  keeps s hs := by
    rw [run_node] at hs
    have hopened : (s.opened kind).fault = none := h.keeps ((s.opened kind).inside #[]) hs
    unfold State.opened at hopened
    split at hopened
    · exact hopened
    · rwa [State.shiftTrivia_eq State.fault_shift] at hopened
  carries more s hlines hparens hsome hword hclean hfault' := by
    have hopened : (s.longer more).opened kind = (s.opened kind).longer more :=
      State.longer_opened kind hlines hsome
    rw [run_node] at hclean hfault' ⊢
    rw [hopened] at hfault'
    rw [run_node, hopened]
    -- Entering the node passes trivia only, which leaves whole lines and the word that is next.
    have hrun := h.carries more ((s.opened kind).inside #[]) (WholeLines.opened hlines kind)
      ((State.parens_opened kind s).trans hparens) (WholeLines.opened_ne_nil hlines kind hsome)
      (fun hi => by
        change kindAhead 0 (s.opened kind).rest ≠ .newline
        rw [State.kindAhead_opened]
        exact hword hi) hclean hfault'
    have hinside : ((s.opened kind).longer more).inside #[]
        = ((s.opened kind).inside #[]).longer more := rfl
    rw [hinside, hrun]
    rfl

/-- The answer does not matter. -/
theorem andAnswer (h : Carries i m m') (g : α → β) :
    Carries i (m >>= fun a => Pure.pure (g a)) (m' >>= fun a => Pure.pure (g a)) :=
  ⟨h.honest, h.keeps, fun more s hlines hparens hsome hword hclean hfault' => by
    rw [run_bind, h.carries more s hlines hparens hsome hword hclean hfault']
    rfl⟩

/-- A line break is consumed, and that is all, or else the line goes on. -/
theorem orBreak {g g' : Bool → Step β} {b : β} (hg : g true = Pure.pure b)
    (hg' : g' true = Pure.pure b) (hrest : Carries .word (g false) (g' false)) :
    Carries .next (eat .newline >>= g) (eat .newline >>= g') := by
  have hconsume : Carries .next (modify State.consume : Step Unit) (modify State.consume) :=
    ⟨fun s hs => (State.clean_consume s).1 hs, fun s hs => by rwa [← State.fault_consume s],
      fun more s hlines hparens hsome _ _ _ => by
        rw [run_modify, State.longer_consume_of_parens hlines hsome hparens]
        rfl⟩
  -- What is eaten is looked at first.
  have hlook : Carries .next
      (Grammar.current >>= fun kind => (do
        if kind == .newline then modify State.consume
        return kind == .newline : Step Bool) >>= g)
      (Grammar.current >>= fun kind => (do
        if kind == .newline then modify State.consume
        return kind == .newline : Step Bool) >>= g') := by
    refine bind current_alike .current fun kind => ?_
    by_cases hkind : kind = .newline
    · subst hkind
      change Carries .next (modify State.consume >>= fun _ => g true)
        (modify State.consume >>= fun _ => g' true)
      rw [hg, hg']
      exact hconsume.andAnswer fun _ => b
    · have hbeq : (kind == .newline) = false := by simpa using hkind
      have hseen : Sync.seen kind = .word := if_neg hkind
      rw [hseen]
      simp only [hbeq]
      exact hrest
  exact hlook

end Carries

/-! ## Ends of lines -/

/-- A statement of one line ends with its line break. -/
theorem lineEnd_carries (R R' : Rules) : Carries .next (lineEnd R) (lineEnd R') := by
  have htail (R : Rules) : Alike .word (fun _ => .fresh)
      (do
        node .error do
          complain (.missing .lineEnd)
          R.loop passInLine
        discard <| eat .newline)
      (do
        node .error do
          complain (.missing .lineEnd)
          R.loop passInLine
        discard <| eat .newline) :=
    .bind (.aside (.bind (.complain _) fun _ =>
      (loop_alike passInLine_alike).given (by decide))) fun _ =>
        Alike.eatBreak.discard fun eaten => by cases eaten <;> decide
  -- Setting the rest of the line aside makes a complaint, which a clean run does not.
  have hfails : Fails (do
      node .error do
        complain (.missing .lineEnd)
        R.loop passInLine
      discard <| eat .newline) := by
    have hpass : Alike .next (fun _ => .next) (R.loop passInLine) (R.loop passInLine) :=
      loop_alike passInLine_alike
    refine .bind (.node ((Fails.complain rfl).bind fun _ => hpass.honest)) fun _ => ?_
    exact (Orderly.discard (eat .newline)).honest
  refine .orBreak rfl rfl (.bind (isAt_alike_word _) (.isAt _) fun ends => ?_)
  exact .ite (.pure _) (.never hfails fun _ => (htail R').fault_eq_none)

/-- The word that closes a block, and the end of its line. -/
theorem closing_carries (R R' : Rules) {kind : TokenKind} (hbreak : kind ≠ .newline)
    (hend : kind ≠ .eof) (wanted : Wanted) :
    Carries .next (closing R kind wanted) (closing R' kind wanted) :=
  .bind (expect_alike hbreak wanted) (Lands.expect hbreak hend wanted).inLine fun _ =>
    .ite (lineEnd_carries R R') (.pure _)

theorem closing_asks (R : Rules) {kind : TokenKind} (hbreak : kind ≠ .newline)
    (hend : kind ≠ .eof) (wanted : Wanted) : Asks (closing R kind wanted) :=
  (Asks.of_lands (Lands.expect hbreak hend wanted)).bind fun there => by
    split
    · exact (lineEnd_alike R R).honest
    · exact .pure ()

section Statements

variable {R R' : Rules} (h : R.Alike R') (hR : R.InLine)

include h hR

/-! ## Statements of one line -/

theorem valued_carries : Carries .next (do R.expression 0; lineEnd R)
    (do R'.expression 0; lineEnd R') :=
  .bind (h.expression 0) (hR.expression 0).inLine fun _ => lineEnd_carries R R'

theorem declaration_carries : Carries .word (declaration R) (declaration R') := by
  refine .node _ (.bind variableDecl_alike_word variableDecl_lands.inLine fun _ => ?_)
  refine .bind (eat_alike (by decide)) (.eat (by decide) (by decide)) fun valued => ?_
  exact .ite (valued_carries h hR) (lineEnd_carries R R')

theorem setStatement_carries : Carries .next (setStatement R) (setStatement R') := by
  refine .node _ (.bind (bump_alike (by decide)) (Lands.bump (by decide) (by decide)).inLine
    fun _ => .bind (h.expression 0) (hR.expression 0).inLine fun _ => ?_)
  refine .bind (expect_alike (by decide) _) (Lands.expect (by decide) (by decide) _).inLine
    fun there => ?_
  exact .ite (valued_carries h hR) (lineEnd_carries R R')

theorem letStatement_carries : Carries .next (letStatement R) (letStatement R') :=
  .node _ (.bind (bump_alike (by decide)) (Lands.bump (by decide) (by decide)).inLine
    fun _ => valued_carries h hR)

theorem returnStatement_carries : Carries .next (returnStatement R) (returnStatement R') := by
  refine .node _ (.bind (bump_alike (by decide)) (Lands.bump (by decide) (by decide)).inLine
    fun _ => .bind (current_alike.giving Sync.seen_le) .current fun kind => ?_)
  exact .ite (valued_carries h hR) (lineEnd_carries R R')

omit h hR in
theorem wordStatement_carries (R R' : Rules) {word : TokenKind} (hbreak : word ≠ .newline)
    (hend : word ≠ .eof) (kind : NodeKind) :
    Carries .next (wordStatement R word kind) (wordStatement R' word kind) :=
  .node _ (.bind (bump_alike hbreak) (Lands.bump hbreak hend).inLine
    fun _ => lineEnd_carries R R')

theorem expressionStatement_carries :
    Carries .next (expressionStatement R) (expressionStatement R') :=
  .node _ (valued_carries h hR)

/-! ## Blocks -/

omit h hR in
/-- The body of a block statement, with what is still asked for behind it. -/
theorem body_carries {m m' n n' : Step Unit} (hm : Alike .fresh (fun _ => .next) m m')
    (hn : Carries .next n n') (hasks : Asks n) :
    Carries .next (do lineEnd R; m; n) (do lineEnd R'; m'; n') :=
  .andAsked (lineEnd_alike_fresh R R') (fun _ => .andAsked hm (fun _ => hn) fun _ => hasks)
    fun _ => .after hm.orderly fun _ => hasks

theorem ifStatement_carries : Carries .next (ifStatement R) (ifStatement R') := by
  have hasks : Asks (closing R .kwEndIf .kwEndIf) := closing_asks R (by decide) (by decide) _
  have hbranches : Carries .next (do R.branches; closing R .kwEndIf .kwEndIf)
      (do R'.branches; closing R' .kwEndIf .kwEndIf) :=
    .andAsked h.branches (fun _ => closing_carries R R' (by decide) (by decide) _) fun _ => hasks
  refine .node _ (.bind (bump_alike (by decide)) (Lands.bump (by decide) (by decide)).inLine
    fun _ => .bind (h.expression 0) (hR.expression 0).inLine fun _ => ?_)
  exact body_carries h.block hbranches (.after h.branches.orderly fun _ => hasks)

theorem whileStatement_carries : Carries .next (whileStatement R) (whileStatement R') := by
  refine .node _ (.bind (bump_alike (by decide)) (Lands.bump (by decide) (by decide)).inLine
    fun _ => .bind (h.expression 0) (hR.expression 0).inLine fun _ => ?_)
  exact body_carries h.block (closing_carries R R' (by decide) (by decide) _)
    (closing_asks R (by decide) (by decide) _)

theorem foreachStatement_carries : Carries .next (foreachStatement R) (foreachStatement R') := by
  have hbody : Carries .next (do lineEnd R; R.block; closing R .kwLoop .kwLoop)
      (do lineEnd R'; R'.block; closing R' .kwLoop .kwLoop) :=
    body_carries h.block (closing_carries R R' (by decide) (by decide) _)
      (closing_asks R (by decide) (by decide) _)
  refine .node _ (.bind (bump_alike (by decide)) (Lands.bump (by decide) (by decide)).inLine
    fun _ => .bind (variableOrDecl_alike _) (variableOrDecl_lands _).inLine fun _ => ?_)
  refine .bind (expect_alike (by decide) _) (Lands.expect (by decide) (by decide) _).inLine
    fun there => .ite ?_ hbody
  exact .bind (h.expression 0) (hR.expression 0).inLine fun _ => hbody

theorem beginStatement_carries : Carries .next (beginStatement R) (beginStatement R') := by
  have hbody : Carries .next (do lineEnd R; within .begins R.block; closing R .kwEnd .kwEnd)
      (do lineEnd R'; within .begins R'.block; closing R' .kwEnd .kwEnd) :=
    body_carries (.within _ h.block) (closing_carries R R' (by decide) (by decide) _)
      (closing_asks R (by decide) (by decide) _)
  refine .node _ (.bind (bump_alike (by decide)) (Lands.bump (by decide) (by decide)).inLine
    fun _ => .bind (declaredName_alike _) (declaredName_lands _).inLine fun _ => ?_)
  have hbraces : Alike .next (fun _ => .next) (isAt .lBrace) (isAt .lBrace) :=
    (isAt_alike (by decide)).giving fun braces => by cases braces <;> decide
  refine .bind hbraces (.isAt _) fun braces => .ite ?_ ?_
  · exact .bind (parameters_alike R R') (parameters_lands R).inLine fun _ => hbody
  · refine .bind (current_alike.giving Sync.seen_le) .current fun kind => .ite ?_ hbody
    exact .bind (.plain (by decide) (Sync.le_refl _) (bareArguments_alike h))
      (.node _ (bareArguments_inLine hR)) fun _ => hbody

/-! ## Whatever stands in a text -/

/-- Inside another `begin` block, which is not where a text without an error has one. -/
theorem beginOrNested_carries : Carries .next (beginOrNested R) (beginOrNested R') := by
  have hbegin := beginStatement_carries h hR
  refine .bind .isOutside (.looking fun _ => rfl) fun outside => .ite hbegin ?_
  have haside : Alike .word (fun _ => .breaks)
      (node .error do complain .nestedBegin; beginStatement R')
      (node .error do complain .nestedBegin; beginStatement R') :=
    .aside (.bind (.complain _) fun _ => (beginStatement_alike h).right.given (Sync.word_le _))
  exact .never (.node ((Fails.complain rfl).bind fun _ => hbegin.honest))
    fun _ => haside.fault_eq_none

theorem statement_carries : Carries .next (statement R) (statement R') := by
  refine .bind current_alike .current fun kind => ?_
  -- The first word says which statement it is, and this word is the same with more behind it.
  cases kind
  case kwShort | kwInt | kwLong | kwFloat | kwRef | kwStringVar | kwArrayVar =>
    exact declaration_carries h hR
  case kwSet => exact (setStatement_carries h hR).given (Sync.seen_le _)
  case kwLet => exact (letStatement_carries h hR).given (Sync.seen_le _)
  case kwIf => exact (ifStatement_carries h hR).given (Sync.seen_le _)
  case kwWhile => exact (whileStatement_carries h hR).given (Sync.seen_le _)
  case kwForeach => exact (foreachStatement_carries h hR).given (Sync.seen_le _)
  case kwBegin => exact (beginOrNested_carries h hR).given (Sync.seen_le _)
  case kwReturn => exact (returnStatement_carries h hR).given (Sync.seen_le _)
  case kwBreak =>
    exact (wordStatement_carries R R' (by decide) (by decide) _).given (Sync.seen_le _)
  case kwContinue =>
    exact (wordStatement_carries R R' (by decide) (by decide) _).given (Sync.seen_le _)
  all_goals exact (expressionStatement_carries h hR).given (Sync.seen_le _)

end Statements

/-- **A statement that is read without an error does not look behind its end**, whatever
the numbers of levels. -/
theorem rules_carries (f : String → Bool) (levels levels' : Nat) :
    Carries .next (rules f levels).statement (rules f levels').statement := by
  cases levels with
  | zero => exact .never (.giveUp _) fun _ => (rules_alike_self f levels').statement.fault_eq_none
  | succ n =>
    cases levels' with
    | zero =>
      refine ⟨(rules_alike_self f (n + 1)).statement.honest,
        fun s hs => absurd hs (State.fault_giveUp_ne_none _ s), ?_⟩
      exact fun _ _ _ _ _ _ _ hfault' => absurd hfault' (State.fault_giveUp_ne_none _ _)
    | succ n' => exact statement_carries (rules_alike f n n') (rules_inLine f n)

/-! ## Scripts -/

section Scripts

variable (f : String → Bool) (levels levels' : Nat)

theorem scriptName_carries (R R' : Rules) : Carries .next (scriptName R) (scriptName R') :=
  .node _ (.bind (bump_alike (by decide)) (Lands.bump (by decide) (by decide)).inLine
    fun _ => .bind (declaredName_alike _) (declaredName_lands _).inLine
      fun _ => lineEnd_carries R R')

/-- Outside of every block nothing is closed. -/
theorem strayCloser_carries (closer : Closer) :
    Carries .word (strayCloser closer) (strayCloser closer) := by
  refine .bind (current_alike_word.discard fun _ => Sync.le_refl _) InLine.current.discard
    fun _ => .bind atLineEnd_alike_word (InLine.current.bind fun _ => .pure _) fun ends => ?_
  have haside : Alike .word (fun _ => .next) (node .error do complain (.unopened closer); bumpAny)
      (node .error do complain (.unopened closer); bumpAny) :=
    .aside (.bind (.complain _) fun _ => bumpAny_alike_word)
  exact .ite (.pure _) (.never (aside_fails rfl) fun _ => haside.fault_eq_none)

theorem topLevel_carries :
    Carries .word (topLevel (rules f levels)) (topLevel (rules f levels')) := by
  have hstatement := (rules_carries f levels levels').given (Sync.word_le _)
  refine .bind current_alike_word .current fun kind => .ite ?_ ?_
  · exact .bind (.complain _) (.looking fun _ => rfl) fun _ =>
      (scriptName_carries _ _).given (Sync.word_le _)
  · split
    · exact strayCloser_carries _
    · exact .ite hstatement (.bind (.complain _) (.looking fun _ => rfl) fun _ => hstatement)

/-- What stands in front of the statements: line breaks, and the name of the script. -/
def header (R : Rules) : Step Unit := do
  lineBreaks R
  if ← isAt .kwScriptName then scriptName R else complain (.missing .scriptNameDecl)

theorem run_script (R : Rules) (s : State) :
    script R s = R.loop (scriptTurn R) (header R s).2 := by
  unfold script header
  simp only [run_bind, run_ite]
  cases (isAt .kwScriptName (lineBreaks R s).2).1 <;> rfl

/-- Where there is no name, there is an error. -/
theorem header_carries (R R' : Rules) : Carries .breaks (header R) (header R') := by
  have hmissing : Fails (complain (.missing .scriptNameDecl)) := .complain rfl
  refine .andAsked (lineBreaks_alike R R') (fun _ => ?_) fun _ =>
    .after inferInstance fun named => .ite ?_ fun s _ _ => hmissing.fails s
  · refine .bind (isAt_alike_word _) (.isAt _) fun named => .ite ?_ ?_
    · exact (scriptName_carries R R').given (Sync.word_le _)
    · exact .never hmissing fun _ h => h
  · refine .node _ ((Asks.of_lands (.bump (by decide) (by decide))).bind fun _ => ?_)
    exact (declaredName_alike _).honest.bind fun _ => (lineEnd_alike R R).honest

theorem header_orderly (R : Rules) : Orderly (header R) := by
  have hbreaks : Orderly (lineBreaks R) := (lineBreaks_alike R R).orderly
  have hname : Orderly (scriptName R) := (scriptName_alike R R).orderly
  exact .bind (lineBreaks R) _

/-- A turn of the loop over what stands in a script. -/
theorem scriptTurn_carries :
    Carries .next (scriptTurn (rules f levels)) (scriptTurn (rules f levels')) := by
  have hend : Alike .next (fun _ => .next) (isAt .eof) (isAt .eof) :=
    (isAt_alike (by decide)).giving fun ends => by cases ends <;> decide
  refine .bind hend (.isAt _) fun ends => .ite (.pure _) ?_
  exact .orBreak rfl rfl ((topLevel_carries f levels levels').andAnswer fun _ => true)

end Scripts

end ScriptSense.Grammar
