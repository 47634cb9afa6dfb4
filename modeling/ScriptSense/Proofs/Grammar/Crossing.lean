/-
The lines of a block are read to the word that closes it.

Lines that are nested well (`Nested`) are consumed by the loop over the statements of a block,
all of them and nothing behind them, whatever is malformed within the lines and however
deeply the blocks are nested (`Nested.runs`). The induction is over the nesting of the lines;
that the levels of the grammar and the turns of its loops run out is a fault, and a reading
does not fault.

Two things are shown along the way. Whatever is built is closed. And when the loop is done,
whatever was complained about was read (`State.Settled`): a line that ends leaves no complaint
about what comes next (`Closes`). Both are used for the statements of one line, for blocks, and
for blocks that are nested too deeply and passed over (`deepBlock_passes`).
-/
import ScriptSense.Proofs.Grammar.Exact

set_option autoImplicit false

namespace ScriptSense.Grammar

open ScriptSense.Tree (leavesOfAll)

variable {α : Type}

/-! ## Complaints about what was read -/

/-- Whatever is complained about was read or is the next word. -/
def State.Settling (s : State) : Prop := s.Placed ∧ ∀ c ∈ s.complaints.toList, SettledAt s c

/-- Whatever is complained about was read. -/
def State.Settled (s : State) : Prop :=
  s.Placed ∧ ∀ c ∈ s.complaints.toList, c.span.stop ≤ s.offset

section Complaints

variable {s t : State}

theorem State.Settled.settling (h : s.Settled) : s.Settling := ⟨h.1, fun c hc => .inl (h.2 c hc)⟩

theorem Settles.settling (h : Settles s t) (hs : s.Settling) : t.Settling := by
  obtain ⟨hplaced, hkept, new, hnew, hsettled⟩ := h hs.1
  refine ⟨hplaced, fun c hc => ?_⟩
  rw [hnew] at hc
  exact (List.mem_append.1 hc).elim (fun hc => hkept c (hs.2 c hc)) (hsettled c)

theorem Framed.settling {m : Step α} (hm : Framed m) (hs : s.Settling) : (m s).2.Settling :=
  (hm settles_frame s).settling hs

/-- Behind the end of a line, whatever is complained about was read. -/
theorem LineBody.settled {ahead : TokenKind → Prop} {m : Step Unit} (hm : LineBody ahead m)
    (hs : s.Settling) (hfault : (m s).2.fault = none) : (m s).2.Settled := by
  obtain ⟨u, hu, hend, hcomplaints, hoffset⟩ := hm.closes.run hs.1 trivial hfault
  have hsettling := hu.settling hs
  refine ⟨(hm.framed.settling hs).1, fun c hc => ?_⟩
  rw [hcomplaints] at hc
  exact ((hsettling.2 c hc).stop_le hsettling.1 hend).trans hoffset

theorem State.Settling.inside (hs : s.Settling) (kind : NodeKind) :
    ((s.opened kind).inside #[]).Settling := by
  have hopened : (s.opened kind).Settling := by
    unfold State.opened
    split
    · exact hs
    · exact (settles_frame.shiftTrivia s).settling hs
  exact ⟨Steady.congr hopened.1 ⟨rfl, rfl, rfl⟩, fun c hc => (hopened.2 c hc).congr rfl rfl⟩

/-- A node is settled if what is in it is. -/
theorem settled_node {kind : NodeKind} {body : Step α}
    (h : (body ((s.opened kind).inside #[])).2.Settled) : (node kind body s).2.Settled := by
  rw [run_node]
  exact ⟨Steady.congr h.1 ⟨rfl, rfl, rfl⟩, h.2⟩

end Complaints

/-! ## Crossing -/

/-- **From the first state to the second a part of a block is crossed**: what is built is
closed, and whatever is complained about was read. -/
structure Crosses (s t : State) : Prop where
  settled : s.Settled → t.Settled
  closed : KeepsClosed s t

namespace Crosses

variable {s t u : State}

theorem trans (hst : Crosses s t) (htu : Crosses t u) : Crosses s u :=
  ⟨htu.settled ∘ hst.settled, htu.closed ∘ hst.closed⟩

/-- Looks cross nothing. -/
theorem looked (s : State) : Crosses s s.looked :=
  ⟨fun h => ⟨Steady.congr h.1 ⟨rfl, rfl, rfl⟩, h.2⟩, id⟩

end Crosses

section Nodes

variable {kind : NodeKind} {body : Step Unit} {s : State}

/-- A node over closed elements with the word that closes it. -/
theorem keepsClosed_node
    (hcloser : ∀ word ∈ kind.closer?, ∃ t,
      .leaf t ∈ (body ((s.opened kind).inside #[])).2.out.toList ∧ t.kind = word)
    (hclosed : ∀ c ∈ (body ((s.opened kind).inside #[])).2.out.toList, c.Closed) :
    KeepsClosed s (node kind body s).2 := by
  intro hs c hc
  obtain ⟨moved, hout, -⟩ := Formal.toList_out_node kind body s
  rw [hout, List.mem_append, List.mem_append, List.mem_singleton] at hc
  rcases hc with hc | hc | rfl
  · exact hs c hc
  · exact Tree.Closed.of_tokens c hc
  · exact .node hcloser hclosed

theorem even_opened (kind : NodeKind) (s : State) : Even (s.opened kind).rest s.rest := by
  unfold State.opened
  split
  · rfl
  · rw [State.rest_shiftTrivia]
    exact .dropWhile s.rest

end Nodes

/-! ## Lines -/

/-- With other trivia in front of it, a line is still one. -/
theorem Even.plain {ts line more : List Token} (h : Even ts (line ++ more)) (hline : IsPlain line) :
    ∃ words ending, ts = words ++ ending :: more ∧ (∀ t ∈ words, inLine t.kind = true)
      ∧ ending.kind = .newline := by
  obtain ⟨words, ending, rfl, hwords, hending⟩ := hline
  obtain ⟨front, hfront, rfl⟩ := h.exists_split
  refine ⟨front ++ words.dropWhile (·.kind.isTrivia), ending, ?_, fun t ht => ?_, hending⟩
  -- The trivia at the front may be missing on one side, but not the line break at the end.
  · have hbreak : ¬ ending.kind.isTrivia = true := by
      rw [hending]
      decide
    rw [List.append_assoc, List.append_assoc, List.singleton_append, List.dropWhile_append]
    split
    · next hempty =>
      rw [List.isEmpty_iff.1 hempty, dropWhile_seen hbreak, List.nil_append]
    · rfl
  · rcases List.mem_append.1 ht with ht | ht
    · exact inLine_of_isTrivia (hfront t ht)
    · exact inLine_of_staysInLine (hwords t ((List.dropWhile_suffix _).subset ht))

/-- So is one that begins with a word of a block. -/
theorem Even.headed {ts row more : List Token} {word : TokenKind} (h : Even ts (row ++ more))
    (hrow : IsHeaded word row) (hseen : ¬ word.isTrivia = true) :
    ∃ row', IsHeaded word row' ∧ ts = row' ++ more := by
  obtain ⟨blank, t, line, rfl, hblank, rfl, hline⟩ := hrow
  obtain ⟨front, hfront, rfl⟩ := h.exists_split
  refine ⟨front ++ t :: line, ⟨front, t, line, rfl, hfront, rfl, hline⟩, ?_⟩
  rw [List.append_assoc, List.dropWhile_append_of_pos hblank, List.cons_append,
    dropWhile_seen hseen, List.append_assoc, List.cons_append]

/-- Over tokens that open no block, a step that only adds to what is built leaves none open. -/
theorem keepsClosed_of_plain {m : Step Unit} [Formal m] (hframed : Framed m) (hfresh : Fresh m)
    {s : State} {line : List Token} (hline : ∀ t ∈ line, opensBlock t.kind = false)
    (hrest : s.rest = line ++ (m s).2.rest) (hfault : (m s).2.fault = none) :
    KeepsClosed s (m s).2 := by
  -- What was built before is set apart, so that all that is new is built of the line.
  rw [hfresh.run_inside] at hrest hfault ⊢
  set t := s.inside #[]
  obtain ⟨moved, hmoved, hleaves⟩ := hframed advances_frame t
  -- The step has moved the tokens of the line and no others.
  have htokens : moved = line := List.append_cancel_right (hmoved.symm.trans hrest)
  intro hout c hc
  rw [State.behind, Array.toList_append] at hc
  refine (List.mem_append.1 hc).elim (hout c) fun hc => ?_
  refine .of_formed (Formal.formed t hfault (by simp [t, State.inside]) c hc) fun u hu => hline u ?_
  rw [← htokens]
  have hnew : leavesOfAll (m t).2.out.toList = moved := by simpa [t, State.inside] using hleaves
  rw [← hnew]
  exact Tree.mem_leavesOfAll.2 ⟨c, hc, hu⟩

instance Formal.lineStatement (R : Rules) [R.Formal] (kind : NodeKind) :
    Formal (lineStatement R kind) := by
  unfold Grammar.lineStatement
  split <;> infer_instance

/-- **A statement of one line is crossed.** -/
theorem lineStatement_crosses (f : String → Bool) (levels : Nat) {kind : NodeKind}
    (hkind : kind.isSimple = true) {s : State} {line more : List Token} (hparens : s.parens = 0)
    (hline : IsPlain line) (hrest : s.rest = line ++ more) (hword : WithinLine (kindAhead 0 s.rest))
    (hfault : (lineStatement (rules f levels) kind s).2.fault = none) :
    (lineStatement (rules f levels) kind s).2.rest = more
      ∧ Crosses s (lineStatement (rules f levels) kind s).2 := by
  obtain ⟨body, hrule, hbody, -⟩ :=
    lineStatement_node (r := Eq) (keepsLine_rules f levels) (rules_alike_self f levels) hkind
  have hformal := Formal.lineStatement (rules f levels) kind
  rw [hrule] at hformal hfault ⊢
  set inner := (s.opened kind).inside #[]
  have hcalm : inner.parens = 0 := (State.Later.opened kind s).parens.trans hparens
  have hahead : Even inner.rest (line ++ more) := hrest ▸ even_opened kind s
  -- The trivia in front of the node is outside of it, so the line is seen without.
  obtain ⟨words, ending, htokens, hwords, hending⟩ := hahead.plain hline
  have hinner : (body inner).2.fault = none := by rwa [run_node] at hfault
  obtain ⟨hmore, -⟩ := hbody.exact hcalm rfl htokens hwords hending
    (withinLine_opened kind hword) hinner
  have hbehind : (node kind body s).2.rest = more := by
    rw [run_node]
    exact hmore
  have hframed : Framed (node kind body) := fun _ hr => hr.node kind (hbody.framed hr)
  refine ⟨hbehind, fun hs => ?_, ?_⟩
  · exact settled_node (hbody.settled (hs.settling.inside kind) hinner)
  · exact keepsClosed_of_plain hframed (.node kind body) hline.opensBlock
      (by rw [hbehind, hrest]) hfault

/-! ## Turns of the loop over a block -/

/-- A turn of the loop over the statements of a block, as the loop takes it. -/
abbrev statementTurn (R : Rules) : Unit → Step (Option Unit) := fun _ => do
  if ← blockTurn R then return some () else return none

section Turns

variable {R : Rules} {s : State}

/-- The next token is eaten if it is of the kind, unless the reading is given up. -/
theorem run_eat_ahead {kind : TokenKind} (hfault : (eat kind s).2.fault = none) :
    eat kind s = if kindAhead 0 s.rest = kind then (true, s.consume) else (false, s.looked) := by
  rw [run_eat] at hfault ⊢
  rcases run_look_cases 0 s with ⟨-, -, hlook⟩ | hlost
  · rw [current, hlook, State.consume_looked]
  · have hlost : (current s).2.fault ≠ none := by
      rw [current, hlost]
      exact State.fault_giveUp_ne_none _ s
    split at hfault
    · exact absurd ((State.fault_consume _).symm.trans hfault) hlost
    · exact absurd hfault hlost

theorem run_breakOr {step : Step Unit} [Formal step] (hfault : (breakOr step s).2.fault = none) :
    breakOr step s = if kindAhead 0 s.rest = .newline then (true, s.consume)
      else (true, (step s.looked).2) := by
  let next (eaten : Bool) : Step Bool := do
    if eaten then return true
    step
    return true
  have hformal (eaten : Bool) : Formal (next eaten) := by
    dsimp only [next]
    infer_instance
  have hrun : breakOr step s = next (eat .newline s).1 (eat .newline s).2 := rfl
  rw [hrun] at hfault ⊢
  rw [run_eat_ahead ((hformal _).unbroken _ hfault)]
  split <;> rfl

variable [R.Formal]

theorem run_blockTurn (hfault : (blockTurn R s).2.fault = none)
    (hsome : kindAhead 0 s.rest ≠ .eof) :
    blockTurn R s = if closesBlock (kindAhead 0 s.rest) then (false, s.looked.looked)
      else breakOr R.statement s.looked.looked := by
  have hrun : blockTurn R s = _ := run_isAt_then hfault
  have hmore : blockTurn R s = (current >>= fun kind =>
      if closesBlock kind then pure false else breakOr R.statement : Step Bool) s.looked := by
    rw [hrun, show (kindAhead 0 s.rest == .eof) = false by simpa using hsome]
    rfl
  rw [hmore] at hfault ⊢
  rw [run_current_then hfault, run_ite]
  rfl

omit [R.Formal] in
theorem run_statementTurn (s : State) :
    statementTurn R () s = (if (blockTurn R s).1 then some () else none, (blockTurn R s).2) := by
  unfold statementTurn
  rw [run_bind]
  cases (blockTurn R s).1 <;> rfl

omit [R.Formal] in
theorem run_statementTurns (k : Nat) (s : State) : iterate (statementTurn R) (k + 1) () s
    = if (blockTurn R s).1 then iterate (statementTurn R) k () (blockTurn R s).2
      else ((), (blockTurn R s).2) := by
  rw [run_iterate_succ, run_statementTurn]
  cases (blockTurn R s).1 <;> rfl

/-- A turn that ends without a fault, as the first of a loop that does. -/
theorem fault_blockTurn {k : Nat}
    (hfault : (iterate (statementTurn R) (k + 1) () s).2.fault = none) :
    (blockTurn R s).2.fault = none := by
  rw [run_statementTurns] at hfault
  split at hfault
  · exact Formal.unbroken (m := iterate (statementTurn R) k ()) _ hfault
  · exact hfault

/-- In front of a word that closes the block, the loop ends. -/
theorem turns_closed {k : Nat} (hfault : (iterate (statementTurn R) k () s).2.fault = none)
    (hcloses : closesBlock (kindAhead 0 s.rest) = true) :
    (iterate (statementTurn R) k () s).2 = s.looked.looked := by
  cases k with
  | zero => exact absurd hfault (State.fault_giveUp_ne_none _ s)
  | succ k =>
    have hsome : kindAhead 0 s.rest ≠ .eof := fun hend => by rw [hend] at hcloses; cases hcloses
    rw [run_statementTurns, run_blockTurn (fault_blockTurn hfault) hsome, if_pos hcloses]
    rfl

/-- In front of a line break, the loop goes on behind it. -/
theorem turns_break {k : Nat} (hfault : (iterate (statementTurn R) k () s).2.fault = none)
    (hbreak : kindAhead 0 s.rest = .newline) :
    ∃ j, iterate (statementTurn R) k () s = iterate (statementTurn R) j () s.consume := by
  cases k with
  | zero => exact absurd hfault (State.fault_giveUp_ne_none _ s)
  | succ k =>
    have hturn := fault_blockTurn hfault
    have hrun := run_blockTurn hturn (by rw [hbreak]; decide)
    rw [hbreak, if_neg (by decide)] at hrun
    rw [hrun] at hturn
    rw [run_breakOr hturn, if_pos (show kindAhead 0 s.looked.looked.rest = .newline from hbreak),
      State.consume_looked, State.consume_looked] at hrun
    exact ⟨k, by rw [run_statementTurns, hrun]; rfl⟩

/-- In front of another word, a statement is read. -/
theorem turns_statement {k : Nat} (hfault : (iterate (statementTurn R) k () s).2.fault = none)
    (hword : WithinLine (kindAhead 0 s.rest)) (hopen : closesBlock (kindAhead 0 s.rest) = false) :
    (R.statement s.looked.looked.looked).2.fault = none
      ∧ ∃ j, iterate (statementTurn R) k () s
        = iterate (statementTurn R) j () (R.statement s.looked.looked.looked).2 := by
  cases k with
  | zero => exact absurd hfault (State.fault_giveUp_ne_none _ s)
  | succ k =>
    have hturn := fault_blockTurn hfault
    have hrun := run_blockTurn hturn hword.2
    -- No word that closes a block is next, and no line break, so the turn reads a statement.
    rw [if_neg (by simp [hopen])] at hrun
    rw [hrun] at hturn
    have hbreak := run_breakOr hturn
    rw [if_neg (show ¬ kindAhead 0 s.looked.looked.rest = .newline from hword.1)] at hbreak
    rw [hbreak] at hrun hturn
    exact ⟨hturn, k, by rw [run_statementTurns, hrun]; rfl⟩

end Turns

/-! ## What is read of a block -/

section Runs

variable (f : String → Bool)

/-- **The loop over the statements of a block reads the tokens** and nothing behind them, where
a word comes that closes the block. -/
def BodyRuns (ts : List Token) : Prop :=
  ∀ (levels k : Nat) (s : State) (more : List Token), s.parens = 0 → s.rest = ts ++ more →
    closesBlock (kindAhead 0 more) = true →
    (iterate (statementTurn (rules f levels)) k () s).2.fault = none →
    (iterate (statementTurn (rules f levels)) k () s).2.rest = more
      ∧ Crosses s (iterate (statementTurn (rules f levels)) k () s).2

/-- The rule for statements reads the tokens. -/
def StatementRuns (ts : List Token) : Prop :=
  ∀ (levels : Nat) (s : State) (more : List Token), s.parens = 0 → s.rest = ts ++ more →
    ((rules f levels).statement s).2.fault = none →
    ((rules f levels).statement s).2.rest = more ∧ Crosses s ((rules f levels).statement s).2

/-- The rule for the branches of an `if` reads the tokens, in front of the word that closes it. -/
def BranchesRun (ts : List Token) : Prop :=
  ∀ (levels : Nat) (s : State) (more : List Token), s.parens = 0 → Even s.rest (ts ++ more) →
    kindAhead 0 more = .kwEndIf → ((rules f levels).branches s).2.fault = none →
    Even ((rules f levels).branches s).2.rest more
      ∧ KeepsClosed s ((rules f levels).branches s).2

variable {f} {ts body : List Token}

theorem BodyRuns.nil : BodyRuns f [] := fun _ _ s more _ hrest hcloses hfault => by
  rw [List.nil_append] at hrest
  rw [turns_closed hfault (by rwa [hrest])]
  exact ⟨hrest, (Crosses.looked s).trans (.looked _)⟩

/-- A statement and the lines behind it. -/
theorem BodyRuns.statement (hstatement : StatementRuns f ts)
    (hfirst : ∀ more, WithinLine (kindAhead 0 (ts ++ more))
      ∧ closesBlock (kindAhead 0 (ts ++ more)) = false)
    (hbody : BodyRuns f body) : BodyRuns f (ts ++ body) := by
  intro levels k s more hparens hrest hcloses hfault
  rw [List.append_assoc] at hrest
  obtain ⟨hword, hopen⟩ := hfirst (body ++ more)
  rw [← hrest] at hword hopen
  obtain ⟨hread, j, hrun⟩ := turns_statement hfault hword hopen
  obtain ⟨hbehind, hcrosses⟩ := hstatement levels s.looked.looked.looked _ hparens hrest hread
  have hcalm : ((rules f levels).statement s.looked.looked.looked).2.parens = 0 :=
    ((rules_alike_self f levels).statement.frame (count_frame .parens) _).trans hparens
  rw [hrun] at hfault ⊢
  obtain ⟨hend, hmore⟩ := hbody levels j _ more hcalm hbehind hcloses hfault
  -- The three looks of the turn are crossed first, then the statement, then the rest of the
  -- body.
  have hlooked : Crosses s s.looked.looked.looked :=
    ((Crosses.looked s).trans (.looked _)).trans (.looked _)
  exact ⟨hend, (hlooked.trans hcrosses).trans hmore⟩

theorem crosses_consume (s : State) : Crosses s s.consume where
  settled h := by
    have hcomplaints : s.consume.complaints = s.complaints :=
      State.consume_eq State.complaints_shift (fun _ _ => rfl) s
    refine ⟨Steady.consume h.1, fun c hc => ?_⟩
    rw [hcomplaints] at hc
    exact (h.2 c hc).trans h.1.offset_le_consume
  closed hs c hc := by
    obtain ⟨before, next, after, hout, -⟩ := s.toList_out_consume
    rw [hout] at hc
    exact (List.mem_append.1 hc).elim (hs c) (Tree.Closed.of_tokens c)

/-- An empty line and the lines behind it. -/
theorem BodyRuns.blank {ending : Token} (hending : ending.kind = .newline)
    (hline : ∀ more, Even (ts ++ more) (ending :: more)) (hbody : BodyRuns f body) :
    BodyRuns f (ts ++ body) := by
  intro levels k s more hparens hrest hcloses hfault
  have hahead : Even s.rest (ending :: (body ++ more)) := by
    rw [hrest, List.append_assoc]
    exact hline _
  have hseen : ¬ ending.kind.isTrivia = true := by
    rw [hending]
    nofun
  obtain ⟨j, hrun⟩ := turns_break hfault (by
    rw [hahead.kindAhead_eq, kindAhead, if_neg hseen]
    exact hending)
  rw [hrun] at hfault ⊢
  obtain ⟨hend, hmore⟩ := hbody levels j _ more ((State.count_consume .parens s).trans hparens)
    (State.rest_consume hparens hahead hseen) hcloses hfault
  exact ⟨hend, (crosses_consume s).trans hmore⟩

end Runs

/-! ## The rules for statements -/

section Statements

variable {f : String → Bool} {ts inner : List Token}

/-- The rule that a statement is read by, by its first word. -/
theorem statement_rules (R : Rules) [R.Formal] : ∃ rule : TokenKind → Step Unit,
    statement R = current >>= rule ∧ (∀ kind, Formal (rule kind))
      ∧ rule .kwIf = ifStatement R ∧ rule .kwWhile = whileStatement R
      ∧ rule .kwForeach = foreachStatement R ∧ rule .kwBegin = beginOrNested R
      ∧ ∀ kind, staysInLine kind = true → ∃ k : NodeKind, k.isSimple = true
        ∧ rule kind = lineStatement R k := by
  refine ⟨_, rfl, fun kind => ?_, rfl, rfl, rfl, rfl, fun kind hkind => ?_⟩
  · split <;> infer_instance
  · cases kind
    case kwShort | kwInt | kwLong | kwFloat | kwRef | kwStringVar | kwArrayVar =>
      exact ⟨.varDeclStmt, rfl, rfl⟩
    case kwSet => exact ⟨.setStmt, rfl, rfl⟩
    case kwLet => exact ⟨.letStmt, rfl, rfl⟩
    case kwReturn => exact ⟨.returnStmt, rfl, rfl⟩
    case kwBreak => exact ⟨.breakStmt, rfl, rfl⟩
    case kwContinue => exact ⟨.continueStmt, rfl, rfl⟩
    -- These begin no simple statement, so nothing is asked of them.
    case newline | eof | lParen | kwBegin | kwIf | kwWhile | kwForeach | kwEnd | kwEndIf | kwElseIf
        | kwElse | kwLoop => cases hkind
    all_goals exact ⟨.exprStmt, rfl, rfl⟩

/-- What the rule for its first word reads, the rule for statements reads. -/
theorem StatementRuns.of_rule {kind : TokenKind} (hahead : ∀ more, kindAhead 0 (ts ++ more) = kind)
    (h : ∀ levels, ∃ rule : TokenKind → Step Unit, statement (rules f levels) = current >>= rule
      ∧ (∀ kind, Formal (rule kind)) ∧ ∀ (s : State) (more : List Token), s.parens = 0 →
        s.rest = ts ++ more → (rule kind s).2.fault = none →
        (rule kind s).2.rest = more ∧ Crosses s (rule kind s).2) :
    StatementRuns f ts := by
  intro levels s more hparens hrest hfault
  cases levels with
  -- Without any level the parser gives up.
  | zero => exact absurd hfault (State.fault_giveUp_ne_none _ s)
  | succ n =>
    obtain ⟨rule, hrule, hformal, hruns⟩ := h n
    have hrun : (rules f (n + 1)).statement s = (current >>= rule) s := congrFun hrule s
    rw [hrun] at hfault ⊢
    have hsight := run_current_then hfault
    rw [hrest, hahead] at hsight
    rw [hsight] at hfault ⊢
    obtain ⟨hmore, hcrosses⟩ := hruns s.looked more hparens hrest hfault
    exact ⟨hmore, (Crosses.looked s).trans hcrosses⟩

/-- In a line that is no line of a block, the first word decides what follows. -/
theorem IsPlain.first {line : List Token} (h : IsPlain line) :
    (∃ ending : Token, ending.kind = .newline ∧ ∀ more, Even (line ++ more) (ending :: more))
      ∨ ∃ kind, staysInLine kind = true ∧ ∀ more, kindAhead 0 (line ++ more) = kind := by
  obtain ⟨words, ending, rfl, hwords, hending⟩ := h
  -- Past the trivia at the front: the line is blank, or its first word says which statement it
  -- is.
  induction words with
  | nil => exact .inl ⟨ending, hending, fun _ => rfl⟩
  | cons t words ih =>
    by_cases ht : t.kind.isTrivia = true
    · refine (ih fun u hu => hwords u (List.mem_cons_of_mem _ hu)).imp ?_ ?_
      · rintro ⟨u, hu, heven⟩
        exact ⟨u, hu, fun more => (heven more).cons ht⟩
      · rintro ⟨kind, hkind, hahead⟩
        refine ⟨kind, hkind, fun more => ?_⟩
        rw [List.cons_append, List.cons_append, kindAhead, if_pos ht]
        exact hahead more
    · refine .inr ⟨t.kind, hwords t List.mem_cons_self, fun more => ?_⟩
      rw [List.cons_append, List.cons_append, kindAhead, if_neg ht]

/-- **A line that is no line of a block**, with the lines behind it. -/
theorem BodyRuns.line {line body : List Token} (hline : IsPlain line) (hbody : BodyRuns f body) :
    BodyRuns f (line ++ body) := by
  rcases hline.first with ⟨ending, hending, heven⟩ | ⟨kind, hkind, hahead⟩
  · exact .blank hending heven hbody
  · have hword : WithinLine kind := by constructor <;> (rintro rfl; cases hkind)
    -- A word that stays in line neither breaks it nor closes a block.
    have hopen : closesBlock kind = false := by cases kind <;> first | rfl | cases hkind
    refine .statement (.of_rule hahead fun n => ?_) (fun more => ?_) hbody
    · obtain ⟨rule, hrule, hformal, -, -, -, -, hsimple⟩ := statement_rules (rules f n)
      obtain ⟨k, hk, heq⟩ := hsimple kind hkind
      refine ⟨rule, hrule, hformal, fun s more hparens hrest hfault => ?_⟩
      rw [heq] at hfault ⊢
      have hnext : WithinLine (kindAhead 0 s.rest) := by rwa [hrest, hahead]
      exact lineStatement_crosses f n hk hparens hline hrest hnext hfault
    · rw [hahead]
      exact ⟨hword, hopen⟩

/-! ## Blocks -/

/-- What stands in a block: its statements, unless it is nested too deeply. -/
def blockBody (R : Rules) : Step Unit := do
  if ← isTooDeep then deepBlock R
  else within .nesting (R.loop (blockTurn R))

theorem run_blockBody (R : Rules) (s : State) : blockBody R s
    = if nestingLimit ≤ s.nesting then deepBlock R s
      else within .nesting (R.loop (blockTurn R)) s := by
  have hrun : blockBody R s = (if decide (nestingLimit ≤ s.nesting) then deepBlock R
      else within .nesting (R.loop (blockTurn R)) : Step Unit) s := rfl
  rw [hrun, run_ite]
  simp

/-- Where the block is not nested too deeply, the loop over its statements is run in it. -/
theorem run_block {levels : Nat} {s : State} (hdepth : s.nesting < nestingLimit)
    (hfault : ((rules f levels).block s).2.fault = none) : ∃ n k,
      (iterate (statementTurn (rules f n)) k () ((s.inside #[]).raise .nesting)).2.fault = none
        ∧ ((rules f levels).block s).2
          = ((iterate (statementTurn (rules f n)) k () ((s.inside #[]).raise .nesting)).2.lower
              .nesting).close .stmtList s.offset s.out := by
  cases levels with
  | zero => exact absurd hfault (State.fault_giveUp_ne_none _ s)
  | succ n =>
    set R := rules f n
    have hrun : ((rules f (n + 1)).block s).2
        = (blockBody R (s.inside #[])).2.close .stmtList s.offset s.out := by
      rw [show (rules f (n + 1)).block s = node .stmtList (blockBody R) s from rfl, run_node]
      rfl
    -- Above the limit of nesting a block is read turn by turn.
    have hshallow : ¬ nestingLimit ≤ (s.inside #[]).nesting := Nat.not_le.2 hdepth
    rw [hrun, run_blockBody, if_neg hshallow, run_within] at hfault ⊢
    exact ⟨n, R.turns, State.fault_lower hfault, rfl⟩

/-- **A block is read to the word that closes it**, or passed over. -/
theorem BodyRuns.block (hruns : BodyRuns f ts) (hts : Nested .body ts) {levels : Nat} {s : State}
    {more : List Token} (hparens : s.parens = 0) (hrest : s.rest = ts ++ more)
    (hcloses : closesBlock (kindAhead 0 more) = true)
    (hfault : ((rules f levels).block s).2.fault = none) :
    Even ((rules f levels).block s).2.rest more ∧ KeepsClosed s ((rules f levels).block s).2 := by
  by_cases hdepth : s.nesting < nestingLimit
  · obtain ⟨n, k, hread, hrun⟩ := run_block hdepth hfault
    obtain ⟨hmore, hcrosses⟩ := hruns n k ((s.inside #[]).raise .nesting) more hparens hrest
      hcloses hread
    rw [hrun]
    refine ⟨congrArg _ ((State.rest_lower ..).trans hmore), fun hs c hc => ?_⟩
    rw [State.close, Array.toList_push, List.mem_append, List.mem_singleton, State.out_lower] at hc
    rcases hc with hc | rfl
    · exact hs c hc
    · exact .of_children rfl (hcrosses.closed (by simp [State.inside, State.raise]))
  -- At the limit the block is passed over, which needs the blocks inside of it to be closed.
  · cases levels with
    | zero => exact absurd hfault (State.fault_giveUp_ne_none _ s)
    | succ n =>
      have hblock : (rules f (n + 1)).block s = node .stmtList (blockBody (rules f n)) s := rfl
      set inner := (s.opened .stmtList).inside #[]
      have hrun : blockBody (rules f n) inner = deepBlock (rules f n) inner := by
        have hlimit : nestingLimit ≤ inner.nesting := Nat.le_of_not_lt hdepth
        rw [run_blockBody, if_pos hlimit]
      have hdeep : (deepBlock (rules f n) inner).2.fault = none := by
        rw [hblock, run_node] at hfault
        exact hrun ▸ hfault
      obtain ⟨heven, blank, moved, span, hout⟩ :=
        deepBlock_passes (s := inner) hts hparens hrest hcloses hdeep
      rw [hblock]
      refine ⟨?_, keepsClosed_node nofun fun c hc => ?_⟩
      · rw [run_node, hrun]
        exact heven
      · have hempty : inner.out.toList = [] := rfl
        rw [hrun, hout, hempty, List.nil_append, List.mem_append, List.mem_singleton] at hc
        rcases hc with hc | rfl
        · exact Tree.Closed.of_tokens c hc
        · exact .of_children rfl Tree.Closed.of_tokens

/-- **The first line of a block and the block.** -/
theorem BodyRuns.headed (hruns : BodyRuns f ts) (hts : Nested .body ts) {word : TokenKind}
    (hword : inLine word = true) (hseen : ¬ word.isTrivia = true) {m : Step Unit} [Formal m]
    (hm : LineBody (fun _ => True) m) {levels : Nat} {s : State} {row more : List Token}
    (hparens : s.parens = 0) (hout : s.out = #[]) (hrow : IsHeaded word row)
    (hrest : Even s.rest (row ++ (ts ++ more))) (hcloses : closesBlock (kindAhead 0 more) = true)
    (hfault : ((do bump word; m; (rules f levels).block) s).2.fault = none) :
    Even ((do bump word; m; (rules f levels).block) s).2.rest more
      ∧ ∀ c ∈ ((do bump word; m; (rules f levels).block) s).2.out.toList, c.Closed := by
  set header : Step Unit := do
    bump word
    m
  have hrun : ((do bump word; m; (rules f levels).block) s)
      = (rules f levels).block (header s).2 := rfl
  rw [hrun] at hfault ⊢
  obtain ⟨row', hrow', htokens⟩ := hrest.headed hrow hseen
  -- A fault in the header would still be there behind the block.
  have hheader : (header s).2.fault = none := Formal.unbroken (m := (rules f levels).block) _ hfault
  obtain ⟨hmore, -, hclosed⟩ := hm.headed hword hseen hparens hout hrow' htokens hheader
  have hframed : Framed header :=
    (bump_alike (by rintro rfl; cases hword)).framed.bind fun _ => hm.framed
  have hcalm : (header s).2.parens = 0 := (hframed (count_frame .parens) s).trans hparens
  obtain ⟨heven, hkeeps⟩ := hruns.block hts hcalm hmore hcloses hfault
  exact ⟨heven, hkeeps hclosed⟩

/-- **A statement with the word that closes it**, behind what stands in front of that. -/
theorem closing_runs {front : Step Unit} (hfront : Framed front) {kind : NodeKind}
    {closer : TokenKind} (hkind : kind.closer? = some closer) (hcloser : inLine closer = true)
    (hseen : ¬ closer.isTrivia = true) {R : Rules} {wanted : Wanted} {s : State}
    {row more : List Token} (hparens : s.parens = 0) (hrow : IsHeaded closer row)
    (hread : (front ((s.opened kind).inside #[])).2.fault = none →
      Even (front ((s.opened kind).inside #[])).2.rest (row ++ more)
        ∧ ∀ c ∈ (front ((s.opened kind).inside #[])).2.out.toList, c.Closed)
    (hfault : (node kind (do front; closing R closer wanted) s).2.fault = none) :
    (node kind (do front; closing R closer wanted) s).2.rest = more
      ∧ Crosses s (node kind (do front; closing R closer wanted) s).2 := by
  set inner := (s.opened kind).inside #[]
  set t := (front inner).2
  have hclosing : (closing R closer wanted t).2.fault = none := by rwa [run_node] at hfault
  obtain ⟨heven, hclosed⟩ := hread (Formal.unbroken (m := closing R closer wanted) _ hclosing)
  have hcalm : t.parens = 0 :=
    (hfront (count_frame .parens) inner).trans ((State.Later.opened kind s).parens.trans hparens)
  obtain ⟨row', hrow', htokens⟩ := heven.headed hrow hseen
  obtain ⟨hmore, hthere, hkeeps⟩ := closing_exact hcloser hseen hcalm hrow' htokens hclosing
  refine ⟨by rw [run_node]; exact hmore, fun hs => settled_node ?_, keepsClosed_node ?_ ?_⟩
  · have hahead : kindAhead 0 t.rest = closer := by rw [htokens, hrow'.kindAhead hseen]
    have hline : LineBody (fun _ => True) (bump closer >>= fun _ => lineEnd R) :=
      .after (bump_alike (by rintro rfl; cases hcloser)).framed
        (.bump (by rintro rfl; cases hcloser) (by rintro rfl; cases hcloser)) fun _ => .lineEnd R
    change (closing R closer wanted t).2.Settled
    -- The closing word is there, so it is taken and no complaint is made in its place.
    have heq := closing_eq hahead hclosing
    rw [heq] at hclosing ⊢
    exact hline.settled (hfront.settling (hs.settling.inside kind)) hclosing
  · rintro word hword
    rw [hkind, Option.mem_some_iff] at hword
    exact hword ▸ hthere
  · exact hkeeps hclosed

/-! ## Statements with blocks -/

/-- The rules for what stands in the first line of a block. -/
theorem condition_lineBody (f : String → Bool) (levels : Nat) {ahead : TokenKind → Prop} :
    LineBody ahead (do (rules f levels).expression 0; lineEnd (rules f levels)) :=
  .after ((rules_alike_self f levels).expression 0).framed
    ((keepsLine_rules f levels).expression 0).anywhere fun _ => .lineEnd _

theorem collection_lineBody (f : String → Bool) (levels : Nat) {ahead : TokenKind → Prop} :
    LineBody ahead (do
      variableOrDecl (· == .lArrow)
      if ← expect .lArrow .arrow then (rules f levels).expression 0
      lineEnd (rules f levels)) := by
  refine .after (variableOrDecl_alike _).framed (variableOrDecl_keepsLine _) fun _ => ?_
  refine .after (expect_alike (by decide) _).framed (.expect (by decide) (by decide) _) fun _ => ?_
  exact .ite (condition_lineBody f levels) (.lineEnd _)

variable {header closer : List Token}

theorem framed_headed {word : TokenKind} (hword : inLine word = true) {m : Step Unit}
    (hm : LineBody (fun _ => True) m) (levels : Nat) :
    Framed (do bump word; m; (rules f levels).block) :=
  (bump_alike (by rintro rfl; cases hword)).framed.bind fun _ => hm.framed.bind fun _ =>
    (rules_alike_self f levels).block.framed

/-- A loop, whatever stands in its first line. -/
theorem BodyRuns.loop (hruns : BodyRuns f inner) (hinner : Nested .body inner) {kind : NodeKind}
    (hkind : kind.closer? = some .kwLoop) {word : TokenKind} (hword : inLine word = true)
    (hseen : ¬ word.isTrivia = true) (hheader : IsHeaded word header)
    (hcloser : IsHeaded .kwLoop closer) {m : Step Unit} [Formal m]
    (hm : LineBody (fun _ => True) m) {levels : Nat} {s : State} {more : List Token}
    (hparens : s.parens = 0) (hrest : s.rest = header ++ (inner ++ closer) ++ more) {rule : Step Unit}
    (hrule : rule = node kind do
      (do bump word; m; (rules f levels).block)
      closing (rules f levels) .kwLoop .kwLoop)
    (hfault : (rule s).2.fault = none) : (rule s).2.rest = more ∧ Crosses s (rule s).2 := by
  rw [hrule] at hfault ⊢
  refine closing_runs (framed_headed hword hm levels) hkind rfl nofun hparens hcloser
    (fun hread => ?_) hfault
  refine hruns.headed hinner hword hseen hm ((State.Later.opened kind s).parens.trans hparens) rfl
    hheader ?_ ?_ hread
  · have htokens : header ++ (inner ++ (closer ++ more)) = s.rest := by simp [hrest]
    rw [htokens]
    exact even_opened kind s
  · rw [hcloser.kindAhead nofun]
    rfl

/-- A `while` or a `foreach` statement. -/
theorem loop_runs {word : TokenKind} (hword : word = .kwWhile ∨ word = .kwForeach)
    (hheader : IsHeaded word header) (hinner : Nested .body inner) (hruns : BodyRuns f inner)
    (hcloser : IsHeaded .kwLoop closer) : StatementRuns f (header ++ (inner ++ closer)) := by
  have hseen : ¬ word.isTrivia = true := by rcases hword with rfl | rfl <;> nofun
  refine .of_rule (fun more => by rw [List.append_assoc, hheader.kindAhead hseen]) fun n => ?_
  obtain ⟨rule, hrule, hformal, -, hwhile, hforeach, -⟩ := statement_rules (rules f n)
  refine ⟨rule, hrule, hformal, fun s more hparens hrest hfault => ?_⟩
  rcases hword with rfl | rfl
  · rw [hwhile] at hfault ⊢
    exact hruns.loop hinner rfl rfl hseen hheader hcloser (condition_lineBody f n) hparens hrest rfl
      hfault
  · rw [hforeach] at hfault ⊢
    -- The arrow decides whether a collection is read. Both ways are put in front of the same
    -- rest.
    let front : Step Unit := do
      bump .kwForeach
      (do
        variableOrDecl (· == .lArrow)
        if ← expect .lArrow .arrow then (rules f n).expression 0
        lineEnd (rules f n))
      (rules f n).block
    have hparts : foreachStatement (rules f n)
        = node .foreachStmt (front >>= fun _ => closing (rules f n) .kwLoop .kwLoop) := by
      refine congrArg (node .foreachStmt) ?_
      simp only [front, bind_assoc]
      refine bind_congr fun _ => bind_congr fun _ => bind_congr fun there => ?_
      cases there <;> simp
    exact hruns.loop hinner (by rfl) rfl hseen hheader hcloser (collection_lineBody f n) hparens
      hrest hparts hfault

/-- What comes behind the first block of an `if` closes that block. -/
theorem Nested.closesBlock {branches : List Token} (h : Nested .branches branches)
    {more : List Token} (hmore : kindAhead 0 more = .kwEndIf) :
    closesBlock (kindAhead 0 (branches ++ more)) = true := by
  cases h with
  | unbranched => rw [List.nil_append, hmore]; rfl
  | otherwise hheader _ => rw [List.append_assoc, hheader.kindAhead nofun]; rfl
  | elseIf hheader _ _ => rw [List.append_assoc, hheader.kindAhead nofun]; rfl

/-- An `if` statement. -/
theorem choice_runs {branches : List Token} (hheader : IsHeaded .kwIf header)
    (hinner : Nested .body inner) (hruns : BodyRuns f inner) (hbranches : Nested .branches branches)
    (hbranch : BranchesRun f branches) (hcloser : IsHeaded .kwEndIf closer) :
    StatementRuns f (header ++ (inner ++ (branches ++ closer))) := by
  refine .of_rule (fun more => by rw [List.append_assoc, hheader.kindAhead nofun]) fun n => ?_
  obtain ⟨rule, hrule, hformal, hif, -, -, -⟩ := statement_rules (rules f n)
  refine ⟨rule, hrule, hformal, fun s more hparens hrest hfault => ?_⟩
  set R := rules f n
  -- The statement falls into the part up to the first block, the branches, and the closing
  -- word.
  set first : Step Unit := do
    bump .kwIf
    (do R.expression 0; lineEnd R)
    R.block
  have hblock : ifStatement R = node .ifStmt
      ((first >>= fun _ => R.branches) >>= fun _ => closing R .kwEndIf .kwEndIf) := rfl
  rw [hif, hblock] at hfault ⊢
  have hfirst : Framed first := framed_headed rfl (condition_lineBody f n) n
  -- Behind the branches stands the closing word, so the last of them ends there.
  have hend : kindAhead 0 (closer ++ more) = .kwEndIf := hcloser.kindAhead nofun more
  refine closing_runs (hfirst.bind fun _ => (rules_alike_self f n).branches.framed) rfl rfl (by decide)
    hparens hcloser (fun hread => ?_) hfault
  set t := (s.opened .ifStmt).inside #[]
  have hcalm : t.parens = 0 := (State.Later.opened .ifStmt s).parens.trans hparens
  have heven : Even t.rest (header ++ (inner ++ (branches ++ (closer ++ more)))) := by
    have htokens : header ++ (inner ++ (branches ++ (closer ++ more))) = s.rest := by simp [hrest]
    rw [htokens]
    exact even_opened .ifStmt s
  obtain ⟨hmiddle, hclosed⟩ := hruns.headed hinner rfl (by decide) (condition_lineBody f n) hcalm rfl
    hheader heven (hbranches.closesBlock hend) (Formal.unbroken (m := R.branches) _ hread)
  have hbehind : (first t).2.parens = 0 := (hfirst (count_frame .parens) t).trans hcalm
  obtain ⟨hlast, hkeeps⟩ := hbranch n (first t).2 _ hbehind hmiddle hend hread
  exact ⟨hlast, hkeeps hclosed⟩

/-! ### Branches -/

/-- The rule for a branch is taken by its first word. -/
theorem run_branches {R : Rules} [R.Formal] {s : State} (hfault : (branches R s).2.fault = none) :
    branches R s
      = if kindAhead 0 s.rest = .kwElseIf then
          node .elseIfBranch (do bump .kwElseIf; R.expression 0; lineEnd R; R.block; R.branches)
            s.looked
        else if kindAhead 0 s.rest = .kwElse then
          node .elseBranch (do bump .kwElse; lineEnd R; R.block) s.looked.looked
        else ((), s.looked.looked) := by
  have hfirst : branches R s = _ := run_isAt_then hfault
  -- The second look is taken only where the first has found nothing.
  by_cases helseIf : kindAhead 0 s.rest = .kwElseIf
  · rw [hfirst, if_pos helseIf, helseIf]
    rfl
  · have hsecond : branches R s = (isAt .kwElse >>= fun there => if there then
        node .elseBranch (do bump .kwElse; lineEnd R; R.block) else pure () : Step Unit)
          s.looked := by
      rw [hfirst, show (kindAhead 0 s.rest == .kwElseIf) = false by simpa using helseIf]
      rfl
    rw [hsecond] at hfault ⊢
    rw [run_isAt_then hfault, if_neg helseIf, run_ite]
    exact if_congr beq_iff_eq rfl rfl

variable {branches : List Token}

theorem BranchesRun.nil : BranchesRun f [] := by
  intro levels s more hparens hrest hend hfault
  cases levels with
  | zero => exact absurd hfault (State.fault_giveUp_ne_none _ s)
  | succ n =>
    have hahead : kindAhead 0 s.rest = .kwEndIf := by rw [hrest.kindAhead_eq]; exact hend
    have hrun : (rules f (n + 1)).branches s = _ := run_branches hfault
    rw [hahead, if_neg (by decide), if_neg (by decide)] at hrun
    rw [hrun]
    exact ⟨hrest, id⟩

/-- The last branch. -/
theorem BranchesRun.otherwise (hheader : IsHeaded .kwElse header) (hinner : Nested .body inner)
    (hruns : BodyRuns f inner) : BranchesRun f (header ++ inner) := by
  intro levels s more hparens hrest hend hfault
  cases levels with
  | zero => exact absurd hfault (State.fault_giveUp_ne_none _ s)
  | succ n =>
    rw [List.append_assoc] at hrest
    have hahead : kindAhead 0 s.rest = .kwElse := by
      rw [hrest.kindAhead_eq, hheader.kindAhead nofun]
    have hrun : (rules f (n + 1)).branches s = _ := run_branches hfault
    rw [hahead, if_neg (by decide), if_pos rfl] at hrun
    rw [hrun] at hfault ⊢
    rw [run_node] at hfault
    set t := (s.looked.looked.opened .elseBranch).inside #[]
    have hcalm : t.parens = 0 :=
      (State.Later.opened .elseBranch s.looked.looked).parens.trans hparens
    obtain ⟨heven, hclosed⟩ := hruns.headed hinner rfl (by decide) (.lineEnd (rules f n)) hcalm rfl
      hheader ((even_opened .elseBranch s.looked.looked).trans hrest) (by rw [hend]; decide) hfault
    refine ⟨?_, fun hs => keepsClosed_node (s := s.looked.looked) (by simp [NodeKind.closer?])
      hclosed hs⟩
    rw [run_node]
    exact heven

/-- A branch with others behind it. -/
theorem BranchesRun.elseIf (hheader : IsHeaded .kwElseIf header) (hinner : Nested .body inner)
    (hruns : BodyRuns f inner) (hnested : Nested .branches branches)
    (hbranches : BranchesRun f branches) : BranchesRun f (header ++ (inner ++ branches)) := by
  intro levels s more hparens hrest hend hfault
  cases levels with
  | zero => exact absurd hfault (State.fault_giveUp_ne_none _ s)
  | succ n =>
    rw [List.append_assoc, List.append_assoc] at hrest
    have hahead : kindAhead 0 s.rest = .kwElseIf := by
      rw [hrest.kindAhead_eq, hheader.kindAhead nofun]
    have hrun : (rules f (n + 1)).branches s = _ := run_branches hfault
    rw [hahead, if_pos rfl] at hrun
    rw [hrun] at hfault ⊢
    rw [run_node] at hfault
    set t := (s.looked.opened .elseIfBranch).inside #[]
    set first : Step Unit := do
      bump .kwElseIf
      (do (rules f n).expression 0; lineEnd (rules f n))
      (rules f n).block
    have hcalm : t.parens = 0 :=
      (State.Later.opened .elseIfBranch s.looked).parens.trans hparens
    have hread : ((rules f n).branches (first t).2).2.fault = none := hfault
    obtain ⟨hmiddle, hclosed⟩ := hruns.headed hinner rfl (by decide) (condition_lineBody f n) hcalm
      rfl hheader ((even_opened .elseIfBranch s.looked).trans hrest) (hnested.closesBlock hend)
      (Formal.unbroken (m := (rules f n).branches) _ hread)
    have hfirst : Framed first := framed_headed rfl (condition_lineBody f n) n
    have hbehind : (first t).2.parens = 0 := (hfirst (count_frame .parens) t).trans hcalm
    obtain ⟨hlast, hkeeps⟩ := hbranches n (first t).2 more hbehind hmiddle hend hread
    refine ⟨?_, fun hs => keepsClosed_node (s := s.looked) (by simp [NodeKind.closer?])
      (hkeeps hclosed) hs⟩
    rw [run_node]
    exact hlast

end Statements

/-! ## All blocks -/

/-- The rule for the passage reads the tokens. -/
def Passage.Runs (f : String → Bool) : Passage → List Token → Prop
  | .body => BodyRuns f
  | .branches => BranchesRun f

/-- **Lines that are nested well are read as the grammar reads blocks**, however deeply. -/
theorem Nested.runs (f : String → Bool) {part : Passage} {ts : List Token} (h : Nested part ts) :
    part.Runs f ts := by
  -- Induction on how the passage is nested, one case for each way to go on.
  induction h with
  | empty => exact .nil
  | line hline _ hbody => exact BodyRuns.line hline hbody
  | @loop word header inner closer body hword hheader hinner hcloser _ hruns hbody =>
    have hstatement := loop_runs hword hheader hinner hruns hcloser
    rw [← List.append_assoc inner, ← List.append_assoc]
    refine BodyRuns.statement hstatement (fun more => ?_) hbody
    rcases hword with rfl | rfl
    all_goals
      rw [List.append_assoc, hheader.kindAhead nofun]
      exact ⟨by decide, rfl⟩
  | @choice header inner branches closer body hheader hinner hbranches hcloser _ hruns hbranch
      hbody =>
    have hstatement := choice_runs hheader hinner hruns hbranches hbranch hcloser
    rw [← List.append_assoc branches, ← List.append_assoc inner, ← List.append_assoc]
    refine BodyRuns.statement hstatement (fun more => ?_) hbody
    rw [List.append_assoc, hheader.kindAhead nofun]
    exact ⟨by decide, rfl⟩
  | unbranched => exact .nil
  | otherwise hheader hinner hruns => exact .otherwise hheader hinner hruns
  | elseIf hheader hinner hbranches hruns hbranch =>
    exact .elseIf hheader hinner hruns hbranches hbranch

end ScriptSense.Grammar
