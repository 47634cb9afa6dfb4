/-
A text behind one that was read without an error.

Such a text, if its last token is a line break, is read as if nothing came behind it:
the tree of both together begins with its elements, and its complaints come first
(`parseWith_append`). Three things make this up. The statements of the text do not look
behind it (`rules_carries`), so at its end the two readings are in the same state
(`iterate_longer`). What is read from there on is added to the root (`Fresh`). And the
complaints about it are about places behind the text (`pastFrame`): a complaint about
the end of a line belongs behind the last word, and no rule complains before it has
seen one.
-/
import Mathlib.Data.List.Infix
import ScriptSense.Proofs.Grammar.Carrying
import ScriptSense.Proofs.Joining

set_option autoImplicit false

namespace ScriptSense

namespace Grammar

variable {α β σ : Type} {more : List Token}

/-! ## Behind the text -/

/-- All tokens ahead are at the offset or behind it, and so is the last word before them,
unless a word is the next token. -/
structure Past (offset : Nat) (s : State) : Prop where
  rest : ∀ t ∈ s.rest, offset ≤ t.start
  anchor : offset ≤ s.anchor ∨ kindAhead 0 s.rest ≠ .newline ∧ kindAhead 0 s.rest ≠ .eof

/-- From a state behind an offset the complaints are about places behind it. -/
def KeepsPast (offset : Nat) (s t : State) : Prop :=
  Past offset s → Past offset t ∧ ∃ new, t.complaints.toList = s.complaints.toList ++ new
    ∧ ∀ c ∈ new, offset ≤ c.span.start

namespace State

/-- Layout does not move the place of the last word. -/
theorem anchor_shift_of_layout {s : State} (h : ∀ t ∈ s.rest.head?, t.kind.isSignificant = false) :
    s.shift.anchor = s.anchor := by
  cases hrest : s.rest with
  | nil => simp [shift, hrest]
  | cons t ts =>
    rw [shift_of_rest hrest]
    have ht : t.kind.isSignificant = false := h t (by simp [hrest])
    exact if_neg (by simp [ht])

/-- Neither does any amount of layout. -/
theorem anchor_shiftMany_of_layout {n : Nat} {s : State}
    (h : ∀ t ∈ s.rest.take n, t.kind.isSignificant = false) : (s.shiftMany n).anchor = s.anchor := by
  induction n generalizing s with
  | zero => rfl
  | succ n ih =>
    have hfirst : ∀ t ∈ s.rest.head?, t.kind.isSignificant = false := by
      intro t ht
      refine h t ?_
      cases hrest : s.rest with
      | nil => simp [hrest] at ht
      | cons u us =>
        rw [hrest, List.head?_cons, Option.mem_def, Option.some.injEq] at ht
        rw [List.take_succ_cons, ht]
        exact List.mem_cons_self
    rw [shiftMany, ih, anchor_shift_of_layout hfirst]
    intro t ht
    have hrest : s.shift.rest = s.rest.drop 1 := rest_shiftMany 1 s
    rw [hrest] at ht
    refine h t ?_
    rw [List.drop_one] at ht
    cases hs : s.rest with
    | nil => simp [hs] at ht
    | cons u us =>
      rw [hs, List.tail_cons] at ht
      rw [List.take_succ_cons]
      exact List.mem_cons_of_mem _ ht

/-- Trivia and line breaks that are passed over are no words. -/
theorem anchor_shiftTrivia (s : State) : s.shiftTrivia.anchor = s.anchor :=
  anchor_shiftMany_of_layout fun t ht => by
    simp [TokenKind.isSignificant, isTrivia_of_mem_take ht]

/-- A complaint about what is ahead is about a place behind the offset. -/
theorem start_place {offset : Nat} {s : State} (h : Past offset s) : offset ≤ s.place.start := by
  have hahead := kindAhead_zero s.rest
  unfold place
  cases hrest : s.rest.dropWhile (·.kind.isTrivia) with
  | nil =>
    rw [hrest] at hahead
    exact h.anchor.resolve_right fun hword => hword.2 hahead
  | cons t ts =>
    rw [hrest] at hahead
    dsimp only
    split
    · next hbreak =>
      exact h.anchor.resolve_right fun hword => hword.1 (hahead.trans (eq_of_beq hbreak))
    · refine h.rest t ((List.dropWhile_suffix (·.kind.isTrivia)).subset ?_)
      rw [hrest]
      exact List.mem_cons_self

end State

namespace Past

variable {offset : Nat} {s t : State}

/-- Being past an offset is a matter of what is ahead and of the last word. -/
theorem congr (h : Past offset s) (hrest : t.rest = s.rest) (hanchor : t.anchor = s.anchor) :
    Past offset t :=
  ⟨by rw [hrest]; exact h.rest, by rw [hrest, hanchor]; exact h.anchor⟩

/-- Behind a word that is moved, the last word is behind the offset. -/
theorem shift (h : Past offset s) : Past offset s.shift := by
  cases hrest : s.rest with
  | nil =>
    have hstill : s.shift = s := by simp [State.shift, hrest]
    rwa [hstill]
  | cons t ts =>
    have hbehind := h.rest
    have hanchor := h.anchor
    rw [hrest] at hbehind hanchor
    rw [State.shift_of_rest hrest]
    refine ⟨fun u hu => hbehind u (List.mem_cons_of_mem _ hu), ?_⟩
    -- Behind a word the last word is past the offset, for the word was ahead.
    by_cases htrivia : t.kind.isTrivia = true
    · have hsilent : t.kind.isSignificant = false := by simp [TokenKind.isSignificant, htrivia]
      simpa [hsilent, kindAhead, htrivia] using hanchor
    · rw [kindAhead, if_neg htrivia] at hanchor
      cases hword : t.kind.isSignificant with
      | true =>
        have hstart := hbehind t List.mem_cons_self
        refine .inl ?_
        simp only [if_true, Token.stop]
        omega
      | false =>
        have hbreak : t.kind = .newline := by simpa [TokenKind.isSignificant, htrivia] using hword
        exact .inl (hanchor.resolve_right fun hnext => hnext.1 hbreak)

end Past

namespace KeepsPast

variable {offset : Nat} {s s' t t' u : State}

/-- A step without a complaint keeps what it keeps past an offset. -/
theorem of_quiet (hpast : Past offset s → Past offset t) (hcomplaints : t.complaints = s.complaints) :
    KeepsPast offset s t :=
  fun h => ⟨hpast h, [], by rw [hcomplaints, List.append_nil], fun _ hc => absurd hc List.not_mem_nil⟩

/-- What matters to a state behind an offset are the tokens ahead, the last word and the
complaints. -/
theorem congr (h : KeepsPast offset s t) (hs : s.Level s') (ht : t.Level t') :
    KeepsPast offset s' t' := by
  obtain ⟨hrest, -, hanchor, hcomplaints⟩ := hs
  obtain ⟨hrest', -, hanchor', hcomplaints'⟩ := ht
  intro hpast
  obtain ⟨hbehind, new, hnew, hlater⟩ := h (hpast.congr hrest hanchor)
  exact ⟨hbehind.congr hrest'.symm hanchor'.symm, new, by rw [← hcomplaints', hnew, hcomplaints],
    hlater⟩

/-- Two steps that keep past an offset, after each other. -/
theorem trans (hst : KeepsPast offset s t) (htu : KeepsPast offset t u) : KeepsPast offset s u := by
  intro hs
  obtain ⟨ht, new, hnew, hlater⟩ := hst hs
  obtain ⟨hu, new', hnew', hlater'⟩ := htu ht
  refine ⟨hu, new ++ new', ?_, fun c hc => (List.mem_append.1 hc).elim (hlater c) (hlater' c)⟩
  rw [hnew', hnew, List.append_assoc]

end KeepsPast

/-- **Behind an offset, complaints are about places behind it.** -/
theorem pastFrame (offset : Nat) : Frame (KeepsPast offset) := by
  refine Remarks.frame ⟨fun s => .of_quiet id rfl, .trans, .congr, fun s => ?_, fun p s h => ?_⟩
  · exact .of_quiet .shift (State.complaints_shift s)
  · refine ⟨h.congr rfl rfl, [⟨p, s.place⟩], by simp, fun c hc => ?_⟩
    rw [List.mem_singleton.1 hc]
    exact State.start_place h

/-! ## What was built before -/

/-- The state with more elements in front of those built. -/
def State.behind (front : Array Tree) (s : State) : State := { s with out := front ++ s.out }

/-- **What was built before plays no part in the step**, which only adds to it. -/
def Fresh (m : Step α) : Prop :=
  ∀ (front : Array Tree) (s : State), m (s.behind front) = ((m s).1, (m s).2.behind front)

namespace State

variable (front : Array Tree) (s : State)

/-- A token is taken behind a front of trees as without it. -/
theorem behind_shift : (s.behind front).shift = s.shift.behind front := by
  cases hrest : s.rest with
  | nil => simp [shift, behind, hrest]
  | cons t ts => simp [shift, behind, hrest]

/-- So are any number of tokens. -/
theorem behind_shiftMany (n : Nat) :
    (s.behind front).shiftMany n = (s.shiftMany n).behind front := by
  induction n generalizing s with
  | zero => rfl
  | succ n ih => rw [shiftMany, behind_shift, ih, shiftMany]

/-- So is a token that is consumed. -/
theorem behind_consume : (s.behind front).consume = s.consume.behind front := by
  have htrivia : (s.behind front).shiftTrivia = s.shiftTrivia.behind front :=
    behind_shiftMany front s _
  have hbreaks (t : State) : (t.behind front).shiftBreaks = t.shiftBreaks.behind front := by
    unfold shiftBreaks
    have hparens : (t.behind front).parens = t.parens := rfl
    rw [hparens]
    split
    · exact behind_shiftMany front t _
    · rfl
  rw [consume, htrivia, behind_shift, hbreaks]
  rfl

/-- So is the trivia in front of a node. -/
theorem behind_opened (kind : NodeKind) :
    (s.behind front).opened kind = (s.opened kind).behind front := by
  unfold opened
  split
  · rfl
  · exact behind_shiftMany front s _

end State

namespace Fresh

variable {m : Step α} {f : α → Step β}

/-- The step does what it does where nothing was built, behind what was. -/
theorem run_inside (h : Fresh m) (s : State) : (m s).2 = (m (s.inside #[])).2.behind s.out := by
  have hrun := h s.out (s.inside #[])
  have hfront : (s.inside #[]).behind s.out = s := by simp [State.behind, State.inside]
  rw [hfront] at hrun
  rw [hrun]

/-- What was built stays. -/
theorem prefix_out (h : Fresh m) (s : State) : s.out.toList <+: (m s).2.out.toList := by
  rw [h.run_inside, State.behind, Array.toList_append]
  exact List.prefix_append _ _

/-- An answer does not look at what was built. -/
theorem pure (a : α) : Fresh (Pure.pure a : Step α) := fun _ _ => rfl

/-- Two fresh steps after each other. -/
theorem bind (hm : Fresh m) (hf : ∀ a, Fresh (f a)) : Fresh (m >>= f) := by
  intro front s
  rw [run_bind, hm front s, hf _ front]
  rfl

/-- A choice of two fresh steps. -/
theorem ite {c : Prop} [Decidable c] {m m' : Step α} (h : Fresh m) (h' : Fresh m') :
    Fresh (if c then m else m') := by
  split
  · exact h
  · exact h'

/-- A look does not look at what was built. -/
theorem current : Fresh current := by
  intro front s
  have hrest : (s.behind front).rest = s.rest := rfl
  have hlooks : (s.behind front).looks = s.looks := rfl
  have hfault : (s.behind front).fault = s.fault := rfl
  unfold Grammar.current look
  rw [hrest, hlooks, hfault]
  split <;> rfl

/-- Neither does a test of the next token. -/
theorem isAt (kind : TokenKind) : Fresh (isAt kind) := current.bind fun _ => pure _

/-- Neither does a complaint. -/
theorem complain (p : Problem) : Fresh (complain p) := fun _ _ => rfl

/-- Neither does giving up. -/
theorem giveUp (f : Fault) : Fresh (modify (State.giveUp f) : Step Unit) := fun _ _ => rfl

/-- A token that is consumed is put behind what was built. -/
theorem consume : Fresh (modify State.consume : Step Unit) := fun front s => by
  rw [run_modify, State.behind_consume]
  rfl

/-- So is a token that is eaten. -/
theorem eat (kind : TokenKind) : Fresh (eat kind) :=
  (isAt kind).bind fun _ => ite (consume.bind fun _ => pure _) (pure _)

/-- So is one that is expected. -/
theorem expect (kind : TokenKind) (wanted : Wanted) : Fresh (expect kind wanted) :=
  (eat kind).bind fun _ => ite (pure _) ((complain _).bind fun _ => pure _)

/-- What is built in a node is in the node. -/
theorem node (kind : NodeKind) (m : Step α) : Fresh (node kind m) := by
  intro front s
  have hinside : ((s.opened kind).behind front).inside #[] = (s.opened kind).inside #[] := rfl
  rw [run_node, run_node, State.behind_opened, hinside]
  simp only [State.close, State.behind, Array.push_append]

/-- A loop is fresh when its turns are. -/
theorem iterate {step : σ → Step (Option σ)} (h : ∀ x, Fresh (step x)) (n : Nat) (x : σ) :
    Fresh (iterate step n x) := by
  induction n generalizing x with
  | zero => exact giveUp _
  | succ n ih =>
    refine (h x).bind fun r => ?_
    cases r with
    | none => exact pure ()
    | some y => exact ih y

end Fresh

/-- The end of a line is built of tokens and one node. -/
theorem lineEnd_fresh (R : Rules) : Fresh (lineEnd R) :=
  (Fresh.eat _).bind fun _ => .ite (.pure _) ((Fresh.isAt _).bind fun _ => .ite (.pure _)
    ((Fresh.node _ _).bind fun _ => .bind (m := Functor.discard (eat .newline))
      (.bind (Fresh.eat _) fun _ => .pure _) fun _ => .pure _))

/-- The word that closes a block, with the end of its line. -/
theorem closing_fresh (R : Rules) (kind : TokenKind) (wanted : Wanted) :
    Fresh (closing R kind wanted) :=
  (Fresh.expect _ _).bind fun _ => .ite (lineEnd_fresh R) (.pure _)

/-- A statement is a node. -/
theorem statement_fresh (f : String → Bool) (levels : Nat) : Fresh (rules f levels).statement := by
  cases levels with
  | zero => exact .giveUp _
  | succ n =>
    refine Fresh.current.bind fun kind => ?_
    cases kind
    case kwBegin =>
      have hasked : Fresh isOutside := fun _ _ => rfl
      exact hasked.bind fun outside => .ite (.node _ _) (.node _ _)
    all_goals exact .node _ _

/-- Whatever stands in a script is added to the root. -/
theorem scriptTurn_fresh (f : String → Bool) (levels : Nat) :
    Fresh (scriptTurn (rules f levels)) := by
  have hstatement := statement_fresh f levels
  have htop : Fresh (topLevel (rules f levels)) := by
    refine Fresh.current.bind fun kind => .ite ((Fresh.complain _).bind fun _ => .node _ _) ?_
    split
    · refine Fresh.bind (m := Functor.discard current) (.bind Fresh.current fun _ => .pure _)
        fun _ => ?_
      exact Fresh.bind (Fresh.current.bind fun _ => .pure _) fun ends => .ite (.pure _) (.node _ _)
    · exact .ite hstatement ((Fresh.complain _).bind fun _ => hstatement)
  refine (Fresh.isAt _).bind fun ends => .ite (.pure _) ((Fresh.eat _).bind fun eaten => ?_)
  exact .ite (.pure _) (htop.bind fun _ => .pure _)

/-! ## Where the text ends -/

/-- A turn of the loop over what stands in a script, as the loop takes it. -/
abbrev turn (R : Rules) : Unit → Step (Option Unit) := fun _ => do
  if ← scriptTurn R then return some () else return none

/-- A turn of a script does not look at the statements before it. -/
theorem turn_fresh (f : String → Bool) (levels : Nat) (x : Unit) :
    Fresh (turn (rules f levels) x) :=
  (scriptTurn_fresh f levels).bind fun _ => .ite (.pure _) (.pure _)

/-- Turns of two levels that are alike are alike. -/
theorem turn_alike {R R' : Rules} (h : R.Alike R') (x : Unit) :
    Alike .word (fun r => if r.isSome then .breaks else .next) (turn R x) (turn R' x) :=
  .bind (scriptTurn_alike h) fun again => by
    cases again <;> exact .pure _ (Sync.le_refl _)

/-- A turn of a script carries over to a longer text. -/
theorem turn_carries (f : String → Bool) (levels levels' : Nat) (x : Unit) :
    Carries .next (turn (rules f levels) x) (turn (rules f levels') x) := by
  have hturn := (scriptTurn_carries f levels levels').andAnswer fun again =>
    if again then some () else none
  have heq (R : Rules) : turn R x
      = (scriptTurn R >>= fun again => pure (if again then some () else none)) := by
    refine bind_congr fun again => ?_
    cases again <;> rfl
  rw [heq, heq]
  exact hturn

/-- A turn goes on as long as the script does. -/
theorem run_turn (R : Rules) (s : State) :
    turn R () s = (if (scriptTurn R s).1 then some () else none, (scriptTurn R s).2) := by
  unfold turn
  rw [run_bind]
  cases (scriptTurn R s).1 <;> rfl

/-- A look leaves everything but the count of looks. -/
theorem looked_current (s : State) : (current s).2.rest = s.rest ∧ (current s).2.out = s.out
    ∧ (current s).2.complaints = s.complaints := by
  rcases run_look_cases 0 s with ⟨-, -, hlook⟩ | hlost
  · rw [current, hlook]
    exact ⟨rfl, rfl, rfl⟩
  · rw [current, hlost]
    exact ⟨rfl, rfl, rfl⟩

/-- The elements of the root: what was built, and the tokens left. -/
theorem State.children_root (kind : NodeKind) (s : State) :
    (s.root kind).children = s.out.toList ++ s.rest.map .leaf := by
  have hroot : (s.root kind).children = (s.shiftMany s.rest.length).out.toList := rfl
  rw [hroot, State.toList_out_shiftMany, List.take_length]

/-- At its end, a look finds the end of the text. -/
theorem current_end {s : State} (h : kindAhead 0 s.rest = .eof) : (current s).1 = .eof := by
  rcases run_look_cases 0 s with ⟨-, -, hlook⟩ | hlost
  · rw [current, hlook, h]
  · rw [current, hlost]

/-- At the end of the text no turn is taken. -/
theorem turn_end {R : Rules} {s : State} (h : kindAhead 0 s.rest = .eof) :
    turn R () s = (none, (current s).2) := by
  have hrun : scriptTurn R s = (if (current s).1 == .eof then pure false
      else breakOr (topLevel R) : Step Bool) (current s).2 := rfl
  rw [run_turn, hrun, current_end h]
  rfl

/-- In front of the end of the text one is taken. -/
theorem turn_some {R : Rules} {s : State} (hlines : WholeLines s.rest) (hsome : s.rest ≠ [])
    (hclean : (turn R () s).2.Clean) : (turn R () s).1 = some () := by
  have hrun : scriptTurn R s = (if (look 0 s).1 == .eof then pure false
      else breakOr (topLevel R) : Step Bool) (look 0 s).2 := rfl
  rw [run_turn, hrun] at hclean ⊢
  rcases run_look_cases 0 s with ⟨-, -, hlook⟩ | hlost
  -- Something is left and ends with a line break, so the text is not over.
  · have hkind : (kindAhead 0 s.rest == .eof) = false := by
      simpa using hlines.kindAhead_ne_eof hsome
    have hbreak : breakOr (topLevel R) s.looked = (do
        if (eat .newline s.looked).1 then return true
        topLevel R
        return true : Step Bool) (eat .newline s.looked).2 := rfl
    rw [hlook, hkind]
    dsimp only
    rw [if_neg Bool.false_ne_true, hbreak]
    cases (eat .newline s.looked).1 <;> rfl
  · rw [hlost] at hclean
    exact absurd hclean (State.not_clean_giveUp _ s)

/-- **At its end, the text has been read as in front of a longer one**, whatever that is and
whatever levels and turns there are. The reading of the longer text goes on from there. -/
theorem iterate_longer (f : String → Bool) (levels : Nat) {k : Nat} {s : State}
    (hlines : WholeLines s.rest) (hparens : s.parens = 0)
    (hclean : (iterate (turn (rules f levels)) k () s).2.Clean) :
    ∃ t, t.rest = [] ∧ (iterate (turn (rules f levels)) k () s).2 = (current t).2
      ∧ ∀ (more : List Token) (levels' k' : Nat),
        (iterate (turn (rules f levels')) k' () (s.longer more)).2.fault = none →
          ∃ j, iterate (turn (rules f levels')) k' () (s.longer more)
            = iterate (turn (rules f levels')) j () (t.longer more) := by
  -- Induction on the fuel for the shorter text. At its end the other loop goes on with the
  -- longer one.
  induction k generalizing s with
  | zero => exact absurd hclean (State.not_clean_giveUp _ s)
  | succ k ih =>
    by_cases hsome : s.rest = []
    · rw [run_iterate_succ, turn_end (by rw [hsome]; rfl)]
      exact ⟨s, hsome, rfl, fun _ _ k' _ => ⟨k', rfl⟩⟩
    · have hturn (levels' : Nat) := turn_carries f levels levels' ()
      have hloop (j : Nat) : Honest (iterate (turn (rules f levels)) j ()) :=
        .iterate (fun x => (turn_carries f levels levels x).honest) j ()
      have hfirst : (turn (rules f levels) () s).2.Clean := by
        rw [run_iterate_succ] at hclean
        split at hclean
        · exact hclean
        · exact hloop k _ hclean
      have hanswer := turn_some hlines hsome hfirst
      rw [run_iterate_succ, hanswer] at hclean ⊢
      have horderly := (turn_alike (rules_alike_self f levels) ()).orderly
      obtain ⟨t, hnil, hdone, hgo⟩ :=
        ih (hlines.suffix (horderly.suffix s)) ((horderly.parens s).trans hparens) hclean
      refine ⟨t, hnil, hdone, fun more levels' k' hfault => ?_⟩
      cases k' with
      | zero => exact absurd hfault (State.fault_giveUp_ne_none _ _)
      | succ k' =>
        have hkeeps : Onward (iterate (turn (rules f levels')) k' ()) :=
          .iterate (fun x => (turn_alike (rules_alike_self f levels') x).onward) k' ()
        have hfirst' : (turn (rules f levels') () (s.longer more)).2.fault = none := by
          rw [run_iterate_succ] at hfault
          split at hfault
          · exact hfault
          · exact hkeeps.keeps _ hfault
        have hrun := (hturn levels').carries more s hlines hparens hsome (fun h => by cases h)
          hfirst hfirst'
        rw [run_iterate_succ, hrun, hanswer] at hfault ⊢
        exact hgo more levels' k' hfault

/-! ## Behind the end -/

/-- **A loop over lines**: in front of a line break a turn passes over it, and at the end of the
text none is taken. -/
structure OverLines (step : Unit → Step (Option Unit)) : Prop where
  onward : Onward (step ())
  past (offset : Nat) (s : State) : KeepsPast offset s (step () s).2
  passes : Passes (some ()) (step ())
  ends (s : State) : kindAhead 0 s.rest = .eof → step () s = (none, (current s).2)

/-- **What stands behind an offset is complained about behind it**: line breaks in front of
the first word are passed over. -/
theorem OverLines.past_iterate {step : Unit → Step (Option Unit)} (h : OverLines step)
    {offset k : Nat} {s : State} (hrest : ∀ t ∈ s.rest, offset ≤ t.start)
    (hfault : (iterate step k () s).2.fault = none) :
    ∃ new, (iterate step k () s).2.complaints.toList = s.complaints.toList ++ new
      ∧ ∀ c ∈ new, offset ≤ c.span.start := by
  induction k generalizing s with
  | zero => exact absurd hfault (State.fault_giveUp_ne_none _ s)
  | succ k ih =>
    have hkeeps : Onward (iterate step k ()) := .iterate (fun _ => h.onward) k ()
    have hfirst : (step () s).2.fault = none := by
      rw [run_iterate_succ] at hfault
      split at hfault
      · exact hfault
      · exact hkeeps.keeps _ hfault
    -- Line breaks at the front are passed over, one a turn, until a word or the end comes.
    by_cases hbreak : kindAhead 0 s.rest = .newline
    · have hsuffix : s.consume.rest <:+ s.rest := Alike.consume.onward.suffix s
      rw [run_iterate_succ, h.passes s hbreak hfirst] at hfault ⊢
      obtain ⟨new, hnew, hlater⟩ := ih (fun t ht => hrest t (hsuffix.subset ht)) hfault
      refine ⟨new, ?_, hlater⟩
      rw [hnew, State.consume_eq State.complaints_shift fun _ _ => rfl]
    · by_cases hend : kindAhead 0 s.rest = .eof
      · rw [run_iterate_succ, h.ends s hend]
        exact ⟨[], by rw [(looked_current s).2.2, List.append_nil], by simp⟩
      · have hpast : Past offset s := ⟨hrest, .inr ⟨hbreak, hend⟩⟩
        exact ((pastFrame offset).iterate (fun _ => h.past offset) (k + 1) () s hpast).2

/-- A turn of a script goes over whole lines. -/
theorem turn_overLines {R : Rules} (h : R.Alike R) : OverLines (turn R) where
  onward := (turn_alike h ()).onward
  past offset s := (turn_alike h ()).frame (pastFrame offset) s
  passes s hbreak hfault := by
    rw [run_turn] at hfault ⊢
    rw [scriptTurn_passes h s hbreak hfault]
    rfl
  ends _ := turn_end

/-- The tokens ahead in front of a text that ends its last line. -/
theorem wholeLines_innerTokens {text : String} (hline : EndsLine text.toList) :
    WholeLines (innerTokens text) ∧ innerTokens text ≠ [] := by
  obtain ⟨htiling, hdrop⟩ := tokens_tiling text
  obtain ⟨t, hlast, hkind⟩ := hline
  have hlast : (innerTokens text).getLast? = some t := by
    rw [innerTokens, hdrop]
    exact hlast
  refine ⟨⟨fun u hu => ?_, fun u hu => (htiling.significant u hu).1⟩, ?_⟩
  · rw [hlast, Option.mem_some_iff] at hu
    rw [← hu, hkind]
  · intro hnil
    rw [hnil] at hlast
    cases hlast

/-- In front of two texts the tokens of the second are further on. -/
theorem initial_append {a b : String} (ha : EndsLine a.toList)
    (hb : b.toList.head?.all (!isBreak ·) = true) :
    State.initial (tokens (a ++ b)) = (State.initial (tokens a)).longer
      ((innerTokens b).map (Token.moved a.utf8ByteSize)) :=
  congrArg (fun ts => ({ rest := ts } : State)) (innerTokens_append ha hb)

/-- **A text that is read without an error is read as in front of a longer one**: at its end
the reading is in the same state. -/
theorem run_longer (f : String → Bool) {text : String} (hline : EndsLine text.toList)
    (hclean : (parseWith f text).hasErrors = false) :
    ∃ t, t.rest = [] ∧ run f script (tokens text) = (current t).2
      ∧ ∀ (more : List Token) (levels : Nat),
        (script (rules f levels) ((State.initial (tokens text)).longer more)).2.fault = none →
          ∃ j, script (rules f levels) ((State.initial (tokens text)).longer more)
            = iterate (turn (rules f levels)) j () (t.longer more) := by
  obtain ⟨hlines, hsome⟩ := wholeLines_innerTokens hline
  set start := State.initial (tokens text)
  set n := levelsFor start.rest.length
  have hrun : run f script (tokens text)
      = (iterate (turn (rules f n)) (rules f n).turns () (header (rules f n) start).2).2 :=
    congrArg Prod.snd (run_script (rules f n) start)
  have hended : (run f script (tokens text)).Clean := by
    refine ⟨fault_run_script f _, fun c hc herror => ?_⟩
    exact List.any_eq_false.1 hclean c hc (by simp [herror])
  rw [hrun] at hended ⊢
  have horderly := header_orderly (rules f n)
  obtain ⟨t, hnil, hdone, hgo⟩ := iterate_longer f n (hlines.suffix (horderly.suffix start))
    (horderly.parens start) hended
  refine ⟨t, hnil, hdone, fun more levels hfault => ?_⟩
  -- The name of the script is read alike.
  have honest : Honest (iterate (turn (rules f n)) (rules f n).turns ()) :=
    .iterate (fun x => (turn_carries f n levels x).honest) _ _
  have hkeeps : Onward (iterate (turn (rules f levels)) (rules f levels).turns ()) :=
    .iterate (fun x => (turn_alike (rules_alike_self f levels) x).onward) _ _
  have hscript : script (rules f levels) (start.longer more)
      = iterate (turn (rules f levels)) (rules f levels).turns ()
          (header (rules f levels) (start.longer more)).2 := run_script _ _
  rw [hscript] at hfault ⊢
  have hheader := (header_carries (rules f n) (rules f levels)).carries more start hlines rfl hsome
    (fun h => by cases h) (honest _ hended) (hkeeps.keeps _ hfault)
  rw [hheader] at hfault ⊢
  exact hgo more levels _ hfault

end Grammar

/-- The reading of a text goes on where that of another one ended, at an offset: the tree
begins with the same elements and the complaints with the same ones, and what is complained
about then is behind the offset. -/
structure GoesOn (offset : Nat) (p p' : Parse) : Prop where
  children : p.root.children <+: p'.root.children
  complaints : ∃ later, p'.complaints = p.complaints ++ later
    ∧ ∀ c ∈ later, offset ≤ c.span.start

open Grammar in
/-- **What is read without an error is not disturbed by what follows**, if it ends with a
line break of its own. -/
theorem parseWith_append (f : String → Bool) {text more : String}
    (hline : EndsLine text.toList) (hclean : (parseWith f text).hasErrors = false)
    (hmore : more.toList.head?.all (!isBreak ·) = true) :
    GoesOn text.utf8ByteSize (parseWith f text) (parseWith f (text ++ more)) := by
  set start := State.initial (tokens text)
  set behind := (innerTokens more).map (Token.moved text.utf8ByteSize)
  set n := levelsFor (start.longer behind).rest.length
  obtain ⟨t, hnil, hdone, hgo⟩ := run_longer f hline hclean
  have hrun' : run f script (tokens (text ++ more))
      = (script (rules f n) (start.longer behind)).2 := by
    rw [run, initial_append hline hmore]
    rfl
  have hended' := fault_run_script f (tokens (text ++ more))
  rw [hrun'] at hended'
  obtain ⟨j, hj⟩ := hgo behind n hended'
  rw [hj] at hrun' hended'
  obtain ⟨hrest, hout, hcomplaints⟩ := looked_current t
  have hbehind : (t.longer behind).rest = behind := by rw [State.rest_longer, hnil, List.nil_append]
  refine ⟨?_, ?_⟩
  · change ((run f script (tokens text)).root .script).children
      <+: ((run f script (tokens (text ++ more))).root .script).children
    rw [State.children_root, State.children_root, hdone, hrun', hrest, hout, hnil, List.map_nil,
      List.append_nil]
    have hfresh : Fresh (iterate (turn (rules f n)) j ()) :=
      .iterate (fun x => turn_fresh f n x) j ()
    exact (hfresh.prefix_out (t.longer behind)).trans (List.prefix_append _ _)
  · have hplaced : ∀ u ∈ (t.longer behind).rest, text.utf8ByteSize ≤ u.start := by
      rw [hbehind]
      intro u hu
      obtain ⟨v, -, rfl⟩ := List.mem_map.1 hu
      exact Nat.le_add_left _ _
    obtain ⟨later, hlater, hplaces⟩ :=
      (turn_overLines (rules_alike_self f n)).past_iterate hplaced hended'
    refine ⟨later, ?_, hplaces⟩
    change (run f script (tokens (text ++ more))).complaints.toList
      = (run f script (tokens text)).complaints.toList ++ later
    rw [hrun', hlater, hdone, hcomplaints]
    rfl

/-- A script of two lines, with a statement behind it that is missing its value. -/
theorem parseWith_append_at_set :
    EndsLine "scn A\nint x\n".toList
      ∧ (parseWith noFunctions "scn A\nint x\n").hasErrors = false
      ∧ "set x to".toList.head?.all (!isBreak ·) = true
      ∧ GoesOn "scn A\nint x\n".utf8ByteSize (parseWith noFunctions "scn A\nint x\n")
          (parseWith noFunctions ("scn A\nint x\n" ++ "set x to")) := by
  have hline : EndsLine "scn A\nint x\n".toList :=
    ⟨⟨.newline, 11, "\n"⟩, by decide +kernel, rfl⟩
  have hclean : (parseWith noFunctions "scn A\nint x\n").hasErrors = false := by decide +kernel
  have hmore : "set x to".toList.head?.all (!isBreak ·) = true := by decide
  exact ⟨hline, hclean, hmore, parseWith_append noFunctions hline hclean hmore⟩

end ScriptSense
