/-
A mistake in a line stays in the line.

A statement of one line consumes what its line holds and the line break behind it, whatever
stands in the line, and no more: its parts keep to the line (`KeepsLine`), and the rule for
the end of a line sets aside what they leave (`LineBody.lineEnd`). What is complained about
on the way is inside the statement: the complaints begin behind where it begins
(`pastFrame`), and where the line ends no complaint is about what comes next (`Closes`).

Both are said of the nodes of the tree of a text (`Tree.LineByLine`), as a property that
every run of the grammar hands on.
-/
import ScriptSense.Proofs.Grammar.Settling
import ScriptSense.Proofs.Grammar.Straight
import ScriptSense.Proofs.Totality

set_option autoImplicit false

namespace ScriptSense

namespace Grammar

open ScriptSense.Tree (leavesOfAll)

variable {α β : Type}

/-! ## The end of a line -/

/-- The tokens are those of one line with the line break behind it, or without one where the
text ends; where a parenthesis is opened, the line may go on. -/
def FullLine (ts : List Token) (next : TokenKind) : Prop :=
  ∃ line ending, ts = line ++ ending ∧ Straight line
    ∧ ((∃ t, ending = [t] ∧ t.kind = .newline) ∨ ending = [] ∧ next = .eof)

theorem Straight.fullLine {ts : List Token} (h : Straight ts) : FullLine ts .eof :=
  ⟨ts, [], (List.append_nil ts).symm, h, .inr ⟨rfl, rfl⟩⟩

theorem Straight.fullLine_newline {ts moved : List Token} {next : TokenKind} (h : Straight ts)
    (hbite : Bite true .newline moved) : FullLine (ts ++ moved) next := by
  obtain ⟨trivia, t, layout, rfl, htrivia, ht, -, hlayout⟩ := hbite
  rw [hlayout rfl]
  exact ⟨ts ++ trivia, [t], by simp, h.append (.trivia htrivia), .inl ⟨t, rfl, ht⟩⟩

/-- Behind the tokens `base`, the tokens of one line were built, and the line ends. -/
def EndsOnto (base : List Token) : Outlook :=
  fun ts next => ∃ new, leavesOfAll ts = base ++ new ∧ FullLine new next

/-- A step that is in every frame of the grammar. -/
def Framed (m : Step α) : Prop := ∀ ⦃r : State → State → Prop⦄, Frame r → ∀ s, r s (m s).2

theorem Alike.framed {i : Sync} {o : α → Sync} {m m' : Step α} (h : Alike i o m m') : Framed m :=
  fun _ hr => h.frame hr

namespace Framed

variable {m : Step α} {f : α → Step β}

theorem bind (hm : Framed m) (hf : ∀ a, Framed (f a)) : Framed (m >>= f) :=
  fun _ hr s => hr.trans (hm hr s) (hf _ hr _)

end Framed

/-! ## Where the complaints end -/

/-- The line break that is consumed, if there is one, is complained about by nobody. -/
theorem eat_quiet (kind : TokenKind) {s : State} (hs : s.Placed) :
    (eat kind s).2.complaints = s.complaints ∧ s.offset ≤ (eat kind s).2.offset := by
  obtain ⟨hcomplaints, hoffset, hplaced⟩ : (current s).2.complaints = s.complaints
      ∧ (current s).2.offset = s.offset ∧ (current s).2.Placed := by
    rcases run_look_cases 0 s with ⟨-, -, hlook⟩ | hlost
    · rw [current, hlook]
      exact ⟨rfl, rfl, Steady.congr hs ⟨rfl, rfl, rfl⟩⟩
    · rw [current, hlost]
      exact ⟨rfl, rfl, Steady.congr hs ⟨rfl, rfl, rfl⟩⟩
  rw [run_eat]
  split
  · exact ⟨(State.consume_eq State.complaints_shift (fun _ _ => rfl) _).trans hcomplaints,
      hoffset.symm.trans_le hplaced.offset_le_consume⟩
  · exact ⟨hcomplaints, hoffset.ge⟩

/-- **No complaint is made behind the end of the line**: from where the next token is of
some kinds, all complaints of the step are made up to a place where the line ends. -/
structure Closes (ahead : TokenKind → Prop) (m : Step α) : Prop where
  later (s : State) : s.Later (m s).2
  run {s : State} : s.Placed → ahead (kindAhead 0 s.rest) → (m s).2.fault = none →
    ∃ u, Settles s u ∧ ¬ WithinLine (kindAhead 0 u.rest) ∧ (m s).2.complaints = u.complaints
      ∧ u.offset ≤ (m s).2.offset

namespace Closes

variable {ahead : TokenKind → Prop} {m : Step α} {f : α → Step β}

theorem after {p : α → TokenKind → Prop} (hm : Framed m)
    (hleads : Leads false (fun _ k => ahead k) m fun a _ k => p a k)
    (hf : ∀ a, Closes (p a) (f a)) : Closes ahead (m >>= f) where
  later s := (hleads.later s).trans ((hf _).later _)
  run {s} hs hahead hfault := by
    have hfront : Settles s (m s).2 := hm settles_frame s
    have hnext := hleads.run nofun hahead (((hf _).later _).unbroken hfault)
    obtain ⟨u, hu, hrest⟩ := (hf _).run (hfront hs).1 hnext hfault
    exact ⟨u, hfront.trans hu, hrest⟩

theorem ite {c : Prop} [Decidable c] {m' : Step α} (h : c → Closes ahead m)
    (h' : ¬ c → Closes ahead m') : Closes ahead (if c then m else m') := by
  split
  · next hc => exact h hc
  · next hc => exact h' hc

/-- Where the line ends, there is nothing left to do, -/
theorem pure (a : α) (hend : ∀ k, ahead k → ¬ WithinLine k) : Closes ahead (Pure.pure a : Step α) :=
  ⟨State.Later.refl, fun {s} _ hahead _ =>
    ⟨s, settles_frame.refl s, hend _ hahead, rfl, Nat.le_refl _⟩⟩

/-- but to consume the line break, -/
theorem lineBreak (hend : ∀ k, ahead k → ¬ WithinLine k) :
    Closes ahead (Functor.discard (eat .newline)) :=
  ⟨fun s => (inferInstance : Coupled Eq true (eat .newline) (eat .newline)).later s,
    fun {s} hs hahead _ => ⟨s, settles_frame.refl s, hend _ hahead, eat_quiet .newline hs⟩⟩

/-- which may come at once. -/
theorem eatBreak {f : Bool → Step Unit} (hthere : f true = Pure.pure ())
    (hf : Closes (· ≠ .newline) (f false)) : Closes ahead (eat .newline >>= f) where
  later s := by
    have hlater := (inferInstance : Coupled Eq true (eat .newline) (eat .newline)).later s
    rw [run_bind]
    cases (eat .newline s).1 with
    | true => rwa [hthere]
    | false => exact hlater.trans (hf.later _)
  run {s} hs _ hfault := by
    -- By its contract the break is eaten exactly where one is next.
    have heat : Leads false (fun _ k => k = kindAhead 0 s.rest) (eat .newline) _ :=
      .eat (by decide)
    rw [run_bind] at hfault ⊢
    cases heaten : (eat .newline s).1 with
    | true =>
      rw [heaten, hthere] at hfault
      rw [hthere]
      obtain ⟨-, _, _, hnext, -⟩ | ⟨hnot, -⟩ := heat.run nofun rfl hfault
      · exact ⟨s, settles_frame.refl s, fun hword => hword.1 hnext.symm, eat_quiet .newline hs⟩
      · exact absurd (heaten.symm.trans hnot) (by decide)
    | false =>
      rw [heaten] at hfault
      obtain ⟨hthere, -⟩ | ⟨-, -, hmore⟩ :=
        heat.run nofun rfl ((hf.later _).unbroken hfault)
      · exact absurd (heaten.symm.trans hthere) (by decide)
      -- Nothing was eaten, so what follows is asked from the same place.
      · have hfront : Settles s (eat .newline s).2 := settles_frame.eat _ s
        obtain ⟨u, hu, hrest⟩ := hf.run (hfront hs).1 hmore hfault
        exact ⟨u, hfront.trans hu, hrest⟩

/-- What such a step complains about is about what it read. -/
theorem stop_le (h : Closes ahead m) {s : State} (hs : s.Placed)
    (hahead : ahead (kindAhead 0 s.rest)) (hfault : (m s).2.fault = none) {new : List Complaint}
    (hnew : (m s).2.complaints.toList = s.complaints.toList ++ new) :
    ∀ c ∈ new, c.span.stop ≤ (m s).2.offset := by
  obtain ⟨u, hu, hend, hcomplaints, hoffset⟩ := h.run hs hahead hfault
  obtain ⟨hplaced, -, made, hmade, hsettled⟩ := hu hs
  rw [hcomplaints, hmade] at hnew
  obtain rfl := List.append_cancel_left hnew
  exact fun c hc => ((hsettled c hc).stop_le hplaced hend).trans hoffset

end Closes

/-- What a statement of one line reads, from where the next token is of some kinds. -/
structure LineBody (ahead : TokenKind → Prop) (m : Step Unit) : Prop where
  framed : Framed m
  closes : Closes (fun _ => True) m
  ends (base : List Token) :
    Leads true (fun ts k => Onto base ts ∧ ahead k) m fun _ => EndsOnto base

namespace LineBody

variable {ahead : TokenKind → Prop} {m : Step α} {f : α → Step Unit}

/-- What is read in front keeps to the line. -/
theorem after (hframed : Framed m) (hkeeps : KeepsLine ahead m)
    (hf : ∀ a, LineBody (fun _ => True) (f a)) : LineBody ahead (m >>= f) where
  framed := hframed.bind fun a => (hf a).framed
  closes := .after hframed ⟨(hkeeps []).later, fun _ _ _ => trivial⟩ fun a => (hf a).closes
  ends base := (hkeeps base).bind fun a => ((hf a).ends base).given fun _ _ h => ⟨h, trivial⟩

theorem ite {c : Prop} [Decidable c] {m m' : Step Unit} (h : LineBody ahead m)
    (h' : LineBody ahead m') : LineBody ahead (if c then m else m') := by
  split
  · exact h
  · exact h'

end LineBody

/-! ### The rule for the end of a line -/

section LineEnd

variable {calm : Bool} {p : Outlook}

theorem passInLine_leads :
    Leads calm p passInLine fun again _ k => if again then True else ¬ WithinLine k := by
  refine Leads.atLineEnd.bind fun ends => .ite (fun hends => .pure _ fun _ k h => ?_) fun _ => ?_
  · have hend : k = .newline ∨ k = .eof := by simpa [hends] using h.2.symm
    exact fun hword => hend.elim hword.1 hword.2
  · exact Leads.bumpTokens.bind fun _ => .pure _ fun _ _ _ => trivial

/-- What is left of a line is set aside up to its end. -/
theorem lineRest_leads (R : Rules) :
    Leads calm p (node .error do complain (.missing .lineEnd); R.loop passInLine)
      fun _ _ k => ¬ WithinLine k := by
  have hloop : Leads calm (fun _ _ => True) (R.loop passInLine) fun _ _ k => ¬ WithinLine k :=
    .loop passInLine_leads R
  have hinside : Leads calm (fun ts _ => ts = [] ∧ True)
      (do complain (.missing .lineEnd); R.loop passInLine) fun _ _ k => ¬ WithinLine k :=
    (Leads.complain _).bind fun _ => hloop.given fun _ _ _ => trivial
  refine (hinside.node (p := fun _ => True)).mono (fun _ _ _ => ⟨trivial, trivial⟩) ?_
  rintro _ _ k ⟨-, -, -, -, -, -, -, hend⟩
  exact hend

theorem lineRest_framed (R : Rules) :
    Framed (node .error do complain (.missing .lineEnd); R.loop passInLine) := by
  have hloop : Alike .next (fun _ => .next) (R.loop passInLine) (R.loop passInLine) :=
    loop_alike passInLine_alike
  exact (Alike.aside (.bind (.complain _) fun _ => hloop.given (by decide))).framed

theorem lineRest_keepsLine (R : Rules) {ahead : TokenKind → Prop} :
    KeepsLine ahead (node .error do complain (.missing .lineEnd); R.loop passInLine) := by
  refine .node (.after (fun _ => .complain _) fun _ => .iterate (fun _ => ?_) _ _)
  refine .bind passInLine_keepsLine fun again => ?_
  exact .ite (fun _ => .pure _) fun _ => .pure _

theorem lineEnd_closes (R : Rules) {ahead : TokenKind → Prop} : Closes ahead (lineEnd R) := by
  refine .eatBreak rfl ?_
  have hatEnd : Framed atEnd := (isAt_alike_word _).framed
  refine .after hatEnd (Leads.isAt .eof |>.giving fun _ _ _ h => h.2) fun ends =>
    .ite (fun hends => .pure () fun k h => ?_) fun _ => ?_
  · obtain rfl : k = .eof := by simpa [hends] using h.symm
    exact fun hword => hword.2 rfl
  · exact .after (lineRest_framed R) (lineRest_leads R) fun _ => .lineBreak fun _ h => h

theorem lineEnd_fullLine (R : Rules) (base : List Token) :
    Leads true (fun ts _ => Onto base ts) (lineEnd R) fun _ => EndsOnto base := by
  -- A line ends with the break that was eaten, or with the text.
  have hbreak {before : List Tree} {moved : List Token} {next : TokenKind} (h : Onto base before)
      (hbite : Bite true .newline moved) : EndsOnto base (before ++ moved.map .leaf) next := by
    obtain ⟨new, hnew, hstraight⟩ := h
    refine ⟨new ++ moved, ?_, hstraight.fullLine_newline hbite⟩
    rw [Tree.leavesOfAll_append, leavesOfAll_tokens, hnew, List.append_assoc]
  have hend {ts : List Tree} (h : Onto base ts) : EndsOnto base ts .eof := by
    obtain ⟨new, hnew, hstraight⟩ := h
    exact ⟨new, hnew, hstraight.fullLine⟩
  refine (Leads.eat (by decide)).bind fun eaten => .ite (fun heaten => ?_) fun hmore => ?_
  · refine .pure _ ?_
    rintro _ k (⟨-, before, moved, hts, rfl, hbite⟩ | ⟨hnot, -⟩)
    · exact hbreak hts hbite
    · exact absurd (heaten.symm.trans hnot) (by decide)
  · refine Leads.given (p := fun ts _ => Onto base ts) ?_ ?_
    · refine (Leads.isAt .eof).bind fun ends =>
        .ite (fun hends => .pure _ fun ts k h => ?_) fun _ => ?_
      · obtain rfl : k = .eof := by simpa [hends] using h.2.symm
        exact hend h.1
      -- What was left in the line is set aside first, and its break is eaten then.
      · refine (((lineRest_keepsLine R base).and (lineRest_leads (p := fun _ _ => True) R)).given
          fun _ _ h => ⟨⟨h.1, trivial⟩, trivial⟩).bind fun _ => ?_
        refine Leads.map ((Leads.eat (by decide)).giving ?_)
        rintro _ _ k (⟨-, before, moved, hk, rfl, hbite⟩ | ⟨-, ⟨hts, hword⟩, hbreak⟩)
        · exact hbreak hk.1 hbite
        · obtain rfl : k = .eof := by
            by_contra hmore
            exact hword ⟨hbreak, hmore⟩
          exact hend hts
    · rintro ts k (⟨rfl, -⟩ | ⟨-, hts, -⟩)
      · exact absurd rfl hmore
      · exact hts

theorem LineBody.lineEnd (R : Rules) {ahead : TokenKind → Prop} : LineBody ahead (lineEnd R) where
  framed := (lineEnd_alike R R).framed
  closes := lineEnd_closes R
  ends base := (lineEnd_fullLine R base).given fun _ _ h => h.1

end LineEnd

/-! ## The rules for statements of one line -/

section Statements

variable {r : State → State → Prop} {R : Rules}

/-- What begins with no word of its own is an expression. -/
theorem lineStatement_of_not_simple (R : Rules) {kind : NodeKind} (hkind : kind.isSimple = false) :
    lineStatement R kind = lineStatement R .exprStmt := by
  cases kind
  case varDeclStmt | setStmt | letStmt | returnStmt | breakStmt | continueStmt => cases hkind
  all_goals rfl

theorem variableDecl_keepsLine : KeepsLine WithinLine variableDecl :=
  .node (.bind (.bumpAny fun _ h => h.1) fun _ => declaredName_keepsLine _)

/-- **Each of the rules builds a node over what it reads of its line.** -/
theorem lineStatement_node [Tandem r] [R.Coupled r R] (hR : R.KeepsLine) (halike : R.Alike R)
    {kind : NodeKind} (hkind : kind.isSimple = true) :
    ∃ body, lineStatement R kind = node kind body ∧ LineBody WithinLine body
      ∧ Coupled r true body body := by
  have hexpression : Framed (R.expression 0) := (halike.expression 0).framed
  -- An expression that is read before leaves the rest of the line as it was.
  have hvalue {m : Step Unit} (hm : LineBody (fun _ => True) m) {ahead : TokenKind → Prop} :
      LineBody ahead (do R.expression 0; m) :=
    .after hexpression (hR.expression 0).anywhere fun _ => hm
  -- Each simple statement is one node, whose body reads a word or a value and the end of the
  -- line.
  cases kind
  case varDeclStmt =>
    refine ⟨_, rfl, ?_, inferInstance⟩
    refine .after variableDecl_alike_word.framed variableDecl_keepsLine fun _ => ?_
    refine .after (eat_alike (by decide)).framed (.eat (by decide) (by decide)) fun _ => ?_
    exact .ite (hvalue (.lineEnd R)) (.lineEnd R)
  case setStmt =>
    refine ⟨_, rfl, ?_, inferInstance⟩
    refine .after (bump_alike (by decide)).framed (.bump (by decide) (by decide)) fun _ => hvalue ?_
    refine .after (expect_alike (by decide) _).framed (.expect (by decide) (by decide) _)
      fun _ => ?_
    exact .ite (hvalue (.lineEnd R)) (.lineEnd R)
  case letStmt =>
    refine ⟨_, rfl, ?_, inferInstance⟩
    exact .after (bump_alike (by decide)).framed (.bump (by decide) (by decide)) fun _ =>
      hvalue (.lineEnd R)
  case returnStmt =>
    refine ⟨_, rfl, ?_, inferInstance⟩
    refine .after (bump_alike (by decide)).framed (.bump (by decide) (by decide)) fun _ => ?_
    refine .after current_alike.framed (fun _ => Leads.current.giving fun _ _ _ h => h.1.1)
      fun _ => ?_
    exact .ite (hvalue (.lineEnd R)) (.lineEnd R)
  case breakStmt | continueStmt =>
    refine ⟨_, rfl, ?_, inferInstance⟩
    exact .after (bump_alike (by decide)).framed (.bump (by decide) (by decide)) fun _ => .lineEnd R
  case exprStmt => exact ⟨_, rfl, hvalue (.lineEnd R), inferInstance⟩
  all_goals cases hkind

end Statements

/-! ## Statements of one line in a tree -/

/-- A place in the reading of the tokens. -/
structure Reading (tokens : List Token) (s : State) : Prop where
  rest : s.rest <:+ tokens
  placed : s.Placed

/-- The tokens are those of a line of the text, up to its line break; without one only
trivia comes behind them. -/
def IsLine (tokens ts : List Token) : Prop :=
  ∃ before line ending after, tokens = before ++ ts ++ after ∧ ts = line ++ ending
    ∧ (∀ t ∈ line, t.kind ≠ .newline)
    ∧ ((∃ t, ending = [t] ∧ t.kind = .newline)
      ∨ ending = [] ∧ ∀ t ∈ after, t.kind.isTrivia = true)

/-- From `s` to `t` the rule for statements of its kind built the node, at a place in a
reading of the tokens that came to have the complaints. -/
structure BuiltBy (f : String → Bool) (tokens : List Token) (complaints : List Complaint)
    (kind : NodeKind) (node : Tree) (s t : State) : Prop where
  place : Reading tokens s
  parens : s.parens = 0
  word : WithinLine (kindAhead 0 s.rest)
  run : ∃ levels, t = (lineStatement (rules f levels) kind s).2
  fault : t.fault = none
  out : t.out = (s.opened kind).out.push node
  complaints : t.complaints.toList <+: complaints

/-- **A statement of one line stays in its line.** Unless it opens a parenthesis, it has the
tokens of one line; it was built by its rule; and however it was, what was complained about
meanwhile is inside it. -/
structure Isolated (f : String → Bool) (tokens : List Token) (complaints : List Complaint)
    (kind : NodeKind) (span : Span) (children : List Tree) : Prop where
  line : (∀ t ∈ leavesOfAll children, t.kind ≠ .lParen) → IsLine tokens (leavesOfAll children)
  built : ∃ s t, BuiltBy f tokens complaints kind (.node kind span children) s t
  inside : ∀ s t, BuiltBy f tokens complaints kind (.node kind span children) s t →
    ∀ c ∈ t.complaints.toList.drop s.complaints.size,
      span.start ≤ c.span.start ∧ c.span.stop ≤ span.stop

end Grammar

/-- All statements of one line in the tree stay in their lines. -/
inductive Tree.LineByLine (f : String → Bool) (tokens : List Token) (complaints : List Complaint) :
    Tree → Prop
  | leaf (t : Token) : LineByLine f tokens complaints (.leaf t)
  | node {kind : NodeKind} {span : Span} {children : List Tree}
      (hline : kind.isSimple = true → Grammar.Isolated f tokens complaints kind span children)
      (hcs : ∀ c ∈ children, LineByLine f tokens complaints c) :
      LineByLine f tokens complaints (.node kind span children)

namespace Grammar

open ScriptSense.Tree (leavesOfAll)

section Reading

variable {f : String → Bool} {tokens : List Token} {levels : Nat} {kind : NodeKind}
  {body : Step Unit} {s : State}

instance : Steady (Reading tokens) where
  congr h heq := ⟨heq.1 ▸ h.rest, Steady.congr h.placed heq⟩
  shift {s} h := by
    have hrest : s.shift.rest = s.rest.drop 1 := State.rest_shiftMany 1 s
    exact ⟨hrest ▸ (List.drop_suffix 1 s.rest).trans h.rest, Steady.shift h.placed⟩

theorem withinLine_opened (kind : NodeKind) (h : WithinLine (kindAhead 0 s.rest)) :
    WithinLine (kindAhead 0 ((s.opened kind).inside #[]).rest) := by
  change WithinLine (kindAhead 0 (s.opened kind).rest)
  rwa [State.kindAhead_opened]

/-- Where the text ends, there is nothing left but trivia. -/
theorem isTrivia_of_kindAhead {ts : List Token} (hinner : ∀ t ∈ ts, t.kind ≠ .eof)
    (hend : kindAhead 0 ts = .eof) : ∀ t ∈ ts, t.kind.isTrivia = true := by
  induction ts with
  | nil => simp
  | cons u us ih =>
    rw [kindAhead] at hend
    split at hend
    · next hu =>
      refine fun t ht => (List.mem_cons.1 ht).elim (fun h => h ▸ hu) fun ht => ?_
      exact ih (fun t ht => hinner t (List.mem_cons_of_mem _ ht)) hend t ht
    · exact absurd hend (hinner u List.mem_cons_self)

/-- **What was consumed is a line**, unless a parenthesis was opened. -/
theorem LineBody.isLine (hbody : LineBody WithinLine body) (hs : Reading tokens s)
    (hparens : s.parens = 0) (hword : WithinLine (kindAhead 0 s.rest))
    (hfault : (node kind body s).2.fault = none)
    (hopen : ∀ t ∈ leavesOfAll (body ((s.opened kind).inside #[])).2.out.toList,
      t.kind ≠ .lParen) :
    IsLine tokens (leavesOfAll (body ((s.opened kind).inside #[])).2.out.toList) := by
  set inner := (s.opened kind).inside #[]
  set t := (body inner).2
  have hinner : Reading tokens inner := Steady.opened kind hs
  have hempty : leavesOfAll inner.out.toList = [] := by simp [inner, State.inside]
  have hcalm : inner.parens = 0 := (State.Later.opened kind s).parens.trans hparens
  -- What the body consumed is what the node has for leaves.
  obtain ⟨moved, hrest, hout⟩ := hbody.framed advances_frame inner
  rw [hempty, List.nil_append] at hout
  obtain ⟨before, htokens⟩ := hinner.rest
  rw [run_node] at hfault
  obtain ⟨new, hnew, line, ending, rfl, hline, hending⟩ := (hbody.ends []).run
    (fun _ => hcalm) ⟨⟨[], hempty, trivial⟩, withinLine_opened kind hword⟩ hfault
  rw [List.nil_append] at hnew
  have hstraight : ∀ t ∈ line, t.kind ≠ .newline :=
    hline.ne_newline fun t ht => hopen t (hnew ▸ List.mem_append_left _ ht)
  refine ⟨before, line, ending, t.rest, ?_, hnew, hstraight,
    hending.imp_right fun hend => ⟨hend.1, ?_⟩⟩
  · rw [hout, List.append_assoc, ← hrest, htokens]
  · have hplaced : t.Placed := (hbody.framed settles_frame inner hinner.placed).1
    exact isTrivia_of_kindAhead hplaced.inner hend.2

/-- **What is complained about on the way is inside the node.** -/
theorem LineBody.complaints_inside (hbody : LineBody WithinLine body) (hs : s.Placed)
    (hword : WithinLine (kindAhead 0 s.rest)) (hfault : (node kind body s).2.fault = none) :
    ∀ c ∈ (node kind body s).2.complaints.toList.drop s.complaints.size,
      (s.opened kind).offset ≤ c.span.start ∧ c.span.stop ≤ (node kind body s).2.offset := by
  set inner := (s.opened kind).inside #[]
  have hinner : inner.Placed := Steady.opened kind hs
  -- Entering a node makes no complaint.
  have hfirst : inner.complaints = s.complaints := by
    change (s.opened kind).complaints = _
    unfold State.opened
    split
    · rfl
    · exact State.shiftTrivia_eq State.complaints_shift s
  rw [run_node] at hfault ⊢
  -- What is new starts behind the start of the node. That it stops in front of its end is what
  -- closing the line gives.
  obtain ⟨-, new, hnew, hlower⟩ :=
    hbody.framed (pastFrame inner.offset) inner (hinner.past (withinLine_opened kind hword))
  have hupper := hbody.closes.stop_le hinner trivial hfault hnew
  change ∀ c ∈ (body inner).2.complaints.toList.drop s.complaints.size, _
  rw [hnew, ← hfirst, ← Array.length_toList, List.drop_left]
  exact fun c hc => ⟨hlower c hc, hupper c hc⟩

/-- However a statement of one line was built, the complaints are inside it. -/
theorem BuiltBy.inside {cs : List Complaint} {span : Span} {children : List Tree} {t : State}
    (h : BuiltBy f tokens cs kind (.node kind span children) s t) (hkind : kind.isSimple = true) :
    ∀ c ∈ t.complaints.toList.drop s.complaints.size,
      span.start ≤ c.span.start ∧ c.span.stop ≤ span.stop := by
  obtain ⟨levels, rfl⟩ := h.run
  obtain ⟨body, hrule, hbody, -⟩ :=
    lineStatement_node (r := Eq) (keepsLine_rules f levels) (rules_alike_self f levels) hkind
  have hfault := h.fault
  have hout := h.out
  rw [hrule] at hfault hout ⊢
  -- The run has built this very node, so its span is the one the run gives.
  have hnode : Tree.node kind span children = .node kind
      ⟨(s.opened kind).offset, (node kind body s).2.offset⟩
      (body ((s.opened kind).inside #[])).2.out.toList := by
    rw [run_node] at hout ⊢
    exact (Array.push_eq_push.1 hout).1.symm
  obtain ⟨-, rfl, -⟩ := Tree.node.inj hnode
  exact hbody.complaints_inside h.place.placed h.word hfault

/-- What the rule for a statement of one line builds stays in its line. -/
theorem LineBody.isolated (hkind : kind.isSimple = true) (hbody : LineBody WithinLine body)
    (hrule : lineStatement (rules f levels) kind = node kind body) (hs : Reading tokens s)
    (hparens : s.parens = 0) (hword : WithinLine (kindAhead 0 s.rest))
    (hfault : (node kind body s).2.fault = none) :
    Isolated f tokens (node kind body s).2.complaints.toList kind
      ⟨(s.opened kind).offset, (node kind body s).2.offset⟩
      (body ((s.opened kind).inside #[])).2.out.toList where
  line := hbody.isLine hs hparens hword hfault
  built := ⟨s, _, { place := hs, parens := hparens, word := hword, run := ⟨levels, by rw [hrule]⟩
                    fault := hfault, out := by rw [run_node]; rfl
                    complaints := List.prefix_refl _ }⟩
  inside _ _ h := h.inside hkind

/-- Complaints that come later do not matter. -/
theorem Isolated.mono {cs cs' : List Complaint} (hcs : cs <+: cs') {span : Span}
    {children : List Tree} (hkind : kind.isSimple = true)
    (h : Isolated f tokens cs kind span children) : Isolated f tokens cs' kind span children := by
  obtain ⟨hline, ⟨s, t, hbuilt⟩, -⟩ := h
  refine ⟨hline, ⟨s, t, { hbuilt with complaints := hbuilt.complaints.trans hcs }⟩, ?_⟩
  exact fun _ _ h => h.inside hkind

theorem lineByLine_mono {cs cs' : List Complaint} (hcs : cs <+: cs') {t : Tree}
    (h : t.LineByLine f tokens cs) : t.LineByLine f tokens cs' := by
  induction h with
  | leaf t => exact .leaf t
  | node hline _ ih => exact .node (fun hkind => (hline hkind).mono hcs hkind) ih

/-! ### All rules -/

instance : Hereditary fun cs t => Tree.LineByLine f tokens cs t where
  leaf _ t := .leaf t
  later hcs h := lineByLine_mono hcs h
  node span hkind hcs := by
    refine .node (fun hsimple => ?_) hcs
    rw [NodeKind.isCommon, hsimple] at hkind
    cases hkind

/-- A run beside itself that reads the tokens line by line. -/
abbrev Lined (f : String → Bool) (tokens : List Token) : State → State → Prop :=
  Alone (Reading tokens) fun cs t => t.LineByLine f tokens cs

theorem encloses_lined {kind : NodeKind} (hkind : kind.isSimple = false) :
    Encloses (Lined f tokens) kind := by
  refine encloses_alone fun _ _ _ hcs => .node (fun hsimple => ?_) hcs
  rw [hkind] at hsimple
  cases hsimple

instance : Encloses (Lined f tokens) .binExpr := encloses_lined rfl
instance : Encloses (Lined f tokens) .unaryExpr := encloses_lined rfl
instance : Encloses (Lined f tokens) .funcExpr := encloses_lined rfl

/-- A rule for statements of one line reads line by line. -/
theorem lineStatement_lined [(rules f levels).Coupled (Lined f tokens) (rules f levels)]
    (kind : NodeKind) : CoupledAt (Lined f tokens) WithinLine
      (lineStatement (rules f levels) kind) (lineStatement (rules f levels) kind) := by
  have hsimple {kind : NodeKind} (hkind : kind.isSimple = true) :
      CoupledAt (Lined f tokens) WithinLine (lineStatement (rules f levels) kind)
        (lineStatement (rules f levels) kind) := by
    obtain ⟨body, hrule, hbody, hcoupled⟩ := lineStatement_node (r := Lined f tokens)
      (keepsLine_rules f levels) (rules_alike_self f levels) hkind
    rw [hrule]
    refine ⟨Coupled.later_node hcoupled.later kind, Coupled.later_node hcoupled.later kind, ?_⟩
    rintro s _ ⟨rfl, hs⟩ hparens hahead hfault -
    -- The node is isolated whatever was built before it, so the whole list of nodes is lined.
    have hisolated := hbody.isolated hkind hrule hs.place hparens hahead hfault
    rw [run_node] at hisolated
    exact ⟨rfl, rfl, hcoupled.node_alone hs (fun _ => hparens) hfault fun hbuilt =>
      .node (fun _ => hisolated) hbuilt.out⟩
  cases hkind : kind.isSimple with
  | true => exact hsimple hkind
  | false =>
    rw [lineStatement_of_not_simple _ hkind]
    exact hsimple rfl

/-- **All rules read line by line.** -/
instance rules_lined (f : String → Bool) (tokens : List Token) (levels : Nat) :
    (rules f levels).Coupled (Lined f tokens) (rules f levels) := by
  induction levels with
  | zero => exact .exhausted _ f f
  | succ levels ih =>
    have hsingled : (rules f levels).Singled (Lined f tokens) (rules f levels) := .plain rfl
    have hlines : (rules f levels).SingledLines (Lined f tokens) (rules f levels) :=
      ⟨lineStatement_lined⟩
    exact .deeper

end Reading

end Grammar

open Grammar in
/-- **In the tree of every text, statements of one line stay in their lines**, whatever
names are known to be functions and whatever junk the lines hold. -/
theorem statements_stay_in_line (isFunction : String → Bool) (text : String) :
    (parseWith isFunction text).root.LineByLine isFunction ((tokens text).filter (·.kind != .eof))
      (parseWith isFunction text).complaints := by
  set start := State.initial (tokens text)
  set R := rules isFunction (levelsFor start.rest.length)
  have hsingled : R.Singled (Lined isFunction start.rest) R := .plain rfl
  have hlines : R.SingledLines (Lined isFunction start.rest) R := ⟨lineStatement_lined⟩
  have hscript : Coupled (Lined isFunction start.rest) true (script R) (script R) := .script R R
  obtain ⟨htiling, -⟩ := tokens_tiling text
  have hplaced : start.Placed :=
    ⟨htiling.chain, fun t ht => (htiling.significant t ht).1, Nat.le_refl 0⟩
  -- The script starts in front of the first token, with nothing built.
  have hstart : start.Has (Reading start.rest) fun cs t => t.LineByLine isFunction start.rest cs :=
    ⟨⟨List.suffix_refl _, hplaced⟩, fun c hc => absurd hc List.not_mem_nil⟩
  have hbuilt := hscript.alone hstart (fun _ => rfl) (fault_run_script isFunction (tokens text))
  refine .node (fun h => by cases h) fun c hc => ?_
  rw [State.toList_out_shiftMany, List.mem_append] at hc
  rcases hc with hc | hc
  · exact hbuilt.out c hc
  -- What is taken in behind the script are tokens, and these are lined as they are.
  · obtain ⟨t, -, rfl⟩ := List.mem_map.1 hc
    exact .leaf t

end ScriptSense
