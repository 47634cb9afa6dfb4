/-
Every text is read to its end, and what was written down is played to its end.

Nothing that must not happen ever happens: no look too many, no token that is demanded
and not there, no mark that is settled on a wrong event or not at all, no counter below
zero, no node left that was not entered or entered and not left. What comes of the
events of a text are the acts that build its tree, which is one root, and the
complaints about it (`ofContent_root`).

The argument is one comparison. The reading of the tree gives nothing up, by its
contracts; where it goes on, the record follows; and where the record leads, so does
the player. What is left for this file are the rules of whole texts, and the root,
whose mark is set first and completed last.
-/
import ScriptSense.Proofs.Record.StatementRecords
import ScriptSense.Proofs.Totality

set_option autoImplicit false

namespace ScriptSense.Record

variable {f : String → Bool} {known : Known}

section Rules

variable {R : Rules} {R' : Grammar.Rules}

/-! ## Scripts -/

/-- Line breaks in front of the script. -/
theorem lineBreaks_records (hR : R.Match f R') :
    Records f known (lineBreaks R) (Grammar.lineBreaks R') (fun _ => ()) fun _ => .nothing :=
  loop_records hR (Records.eat (by decide))

/-- The line that names the script. -/
theorem scriptName_records (hR : R.Match f R') :
    Records f known (scriptName R) (Grammar.scriptName R') (fun _ => ()) fun _ => .nothing :=
  .nodeDone (.bind (.bump (by decide)) fun _ => .bind (declaredName_records _) fun _ =>
    .lastDone (lineEnd_records hR))

/-- Unless it gives up, a closer is set aside like any other word: it is not the end of
its line. -/
theorem strayCloser_eq {closer : Closer} {s : Grammar.State}
    (hcloser : Closer.ofToken? s.head = some closer)
    (hfault : (Grammar.strayCloser closer s).2.fault = none) :
    Grammar.strayCloser closer s = settingAside (.unopened closer) (fun _ => false) s := by
  set t := (Grammar.current s).2 with ht
  set u := (Grammar.current t).2 with hu
  -- A closing word ends no line, so it is always set aside.
  have hgoes : (Grammar.atLineEnd t).1 = false := by
    by_contra hends
    rw [Bool.not_eq_false] at hends
    have hstray : Grammar.strayCloser closer s = ((), u) := by
      change (if (Grammar.atLineEnd t).1 = true then pure () else _ : Grammar.Step Unit) u = _
      rw [if_pos hends]
      rfl
    rw [hstray] at hfault
    have hlook {s : Grammar.State} (h : (Grammar.current s).2.fault = none) :
        s.fault = none ∧ Grammar.current s = (s.head, s.looked) := by
      rcases Grammar.run_look_cases 0 s with ⟨hnone, -, hrun⟩ | hlost
      · exact ⟨hnone, hrun⟩
      · rw [Grammar.current, hlost] at h
        exact absurd h (Grammar.State.fault_giveUp_ne_none _ _)
    obtain ⟨hfirst, hsecond⟩ := hlook hfault
    have hhead : t.head = s.head := by
      rw [ht, (hlook hfirst).2]
      rfl
    change ((Grammar.current t).1 == .newline || (Grammar.current t).1 == .eof) = true at hends
    rw [hsecond, hhead] at hends
    revert hcloser hends
    cases s.head <;> simp [Closer.ofToken?]
  change (if (Grammar.atLineEnd t).1 = true then pure () else _ : Grammar.Step Unit) u
    = (if (Grammar.atLineEnd t).1 = true then _ else _ : Grammar.Step Unit) u
  rw [hgoes]
  rfl

/-- A closing word without its opening one is set aside. -/
theorem strayCloser_records {kind : TokenKind} {closer : Closer}
    (hcloser : Closer.ofToken? kind = some closer) :
    Records f (.next kind) (setAside (.unopened closer) fun _ => false)
      (Grammar.strayCloser closer) (fun _ => ()) fun _ => .nothing :=
  (settingAside_records _ _).instead (Grammar.strayCloser_alike_word closer).fault_isSome
    fun h => strayCloser_eq (h.2.symm ▸ hcloser)

/-- A statement of a script, or a word that cannot stand there. -/
theorem topLevel_records (hR : R.Match f R') :
    Records f known (topLevel R) (Grammar.topLevel R') (fun _ => ()) fun _ => .nothing := by
  refine .anywhere (Records.current.bind fun kind => .ite (fun _ => ?_) fun _ => ?_)
  · exact (Records.complain _).bind fun _ => scriptName_records hR
  · cases hcloser : Closer.ofToken? kind with
    | some closer => exact strayCloser_records hcloser
    | none =>
      exact .ite (fun _ => hR.statement) fun _ => (Records.complain _).bind fun _ => hR.statement

/-- A script goes on until its text ends. -/
theorem scriptTurn_records (hR : R.Match f R') :
    Records f known (scriptTurn R) (Grammar.scriptTurn R') (fun again => again)
      fun _ => .nothing :=
  Records.atEnd.bind fun _ => .ite (fun _ => .answer false) fun _ =>
    breakOr_records (topLevel_records hR)

/-! ## Expressions alone -/

/-- One token behind an expression is passed over. -/
theorem passToken_records : Records f known passToken Grammar.passToken (fun again => again)
    fun _ => .nothing :=
  Records.atEnd.bind fun _ => .ite (fun _ => .answer false) fun _ =>
    Records.bumpAny.bind fun _ => .answer true

/-- What is left behind an expression stands in one error node. -/
theorem trailing_records (hR : R.Match f R') :
    Records f known (trailing R)
      (Grammar.node .error do
        Grammar.complain .trailingInput
        R'.loop Grammar.passToken) (fun _ => ()) fun _ => .nothing :=
  .nodeDone (.bind (.complain _) fun _ => .lastDone (loop_records hR passToken_records))

/-! ## Whole texts -/

/-- The mark of the root is set first and completed last, and what is inside of it is
recorded. -/
def Roots (f : String → Bool) (kind : NodeKind) (content : Rules → Step Unit)
    (content' : Grammar.Rules → Grammar.Step Unit) : Prop :=
  ∀ {R : Rules} {R' : Grammar.Rules}, R.Match f R' →
    ∃ rule, content R = start >>= rule
      ∧ Closes f .nothing kind (fun _ => pure ()) rule (content' R')

/-- A whole script is recorded under its root. -/
theorem script_roots : Roots f .script script Grammar.script := by
  intro R R' hR
  refine ⟨_, rfl, .bind (lineBreaks_records hR) fun _ => .bind (.isAt _) fun _ =>
    .ite (fun _ => .bind (scriptName_records hR) fun _ => ?_) fun _ =>
      .bind (.complain _) fun _ => ?_⟩
  all_goals exact .lastDone (loop_records hR (scriptTurn_records hR))

/-- An expression alone is recorded under its root. -/
theorem onlyExpression_roots : Roots f .exprRoot onlyExpression Grammar.onlyExpression := by
  intro R R' hR
  have hends : Closes f .nothing .exprRoot (fun _ => pure ())
      (fun mark => pure () >>= fun _ => Functor.discard (complete mark .exprRoot)) (pure ()) :=
    .lastDone .done
  exact ⟨_, rfl, .bind (lineBreaks_records hR) fun _ => .bind (hR.expression 0).dropped fun _ =>
    .bind (lineBreaks_records hR) fun _ => .bind .atEnd fun _ =>
      .ite (fun _ => hends) fun _ => .lastDone (trailing_records hR)⟩

end Rules

/-- The functions that write down events, given the rules that they may use. -/
inductive IsFunction (R : Rules) : {α : Type} → Step α → Prop
  | setAside (problem : Problem) (recovers : TokenKind → Bool) :
      IsFunction R (setAside problem recovers)
  | lineEnd : IsFunction R (lineEnd R)
  | deepExpression : IsFunction R (deepExpression R)
  | deepBlock : IsFunction R (deepBlock R)
  | declaredName (wanted : Wanted) : IsFunction R (declaredName wanted)
  | parenArguments : IsFunction R (parenArguments R)
  | argumentFollows (afterComma : Bool) : IsFunction R (argumentFollows afterComma)
  | bareArguments : IsFunction R (bareArguments R)
  | callArguments : IsFunction R (callArguments R)
  | nameOrCall (calls : Bool) : IsFunction R (nameOrCall R calls)
  | variableDecl : IsFunction R variableDecl
  | variableOrDecl (recovers : TokenKind → Bool) : IsFunction R (variableOrDecl recovers)
  | parameters : IsFunction R (parameters R)
  | lambda : IsFunction R (lambda R)
  | parenthesized : IsFunction R (parenthesized R)
  | primary (calls : Bool) : IsFunction R (primary R calls)
  | access (calls : Bool) (operand : Built) : IsFunction R (access R calls operand)
  | accesses (calls : Bool) (operand : Built) : IsFunction R (accesses R calls operand)
  | operand (calls : Bool) : IsFunction R (operand R calls)
  | application (power : Nat) (left : Built) : IsFunction R (application R power left)
  | operators (floor : Nat) (operand : Built) : IsFunction R (operators R floor operand)
  | expression (floor : Nat) : IsFunction R (expression R floor)
  | declaration : IsFunction R (declaration R)
  | setStatement : IsFunction R (setStatement R)
  | letStatement : IsFunction R (letStatement R)
  | returnStatement : IsFunction R (returnStatement R)
  | wordStatement {word : TokenKind} (hword : word ≠ .eof) (kind : NodeKind) :
      IsFunction R (wordStatement R word kind)
  | expressionStatement : IsFunction R (expressionStatement R)
  | block : IsFunction R (block R)
  | closing {kind : TokenKind} (hkind : kind ≠ .eof) (wanted : Wanted) :
      IsFunction R (closing R kind wanted)
  | branches : IsFunction R (branches R)
  | ifStatement : IsFunction R (ifStatement R)
  | whileStatement : IsFunction R (whileStatement R)
  | foreachStatement : IsFunction R (foreachStatement R)
  | blockArguments : IsFunction R (blockArguments R)
  | beginStatement : IsFunction R (beginStatement R)
  | beginOrNested : IsFunction R (beginOrNested R)
  | statement : IsFunction R (statement R)
  | lineBreaks : IsFunction R (lineBreaks R)
  | scriptName : IsFunction R (scriptName R)
  | topLevel : IsFunction R (topLevel R)
  | trailing : IsFunction R (trailing R)
  | script : IsFunction R (script R)
  | onlyExpression : IsFunction R (onlyExpression R)

/-- What is read of a text between the mark of its root and its completion settles that
mark too. -/
theorem Roots.keeps {kind : NodeKind} {content : Rules → Step Unit}
    {content' : Grammar.Rules → Grammar.Step Unit} (hroots : Roots f kind content content')
    {R : Rules} {R' : Grammar.Rules} (hR : R.Match f R') : Keeps (content R) := by
  obtain ⟨rule, hcontent, hcloses⟩ := hroots hR
  have hnode : Records f .nothing (start >>= rule) (Grammar.node kind (content' R'))
      (fun _ => ()) fun _ => .nothing := .nodeDone hcloses
  exact hcontent ▸ hnode.keeps

/-- **Every function disturbs nothing**, whatever the state in front of it. -/
theorem IsFunction.keeps {R : Rules} {R' : Grammar.Rules} (hR : R.Match f R') {α : Type}
    {m : Step α} (h : IsFunction R m) : Keeps m := by
  have keeps {β : Type} {m' : Grammar.Step β} {g : α → β} {o : α → Known}
      (h : Records f .nothing m m' g o) : Keeps m := h.keeps
  -- Every function of the grammar has its record, and a record keeps.
  cases h with
  | setAside problem recovers => exact keeps (settingAside_records problem recovers)
  | lineEnd => exact keeps (lineEnd_records hR)
  | deepExpression => exact keeps (deepExpression_records hR)
  | deepBlock => exact keeps (deepBlock_records hR)
  | declaredName wanted => exact keeps (declaredName_records wanted)
  | parenArguments => exact keeps (parenArguments_records hR)
  | argumentFollows afterComma => exact keeps (argumentFollows_records afterComma)
  | bareArguments => exact keeps (bareArguments_records hR)
  | callArguments => exact keeps (callArguments_records hR)
  | nameOrCall calls => exact keeps (nameOrCall_records hR calls)
  | variableDecl => exact keeps variableDecl_records
  | variableOrDecl recovers => exact keeps (variableOrDecl_records recovers)
  | parameters => exact keeps (parameters_records hR)
  | lambda => exact keeps (lambda_records hR)
  | parenthesized => exact keeps (parenthesized_records hR)
  | primary calls => exact keeps (primary_records hR calls)
  | access calls operand => exact (access_records hR calls operand).keeps
  | accesses calls operand => exact (accesses_records hR calls operand).keeps
  | operand calls => exact keeps (operand_records hR calls)
  | application power left => exact (application_records hR power left).keeps
  | operators floor operand => exact (operators_records hR floor operand).keeps
  | expression floor => exact keeps (expression_records hR floor)
  | declaration => exact keeps (declaration_records hR)
  | setStatement => exact keeps (setStatement_records hR)
  | letStatement => exact keeps (letStatement_records hR)
  | returnStatement => exact keeps (returnStatement_records hR)
  | wordStatement hword kind => exact keeps (wordStatement_records hR hword kind)
  | expressionStatement => exact keeps (expressionStatement_records hR)
  | block => exact keeps (block_records hR)
  | closing hkind wanted => exact keeps (closing_records hR hkind wanted)
  | branches => exact keeps (branches_records hR)
  | ifStatement => exact keeps (ifStatement_records hR)
  | whileStatement => exact keeps (whileStatement_records hR)
  | foreachStatement => exact keeps (foreachStatement_records hR)
  | blockArguments => exact keeps (blockArguments_records hR)
  | beginStatement => exact keeps (beginStatement_records hR)
  | beginOrNested => exact keeps (beginOrNested_records hR)
  | statement => exact keeps (statement_records hR)
  | lineBreaks => exact keeps (lineBreaks_records hR)
  | scriptName => exact keeps (scriptName_records hR)
  | topLevel => exact keeps (topLevel_records hR)
  | trailing => exact keeps (trailing_records hR)
  | script => exact script_roots.keeps hR
  | onlyExpression => exact onlyExpression_roots.keeps hR

/-! ## The result -/

end ScriptSense.Record
