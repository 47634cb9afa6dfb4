/-
A formula comes back from its text.

The text of a formula, written behind `let` in a script of one line, is read without
a complaint and means the formula. So the operators bind as the table of powers says,
to the left and to the right: parentheses stand only where the table asks for them,
and with one pair less some formula would come back as another.

The number of operators is bounded because nesting is: each operator takes at most
three levels.
-/
import ScriptSense.Proofs.Formula.Meaning
import ScriptSense.Proofs.Totality

set_option autoImplicit false

namespace ScriptSense

open Grammar

/-! ## From a text to what is seen of it, and back from the tree -/

namespace Grammar

/-- In front of a text, its tokens are seen. -/
theorem sight_initial (text : String) :
    (State.initial (tokens text)).sight = ⟨sighted text.toList, [], #[], 0, 0⟩ := by
  have hahead : ∀ ts : List Token, ((ts.filter (·.kind != .eof)).filter (!·.kind.isTrivia)).map
      Token.glyph = ts.filterMap Token.sighted := by
    intro ts
    induction ts with
    | nil => rfl
    | cons t ts ih =>
      rw [List.filterMap_cons, ← ih, Token.sighted]
      cases htrivia : t.kind.isTrivia <;> cases heof : t.kind == .eof <;> simp [htrivia, heof, bne]
  rw [State.sight, State.initial]
  simp only [hahead]
  rfl

/-- Where nothing is seen ahead, the root is what was built. -/
theorem bareOfAll_children_root (kind : NodeKind) {s : State} (h : s.sight.ahead = []) :
    Tree.bareOfAll (s.root kind).children = s.sight.built := by
  have hrest : s.rest.filter (!·.kind.isTrivia) = [] := List.map_eq_nil_iff.1 h
  have hmoved := Does.sight_shiftMany s.rest.length s fun t ht => by
    have := List.filter_eq_nil_iff.1 hrest t (List.mem_of_mem_take ht)
    simpa using this
  exact congrArg Sight.built hmoved

namespace Does

variable {gs : List Glyph} {bs : List Bare} {cs : Array Complaint} {d n : Nat}

/-- A line ends with its line break. -/
theorem lineEnd {text : String} :
    Does ⟨(.newline, text) :: gs, bs, cs, 0, d⟩ (lineEnd (rules noFunctions n)) ()
      ⟨gs, bs, cs, 0, d⟩ := by
  refine .bind (.eat rfl (.giving (.consumeBreak rfl rfl rfl) ?_)) (.ite_true rfl (.pure ()))
  simp [Sight.moved]

/-- The line with the name of the script. -/
theorem scriptName {word name text : String} :
    Does ⟨(.kwScriptName, word) :: (.ident, name) :: (.newline, text) :: gs, bs, cs, 0, d⟩
      (scriptName (rules noFunctions n)) ()
      ⟨gs, bs ++ [.node .scriptNameDecl [.leaf (.kwScriptName, word),
        .node .name [.leaf (.ident, name)]]], cs, 0, d⟩ := by
  have hname : Does ⟨(.ident, name) :: (.newline, text) :: gs, [.leaf (.kwScriptName, word)], cs, 0, d⟩
      (Grammar.declaredName .scriptName) ()
      ⟨(.newline, text) :: gs, [.leaf (.kwScriptName, word), .node .name [.leaf (.ident, name)]],
        cs, 0, d⟩ :=
    .bind (.isAt .ident) (.ite_true rfl
      (.giving (.node (by decide) (.consume rfl (by nofun) (.inl rfl))) rfl))
  exact .giving (.node (by decide) (.bind (.bump rfl rfl (by decide) (.inl rfl))
    (.bind hname .lineEnd))) rfl

/-- The statement with a formula behind `let`. -/
theorem letStatement {w : Written} (hw : w.Fits) (hdepth : w.depth ≤ nestingLimit)
    {word text : String} :
    Does ⟨(.kwLet, word) :: (w.glyphs ++ (.newline, text) :: gs), bs, cs, 0, 0⟩
      (letStatement (rules noFunctions n)) ()
      ⟨gs, bs ++ [.node .letStmt [.leaf (.kwLet, word), w.bare]], cs, 0, 0⟩ := by
  have hexpression : Does ⟨w.glyphs ++ (.newline, text) :: gs, [.leaf (.kwLet, word)], cs, 0, 0⟩
      ((rules noFunctions n).expression 0) ()
      ⟨(.newline, text) :: gs, [.leaf (.kwLet, word), w.bare], cs, 0, 0⟩ :=
    hw.reads.expression ⟨rfl, rfl, .inl rfl⟩ (by nofun) (by nofun) (by omega)
      fun _ _ => Nat.zero_le _
  exact .giving (.node (by decide) (.bind (.bump rfl rfl (by decide) (.inl rfl))
    (.bind hexpression .lineEnd))) rfl

/-- Such a statement is read in place of any statement. -/
theorem statement_let {w : Written} (hw : w.Fits) (hdepth : w.depth ≤ nestingLimit)
    {word text : String} :
    Does ⟨(.kwLet, word) :: (w.glyphs ++ (.newline, text) :: gs), bs, cs, 0, 0⟩
      (rules noFunctions n).statement ()
      ⟨gs, bs ++ [.node .letStmt [.leaf (.kwLet, word), w.bare]], cs, 0, 0⟩ := by
  cases n with
  | zero => exact fun s _ hfault => absurd hfault (State.fault_giveUp_ne_none _ s)
  | succ n => exact .ofCurrent (Tame.expressionStatement _ n) (.letStatement hw hdepth)

/-- A turn of the loop over the lines of a script. -/
theorem scriptTurn_let {w : Written} (hw : w.Fits) (hdepth : w.depth ≤ nestingLimit)
    {word text : String} :
    Does ⟨(.kwLet, word) :: (w.glyphs ++ (.newline, text) :: gs), bs, cs, 0, 0⟩
      (scriptTurn (rules noFunctions n)) true
      ⟨gs, bs ++ [.node .letStmt [.leaf (.kwLet, word), w.bare]], cs, 0, 0⟩ := by
  refine .bind .atEnd (.ite_false Bool.false_ne_true (.bind (.eat_missing (by nofun)) ?_))
  refine .ite_false Bool.false_ne_true (.bind (.ofCurrent ?_ (statement_let hw hdepth)) (.pure true))
  exact inferInstanceAs (Tame (complain .misplacedStatement >>= fun _ =>
    (rules noFunctions n).statement))

/-- A script of two lines: its name, and a formula behind `let`. -/
theorem script {w : Written} (hw : w.Fits) (hdepth : w.depth ≤ nestingLimit)
    {word name text word' text' : String} :
    Does ⟨(.kwScriptName, word) :: (.ident, name) :: (.newline, text) :: (.kwLet, word')
        :: (w.glyphs ++ [(.newline, text')]), [], cs, 0, 0⟩
      (script (rules noFunctions n)) ()
      ⟨[], [.node .scriptNameDecl [.leaf (.kwScriptName, word), .node .name [.leaf (.ident, name)]],
        .node .letStmt [.leaf (.kwLet, word'), w.bare]], cs, 0, 0⟩ := by
  have hend {bs : List Bare} : Does ⟨[], bs, cs, 0, 0⟩ (scriptTurn (rules noFunctions n)) false
      ⟨[], bs, cs, 0, 0⟩ := .bind .atEnd (.ite_true rfl (.pure false))
  refine .bind (.loop_stop (.eat_missing (by nofun))) (.bind (.isAt _) (.ite_true rfl ?_))
  exact .bind .scriptName (.loop_turn (scriptTurn_let hw hdepth) fun turns =>
    .iterate_stop (.bind hend (.pure none)))

end Does

end Grammar

/-! ## The theorem -/

/-- The script of one line with a formula behind `let`. -/
def Formula.script (blank : String) (e : Formula) : String :=
  "scn T\nlet " ++ e.print blank ++ "\n"

/-- What is seen of the script. -/
theorem Formula.sighted_script {blank : String} (hblank : ∀ c ∈ blank.toList, isGap c = true)
    (e : Formula) : sighted (e.script blank).toList
      = (.kwScriptName, "scn") :: (.ident, "T") :: (.newline, "\n") :: (.kwLet, "let")
        :: (e.written.glyphs ++ [(.newline, "\n")]) := by
  have hscn {rest : List Char} : sighted (['s', 'c', 'n'] ++ ' ' :: rest)
      = (.kwScriptName, "scn") :: sighted (' ' :: rest) :=
    sighted_word (by decide) (by decide) (by decide) (by rfl)
  have hname {rest : List Char} : sighted (['T'] ++ '\n' :: rest)
      = (.ident, "T") :: sighted ('\n' :: rest) :=
    sighted_word (by decide) (by decide) (by decide) (by rfl)
  have hlet {rest : List Char} : sighted (['l', 'e', 't'] ++ ' ' :: rest)
      = (.kwLet, "let") :: sighted (' ' :: rest) :=
    sighted_word (by decide) (by decide) (by decide) (by rfl)
  have hend : EndsWord ['\n'] := rfl
  calc sighted (e.script blank).toList
      = sighted (['s', 'c', 'n'] ++ ' ' :: (['T'] ++ '\n' :: (['l', 'e', 't']
          ++ ' ' :: ((e.written.text blank).toList ++ ['\n'])))) := by
        simp [script, print]
    _ = (.kwScriptName, "scn") :: (.ident, "T") :: (.newline, "\n") :: (.kwLet, "let")
          :: sighted ((e.written.text blank).toList ++ ['\n']) := by
        rw [hscn, sighted_space, hname, sighted_line rfl, hlet, sighted_space]
    _ = _ := by
        rw [Written.sighted_text hblank e.fits_written hend (by simp), sighted_line rfl, sighted_nil]

/-- The tree of the script, without its layout. -/
def Written.scriptBare (w : Written) : Bare :=
  .node .script [.node .scriptNameDecl [.leaf (.kwScriptName, "scn"), .node .name [.leaf (.ident, "T")]],
    .node .letStmt [.leaf (.kwLet, "let"), w.bare]]

/-- The script is read without a complaint. -/
theorem Formula.parse_script {blank : String} (hblank : ∀ c ∈ blank.toList, isGap c = true)
    {e : Formula} (hdepth : e.written.depth ≤ nestingLimit) :
    (parse (e.script blank)).complaints = []
      ∧ (parse (e.script blank)).root.bare = [e.written.scriptBare] := by
  have hinitial := sight_initial (e.script blank)
  rw [e.sighted_script hblank] at hinitial
  obtain ⟨-, hsight⟩ := Does.script e.fits_written hdepth _ hinitial (fault_run_script noFunctions _)
  refine ⟨congrArg Array.toList (congrArg Sight.complaints hsight), ?_⟩
  have hbare := bareOfAll_children_root .script (congrArg Sight.ahead hsight)
  rw [hsight] at hbare
  exact (Tree.bare_node _ _ _).trans (congrArg (fun bs => [Bare.node .script bs]) hbare)

open ScriptSense.Tree Lower in
/-- The tree of the script means one statement with the formula. -/
theorem Written.ofTree?_scriptBare {w : Written} {root : Tree} (ht : root.Tiled)
    (hroot : root.bare = [w.scriptBare]) :
    ∃ script lowered span, Script.ofTree? root = some script
      ∧ script.body = [.mk (.evaluate lowered) span] ∧ w.formula.Denotes lowered := by
  obtain ⟨span, cs, rfl, hcs⟩ := eq_node_of_bare hroot
  -- The name of the script.
  obtain ⟨decl, hdecl, hdeclBare⟩ := exists_child_of_bare
    ((bare_nodeWhere? (.node .script span cs) (· == .scriptNameDecl)).trans
      (by rw [children, hcs]; rfl))
  obtain ⟨dspan, dcs, hdval, hdcs⟩ := eq_node_of_bare hdeclBare
  obtain ⟨name, hname, hnameBare⟩ := exists_child_of_bare
    ((bare_nodeWhere? decl.val (· == .name)).trans (by rw [hdval, children, hdcs]; rfl))
  obtain ⟨ident, hident, -, -⟩ := exists_sign hnameBare
    (TokenKind.isSignificant_of_beq .ident rfl) rfl rfl rfl
  have hdeclared : Script.declaredName? (.node .script span cs) = some ident := by
    have hdecl : View.Script.nameDecl? (.node .script span cs) = some decl := hdecl
    have hname : View.ScriptNameDecl.name? decl.val = some name := hname
    have hident : View.Identifier.token? name.val = some ident := hident
    simp [Script.declaredName?, hdecl, hname, hident]
  -- Its one statement.
  obtain ⟨c, hc, hcBare⟩ : ∃ c, View.Script.statements (.node .script span cs) = [c]
      ∧ c.val.bare = [.node .letStmt [.leaf (.kwLet, "let"), w.bare]] := by
    refine exists_only_child_of_bare ?_
    rw [bare_nodesWhere, children, hcs]
    rfl
  obtain ⟨inner, hinner, hinnerBare⟩ := exists_expression [.leaf (.kwLet, "let")] hcBare rfl
  have htiled := ht.of_mem_children c.property
  have hstatement : Finds (statement .root c.val) fun s => ∃ lowered span,
      s = .mk (.evaluate lowered) span ∧ w.formula.Denotes lowered := by
    obtain ⟨cspan, ccs, hcval, -⟩ := eq_node_of_bare hcBare
    have hkind : c.val.kind = .node .letStmt := by rw [hcval]; rfl
    rw [Lower.statement]
    simp only [hkind]
    refine .given hinner (.bind (w.finds_expr (htiled.of_mem_children inner.property) hinnerBare .root)
      fun lowered hlowered => .pure ⟨lowered, c.val.span, rfl, hlowered⟩)
  obtain ⟨_, gathered, hrun, lowered, lspan, rfl, hdenotes⟩ :=
    hstatement ⟨.ofRoot ⟨.script, span⟩, .empty⟩
  refine ⟨⟨ident.text, ident.span, [.mk (.evaluate lowered) lspan], gathered.scopes,
    gathered.external.values⟩, lowered, lspan, ?_, rfl, hdenotes⟩
  have hstatements : (Lower.statements (.node .script span cs)).run ⟨.ofRoot ⟨.script, span⟩, .empty⟩
      = ([.mk (.evaluate lowered) lspan], gathered) := by
    rw [Lower.statements, hc, run_filterMapM, afterEach, hrun]
    rfl
  simp [Script.ofTree?, hdeclared, Tree.key?, hstatements]

/-- **A formula comes back from its text.** With no more than forty operators, written
with parentheses only where the table of powers asks for them, it is read without a
complaint, and the one statement of the script means it. What stands between a bracket
and an operator behind it is left open: nothing, a space or any other blank. -/
theorem formula_reads_back (e : Formula) (hsize : e.operators ≤ 40) (blank : String)
    (hblank : ∀ c ∈ blank.toList, isGap c = true) :
    (parse (e.script blank)).complaints = []
      ∧ ∃ script lowered span, Script.ofTree? (parse (e.script blank)).root = some script
        ∧ script.body = [.mk (.evaluate lowered) span] ∧ e.Denotes lowered := by
  have hdepth : e.written.depth ≤ nestingLimit := by
    have := e.depth_written_le
    have : nestingLimit = 128 := rfl
    omega
  obtain ⟨hclean, hbare⟩ := Formula.parse_script hblank hdepth
  obtain ⟨script, lowered, span, hscript, hbody, hdenotes⟩ :=
    Written.ofTree?_scriptBare (tiled_parseWith _ _) hbare
  rw [e.formula_written] at hdenotes
  exact ⟨hclean, script, lowered, span, hscript, hbody, hdenotes⟩

/-- `a - - (a - 1)`, which keeps the parentheses that its operand would lose. -/
def Formula.difference : Formula :=
  let a : Name := ⟨"a", by decide +kernel, by simp⟩
  .binary .sub (.name a) (.unary .neg
    (.binary .sub (.name a) (.number (.decimal ['1'] (by decide) (by simp) (by decide)))))

theorem formula_reads_back_at_difference :
    Formula.difference.operators ≤ 40 ∧ (∀ c ∈ " ".toList, isGap c = true)
      ∧ (parse "scn T\nlet a - - (a - 1)\n").complaints = []
      ∧ ∃ script lowered span, Script.ofTree? (parse "scn T\nlet a - - (a - 1)\n").root = some script
        ∧ script.body = [.mk (.evaluate lowered) span] ∧ Formula.difference.Denotes lowered := by
  have htext : Formula.difference.script " " = "scn T\nlet a - - (a - 1)\n" := by decide
  rw [← htext]
  have hblank : ∀ c ∈ " ".toList, isGap c = true := List.all_eq_true.1 rfl
  exact ⟨by decide, hblank, formula_reads_back Formula.difference (by decide) " " hblank⟩

end ScriptSense
