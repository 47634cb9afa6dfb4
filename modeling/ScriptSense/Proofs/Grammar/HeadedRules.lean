/-
The rules build nodes whose parts stand where they should.

One instance for each rule, in the order of the grammar. Most rules build no node
with a block, and what they are put together with decides. The seven that do are
gone through step by step: what stands in front of the block, what behind it.
-/
import ScriptSense.Proofs.Grammar.Headed
import ScriptSense.Proofs.Totality

set_option autoImplicit false

namespace ScriptSense

namespace NodeKind

/-! Nodes without a block and without a name of their own. -/

instance : Fact (error.isPlain = true) := ⟨rfl⟩
instance : Fact (stmtList.isPlain = true) := ⟨rfl⟩
instance : Fact (varDecl.isPlain = true) := ⟨rfl⟩
instance : Fact (paramList.isPlain = true) := ⟨rfl⟩
instance : Fact (argList.isPlain = true) := ⟨rfl⟩
instance : Fact (funcExpr.isPlain = true) := ⟨rfl⟩
instance : Fact (parenExpr.isPlain = true) := ⟨rfl⟩
instance : Fact (literal.isPlain = true) := ⟨rfl⟩
instance : Fact (memberExpr.isPlain = true) := ⟨rfl⟩
instance : Fact (unaryExpr.isPlain = true) := ⟨rfl⟩
instance : Fact (binExpr.isPlain = true) := ⟨rfl⟩
instance : Fact (varDeclStmt.isPlain = true) := ⟨rfl⟩
instance : Fact (setStmt.isPlain = true) := ⟨rfl⟩
instance : Fact (letStmt.isPlain = true) := ⟨rfl⟩
instance : Fact (returnStmt.isPlain = true) := ⟨rfl⟩
instance : Fact (breakStmt.isPlain = true) := ⟨rfl⟩
instance : Fact (continueStmt.isPlain = true) := ⟨rfl⟩
instance : Fact (exprStmt.isPlain = true) := ⟨rfl⟩
instance : Fact (scriptNameDecl.isPlain = true) := ⟨rfl⟩

end NodeKind

namespace Grammar

variable {α β σ : Type}

/-- The rules of a level build formed nodes only. -/
class Rules.Formal (R : Rules) : Prop where
  statement : Grammar.Formal R.statement
  block : Grammar.Formal R.block
  branches : Grammar.Formal R.branches
  expression (floor : Nat) : Grammar.Formal (R.expression floor)
  operand (calls : Bool) : Grammar.Formal (R.operand calls)
  /-- A block is one node. -/
  adds_block {p : Tree → Prop} (hleaf : ∀ t : Token, t.kind.isTrivia = true → p (.leaf t))
    (hnode : ∀ span cs, p (.node .stmtList span cs)) : Adds p R.block

attribute [instance] Rules.Formal.statement Rules.Formal.block Rules.Formal.branches
  Rules.Formal.expression Rules.Formal.operand

namespace Formal

/-- A step and what comes after it, where that is looked at by cases. -/
theorem andThen {m : Step α} {f : α → Step β} [Formal m] (hf : ∀ a, Formal (f a)) :
    Formal (m >>= f) :=
  bind m f

/-! ## Tokens -/

instance isAt (kind : TokenKind) : Formal (isAt kind) := by
  unfold Grammar.isAt
  infer_instance

instance atEnd : Formal atEnd := isAt .eof

instance atLineEnd : Formal atLineEnd := by
  unfold Grammar.atLineEnd
  infer_instance

instance bumpAny : Formal bumpAny := by
  unfold Grammar.bumpAny
  infer_instance

instance eat (kind : TokenKind) : Formal (eat kind) := by
  unfold Grammar.eat
  infer_instance

instance bump (kind : TokenKind) : Formal (bump kind) := by
  unfold Grammar.bump
  infer_instance

instance expect (kind : TokenKind) (wanted : Wanted) : Formal (expect kind wanted) := by
  unfold Grammar.expect
  infer_instance

variable (R : Rules)

instance loopFrom (x : σ) (step : σ → Step (Option σ)) [∀ x, Formal (step x)] :
    Formal (R.loopFrom x step) :=
  iterate step R.turns x

instance loop (step : Step Bool) [Formal step] : Formal (R.loop step) := by
  unfold Rules.loop
  infer_instance

instance breakOr (step : Step Unit) [Formal step] : Formal (breakOr step) := by
  unfold Grammar.breakOr
  infer_instance

/-! ## Recovery -/

instance setAside (wanted : Wanted) (recovers : TokenKind → Bool) : Formal (setAside wanted recovers) := by
  unfold Grammar.setAside
  infer_instance

instance passInLine : Formal passInLine := by
  unfold Grammar.passInLine
  infer_instance

instance lineEnd : Formal (lineEnd R) := by
  unfold Grammar.lineEnd
  infer_instance

instance closing (R : Rules) (kind : TokenKind) (wanted : Wanted) : Formal (closing R kind wanted) := by
  unfold Grammar.closing
  infer_instance

instance skipToken (opened : Nat) : Formal (skipToken opened) := by
  unfold Grammar.skipToken
  refine andThen fun ends => ?_
  split
  · infer_instance
  · exact andThen fun kind => by split <;> infer_instance

instance deepExpression : Formal (deepExpression R) := by
  unfold Grammar.deepExpression
  infer_instance

instance skipKind (opened : Nat) (kind : TokenKind) : Formal (skipKind opened kind) := by
  unfold Grammar.skipKind
  split <;> infer_instance

instance skipWord (opened : Nat) : Formal (skipWord opened) := by
  unfold Grammar.skipWord
  infer_instance

instance deepBlock : Formal (deepBlock R) := by
  unfold Grammar.deepBlock
  infer_instance

/-- A name that is used is the identifier that is ahead. -/
instance nameUse : Formal (Grammar.node .nameRef (Grammar.bump .ident)) := by
  refine node_of_children _ nofun fun _ s hs hfault => ?_
  obtain ⟨hthere, hbump⟩ := bump_sound hfault
  rw [hbump] at hfault ⊢
  rcases toList_out_eat (by decide) hfault with ⟨hmissing, -⟩ | ⟨-, before, t, after, hout, ht, hlayout⟩
  · rw [hthere] at hmissing
    cases hmissing
  · exact ⟨before, t, after, by rw [hout, hs]; rfl, ht, hlayout⟩

theorem run_declaredName (wanted : Wanted) (s : State) : Grammar.declaredName wanted s
    = if (Grammar.current s).1 = .ident then
        Grammar.node .name (modify State.consume) (Grammar.current s).2
      else Grammar.complain (.missing wanted) (Grammar.current s).2 := by
  have hstep : Grammar.declaredName wanted s = (if (Grammar.current s).1 == .ident then
      Grammar.node .name (modify State.consume) else Grammar.complain (.missing wanted) : Step Unit)
        (Grammar.current s).2 := rfl
  rw [hstep]
  by_cases h : (Grammar.current s).1 = .ident <;> simp [h]

theorem formed_name {s : State} (hfound : (Grammar.current s).1 = .ident)
    (h : (Grammar.node .name (modify State.consume) (Grammar.current s).2).2.fault = none)
    (hs : ∀ c ∈ s.out.toList, c.Formed) :
    ∀ c ∈ (Grammar.node .name (modify State.consume) (Grammar.current s).2).2.out.toList, c.Formed := by
  obtain ⟨hahead, hout⟩ := current_sound (unbroken_node h)
  refine formed_node h nofun (fun _ => ?_) (by rwa [hout])
  obtain ⟨before, next, after, hconsume, hbefore, hafter, hnext, hsome⟩ :=
    (((Grammar.current s).2.opened .name).inside #[]).toList_out_consume
  have hkind : kindAhead 0 (((Grammar.current s).2.opened .name).inside #[]).rest = .ident :=
    (State.kindAhead_opened .name _).trans (hahead.symm.trans hfound)
  obtain ⟨t, rfl⟩ := hsome (by rw [hkind]; decide)
  refine ⟨before, t, after, ?_, (hnext t (List.mem_singleton_self t)).trans hkind, hbefore, hafter⟩
  rw [run_modify, hconsume]
  simp [State.inside]

/-- A name that is declared is the identifier that was found ahead. -/
instance declaredName (wanted : Wanted) : Formal (declaredName wanted) where
  unbroken s h := by
    rw [run_declaredName] at h
    split at h
    · exact current.unbroken s (unbroken_node h)
    · exact current.unbroken s h
  kept s := by
    rw [run_declaredName]
    split
    · exact fun front m h => kept_node _ _ _ front m (current.kept s front m h)
    · exact current.kept s
  formed s h hs := by
    rw [run_declaredName] at h ⊢
    split at h
    · next hfound =>
      rw [if_pos hfound]
      exact formed_name hfound h hs
    · next hfound =>
      rw [if_neg hfound]
      exact (complain _).formed _ h (by rwa [(current_sound (s := s) h).2])

/-! ## Names, calls and parameters -/

variable [R.Formal]

instance parenArgument : Formal (parenArgument R) := by
  unfold Grammar.parenArgument
  dsimp only
  exact andThen fun _ => by split <;> infer_instance

instance parenArguments : Formal (parenArguments R) := by
  unfold Grammar.parenArguments
  infer_instance

instance argumentFollows (afterComma : Bool) : Formal (argumentFollows afterComma) := by
  unfold Grammar.argumentFollows
  infer_instance

instance bareArgument (afterComma : Bool) : Formal (bareArgument R afterComma) := by
  unfold Grammar.bareArgument
  infer_instance

instance bareArguments : Formal (bareArguments R) := by
  unfold Grammar.bareArguments
  infer_instance

instance opensArguments : Formal opensArguments := by
  unfold Grammar.opensArguments
  infer_instance

instance atFunction (R : Rules) : Formal (atFunction R) := by
  unfold Grammar.atFunction
  infer_instance

instance nameOrCall (calls : Bool) : Formal (nameOrCall R calls) := by
  unfold Grammar.nameOrCall
  dsimp only
  exact andThen fun _ => andThen fun _ => by split <;> infer_instance

instance variableDecl : Formal variableDecl := by
  unfold Grammar.variableDecl
  infer_instance

instance variableOrDecl (recovers : TokenKind → Bool) : Formal (variableOrDecl recovers) := by
  unfold Grammar.variableOrDecl
  infer_instance

instance parameter : Formal parameter := by
  unfold Grammar.parameter
  infer_instance

instance parameters (R : Rules) : Formal (parameters R) := by
  unfold Grammar.parameters
  infer_instance

end Formal

/-! ## What the parts of a header add -/

namespace Adds

variable {p : Tree → Prop} (R : Rules)

theorem lineEnd (hleaf : ∀ t : Token, t.kind.isTrivia = true ∨ t.kind = .newline → p (.leaf t))
    (herror : ∀ span cs, p (.node .error span cs)) : Adds p (lineEnd R) := by
  have hbreak : Adds p (Grammar.eat .newline) :=
    eat (by decide) fun t ht => hleaf t (ht.elim .inl fun ht => .inr (ht.elim id id))
  refine bind hbreak fun eaten => ite (pure _) (bind atEnd fun ends => ite (pure _) (bind ?_ fun _ => ?_))
  · exact node (fun t ht => hleaf t (.inl ht)) herror
  · exact discard hbreak

theorem closing {kind : TokenKind} (hkind : kind ≠ .eof) (wanted : Wanted)
    (hleaf : ∀ t : Token, t.kind.isTrivia = true ∨ t.kind = .newline ∨ t.kind = kind → p (.leaf t))
    (herror : ∀ span cs, p (.node .error span cs)) : Adds p (closing R kind wanted) :=
  bind (expect hkind wanted hleaf) fun _ =>
    ite (lineEnd R (fun t ht => hleaf t (ht.imp_right .inl)) herror) (pure _)

theorem declaredName (wanted : Wanted) (hleaf : ∀ t : Token, t.kind.isTrivia = true → p (.leaf t))
    (hname : ∀ span cs, p (.node .name span cs)) : Adds p (declaredName wanted) := by
  intro s hfault
  rw [Formal.run_declaredName] at hfault ⊢
  split at hfault
  · next hfound =>
    rw [if_pos hfound, ← (current_sound (Formal.unbroken_node hfault)).2]
    exact node hleaf hname _ hfault
  · next hfound =>
    rw [if_neg hfound, ← (current_sound (s := s) hfault).2]
    exact complain _ _ hfault

theorem variableOrDecl (recovers : TokenKind → Bool)
    (hleaf : ∀ t : Token, t.kind.isTrivia = true → p (.leaf t))
    (hnode : ∀ kind span cs, kind.isVariable = true ∨ kind = .error → p (.node kind span cs)) :
    Adds p (variableOrDecl recovers) := by
  have haside : Adds p (setAside .variable recovers) :=
    bind current fun _ => ite (complain _) (bind (bind current fun _ => pure _) fun _ =>
      ite (complain _) (node hleaf fun span cs => hnode _ span cs (.inr rfl)))
  refine bind current fun _ => ite (node hleaf fun span cs => hnode _ span cs (.inl rfl)) ?_
  exact bind (isAt _) fun _ => ite (node hleaf fun span cs => hnode _ span cs (.inl rfl)) haside

end Adds

namespace Formal

variable (R : Rules) [R.Formal]

/-! ## Operands and operators -/

/-- In front of what is behind the parameters there is neither a block nor a list of
arguments. -/
abbrev InHeader (c : Tree) : Prop := c.isNode (fun k => k == .stmtList || k == .argList) = false

/-- Behind what is in front of the block there are no parameters. -/
abbrev BehindHeader (c : Tree) : Prop := c.isNode (· == .paramList) = false

theorem adds_block_behind : Adds BehindHeader (Grammar.within .begins R.block) :=
  .within _ (Rules.Formal.adds_block (fun _ _ => rfl) fun _ _ => rfl)

/-- A node whose parameters are in front of its block. -/
theorem headed_of_parts {kind : NodeKind} (opener : TokenKind) {m : Step Unit}
    (hkind : kind ≠ .foreachStmt ∧ ∀ word ∈ kind.opener?, word = opener)
    (hword : BeginsWith opener m) (hparts : Parts InHeader BehindHeader m) (s : State)
    (hs : s.out = #[]) (hfault : (m s).2.fault = none) : Headed kind (m s).2.out.toList where
  word := (hword.headed kind hkind.2 hs hfault).1
  opener := (hword.headed kind hkind.2 hs hfault).2
  params _ := by
    obtain ⟨front, back, hout, hfront, hback⟩ := hparts s hfault
    exact ⟨front, back, by rw [hout, hs]; rfl, hfront, hback⟩
  arrow h := absurd h hkind.1

instance lambda : Formal (lambda R) := by
  have hbody : Formal (do
      Grammar.lineEnd R
      Grammar.within .begins R.block
      Functor.discard (Grammar.expect .kwEnd .kwEnd)) := inferInstance
  unfold Grammar.lambda
  dsimp only
  refine node_of_headed _ rfl (headed_of_parts .lParen (by decide) ?_ ?_)
  · exact .bind (.withoutParens (.bind (.bump (by decide))))
  -- Behind the header come the end of the line, the block and the closing word, and none of
  -- them is a header.
  · have htail : Adds BehindHeader (do
        Grammar.lineEnd R
        Grammar.within .begins R.block
        Functor.discard (Grammar.expect .kwEnd .kwEnd)) :=
      .bind (.lineEnd R (fun _ _ => rfl) fun _ _ => rfl) fun _ => .bind (adds_block_behind R) fun _ =>
        .discard (.expect (by decide) _ fun _ _ => rfl)
    refine .concat (.withoutParens ?_) fun _ => .discard (.expect (by decide) _ fun _ _ => rfl)
    refine .cons (.bump (by decide) fun _ _ => rfl) fun _ => ?_
    refine .cons (.bump (by decide) fun _ _ => rfl) fun _ => ?_
    refine .cons (.declaredName _ (fun _ _ => rfl) fun _ _ => rfl) fun _ => ?_
    refine .cons (.isAt _) fun braces => .ite ?_ (.of_adds htail)
    exact .cons (.node (fun _ _ => rfl) fun _ _ => rfl) fun _ => .of_adds htail

instance parenthesized : Formal (parenthesized R) := by
  unfold Grammar.parenthesized
  infer_instance

instance noOperand : Formal noOperand := by
  unfold Grammar.noOperand
  infer_instance

instance primary (calls : Bool) : Formal (primary R calls) := by
  unfold Grammar.primary
  exact andThen fun kind => by split <;> infer_instance

instance roomForAccess (R : Rules) : Formal (roomForAccess R) := by
  unfold Grammar.roomForAccess
  infer_instance

instance access (calls : Bool) : Formal (access R calls) := by
  unfold Grammar.access
  exact andThen fun kind => by split <;> infer_instance

instance accesses (calls : Bool) : Formal (accesses R calls) := by
  unfold Grammar.accesses
  infer_instance

instance shallowOperand (calls : Bool) : Formal (shallowOperand R calls) := by
  unfold Grammar.shallowOperand
  exact andThen fun kind => by split <;> infer_instance

instance operand (calls : Bool) : Formal (Grammar.operand R calls) := by
  unfold Grammar.operand
  infer_instance

instance roomForOperator (R : Rules) (floor : Nat) : Formal (roomForOperator R floor) := by
  unfold Grammar.roomForOperator
  exact andThen fun kind => by split <;> infer_instance

instance application (power : Nat) : Formal (application R power) := by
  unfold Grammar.application
  infer_instance

instance operators (floor : Nat) : Formal (operators R floor) := by
  unfold Grammar.operators
  infer_instance

instance expression (floor : Nat) : Formal (Grammar.expression R floor) := by
  unfold Grammar.expression
  infer_instance

/-! ## Statements -/

instance declaration : Formal (declaration R) := by
  unfold Grammar.declaration
  infer_instance

instance setStatement : Formal (setStatement R) := by
  unfold Grammar.setStatement
  infer_instance

instance letStatement : Formal (letStatement R) := by
  unfold Grammar.letStatement
  infer_instance

instance returnStatement : Formal (returnStatement R) := by
  unfold Grammar.returnStatement
  infer_instance

instance wordStatement (word : TokenKind) (kind : NodeKind) [Fact (kind.isPlain = true)] :
    Formal (wordStatement R word kind) := by
  unfold Grammar.wordStatement
  infer_instance

instance expressionStatement : Formal (expressionStatement R) := by
  unfold Grammar.expressionStatement
  infer_instance

instance blockTurn : Formal (blockTurn R) := by
  unfold Grammar.blockTurn
  infer_instance

instance block : Formal (Grammar.block R) := by
  unfold Grammar.block
  infer_instance

/-- A node without parameters and without an arrow. -/
theorem headed_of_word {kind : NodeKind} (opener : TokenKind) {m : Step Unit}
    (hkind : kind ≠ .beginStmt ∧ kind ≠ .lambdaExpr ∧ kind ≠ .foreachStmt)
    (hopener : ∀ word ∈ kind.opener?, word = opener) (hword : BeginsWith opener m) (s : State)
    (hs : s.out = #[]) (hfault : (m s).2.fault = none) : Headed kind (m s).2.out.toList where
  word := (hword.headed kind hopener hs hfault).1
  opener := (hword.headed kind hopener hs hfault).2
  params h := absurd h (not_or.2 ⟨hkind.1, hkind.2.1⟩)
  arrow h := absurd h hkind.2.2

instance elseIfBranch : Formal (Grammar.node .elseIfBranch do
    Grammar.bump .kwElseIf
    R.expression 0
    Grammar.lineEnd R
    R.block
    R.branches) :=
  node_of_headed _ rfl (headed_of_word .kwElseIf (by decide) (by decide) (.bind (.bump (by decide))))

instance elseBranch : Formal (Grammar.node .elseBranch do
    Grammar.bump .kwElse
    Grammar.lineEnd R
    R.block) :=
  node_of_headed _ rfl (headed_of_word .kwElse (by decide) (by decide) (.bind (.bump (by decide))))

instance branches : Formal (Grammar.branches R) := by
  unfold Grammar.branches
  infer_instance

instance ifStatement : Formal (ifStatement R) :=
  node_of_headed _ rfl (headed_of_word .kwIf (by decide) (by decide) (.bind (.bump (by decide))))

instance whileStatement : Formal (whileStatement R) :=
  node_of_headed _ rfl (headed_of_word .kwWhile (by decide) (by decide) (.bind (.bump (by decide))))

/-- The child is not an arrow. -/
abbrev NoArrow (c : Tree) : Prop := ∀ m, c = .leaf m → m.kind ≠ .lArrow

theorem noArrow_leaf {t : Token} {k : TokenKind} (hkind : k ≠ .lArrow)
    (ht : t.kind.isTrivia = true ∨ t.kind = .newline ∨ t.kind = k) : NoArrow (.leaf t) := by
  rintro m ⟨⟩ hm
  rw [hm] at ht
  rcases ht with ht | ht | ht
  · cases ht
  · cases ht
  · exact hkind ht.symm

/-- What stands in front of an arrow that is asked for stands in front of all else. -/
theorem arrow_of_expect {m : Step α} {rest : Bool → Step Unit} [hrest : ∀ found, Formal (rest found)]
    (hm : Adds (fun c => NoArrow c ∧ c.isNode (· == .stmtList) = false) m)
    (hmissing : Adds NoArrow (rest false)) (s : State) (hs : s.out = #[])
    (hfault : ((m >>= fun _ => Grammar.expect .lArrow .arrow >>= rest) s).2.fault = none) :
    let children := ((m >>= fun _ => Grammar.expect .lArrow .arrow >>= rest) s).2.out.toList
    (∀ a, .leaf a ∈ children → a.kind ≠ .lArrow)
      ∨ ∃ front a back, children = front ++ .leaf a :: back ∧ a.kind = .lArrow
        ∧ ∀ c ∈ front, c.isNode (· == .stmtList) = false := by
  intro children
  have hexpect : (Grammar.expect .lArrow .arrow (m s).2).2.fault = none := (hrest _).unbroken _ hfault
  obtain ⟨front, hfront, hplain⟩ := hm s ((Formal.expect _ _).unbroken _ hexpect)
  rw [hs, List.nil_append] at hfront
  -- The arrow was there and stands behind the item, or it is missing and nothing that follows
  -- contains one.
  rcases toList_out_expect (by decide) hexpect with ⟨hfound, hout⟩ | ⟨-, before, a, after, hout, ha, -⟩
  · obtain ⟨new, hnew, hnone⟩ := hmissing (Grammar.expect .lArrow .arrow (m s).2).2 (by rwa [← hfound])
    have hchildren : children = front ++ new := by
      rw [← hfront, ← hout, ← hnew, ← hfound]
      rfl
    refine .inl fun a ha => ?_
    rw [hchildren, List.mem_append] at ha
    exact ha.elim (fun h => (hplain _ h).1 a rfl) fun h => hnone _ h a rfl
  · obtain ⟨back, hback⟩ := (hrest (Grammar.expect .lArrow .arrow (m s).2).1).kept
      (Grammar.expect .lArrow .arrow (m s).2).2 (front ++ before.map .leaf) a
      ⟨after.map .leaf, by rw [hout, hfront]; simp⟩
    refine .inr ⟨front ++ before.map .leaf, a, back, ?_, ha, fun c hc => ?_⟩
    · rw [List.append_cons]
      exact hback.symm
    · rcases List.mem_append.1 hc with hc | hc
      · exact (hplain c hc).2
      · obtain ⟨t, -, rfl⟩ := List.mem_map.1 hc
        rfl

/-- The arrow of a loop over a collection is in front of the block. -/
instance foreachStatement : Formal (foreachStatement R) := by
  have hbody : Formal (do
      Grammar.lineEnd R
      R.block
      Grammar.closing R .kwLoop .kwLoop) := inferInstance
  -- Neither the word nor the item contains an arrow or a block.
  have hheader : Adds (fun c => NoArrow c ∧ c.isNode (· == .stmtList) = false) (do
      Grammar.bump .kwForeach
      Grammar.variableOrDecl (· == .lArrow)) := by
    refine .bind (.bump (by decide) fun t ht => ⟨noArrow_leaf (by decide) ht, rfl⟩) fun _ =>
      .variableOrDecl _ (fun t ht => ⟨noArrow_leaf (k := .eof) (by decide) (.inl ht), rfl⟩)
        fun kind span cs hkind => ⟨nofun, ?_⟩
    rcases hkind with hkind | rfl
    · cases kind <;> first | rfl | cases hkind
    · rfl
  -- Without the arrow the rest of the line is set aside, so that no arrow is left among the
  -- children.
  have hmissing : Adds NoArrow (do
      Grammar.lineEnd R
      R.block
      Grammar.closing R .kwLoop .kwLoop) :=
    .bind (.lineEnd R (fun t ht => noArrow_leaf (k := .eof) (by decide) (ht.imp_right .inl)) fun _ _ => nofun)
      fun _ => .bind (Rules.Formal.adds_block (fun t ht => noArrow_leaf (k := .eof) (by decide) (.inl ht))
        fun _ _ => nofun) fun _ => .closing R (by decide) _ (fun t ht => noArrow_leaf (by decide) ht)
          fun _ _ => nofun
  unfold Grammar.foreachStatement
  dsimp only
  -- The word and the item are taken together as what stands in front of the arrow.
  rw [← bind_assoc]
  refine node_of_headed _ rfl fun s hs hfault => ?_
  have hbegins : BeginsWith .kwForeach (Grammar.bump .kwForeach) := .bump (by decide)
  obtain ⟨hword, hopener⟩ := hbegins.bind.bind.headed .foreachStmt (by decide) hs hfault
  exact ⟨hword, hopener, nofun, fun _ => arrow_of_expect hheader hmissing s hs hfault⟩

instance beginStatement : Formal (beginStatement R) := by
  have hbody : Formal (do
      Grammar.lineEnd R
      Grammar.within .begins R.block
      Grammar.closing R .kwEnd .kwEnd) := inferInstance
  have hargs : Formal (do
      if (← Grammar.current).canStartArgument then
        Grammar.node .argList (Grammar.bareArguments R)
      Grammar.lineEnd R
      Grammar.within .begins R.block
      Grammar.closing R .kwEnd .kwEnd) := inferInstance
  unfold Grammar.beginStatement
  dsimp only
  refine node_of_headed _ rfl (headed_of_parts .kwBegin (by decide) (.bind (.bump (by decide))) ?_)
  -- What stands behind the header is the same with and without arguments.
  have htail : Adds BehindHeader (do
      Grammar.lineEnd R
      Grammar.within .begins R.block
      Grammar.closing R .kwEnd .kwEnd) :=
    .bind (.lineEnd R (fun _ _ => rfl) fun _ _ => rfl) fun _ => .bind (adds_block_behind R) fun _ =>
      .closing R (by decide) _ (fun _ _ => rfl) fun _ _ => rfl
  refine .cons (.bump (by decide) fun _ _ => rfl) fun _ => ?_
  refine .cons (.declaredName _ (fun _ _ => rfl) fun _ _ => rfl) fun _ => ?_
  refine .cons (.isAt _) fun braces => .ite ?_ ?_
  · exact .cons (.node (fun _ _ => rfl) fun _ _ => rfl) fun _ => .of_adds htail
  · refine .cons .current fun kind => .of_adds (.ite ?_ htail)
    exact .bind (.node (fun _ _ => rfl) fun _ _ => rfl) fun _ => htail

instance beginOrNested : Formal (beginOrNested R) := by
  unfold Grammar.beginOrNested
  infer_instance

instance statement : Formal (Grammar.statement R) := by
  unfold Grammar.statement
  exact andThen fun kind => by split <;> infer_instance

/-! ## Scripts -/

instance lineBreaks (R : Rules) : Formal (lineBreaks R) := by
  unfold Grammar.lineBreaks
  infer_instance

instance scriptName (R : Rules) : Formal (scriptName R) := by
  unfold Grammar.scriptName
  infer_instance

instance strayCloser (closer : Closer) : Formal (strayCloser closer) := by
  unfold Grammar.strayCloser
  infer_instance

instance topLevel : Formal (topLevel R) := by
  unfold Grammar.topLevel
  refine andThen fun kind => ?_
  dsimp only
  split
  · infer_instance
  · split <;> infer_instance

instance scriptTurn : Formal (scriptTurn R) := by
  unfold Grammar.scriptTurn
  infer_instance

instance script : Formal (script R) := by
  unfold Grammar.script
  infer_instance

end Formal

/-! ## All levels -/

instance formal_exhausted (f : String → Bool) : (Rules.exhausted f).Formal where
  statement := .giveUp .stuck
  block := .giveUp .stuck
  branches := .giveUp .stuck
  expression _ := .giveUp .stuck
  operand _ := inferInstanceAs (Formal (modify (State.giveUp .stuck) >>= fun _ => pure false))
  adds_block _ _ s hfault := absurd hfault (State.fault_giveUp_ne_none _ s)

instance formal_rules (f : String → Bool) (levels : Nat) : (rules f levels).Formal := by
  induction levels with
  | zero => exact formal_exhausted f
  | succ n ih =>
    exact ⟨Formal.statement _, Formal.block _, Formal.branches _, Formal.expression _, Formal.operand _,
      fun hleaf hnode => .node hleaf hnode⟩

end Grammar

open Grammar in
/-- **In the tree of a script the parts of every node with a block stand where they
should.** -/
theorem formed_parseWith (isFunction : String → Bool) (text : String) :
    (parseWith isFunction text).root.Formed := by
  have hformal := Formal.script (rules isFunction (levelsFor (State.initial (tokens text)).rest.length))
  have hbuilt := hformal.formed (State.initial (tokens text)) (fault_run_script isFunction (tokens text))
    (by simp [State.initial])
  refine .node (fun hkind => by cases hkind) (fun hkind => by cases hkind) fun c hc => ?_
  rw [State.toList_out_shiftMany, List.mem_append] at hc
  rcases hc with hc | hc
  · exact hbuilt c hc
  · obtain ⟨t, -, rfl⟩ := List.mem_map.1 hc
    exact .leaf t

end ScriptSense
