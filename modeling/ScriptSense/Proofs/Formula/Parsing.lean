/-
What the grammar makes of a written formula.

The grammar reads a formula along its left edge: first the operand there, then one
operator after the other with what is to its right, each time building the next
node around what was built. So the induction on the formula cannot be about the
whole expression only. What is carried along is a continuation: if the loop over
operators, begun behind the formula, comes to some end, then the expression begun
in front of the formula comes to that end (`Reads.spine`). Accesses after an operand
are a loop of the same kind (`Reads.chain`).

The loop stops where the powers say so, and takes on what they leave to it; that
the right operand takes neither less nor more than it should is where the table of
powers comes in.
-/
import ScriptSense.Proofs.Formula.Spelling
import ScriptSense.Proofs.Grammar.Sight

set_option autoImplicit false

namespace ScriptSense

open Grammar

namespace Written

/-- The tree of a written formula, without its layout. -/
def bare : Written → Bare
  | .number n => .node .literal [.leaf (n.kind, String.ofList n.chars)]
  | .name n => .node .nameRef [.leaf (.ident, n.text)]
  | .paren inner => .node .parenExpr [.leaf (.lParen, "("), inner.bare, .leaf (.rParen, ")")]
  | .unary op operand => .node .unaryExpr [.leaf (op.token, op.token.sign), operand.bare]
  | .binary op left right =>
    .node .binExpr [left.bare, .leaf (op.token, op.token.sign), right.bare]
  | .field reach base member =>
    .node .memberExpr [base.bare, .leaf (reach.token, reach.token.sign),
      .node .nameRef [.leaf (.ident, member.text)]]
  | .index base member =>
    .node .memberExpr [base.bare, .leaf (.lBracket, "["), member.bare, .leaf (.rBracket, "]")]

/-- The operators on the left edge. -/
def spread : Written → Nat
  | .binary _ left _ => left.spread + 1
  | _ => 0

/-- The accesses on the left edge. -/
def accesses : Written → Nat
  | .field _ base _ => base.accesses + 1
  | .index base _ => base.accesses + 1
  | _ => 0

/-- The formula begins with an operand and not with an operator. -/
def isChain : Written → Bool
  | .unary _ _ | .binary _ _ _ => false
  | _ => true

theorem isChain_of_isBase {w : Written} (h : w.isBase = true) : w.isChain = true := by
  cases w <;> first | rfl | cases h

theorem depth_pos (w : Written) : 0 < w.depth := by
  cases w <;> simp only [depth] <;> try omega
  case binary op left right =>
    have := left.depth_pos
    omega

theorem spread_lt_depth (w : Written) : w.spread < w.depth := by
  induction w with
  | binary op left right ihl _ =>
    have := right.depth_pos
    simp only [spread, depth]
    omega
  | _ => exact depth_pos _

theorem accesses_lt_depth (w : Written) : w.accesses < w.depth := by
  induction w with
  | field reach base member ih =>
    simp only [accesses, depth]
    omega
  | index base member ih _ =>
    simp only [accesses, depth]
    omega
  | _ => exact depth_pos _

/-- A formula begins with something that can begin an expression. -/
theorem starts (w : Written) :
    ∃ g gs, w.glyphs = g :: gs ∧ g.1.canStartExpression = true := by
  induction w with
  | number n => cases n <;> exact ⟨_, _, rfl, rfl⟩
  | name n => exact ⟨_, _, rfl, rfl⟩
  | paren inner => exact ⟨_, _, rfl, rfl⟩
  | unary op operand => cases op <;> exact ⟨_, _, rfl, rfl⟩
  | binary op left right ih _ | field _ left _ ih | index left _ ih _ =>
    obtain ⟨g, gs, hleft, hstart⟩ := ih
    exact ⟨g, _, by rw [glyphs, hleft, List.cons_append], hstart⟩

theorem kindOf_glyphs (w : Written) (gs : List Glyph) :
    (kindOf (w.glyphs ++ gs)).canStartExpression = true := by
  obtain ⟨g, rest, hglyphs, hstart⟩ := w.starts
  rwa [hglyphs, List.cons_append, kindOf_cons]

/-! ## What may follow -/

/-- What follows a formula does not go on with its last operand. -/
structure Quiet (p : Nat) (gs : List Glyph) : Prop where
  access : opensAccess (kindOf gs) = false
  argument : (kindOf gs).canStartArgument = false
  lineBreak : p = 0 ∨ kindOf gs ≠ .newline

/-- What follows a formula, if it is an operator, does not bind its right operand. -/
def Released (w : Written) (gs : List Glyph) : Prop :=
  ∀ powers, (kindOf gs).binaryPower? = some powers → ∀ op ∈ w.operator?, powers.1 < op.powers.2

/-- What follows an expression, if it is an operator, is too loose for it. -/
def Stops (floor : Nat) (gs : List Glyph) : Prop :=
  ∀ powers, (kindOf gs).binaryPower? = some powers → powers.1 < floor

end Written

/-! ## Operands -/

namespace Grammar.Does

open Written (Quiet)

variable {gs : List Glyph} {bs : List Bare} {cs : Array Complaint} {p d : Nat} {n : Nat}

/-- A name in front of nothing that could be an argument is no call. -/
theorem nameOrCall (member : Name) (hcall : (kindOf gs).canStartArgument = false)
    (hbreak : p = 0 ∨ kindOf gs ≠ .newline) :
    Does ⟨(.ident, member.text) :: gs, bs, cs, p, d⟩ (nameOrCall (rules noFunctions n) true) ()
      ⟨gs, bs ++ [.node .nameRef [.leaf (.ident, member.text)]], cs, p, d⟩ := by
  refine .bindOf (fun known => by dsimp only; infer_instance) (.atFunction n) ?_
  refine .bindOf (fun _ => by dsimp only; infer_instance)
    (.node (by decide) (.bump rfl rfl (by decide) hbreak)) ?_
  refine .ite_true rfl (.ite_false ?_ (.bind (.map TokenKind.canStartArgument .current) ?_))
  · exact Bool.false_ne_true
  · exact .ite_false (fun hcalls => Bool.false_ne_true (hcall.symm.trans hcalls)) (.pure ())

theorem primary_number (m : Numeral) (hbreak : p = 0 ∨ kindOf gs ≠ .newline) :
    Does ⟨(m.kind, String.ofList m.chars) :: gs, bs, cs, p, d⟩ (primary (rules noFunctions n) true)
      true ⟨gs, bs ++ [(Written.number m).bare], cs, p, d⟩ := by
  have hliteral : Does ⟨(m.kind, String.ofList m.chars) :: gs, bs, cs, p, d⟩ (do
      Grammar.node .literal Grammar.bumpAny
      return true) true ⟨gs, bs ++ [(Written.number m).bare], cs, p, d⟩ := by
    refine .bind (.node (by decide) (.bumpAny rfl ?_ ?_ hbreak)) (.pure true)
    all_goals cases m <;> nofun
  refine .bindOf (fun k => by split <;> infer_instance) .current ?_
  cases m <;> exact hliteral

theorem primary_name (m : Name) (hcall : (kindOf gs).canStartArgument = false)
    (hbreak : p = 0 ∨ kindOf gs ≠ .newline) :
    Does ⟨(.ident, m.text) :: gs, bs, cs, p, d⟩ (primary (rules noFunctions n) true)
      true ⟨gs, bs ++ [(Written.name m).bare], cs, p, d⟩ := by
  refine .bindOf (fun k => by split <;> infer_instance) .current ?_
  exact .bind (.nameOrCall m hcall hbreak) (.pure true)

/-- An expression in parentheses, where its content is read as it should be. -/
theorem primary_paren {inner : Written}
    (hinner : ∀ levels, Does ⟨inner.glyphs ++ (.rParen, ")") :: gs, [.leaf (.lParen, "(")], cs, p + 1, d⟩
      ((rules noFunctions levels).expression 0) ()
      ⟨(.rParen, ")") :: gs, [.leaf (.lParen, "("), inner.bare], cs, p + 1, d⟩)
    (hbreak : p = 0 ∨ kindOf gs ≠ .newline) :
    Does ⟨(Written.paren inner).glyphs ++ gs, bs, cs, p, d⟩ (primary (rules noFunctions n) true)
      true ⟨gs, bs ++ [(Written.paren inner).bare], cs, p, d⟩ := by
  have hahead : (Written.paren inner).glyphs ++ gs
      = (.lParen, "(") :: (inner.glyphs ++ (.rParen, ")") :: gs) := by
    simp [Written.glyphs]
  have hstart := inner.kindOf_glyphs ((.rParen, ")") :: gs)
  -- What stands in the parentheses begins an expression, so it is neither a line break nor a
  -- lambda.
  have hnext : kindOf (inner.glyphs ++ (.rParen, ")") :: gs) ≠ .newline
      ∧ kindOf (inner.glyphs ++ (.rParen, ")") :: gs) ≠ .kwBegin := by
    constructor <;> intro h <;> rw [h] at hstart <;> cases hstart
  rw [hahead]
  refine .bindOf (fun k => by split <;> infer_instance) .current ?_
  refine .bind (.look 1) (.ite_false (by simpa using hnext.2) ?_)
  refine .bind (.giving (.node (by decide) (.bind (.withinParens (.bind
    (.bump rfl rfl (by decide) (.inr hnext.1)) (hinner _)) rfl)
    (.discard (.expect rfl rfl (by decide) hbreak)))) ?_) (.pure true)
  rfl

/-- Accesses are over in front of anything that opens none. -/
theorem accesses_stop {turns : Nat} (h : opensAccess (kindOf gs) = false) :
    Does ⟨gs, bs, cs, p, d⟩ (iterate (fun _ => Grammar.climbTurn (roomForAccess (rules noFunctions n))
      fun _ => access (rules noFunctions n) true) turns ()) () ⟨gs, bs, cs, p, d + 1⟩ := by
  -- No token that opens an access is next, so the limit of nesting is not asked for.
  have hroom : Does ⟨gs, bs, cs, p, d⟩ (roomForAccess (rules noFunctions n)) (some ())
      ⟨gs, bs, cs, p, d⟩ := by
    refine .bindOf (fun k => by dsimp only; infer_instance) .current ?_
    refine .ite_false ?_ (.bind (.pure false) (.ite_false Bool.false_ne_true (.pure _)))
    exact fun hopens => Bool.false_ne_true (h.symm.trans hopens)
  have haccess : Does ⟨gs, bs, cs, p, d + 1⟩ (access (rules noFunctions n) true) false
      ⟨gs, bs, cs, p, d + 1⟩ := by
    refine .bindOf (fun k => by split <;> infer_instance) .current ?_
    have hkind : kindOf gs ≠ .dot ∧ kindOf gs ≠ .arrow ∧ kindOf gs ≠ .lBracket := by
      refine ⟨?_, ?_, ?_⟩ <;> intro heq <;> rw [heq] at h <;> cases h
    split
    · next heq => exact absurd heq hkind.1
    · next heq => exact absurd heq hkind.2.1
    · next heq => exact absurd heq hkind.2.2
    · exact .pure false
  exact .iterate_stop (.climbTurn_stop hroom haccess)

/-- An access opens where the limit of nesting is not reached. -/
theorem roomForAccess {g : Glyph} (hopens : opensAccess g.1 = true) (hdepth : d < nestingLimit) :
    Does ⟨g :: gs, bs, cs, p, d⟩ (roomForAccess (rules noFunctions n)) (some ())
      ⟨g :: gs, bs, cs, p, d⟩ := by
  refine .bindOf (fun k => by dsimp only; infer_instance) .current ?_
  refine .ite_true hopens (.bind .isTooDeep (.ite_false ?_ (.pure _)))
  simpa using hdepth

/-- The access to a member by its name. -/
theorem access_field (reach : Reach) (member : Name) {first : Bare}
    (hcall : (kindOf gs).canStartArgument = false) (hbreak : p = 0 ∨ kindOf gs ≠ .newline) :
    Does ⟨(reach.token, reach.token.sign) :: (.ident, member.text) :: gs, bs ++ [first], cs, p, d⟩
      (access (rules noFunctions n) true) true
      ⟨gs, bs ++ [.node .memberExpr [first, .leaf (reach.token, reach.token.sign),
        .node .nameRef [.leaf (.ident, member.text)]]], cs, p, d⟩ := by
  -- A point and an arrow are read by the same rule.
  have hmember : Does ⟨(reach.token, reach.token.sign) :: (.ident, member.text) :: gs,
      bs ++ [first], cs, p, d⟩ (do
        Grammar.nodeAround .memberExpr do
          Grammar.bumpAny
          if ← Grammar.isAt .ident then Grammar.nameOrCall (rules noFunctions n) true
          else Grammar.complain (.missing .memberName)
        return true) true
      ⟨gs, bs ++ [.node .memberExpr [first, .leaf (reach.token, reach.token.sign),
        .node .nameRef [.leaf (.ident, member.text)]]], cs, p, d⟩ := by
    refine .bind (.nodeAround rfl (.bind (.bumpAny rfl ?_ ?_ (.inr ?_))
      (.bind (.isAt .ident) (.ite_true rfl (.nameOrCall member hcall hbreak))))) (.pure true)
    · cases reach <;> nofun
    · cases reach <;> nofun
    · nofun
  refine .bindOf (fun k => by split <;> infer_instance) .current ?_
  cases reach <;> exact hmember

/-- The access by an index, where the index is read as it should be. -/
theorem access_index {member : Written} {first : Bare}
    (hmember : ∀ levels, Does ⟨member.glyphs ++ (.rBracket, "]") :: gs, [first, .leaf (.lBracket, "[")],
        cs, p, d⟩ ((rules noFunctions levels).expression 0) ()
      ⟨(.rBracket, "]") :: gs, [first, .leaf (.lBracket, "["), member.bare], cs, p, d⟩)
    (hbreak : p = 0 ∨ kindOf gs ≠ .newline) :
    Does ⟨(.lBracket, "[") :: (member.glyphs ++ (.rBracket, "]") :: gs), bs ++ [first], cs, p, d⟩
      (access (rules noFunctions n) true) true
      ⟨gs, bs ++ [.node .memberExpr [first, .leaf (.lBracket, "["), member.bare,
        .leaf (.rBracket, "]")]], cs, p, d⟩ := by
  have hstart := member.kindOf_glyphs ((.rBracket, "]") :: gs)
  -- An expression follows the bracket, so the line goes on.
  have hnext : kindOf (member.glyphs ++ (.rBracket, "]") :: gs) ≠ .newline := by
    intro h
    rw [h] at hstart
    cases hstart
  refine .bindOf (fun k => by split <;> infer_instance) .current ?_
  exact .bind (.nodeAround rfl (.bind (.bump rfl rfl (by decide) (.inr hnext)) (.bind (hmember n)
    (.discard (.expect rfl rfl (by decide) hbreak))))) (.pure true)

/-! ## Operators -/

/-- Operators are over in front of anything too loose. -/
theorem operators_stop {turns floor : Nat} (h : Written.Stops floor gs) :
    Does ⟨gs, bs, cs, p, d⟩ (iterate (fun _ => Grammar.climbTurn
      (roomForOperator (rules noFunctions n) floor) (application (rules noFunctions n))) turns ()) ()
      ⟨gs, bs, cs, p, d⟩ := by
  refine .iterate_stop (.climbTurn_none ?_)
  refine .bindOf (fun r => by split <;> infer_instance) .current ?_
  split
  · exact .pure none
  · next left right hpowers => exact .ite_true (h _ hpowers) (.pure none)

/-- An operator that is tight enough is taken where the limit of nesting is not
reached. -/
theorem roomForOperator (op : BinaryOp) {floor : Nat} (hfloor : floor ≤ op.powers.1)
    (hdepth : d < nestingLimit) :
    Does ⟨(op.token, op.token.sign) :: gs, bs, cs, p, d⟩ (roomForOperator (rules noFunctions n) floor)
      (some op.powers.2) ⟨(op.token, op.token.sign) :: gs, bs, cs, p, d⟩ := by
  refine .bindOf (fun r => by split <;> infer_instance) .current ?_
  split
  · next hnone =>
    have hpowers : op.token.binaryPower? = none := hnone
    rw [op.binaryPower?_token] at hpowers
    cases hpowers
  · next left right hsome =>
    have hpowers : op.token.binaryPower? = some (left, right) := hsome
    rw [op.binaryPower?_token, Option.some.injEq] at hpowers
    rw [hpowers] at hfloor ⊢
    -- The operator binds tightly enough, and the limit of nesting is not reached.
    refine .ite_false (Nat.not_lt.2 hfloor) (.bind .isTooDeep (.ite_false ?_ (.pure _)))
    simpa using hdepth

/-- An operator with what is to its right, where that is read as it should be. -/
theorem application (op : BinaryOp) {right : Written} {first : Bare}
    (hright : ∀ levels, Does ⟨right.glyphs ++ gs, [first, .leaf (op.token, op.token.sign)], cs, p, d⟩
      ((rules noFunctions levels).expression op.powers.2) ()
      ⟨gs, [first, .leaf (op.token, op.token.sign), right.bare], cs, p, d⟩) :
    Does ⟨(op.token, op.token.sign) :: (right.glyphs ++ gs), bs ++ [first], cs, p, d⟩
      (application (rules noFunctions n) op.powers.2) true
      ⟨gs, bs ++ [.node .binExpr [first, .leaf (op.token, op.token.sign), right.bare]], cs, p, d⟩ := by
  have hstart := right.kindOf_glyphs gs
  -- The right side begins an expression, so the line goes on behind the operator.
  have hnext : kindOf (right.glyphs ++ gs) ≠ .newline := by
    intro h
    rw [h] at hstart
    cases hstart
  refine .bind (.nodeAround rfl (.bind (.bumpAny rfl ?_ ?_ (.inr hnext)) (hright n))) (.pure true)
  · cases op <;> nofun
  · cases op <;> nofun

end Grammar.Does

/-! ## Whole formulas -/

namespace Written

/-- The turns of the loop over accesses. -/
abbrev AccessLoop (n turns : Nat) : Step Unit :=
  iterate (fun _ => climbTurn (roomForAccess (rules noFunctions n))
    fun _ => access (rules noFunctions n) true) turns ()

/-- The turns of the loop over operators. -/
abbrev OperatorLoop (n floor turns : Nat) : Step Unit :=
  iterate (fun _ => climbTurn (roomForOperator (rules noFunctions n) floor)
    (application (rules noFunctions n))) turns ()

/-- **How a formula is read**: as the beginning of a chain of accesses, as an operand,
and as the beginning of a chain of operators. -/
structure Reads (w : Written) : Prop where
  chain (hchain : w.isChain = true) {n p d : Nat} {gs : List Glyph} {bs : List Bare}
    {cs : Array Complaint} {u : Sight} (hcall : (kindOf gs).canStartArgument = false)
    (hbreak : p = 0 ∨ kindOf gs ≠ .newline) (hdepth : d + w.depth ≤ nestingLimit + 1)
    (hend : ∀ turns, Does ⟨gs, bs ++ [w.bare], cs, p, d + w.accesses⟩ (AccessLoop n turns) () u) :
    Does ⟨w.glyphs ++ gs, bs, cs, p, d⟩ (shallowOperand (rules noFunctions n) true) true
      { u with nesting := d }
  operand (hop : w.operator? = none) {n p d : Nat} {gs : List Glyph} {bs : List Bare}
    {cs : Array Complaint} (hquiet : Quiet p gs) (hdepth : d + w.depth ≤ nestingLimit) :
    Does ⟨w.glyphs ++ gs, bs, cs, p, d⟩ ((rules noFunctions n).operand true) true
      ⟨gs, bs ++ [w.bare], cs, p, d⟩
  spine {n p d floor : Nat} {gs : List Glyph} {bs : List Bare} {cs : Array Complaint} {u : Sight}
    (hquiet : Quiet p gs) (hreleased : Released w gs) (hdepth : d + w.depth ≤ nestingLimit)
    (hfloor : ∀ op ∈ w.operator?, floor ≤ op.powers.1)
    (hend : ∀ turns, Does ⟨gs, bs ++ [w.bare], cs, p, d + w.spread⟩ (OperatorLoop n floor turns) () u) :
    Does ⟨w.glyphs ++ gs, bs, cs, p, d⟩ (Grammar.expression (rules noFunctions n) floor) ()
      { u with nesting := d }

variable {w : Written} {n p d : Nat} {gs : List Glyph} {bs : List Bare} {cs : Array Complaint}

/-- An expression is read up to what is too loose for it. -/
theorem Reads.expression (hw : Reads w) {floor : Nat} (hquiet : Quiet p gs)
    (hreleased : Released w gs) (hstops : Stops floor gs) (hdepth : d + w.depth ≤ nestingLimit)
    (hfloor : ∀ op ∈ w.operator?, floor ≤ op.powers.1) :
    Does ⟨w.glyphs ++ gs, bs, cs, p, d⟩ ((rules noFunctions n).expression floor) ()
      ⟨gs, bs ++ [w.bare], cs, p, d⟩ :=
  .expression fun _ => hw.spine hquiet hreleased hdepth hfloor fun _ => .operators_stop hstops

/-- What is read as the beginning of a chain is read as an operand. -/
theorem operand_of_chain
    (hchain : ∀ m, Does ⟨w.glyphs ++ gs, bs, cs, p, d + 1⟩
      (shallowOperand (rules noFunctions m) true) true ⟨gs, bs ++ [w.bare], cs, p, d + 1⟩)
    (hdepth : d < nestingLimit) :
    Does ⟨w.glyphs ++ gs, bs, cs, p, d⟩ ((rules noFunctions n).operand true) true
      ⟨gs, bs ++ [w.bare], cs, p, d⟩ := by
  refine .operand fun m => .bind .isTooDeep (.ite_false ?_ (.giving (.withinNesting (hchain m) rfl) rfl))
  simpa using hdepth

/-- What is read as an operand is read as the beginning of a chain of operators. -/
theorem spine_of_operand {floor : Nat} {u : Sight}
    (hoperand : Does ⟨w.glyphs ++ gs, bs, cs, p, d⟩ ((rules noFunctions n).operand true) true
      ⟨gs, bs ++ [w.bare], cs, p, d⟩)
    (hend : ∀ turns, Does ⟨gs, bs ++ [w.bare], cs, p, d⟩ (OperatorLoop n floor turns) () u) :
    Does ⟨w.glyphs ++ gs, bs, cs, p, d⟩ (Grammar.expression (rules noFunctions n) floor) ()
      { u with nesting := d } :=
  .bind hoperand (.ite_true rfl (.climb (hend _)))

/-- A chain begins with what is read as such. -/
theorem chain_of_primary {ahead : List Glyph} {first : Bare} {u : Sight}
    (hunary : (kindOf ahead).unaryPower? = none)
    (hprimary : Does ⟨ahead, bs, cs, p, d⟩ (primary (rules noFunctions n) true) true
      ⟨gs, bs ++ [first], cs, p, d⟩)
    (hend : ∀ turns, Does ⟨gs, bs ++ [first], cs, p, d⟩ (AccessLoop n turns) () u) :
    Does ⟨ahead, bs, cs, p, d⟩ (shallowOperand (rules noFunctions n) true) true
      { u with nesting := d } := by
  refine .bindOf (fun k => by split <;> infer_instance) .current ?_
  split
  · next power hpower =>
    rw [show (kindOf ahead).unaryPower? = some power from hpower] at hunary
    cases hunary
  · exact .bind hprimary (.ite_true rfl (.bind (.climb (hend _)) (.pure true)))

/-- What can begin a chain of accesses is an operand, and what is an operand an
expression. -/
theorem Reads.of_chain (hspread : w.spread = 0)
    (hchain : ∀ {n p d : Nat} {gs : List Glyph} {bs : List Bare} {cs : Array Complaint} {u : Sight},
      (kindOf gs).canStartArgument = false → (p = 0 ∨ kindOf gs ≠ .newline) →
      d + w.depth ≤ nestingLimit + 1 →
      (∀ turns, Does ⟨gs, bs ++ [w.bare], cs, p, d + w.accesses⟩ (AccessLoop n turns) () u) →
      Does ⟨w.glyphs ++ gs, bs, cs, p, d⟩ (shallowOperand (rules noFunctions n) true) true
        { u with nesting := d }) : Reads w := by
  -- A chain of accesses is an operand, and an operand is a spine without operators.
  have hoperand : ∀ {n p d : Nat} {gs : List Glyph} {bs : List Bare} {cs : Array Complaint},
      Quiet p gs → d + w.depth ≤ nestingLimit →
      Does ⟨w.glyphs ++ gs, bs, cs, p, d⟩ ((rules noFunctions n).operand true) true
        ⟨gs, bs ++ [w.bare], cs, p, d⟩ := by
    intro n p d gs bs cs hquiet hdepth
    have hpos := w.depth_pos
    exact operand_of_chain (fun m => hchain hquiet.argument hquiet.lineBreak (by omega) fun turns =>
      .accesses_stop hquiet.access) (by omega)
  refine ⟨fun _ => hchain, fun _ => hoperand, ?_⟩
  intro n p d floor gs bs cs u hquiet hreleased hdepth hfloor hend
  rw [hspread] at hend
  exact spine_of_operand (hoperand hquiet hdepth) hend

theorem quiet_rParen {p : Nat} (gs : List Glyph) : Quiet p ((.rParen, ")") :: gs) :=
  ⟨rfl, rfl, .inr (by nofun)⟩

theorem quiet_rBracket {p : Nat} (gs : List Glyph) : Quiet p ((.rBracket, "]") :: gs) :=
  ⟨rfl, rfl, .inr (by nofun)⟩

theorem quiet_operator {p : Nat} (op : BinaryOp) (gs : List Glyph) :
    Quiet p ((op.token, op.token.sign) :: gs) := by
  refine ⟨?_, ?_, .inr ?_⟩ <;> cases op <;> first | rfl | nofun

/-- **Every formula without missing parentheses is read as it is written.** -/
theorem Fits.reads (hw : w.Fits) : Reads w := by
  induction w with
  | number m =>
    refine .of_chain rfl fun hcall hbreak hdepth hend => chain_of_primary ?_ (.primary_number m hbreak) hend
    cases m <;> rfl
  | name m =>
    exact .of_chain rfl fun hcall hbreak hdepth hend =>
      chain_of_primary rfl (.primary_name m hcall hbreak) hend
  | paren inner ih =>
    refine .of_chain rfl fun hcall hbreak hdepth hend => chain_of_primary rfl (.primary_paren ?_ hbreak) hend
    intro levels
    simp only [depth] at hdepth
    exact (ih hw).expression (quiet_rParen _) (by rintro _ ⟨⟩) (by rintro _ ⟨⟩) (by omega) fun _ _ => Nat.zero_le _
  | unary op operand ih =>
    -- The sign is read first, and behind it an expression at its power, which no operator reaches.
    have hoperand : ∀ {n p d : Nat} {gs : List Glyph} {bs : List Bare} {cs : Array Complaint},
        Quiet p gs → d + (Written.unary op operand).depth ≤ nestingLimit →
        Does ⟨(Written.unary op operand).glyphs ++ gs, bs, cs, p, d⟩
          ((rules noFunctions n).operand true) true
          ⟨gs, bs ++ [(Written.unary op operand).bare], cs, p, d⟩ := by
      intro n p d gs bs cs hquiet hdepth
      simp only [depth] at hdepth
      have hinside : d + 1 + operand.depth ≤ nestingLimit := by omega
      refine operand_of_chain (fun m => ?_) (by omega)
      have hstart := operand.kindOf_glyphs gs
      have hnext : kindOf (operand.glyphs ++ gs) ≠ .newline := by
        intro h
        rw [h] at hstart
        cases hstart
      refine .bindOf (fun k => by split <;> infer_instance) .current ?_
      split
      · next power hpower =>
        have hpower : op.token.unaryPower? = some power := hpower
        have htight : power = 25 := by cases op <;> exact (Option.some.inj hpower).symm
        subst htight
        refine .bind (.node (by decide) (.bind (.bumpAny rfl ?_ ?_ (.inr hnext))
          (.ite_true rfl ((ih hw.1).expression hquiet ?_ ?_ hinside ?_)))) (.pure true)
        · cases op <;> rintro ⟨⟩
        · cases op <;> rintro ⟨⟩
        · rw [Released, hw.2]
          rintro _ _ _ ⟨⟩
        · exact fun powers hpowers => TokenKind.binaryPower?_lt hpowers
        · rw [hw.2]
          rintro _ ⟨⟩
      · next hpower =>
        have hpower : op.token.unaryPower? = none := hpower
        cases op <;> cases hpower
    exact ⟨(fun hchain => by cases hchain), fun _ => hoperand, fun hquiet _ hdepth _ hend =>
      spine_of_operand (hoperand hquiet hdepth) hend⟩
  | binary op left right ihl ihr =>
    obtain ⟨hleft, hright, hlooser, htighter⟩ := hw
    refine ⟨(fun hchain => by cases hchain), (fun hop => by cases hop), ?_⟩
    intro n p d floor gs bs cs u hquiet hreleased hdepth hfloor hend
    have hspread := left.spread_lt_depth
    have hop : floor ≤ op.powers.1 := hfloor op rfl
    simp only [depth] at hdepth
    have hinside : d + left.spread + 1 + right.depth ≤ nestingLimit := by omega
    rw [glyphs, List.append_assoc, List.cons_append]
    -- The left side is read first. The loop then takes one more turn for the operator and the
    -- right side, and ends where the whole expression ends.
    refine (ihl hleft).spine (quiet_operator op _) ?_ (by omega) ?_ fun turns =>
      .iterate_turn (.climbTurn (.roomForOperator op hop (by omega))
        (.application op fun levels => (ihr hright).expression hquiet ?_ ?_ hinside htighter)) hend
    -- The operator binds looser than any in the left side, so none of them goes on behind it.
    · intro powers hpowers inner hinner
      have hpowers : op.token.binaryPower? = some powers := hpowers
      rw [op.binaryPower?_token, Option.some.injEq] at hpowers
      rw [← hpowers]
      exact hlooser inner hinner
    · intro inner hinner
      have := hlooser inner hinner
      have := inner.right_le_left_succ
      omega
    · intro powers hpowers inner hinner
      obtain ⟨outer, -, rfl⟩ := BinaryOp.exists_of_binaryPower? hpowers
      exact BinaryOp.lt_right_of_le_left (htighter inner hinner) (hreleased _ hpowers op rfl)
    · exact fun powers hpowers => hreleased powers hpowers op rfl
  | field reach base member ih =>
    refine .of_chain rfl fun hcall hbreak hdepth hend => ?_
    have haccesses := base.accesses_lt_depth
    simp only [depth] at hdepth
    rw [glyphs, List.append_assoc]
    -- The base is read first, and the loop takes one more turn for the member.
    refine (ih hw.1).chain (isChain_of_isBase hw.2) ?_ (.inr ?_) (by omega) fun turns =>
      .iterate_turn (.climbTurn (.roomForAccess ?_ (by omega)) (.access_field reach member hcall hbreak))
        hend
    all_goals cases reach <;> first | rfl | rintro ⟨⟩
  | index base member ihb ihm =>
    refine .of_chain rfl fun {n p d gs bs cs u} hcall hbreak hdepth hend => ?_
    have haccesses := base.accesses_lt_depth
    simp only [depth] at hdepth
    have hinside : d + base.accesses + 1 + member.depth ≤ nestingLimit := by omega
    rw [glyphs, List.append_assoc, List.cons_append, List.append_assoc]
    -- The base is read first, and the loop takes one more turn for the index.
    refine (ihb hw.1).chain (isChain_of_isBase hw.2.2) rfl (.inr (by rintro ⟨⟩)) (by omega) fun turns =>
      .iterate_turn (.climbTurn (.roomForAccess rfl (by omega)) (.access_index (fun levels => ?_) hbreak))
        hend
    exact (ihm hw.2.1).expression (quiet_rBracket _) (by rintro _ ⟨⟩) (by rintro _ ⟨⟩) hinside
      fun _ _ => Nat.zero_le _

end Written

end ScriptSense
