/-
What a written formula means.

The walk from the tree to the meaning goes along the views, and the views see no
more of a tree than its bare tree. So a tree that is the tree of a written formula
but for its layout is lowered to that formula, in whatever scope and after whatever
was collected before. Parentheses are gone then, so it does not matter how many
there were.
-/
import ScriptSense.Proofs.Formula.Parsing
import ScriptSense.Proofs.Script.Running

set_option autoImplicit false

namespace ScriptSense

/-! ## Children of a tree by its bare tree -/

namespace Tree

variable {t : Tree} {b : Bare}

/-- A child answered by a view whose answer is left as one element. -/
theorem exists_child_of_bare {o : Option t.Child}
    (h : bareOfAll (o.map Subtype.val).toList = [b]) : ∃ c, o = some c ∧ c.val.bare = [b] := by
  cases o with
  | none => cases h
  | some c => exact ⟨c, rfl, by simpa using h⟩

/-- The nodes answered by a view whose answers are left as one element. -/
theorem exists_only_child_of_bare {p : NodeKind → Bool}
    (h : bareOfAll ((t.nodesWhere p).map Subtype.val) = [b]) :
    ∃ c, t.nodesWhere p = [c] ∧ c.val.bare = [b] := by
  have hnode : ∀ c ∈ t.nodesWhere p, ∃ b, c.val.bare = [b] := fun c hc =>
    (bare_of_isNode (List.mem_filter.1 hc).2).imp fun _ => And.left
  revert h hnode
  -- Every node stays one bare node, so that two of them would be two.
  rcases t.nodesWhere p with _ | ⟨c, _ | ⟨d, cs⟩⟩ <;> intro h hnode
  · cases h
  · exact ⟨c, rfl, by simpa using h⟩
  · obtain ⟨b', hc⟩ := hnode c (by simp)
    obtain ⟨b'', hd⟩ := hnode d (by simp)
    simp [hc, hd] at h

/-- The token answered by a view. -/
theorem exists_token_of_glyph {o : Option Token} {kind : TokenKind} {text : String}
    (h : o.map Token.glyph = some (kind, text)) (hkeyword : kind.isKeyword = false)
    (htype : kind.isTypeName = false) : ∃ m, o = some m ∧ m.kind = kind ∧ m.text = text := by
  obtain ⟨m, rfl, hm⟩ := Option.map_eq_some_iff.1 h
  have hkind : m.kind = kind := congrArg Prod.fst hm
  refine ⟨m, rfl, hkind, ?_⟩
  rw [← Token.glyph_snd (t := m) (by rw [hkind, hkeyword]) (by rw [hkind, htype]), hm]

end Tree

namespace Written

/-- The formula without its parentheses. -/
def formula : Written → Formula
  | .number n => .number n
  | .name n => .name n
  | .paren inner => inner.formula
  | .unary op operand => .unary op operand.formula
  | .binary op left right => .binary op left.formula right.formula
  | .field reach base member => .field reach base.formula member
  | .index base member => .index base.formula member.formula

theorem formula_guarded (needed : Bool) (w : Written) : (guarded needed w).formula = w.formula := by
  cases needed <;> rfl

/-- The tree of a formula is an expression and no token. -/
theorem isNode_bare (w : Written) : w.bare.isNode NodeKind.isExpression = true := by
  cases w <;> rfl

theorem isMark_bare (w : Written) (q : TokenKind → Bool) : w.bare.isMark q = false := by
  cases w <;> rfl

theorem glyph?_bare (w : Written) : w.bare.glyph? = none := by
  cases w <;> rfl

end Written

theorem Formula.formula_written (e : Formula) : e.written.formula = e := by
  induction e with
  | number n => rfl
  | name n => rfl
  | unary op operand ih => simp [written, Written.formula, Written.formula_guarded, ih]
  | binary op left right ihl ihr =>
    simp [written, Written.formula, Written.formula_guarded, ihl, ihr]
  | field reach base member ih => simp [written, Written.formula, Written.formula_guarded, ih]
  | index base member ihb ihm =>
    simp [written, Written.formula, Written.formula_guarded, ihb, ihm]

/-! ## Numbers -/

/-- The value of a number is read off its characters. -/
theorem Literal.ofToken?_numeral (n : Numeral) {m : Token} (hkind : m.kind = n.kind)
    (htext : m.text = String.ofList n.chars) : Literal.ofToken? m = some (.integer n.value) := by
  cases n with
  | decimal digits hsome hdigit hsmall =>
    have hwhole : digits.dropWhile (· != '.') = [] := by
      refine List.dropWhile_eq_nil_iff.2 fun c hc => ?_
      have hne : c ≠ '.' := by
        rintro rfl
        exact absurd (hdigit _ hc) (by decide)
      simpa using hne
    rw [ofToken?, hkind]
    simp only [Numeral.kind, htext, Numeral.chars, String.toList_ofList, ofDecimal, hwhole, if_pos hsmall,
      Numeral.value]
  | hexadecimal mark hmark digits hsome hdigit hsmall =>
    rw [ofToken?, hkind]
    simp only [Numeral.kind, htext, Numeral.chars, String.toList_ofList, ofHexadecimal?, List.drop_succ_cons,
      List.drop_zero, if_pos hsmall, Numeral.value]

/-! ## Formulas -/

namespace Written

open Lower ScriptSense.Tree

/-- A name is read off the tree of a name. -/
theorem text_of_bare {t : Tree} {n : Name} {k : NodeKind}
    (h : t.bare = [.node k [.leaf (.ident, n.text)]]) : View.Identifier.text t = n.text := by
  obtain ⟨span, cs, rfl, hcs⟩ := eq_node_of_bare h
  have hglyph := glyph_tokenWhere? (TokenKind.isSignificant_of_beq .ident rfl)
    (.node k span cs)
  rw [children, hcs] at hglyph
  obtain ⟨m, hm, -, htext⟩ := exists_token_of_glyph hglyph rfl rfl
  rw [View.Identifier.text, View.Identifier.token?, tokenOf?, hm]
  exact htext

variable {t : Tree}

/-- The one expression of a node is found. -/
theorem exists_expression (bs : List Bare) {cs : List Bare} {w : Written} {k : NodeKind}
    (h : t.bare = [.node k (bs ++ w.bare :: cs)]) (hbs : bs.find? (·.isNode NodeKind.isExpression) = none) :
    ∃ c : t.Child, t.nodeWhere? NodeKind.isExpression = some c ∧ c.val.bare = [w.bare] := by
  obtain ⟨span, ts, rfl, hts⟩ := eq_node_of_bare h
  refine exists_child_of_bare ?_
  rw [bare_nodeWhere?, children, hts, List.find?_append, hbs, Option.none_or,
    List.find?_cons_of_pos w.isNode_bare]
  rfl

/-- The two expressions of a node and the token between them are found. -/
theorem exists_around {q : TokenKind → Bool} (hq : ∀ k, q k = true → k.isSignificant = true)
    {k : NodeKind} {left : Written} {kind : TokenKind} {text : String} {right : Bare} {bs : List Bare}
    (ht : t.Tiled) (h : t.bare = [.node k (left.bare :: .leaf (kind, text) :: right :: bs)])
    (hkind : q kind = true) (hkeyword : kind.isKeyword = false) (htype : kind.isTypeName = false)
    (hright : right.isNode NodeKind.isExpression = true) :
    (∃ m, t.tokenWhere? q = some m ∧ m.kind = kind)
      ∧ (∃ c : t.Child, t.nodeBefore? (t.tokenWhere? q) NodeKind.isExpression = some c
        ∧ c.val.bare = [left.bare])
      ∧ ∃ c : t.Child, t.nodeAfter? (t.tokenWhere? q) NodeKind.isExpression = some c
        ∧ c.val.bare = [right] := by
  have hchildren : bareOfAll t.children = left.bare :: .leaf (kind, text) :: right :: bs := by
    obtain ⟨span, ts, rfl, hts⟩ := eq_node_of_bare h
    exact hts
  have hmark : (Bare.leaf (kind, text)).isMark q = true := hkind
  -- The left side is a node, so the operator is the first token.
  have hleft : (!left.bare.isMark q) = true := by rw [left.isMark_bare, Bool.not_false]
  refine ⟨?_, exists_child_of_bare ?_, exists_child_of_bare ?_⟩
  · have hglyph := glyph_tokenWhere? hq t
    rw [hchildren, Bare.mark?, List.filterMap_cons_none left.glyph?_bare] at hglyph
    obtain ⟨m, hm, hmkind, -⟩ := exists_token_of_glyph
      (hglyph.trans (List.find?_cons_of_pos hkind)) hkeyword htype
    exact ⟨m, hm, hmkind⟩
  · rw [bare_nodeBefore? ht hq, hchildren]
    simp [Bare.inFront, left.isMark_bare, hmark, left.isNode_bare]
  · rw [bare_nodeAfter? ht hq, hchildren]
    simp [Bare.behind, left.isMark_bare, hmark, hright]

/-- The operator in front of an operand is found. -/
theorem exists_sign {k : NodeKind} {kind : TokenKind} {text : String} {bs : List Bare}
    (h : t.bare = [.node k (.leaf (kind, text) :: bs)]) {q : TokenKind → Bool}
    (hq : ∀ k, q k = true → k.isSignificant = true) (hkind : q kind = true)
    (hkeyword : kind.isKeyword = false) (htype : kind.isTypeName = false) :
    ∃ m, t.tokenWhere? q = some m ∧ m.kind = kind ∧ m.text = text := by
  obtain ⟨span, cs, rfl, hcs⟩ := eq_node_of_bare h
  have hglyph := glyph_tokenWhere? hq (.node k span cs)
  rw [children, hcs] at hglyph
  exact exists_token_of_glyph (hglyph.trans (List.find?_cons_of_pos hkind)) hkeyword htype

/-- **A tree that is a written formula but for its layout means the formula.** -/
theorem finds_expr (w : Written) {t : Tree} (ht : t.Tiled) (hbare : t.bare = [w.bare])
    (scope : ScopeId) : Finds (Lower.expr scope t) w.formula.Denotes := by
  induction w generalizing t with
  | number n =>
    obtain ⟨m, hm, hkind, htext⟩ := exists_sign hbare TokenKind.isSignificant_of_isLiteral
      (by cases n <;> rfl) (by cases n <;> rfl) (by cases n <;> rfl)
    obtain ⟨span, cs, rfl, -⟩ := eq_node_of_bare hbare
    rw [Lower.expr]
    -- A numeral that was written has a value, so its literal is not rejected.
    have hvalue : (View.Literal.token? (.node .literal span cs)).bind Literal.ofToken?
        = some (.integer n.value) := by
      rw [View.Literal.token?, hm]
      exact Literal.ofToken?_numeral n hkind htext
    exact .given hvalue (.pure (.number n _ span))
  | name n =>
    have htext := text_of_bare hbare
    obtain ⟨span, cs, rfl, -⟩ := eq_node_of_bare hbare
    rw [Lower.expr]
    refine .nameUse fun symbol ty => ?_
    rw [htext]
    exact .name n symbol ty span
  | paren inner ih =>
    obtain ⟨c, hc, hcbare⟩ := exists_expression [.leaf (.lParen, "(")] hbare rfl
    obtain ⟨span, cs, rfl, -⟩ := eq_node_of_bare hbare
    rw [Lower.expr]
    exact .given hc (ih (ht.of_mem_children c.property) hcbare)
  | unary op operand ih =>
    obtain ⟨m, hm, hkind, -⟩ := exists_sign hbare TokenKind.isSignificant_of_isOperator
      (by cases op <;> rfl) (by cases op <;> rfl) (by cases op <;> rfl)
    obtain ⟨c, hc, hcbare⟩ :=
      exists_expression [.leaf (op.token, op.token.sign)] hbare rfl
    obtain ⟨span, cs, rfl, -⟩ := eq_node_of_bare hbare
    rw [Lower.expr]
    refine .given (a := op) ?_ (.given hc ?_)
    · rw [View.Operation.operator?, hm, Option.bind_some, hkind, op.ofToken?_token]
    · exact .bind (ih (ht.of_mem_children c.property) hcbare) fun lowered hlowered =>
        .pure (.unary .unknown span hlowered)
  | binary op left right ihl ihr =>
    obtain ⟨⟨m, hm, hkind⟩, ⟨l, hl, hlbare⟩, r, hr, hrbare⟩ := exists_around
      TokenKind.isSignificant_of_isOperator ht hbare (by cases op <;> rfl) (by cases op <;> rfl)
      (by cases op <;> rfl) right.isNode_bare
    obtain ⟨span, cs, rfl, -⟩ := eq_node_of_bare hbare
    rw [Lower.expr]
    refine .given (a := op) ?_ (.given hl ?_)
    · rw [View.Operation.operator?, hm, Option.bind_some, hkind, op.ofToken?_token]
    refine .bind (ihl (ht.of_mem_children l.property) hlbare) fun left' hleft => .given hr ?_
    exact .bind (ihr (ht.of_mem_children r.property) hrbare) fun right' hright =>
      .pure (.binary .unknown span hleft hright)
  | field reach base member ih =>
    obtain ⟨⟨m, hm, hkind⟩, ⟨b, hb, hbbare⟩, c, hc, hcbare⟩ := exists_around
      TokenKind.isSignificant_of_isAccess ht hbare (by cases reach <;> rfl)
      (by cases reach <;> rfl) (by cases reach <;> rfl) rfl
    have htext := text_of_bare hcbare
    obtain ⟨span, cs, rfl, -⟩ := eq_node_of_bare hbare
    rw [Lower.expr]
    refine .given (a := reach.memberOp) ?_ (.given hb ?_)
    · have hoperator : View.MemberExpr.operator? (.node .memberExpr span cs) = some m := hm
      rw [hoperator, Option.bind_some, hkind]
      cases reach <;> rfl
    refine .bind (ih (ht.of_mem_children b.property) hbbare) fun base' hbase => .given hc ?_
    have hname : c.val.isNode (· == .nameRef) = true := by
      obtain ⟨cspan, ccs, hcval, -⟩ := eq_node_of_bare hcbare
      rw [hcval]
      rfl
    -- A name behind a reach is a field and is not looked up.
    have hfield : (reach.memberOp != .index && c.val.isNode (· == .nameRef)) = true := by
      rw [hname]
      cases reach <;> rfl
    rw [if_pos hfield, htext]
    exact .pure (.field member .unknown .unknown span c.val.span hbase)
  | index base member ihb ihm =>
    obtain ⟨⟨m, hm, hkind⟩, ⟨b, hb, hbbare⟩, c, hc, hcbare⟩ := exists_around
      TokenKind.isSignificant_of_isAccess ht hbare rfl rfl rfl member.isNode_bare
    obtain ⟨span, cs, rfl, -⟩ := eq_node_of_bare hbare
    rw [Lower.expr]
    refine .given (a := .index) ?_ (.given hb ?_)
    · have hoperator : View.MemberExpr.operator? (.node .memberExpr span cs) = some m := hm
      rw [hoperator, Option.bind_some, hkind]
      rfl
    refine .bind (ihb (ht.of_mem_children b.property) hbbare) fun base' hbase => .given hc ?_
    rw [if_neg (by simp)]
    exact .bind (ihm (ht.of_mem_children c.property) hcbare) fun member' hmember =>
      .pure (.index .unknown span hbase hmember)

end Written

end ScriptSense
