/-
Operators and the operands they bind.

In a tree without an error the binding powers say all about who gets an operand. Here the
same is shown of the tree of every text, however broken: a node of an operator begins with
one operand, then comes the operator, then nodes only; an operation to the left of it does
not let it go to the right, and an operation to the right of it binds at least as tightly
as it asks for (`Binds`).

The loop over operators is left in many ways: in front of a looser operator, where an
operand is missing, at a word that stops the expression, at the limit of nesting. What they
have in common is the next token: behind an expression read with a floor it is no operator
that binds at the floor or above it (`Loose`), so no loop further out takes up an operator
that one further in has left. That is one half of the invariant of the loop; the other is
that the element built last lets the next operator have it (`Fits`).
-/
import ScriptSense.Proofs.Grammar.Leads
import ScriptSense.Proofs.Grammar.TandemRules
import ScriptSense.Proofs.Grammar.Whole
import ScriptSense.Proofs.Totality

set_option autoImplicit false

namespace ScriptSense

/-! ## Powers in a tree -/

namespace Tree

/-- The powers of an operator, none of what is no token. -/
def operatorPowers? : Tree → Option (Nat × Nat)
  | .leaf t => t.kind.binaryPower?
  | .node .. => none

/-- The powers with which a node binds its operands, which are those of its operator. -/
def powers? : Tree → Option (Nat × Nat)
  | .node .binExpr _ children => children.findSome? operatorPowers?
  | _ => none

/-- The powers of an operator are those of its token. -/
@[simp] theorem operatorPowers?_leaf (t : Token) :
    (leaf t).operatorPowers? = t.kind.binaryPower? := rfl

/-- The powers of an operation are those of the first operator in it. -/
@[simp] theorem powers?_binExpr (span : Span) (cs : List Tree) :
    (node .binExpr span cs).powers? = cs.findSome? operatorPowers? := rfl

end Tree

/-- **An operator with the powers has its operands by right**: one to the left, which has
not been left for the operator, and to the right what binds at least with the power asked
for. -/
structure Binds (powers : Nat × Nat) (left : Tree) (right : List Tree) : Prop where
  left_node : left.isNode (fun _ => true) = true
  right_nodes : ∀ c ∈ right, c.isNode (fun _ => true) = true
  left_power : ∀ p, left.powers? = some p → powers.1 < p.2
  right_power : ∀ c ∈ right, ∀ p, c.powers? = some p → powers.2 ≤ p.1

/-- An operator stands between its operands, by the elements without layout. -/
def IsApplication (ts : List Tree) : Prop :=
  ∃ left op right powers, ts = left :: .leaf op :: right ∧ op.kind.binaryPower? = some powers
    ∧ Binds powers left right

/-- **In all nodes of the tree the powers of operators decide what they bind**, and no
operator between operands is in the place of an operand of one in front. -/
inductive Tree.Graded : Tree → Prop
  | leaf (t : Token) : Graded (.leaf t)
  | node {kind : NodeKind} {span : Span} {children : List Tree}
      (hbinary : kind = .binExpr → IsApplication (solid children))
      (hunary : kind = .unaryExpr → ∀ c ∈ children, c.isNode (· == .binExpr) = false)
      (hcs : ∀ c ∈ children, Graded c) : Graded (.node kind span children)

/-- No operator binds more tightly than the signs do. -/
theorem Tree.powers_lt {c : Tree} {p : Nat × Nat} (h : c.powers? = some p) : p.1 < 25 := by
  unfold powers? at h
  split at h
  · obtain ⟨d, -, hd⟩ := List.exists_of_findSome?_eq_some h
    cases d with
    | leaf => exact TokenKind.binaryPower?_lt hd
    | node => cases hd
  · cases h

namespace Grammar

variable {α β : Type}

/-! ## What the rules hand on -/

/-- All elements are graded. -/
abbrev AllGraded (ts : List Tree) : Prop := ∀ c ∈ ts, c.Graded

/-- A run beside itself, building graded trees. -/
abbrev Along : State → State → Prop := Alone (fun _ => True) fun _ t => t.Graded

instance : Hereditary fun _ t => Tree.Graded t where
  leaf _ t := .leaf t
  later _ h := h
  node span hkind hcs := by
    refine .node ?_ ?_ hcs
    all_goals
      rintro rfl
      exact absurd hkind (by decide)

/-- A node without an operator of its own hands on what is in it. -/
theorem encloses_along {kind : NodeKind} (hkind : kind.isOperation = false) :
    Encloses Along kind := by
  refine encloses_alone fun _ span children hcs => .node ?_ ?_ hcs
  all_goals
    rintro rfl
    exact absurd hkind (by decide)

instance : Encloses Along .funcExpr := encloses_along rfl
instance : Encloses Along .varDeclStmt := encloses_along rfl
instance : Encloses Along .setStmt := encloses_along rfl
instance : Encloses Along .letStmt := encloses_along rfl
instance : Encloses Along .returnStmt := encloses_along rfl
instance : Encloses Along .breakStmt := encloses_along rfl
instance : Encloses Along .continueStmt := encloses_along rfl
instance : Encloses Along .exprStmt := encloses_along rfl

/-- Behind the elements `base` there are others with the property. -/
def Over (base : List Tree) (p : Tree → Prop) (ts : List Tree) : Prop :=
  ∃ new, ts = base ++ new ∧ ∀ c ∈ new, p c

/-- Of these, there is a last one that has a property of its own. -/
def Tops (base : List Tree) (p q : Tree → Prop) (ts : List Tree) : Prop :=
  ∃ front last, ts = base ++ front ++ [last] ∧ (∀ c ∈ front, p c) ∧ q last

/-- Layout, or a node that is no operation between operands. -/
def IsOperand (c : Tree) : Prop :=
  c.isSolid = false ∨ c.isNode (· != .binExpr) = true

/-- Layout, or a node that binds its operands at least with the power, if it binds any. -/
def Above (floor : Nat) (c : Tree) : Prop :=
  c.isSolid = false ∨ c.isNode (fun _ => true) = true
    ∧ (c.isNode (· == .binExpr) = true → ∃ p, c.powers? = some p ∧ floor ≤ p.1)

/-- The next token is no operator that binds at least with the power. -/
def Loose (floor : Nat) (k : TokenKind) : Prop := ∀ p, k.binaryPower? = some p → p.1 < floor

/-- An operator that comes next may have the element as its operand. -/
def Fits (c : Tree) (k : TokenKind) : Prop :=
  ∀ p, c.powers? = some p → ∀ q, k.binaryPower? = some q → q.1 < p.2

section Elements

variable {base ts : List Tree} {p q p' q' : Tree → Prop}

/-- Nothing was added yet. -/
theorem over_nil (base : List Tree) (p : Tree → Prop) : Over base p base :=
  ⟨[], (List.append_nil base).symm, fun _ hc => absurd hc List.not_mem_nil⟩

/-- Where nothing was added nothing has to be shown. -/
theorem over_of_eq (h : ts = base) : Over base p ts := h ▸ over_nil ts p

/-- Less may be asked of what was added. -/
theorem Tops.mono (h : Tops base p q ts) (hp : ∀ c, p c → p' c) (hq : ∀ c, q c → q' c) :
    Tops base p' q' ts := by
  obtain ⟨front, last, hts, hfront, hlast⟩ := h
  exact ⟨front, last, hts, fun c hc => hp c (hfront c hc), hq last hlast⟩

/-- What is asked of the last node is asked of all that was added. -/
theorem Tops.over (h : Tops base p q ts) (hq : ∀ c, q c → p c) : Over base p ts := by
  obtain ⟨front, last, hts, hfront, hlast⟩ := h
  refine ⟨front ++ [last], by rw [hts, List.append_assoc], fun c hc => ?_⟩
  rcases List.mem_append.1 hc with hc | hc
  · exact hfront c hc
  · exact List.mem_singleton.1 hc ▸ hq last hlast

/-- Layout is no operation. -/
theorem isOperand_layout {t : Token} (h : t.kind.isTrivia = true) : IsOperand (.leaf t) :=
  .inl (by simp [Tree.isSolid, TokenKind.isSignificant, h])

/-- A node that is no operation of two sides is an operand. -/
theorem isOperand_node {kind : NodeKind} (h : kind ≠ .binExpr) (span : Span) (cs : List Tree) :
    IsOperand (.node kind span cs) :=
  .inr (bne_iff_ne.2 h)

/-- An operand has no powers of its own. -/
theorem IsOperand.powers_eq_none {c : Tree} (h : IsOperand c) : c.powers? = none := by
  cases c with
  | leaf => rfl
  | node kind span cs =>
    rcases h with h | h
    · cases h
    · have hkind : kind ≠ .binExpr := bne_iff_ne.1 h
      cases kind <;> first | rfl | exact absurd rfl hkind

/-- An operand stands above every floor. -/
theorem IsOperand.above {c : Tree} (h : IsOperand c) (floor : Nat) : Above floor c := by
  refine h.imp_right fun hnode => ?_
  cases c with
  | leaf => cases hnode
  | node kind span cs =>
    exact ⟨rfl, fun hbinary => absurd (eq_of_beq hbinary) (bne_iff_ne.1 hnode)⟩

end Elements

/-! ## The rules of expressions -/

section Rules

variable {calm : Bool} {R : Rules} {base : List Tree} {p q : Tree → Prop} {m : Step α}

/-- Steps that go along leave later states. -/
theorem later_along [h : Coupled Along false m m] (s : State) : s.Later (m s).2 := h.later s

/-- Of a step that is coupled to itself, nothing is known but that it goes on. -/
theorem goesOn [h : Coupled Along calm m m] {sight : Outlook} :
    Leads calm sight m fun _ _ _ => True :=
  .anywhere h

/-- Steps that go along keep what is built in order. -/
theorem graded_leads [h : Coupled Along calm m m] :
    Leads calm (fun ts _ => AllGraded ts) m fun _ ts _ => AllGraded ts :=
  ⟨h.later, fun hcalm hs hfault => (h.alone ⟨trivial, hs⟩ hcalm hfault).out⟩

/-- Behind what is added in front of it, a node is the last. -/
theorem tops_node {before : List Tree} {trivia : List Token} {x : Tree}
    (hbefore : Over base IsOperand before) (htrivia : ∀ t ∈ trivia, t.kind.isTrivia = true)
    (hx : IsOperand x) :
    Tops base IsOperand IsOperand (before ++ trivia.map .leaf ++ [x]) := by
  obtain ⟨new, rfl, hnew⟩ := hbefore
  refine ⟨new ++ trivia.map .leaf, x, by simp only [List.append_assoc], fun c hc => ?_, hx⟩
  rcases List.mem_append.1 hc with hc | hc
  · exact hnew c hc
  · obtain ⟨t, ht, rfl⟩ := List.mem_map.1 hc
    exact isOperand_layout (htrivia t ht)

/-- A node that is no operation, whatever is in it. -/
theorem node_isOperand {kind : NodeKind} (hkind : kind ≠ .binExpr)
    (hlater : ∀ s : State, s.Later (node kind m s).2) :
    Leads calm (fun ts _ => Over base IsOperand ts) (node kind m)
      fun _ ts _ => Tops base IsOperand IsOperand ts := by
  refine (Leads.addNode hlater).giving ?_
  rintro _ _ _ ⟨before, -, trivia, span, cs, hbefore, htrivia, rfl⟩
  exact tops_node hbefore htrivia (isOperand_node hkind span cs)

/-- A node around the one built last that is no operation. -/
theorem around_isOperand {kind : NodeKind} (hkind : kind ≠ .binExpr)
    [h : Coupled Along calm m m] :
    Leads calm (fun ts _ => Tops base p IsOperand ts) (nodeAround kind m)
      fun _ ts _ => Tops base p IsOperand ts := by
  refine (Leads.nodeAround (q := fun before x _ _ _ => Tops base p IsOperand (before ++ [x]))
    h.later fun before x => ⟨h.later, fun _ hs _ => hs.2⟩).giving ?_
  rintro _ ts _ ⟨before, x, span, children, -, rfl, front, last, hsplit, hfront, -⟩
  obtain rfl := (List.append_inj' hsplit rfl).1
  exact ⟨front, _, rfl, hfront, isOperand_node hkind span children⟩

/-! ### What is set aside -/

/-- Where skipping stops no operator is next. -/
theorem skipToken_leads (opened : Nat) : Leads calm (fun _ _ => True) (skipToken opened)
    fun found _ k => if found.isSome then True else k.binaryPower? = none := by
  have hon (n : Nat) : Leads calm (fun _ _ => True) (do bumpAny; return some n)
      fun found _ k => if found.isSome then True else k.binaryPower? = none :=
    goesOn.bind fun _ => .pure _ fun _ _ _ => trivial
  refine Leads.atLineEnd.bind fun ends => .ite (fun hends => ?_) fun _ => ?_
  · refine .pure _ fun _ k h => ?_
    have hend : k = .newline ∨ k = .eof := by simpa [hends] using h.2.symm
    rcases hend with rfl | rfl <;> rfl
  · refine Leads.current.bind fun kind => ?_
    cases kind
    case lParen | lBracket | lBrace => exact (hon _).given fun _ _ _ => trivial
    case rParen | rBracket | rBrace =>
      refine .ite (fun _ => .pure _ fun _ k h => ?_) fun _ => (hon _).given fun _ _ _ => trivial
      exact h.2 ▸ rfl
    all_goals exact (hon _).given fun _ _ _ => trivial

/-- An expression that is too deep is an operand, and no operator follows. -/
theorem deepExpression_leads (R : Rules) :
    Leads calm (fun ts _ => Over base IsOperand ts) (deepExpression R)
      fun _ ts k => Tops base IsOperand IsOperand ts ∧ k.binaryPower? = none := by
  have hskip : Leads true (fun _ _ => True) (R.loopFrom 0 skipToken)
      fun _ _ k => k.binaryPower? = none := .iterate skipToken_leads _ _
  have hinside : Leads calm (fun ts _ => ts = [] ∧ True)
      (do complain .deepExpression; withoutParens (R.loopFrom 0 skipToken))
      fun _ _ k => k.binaryPower? = none :=
    ((Leads.complain _).bind fun _ => hskip.withoutParens).given fun _ _ _ => trivial
  refine hinside.node.mono (fun _ _ h => ⟨h, trivial⟩) ?_
  rintro _ _ k ⟨before, trivia, span, cs, hbefore, htrivia, rfl, hnext⟩
  exact ⟨tops_node hbefore htrivia (isOperand_node (by decide) span cs), hnext⟩

/-! ### Operands -/

/-- What is behind a step that reads an operand, by its answer: there is one, or nothing
was built and no operator comes next. -/
abbrev Answered (base : List Tree) (there : Bool) : Outlook := fun ts k =>
  if there then Tops base IsOperand IsOperand ts else ts = base ∧ k.binaryPower? = none

/-- Nothing that ends a line or an expression is an operator. -/
theorem stops_binaryPower {k : TokenKind} (h : stopsExpression k = true) :
    k.binaryPower? = none := by
  cases k <;> first | rfl | exact absurd h (by decide)

/-- A missing operand leaves an error behind, or no operator follows. -/
theorem noOperand_leads : Leads calm (fun ts _ => ts = base) noOperand (Answered base) := by
  have hstop : Leads calm (fun ts k => ts = base ∧ k.binaryPower? = none)
      (do complain (.missing .expression); return false) (Answered base) :=
    (Leads.complain _).bind fun _ => .pure _ fun _ _ h => h
  have haside : Leads calm (fun ts _ => ts = base)
      (do node .error (do complain (.missing .expression); bumpAny); return true)
      (Answered base) :=
    (node_isOperand (by decide) later_along).given (fun _ _ h => over_of_eq h) |>.bind fun _ =>
      .pure _ fun _ _ h => h
  unfold noOperand
  refine Leads.atLineEnd.bind fun ends => ?_
  dsimp only
  -- The end of a line is no operator, and a token that stops expressions is none either.
  cases ends with
  | true =>
    refine hstop.given fun ts k h => ⟨h.1, ?_⟩
    have hend : k = .newline ∨ k = .eof := by simpa using h.2.symm
    rcases hend with rfl | rfl <;> rfl
  | false =>
    refine Leads.bind (q := fun stops ts k => ts = base ∧ stops = stopsExpression k)
      (.map (Leads.current.giving fun _ _ _ h => ⟨h.1.1, congrArg _ h.2⟩)) fun stops => ?_
    refine .ite (fun hstops => ?_) fun _ => haside.given fun _ _ h => h.1
    exact hstop.given fun _ _ h => ⟨h.1, stops_binaryPower (h.2.symm.trans hstops)⟩

variable [hR : R.Coupled Along R]

instance nameOrCall_along (calls : Bool) :
    Coupled Along calm (nameOrCall R calls) (nameOrCall R calls) :=
  .nameOrCall R R rfl calls

/-- A name or a call is an operand. -/
theorem nameOrCall_leads (calls : Bool) : Leads calm (fun ts _ => ts = base) (nameOrCall R calls)
    fun _ ts _ => Tops base IsOperand IsOperand ts := by
  refine (Leads.atFunction R).bind fun known => ?_
  refine ((node_isOperand (by decide) later_along).given
    fun _ _ h => over_of_eq h).bind fun _ => ?_
  -- A call goes around its name, and is an operand as the name is.
  have hcall (called : Bool) : Leads calm (fun ts _ => Tops base IsOperand IsOperand ts)
      (if called then nodeAround .funcExpr do
          node .argList do
            if ← opensArguments then parenArguments R
            else bareArguments R
        else return)
      fun _ ts _ => Tops base IsOperand IsOperand ts :=
    .ite (fun _ => around_isOperand (by decide)) fun _ => .pure _ fun _ _ h => h
  refine .ite (fun _ => ?_) fun _ => .pure _ fun _ _ h => h
  dsimp only
  refine .ite (fun _ => ?_) fun _ => ?_
  · exact (Leads.pure true fun _ _ h => h).bind hcall
  · exact Leads.bind (.map (Leads.current.giving fun _ _ _ h => h.1)) hcall

/-- The innermost operand is an operand, or no operator follows. -/
theorem primary_leads (calls : Bool) :
    Leads calm (fun ts _ => ts = base) (primary R calls) (Answered base) := by
  -- Each kind of primary builds one node, which is an operand.
  have hliteral : Leads calm (fun ts _ => ts = base) (do node .literal bumpAny; return true)
      (Answered base) :=
    ((node_isOperand (by decide) later_along).given
      fun _ _ h => over_of_eq h).bind fun _ => .pure _ fun _ _ h => h
  refine Leads.current.bind fun kind => ?_
  cases kind
  case number | hexNumber | string => exact hliteral.given fun _ _ h => h.1
  case ident =>
    exact ((nameOrCall_leads calls).bind fun _ => .pure true fun _ _ h => h).given fun _ _ h => h.1
  case lParen =>
    refine (Leads.look 1).bind fun second => ?_
    have hthere {m : Step Unit} (hm : Leads calm (fun ts _ => Over base IsOperand ts) m
        fun _ ts _ => Tops base IsOperand IsOperand ts) :
        Leads calm (fun ts k => ts = base ∧ TokenKind.lParen = k) (do m; return true)
          (Answered base) :=
      (hm.given fun _ _ h => over_of_eq h.1).bind fun _ => .pure _ fun _ _ h => h
    have hlambda : Coupled Along calm (lambda R) (lambda R) := inferInstance
    have hparens : Coupled Along calm (parenthesized R) (parenthesized R) := inferInstance
    exact .ite (fun _ => hthere (node_isOperand (by decide) hlambda.later)) fun _ =>
      hthere (node_isOperand (by decide) hparens.later)
  all_goals exact noOperand_leads.given fun _ _ h => h.1

/-! ### Accesses -/

/-- An access around an operand is an operand. -/
theorem accesses_leads (calls : Bool) :
    Leads calm (fun ts _ => Tops base IsOperand IsOperand ts) (accesses R calls)
      fun _ ts _ => Tops base IsOperand IsOperand ts := by
  have hover : ∀ ts, Tops base IsOperand IsOperand ts → Over base IsOperand ts :=
    fun ts h => h.over fun _ => id
  -- Looking for room changes nothing, unless the limit is reached and the rest is set aside.
  have hcheck : Leads calm (fun ts _ => Tops base IsOperand IsOperand ts) (roomForAccess R)
      fun _ ts _ => Tops base IsOperand IsOperand ts := by
    unfold roomForAccess
    refine Leads.current.bind fun kind => ?_
    have hroom (deep : Bool) : Leads calm (fun ts k => Tops base IsOperand IsOperand ts ∧ kind = k)
        (if deep then do deepExpression R; return none else return some ())
        fun _ ts _ => Tops base IsOperand IsOperand ts :=
      .ite (fun _ => ((deepExpression_leads R).given fun ts _ h => hover ts h.1).bind fun _ =>
        .pure none fun _ _ h => h.1) fun _ => .pure _ fun _ _ h => h.1
    dsimp only
    exact .ite (fun _ => Leads.isTooDeep.bind hroom) fun _ =>
      (Leads.pure false fun _ _ h => h).bind hroom
  have hfound : Leads calm (fun ts _ => Tops base IsOperand IsOperand ts) (roomForAccess R)
      fun found ts _ => found.elim (Tops base IsOperand IsOperand ts) fun _ =>
        Tops base IsOperand IsOperand ts :=
    hcheck.giving fun found _ _ h => by cases found <;> exact h
  refine .climb hfound (fun _ => ?_) _
  -- An access is put around the operand on top, which gives an operand again.
  · have haround {m : Step Unit} (hm : Coupled Along calm m m) :
        Leads calm (fun ts _ => Tops base IsOperand IsOperand ts)
          (do nodeAround .memberExpr m; return true)
          fun again ts _ => if again then Tops base IsOperand IsOperand ts
            else Tops base IsOperand IsOperand ts :=
      (around_isOperand (by decide)).bind fun _ => .pure _ fun _ _ h => h
    refine Leads.current.bind fun kind => ?_
    cases kind
    case dot | arrow | lBracket => exact (haround inferInstance).given fun _ _ h => h.1
    all_goals exact .pure _ fun _ _ h => h.1

/-- An operand without signs is an operand, or no operator follows. -/
theorem shallowOperand_leads (calls : Bool) :
    Leads calm (fun ts _ => ts = base) (shallowOperand R calls) (Answered base) := by
  refine Leads.current.bind fun kind => ?_
  split
  · next power _ =>
    have hbody : Coupled Along false
        (do bumpAny; if calls then R.expression power else discard <| R.operand false)
        (do bumpAny; if calls then R.expression power else discard <| R.operand false) :=
      inferInstance
    exact ((node_isOperand (by decide) (Coupled.later_node hbody.later _)).given
      fun _ _ h => over_of_eq h.1).bind fun _ => .pure true fun _ _ h => h
  · refine ((primary_leads calls).given fun _ _ h => h.1).bind fun there => ?_
    cases there with
    | true => exact (accesses_leads calls).bind fun _ => .pure true fun _ _ h => h
    | false => exact .pure false fun _ _ h => h

/-- An operand with its signs is an operand, or no operator follows. -/
theorem operand_leads (calls : Bool) :
    Leads calm (fun ts _ => ts = base) (operand R calls) (Answered base) := by
  refine Leads.isTooDeep.bind fun deep => .ite (fun _ => ?_) fun _ => ?_
  · exact ((deepExpression_leads R).given fun _ _ h => over_of_eq h).bind fun _ =>
      .pure true fun _ _ h => h.1
  · exact (shallowOperand_leads calls).within .nesting (by decide)

end Rules

/-! ## Operators -/

/-- What the rules of a level make of operators and operands. -/
structure Rules.Grades (R : Rules) : Prop where
  coupled : R.Coupled Along R
  operand (calm : Bool) (base : List Tree) (calls : Bool) :
    Leads calm (fun ts _ => ts = base) (R.operand calls) (Answered base)
  expression (calm : Bool) (base : List Tree) (floor : Nat) :
    Leads calm (fun ts _ => ts = base ∧ AllGraded ts) (R.expression floor)
      fun _ ts k => AllGraded ts ∧ Over base (Above floor) ts ∧ Loose floor k

section Operators

variable {calm : Bool} {R : Rules} {base : List Tree} {floor : Nat}

/-- **The invariant of the loop over operators.** What was built last may be the operand of
the operator that comes next. -/
abbrev Applying (base : List Tree) (floor : Nat) : Outlook := fun ts k =>
  AllGraded ts ∧ Tops base (Above floor) (fun c => Above floor c ∧ Fits c k) ts

/-- What is so where the loop is left. -/
abbrev Applied (base : List Tree) (floor : Nat) : Outlook := fun ts k =>
  AllGraded ts ∧ Over base (Above floor) ts ∧ Loose floor k

/-- Where an operator is taken up, which hands on the power. -/
abbrev TakingUp (base : List Tree) (floor power : Nat) : Outlook := fun ts k =>
  Applying base floor ts k ∧ ∃ left, k.binaryPower? = some (left, power) ∧ floor ≤ left

/-- Less may be asked of what was added. -/
theorem Over.mono {base ts : List Tree} {p q : Tree → Prop} (h : Over base p ts)
    (hpq : ∀ c, p c → q c) : Over base q ts := by
  obtain ⟨new, hts, hnew⟩ := h
  exact ⟨new, hts, fun c hc => hpq c (hnew c hc)⟩

/-- What was added first and what was added then. -/
theorem Over.append {base ts us : List Tree} {p : Tree → Prop} (h : Over base p ts)
    (h' : Over ts p us) : Over base p us := by
  obtain ⟨new, rfl, hnew⟩ := h
  obtain ⟨new', rfl, hnew'⟩ := h'
  refine ⟨new ++ new', List.append_assoc .., fun c hc => ?_⟩
  exact (List.mem_append.1 hc).elim (hnew c) (hnew' c)

/-- Either an operator is taken up that binds at the floor, or none such is next. -/
theorem roomForOperator_leads (R : Rules) [R.Coupled Along R] :
    Leads calm (Applying base floor) (roomForOperator R floor) fun found ts k =>
      found.elim (Applied base floor ts k) fun power => TakingUp base floor power ts k := by
  have hover : ∀ ts k, Applying base floor ts k → Over base (Above floor) ts :=
    fun ts k h => h.2.over fun _ hc => hc.1
  unfold roomForOperator
  refine Leads.current.bind fun kind => ?_
  split
  -- What follows is no operator, so the expression ends here.
  · next hnone =>
    refine .pure _ fun ts k h => ⟨h.1.1, hover ts k h.1, fun p hp => ?_⟩
    rw [← h.2, hnone] at hp
    cases hp
  · next left right hpower =>
    -- An operator that binds looser is left for an expression further out.
    refine .ite (fun hless => .pure _ fun ts k h => ⟨h.1.1, hover ts k h.1, fun p hp => ?_⟩)
      fun hfloor => Leads.isTooDeep.bind fun deep => .ite (fun _ => ?_) fun _ => ?_
    · rw [← h.2, hpower, Option.some.injEq] at hp
      exact hp ▸ hless
    · -- At the limit the rest of the line is set aside, so no operator comes next.
      refine Leads.bind (q := fun _ ts k => Applied base floor ts k) ?_ fun _ =>
        .pure _ fun _ _ h => h
      refine ⟨later_along, fun {s} hcalm hs hfault => ?_⟩
      have hdeep := (deepExpression_leads R).run hcalm (over_nil s.out.toList IsOperand) hfault
      refine ⟨graded_leads.run hcalm hs.1.1 hfault, (hover _ _ hs.1).append ?_, fun p hp => ?_⟩
      · exact (hdeep.1.over fun _ => id).mono fun c hc => hc.above floor
      · rw [hdeep.2] at hp
        cases hp
    · refine .pure _ fun ts k h => ⟨h.1, left, h.2 ▸ hpower, Nat.not_lt.1 hfloor⟩

/-- Of the children of an operation, the first token that is an operator is its own. -/
theorem powers?_application {x : Tree} (hx : x.isNode (fun _ => true) = true) {moved : List Token}
    {k : TokenKind} (hbite : Bite calm k moved) {powers : Nat × Nat}
    (hk : k.binaryPower? = some powers) (span : Span) (new : List Tree) :
    (Tree.node .binExpr span ([x] ++ moved.map .leaf ++ new)).powers? = some powers := by
  obtain ⟨trivia, op, layout, rfl, htrivia, rfl, -⟩ := hbite
  have hleft : x.operatorPowers? = none := by
    cases x with
    | leaf => cases hx
    | node => rfl
  have hfront : (trivia.map Tree.leaf).findSome? Tree.operatorPowers? = none := by
    refine List.findSome?_eq_none_iff.2 fun c hc => ?_
    obtain ⟨t, ht, rfl⟩ := List.mem_map.1 hc
    rcases TokenKind.isTrivia_iff.1 (htrivia t ht) with h | h <;>
      rw [Tree.operatorPowers?_leaf, h] <;> rfl
  simp [List.findSome?_append, hleft, hfront, hk]

/-- Between its operands, an operator is alone but for layout. -/
theorem isApplication_of_bite {x : Tree} (hx : x.isNode (fun _ => true) = true)
    {moved : List Token} {k : TokenKind} (hbite : Bite calm k moved) {powers : Nat × Nat}
    (hk : k.binaryPower? = some powers) (hfits : Fits x k) {new : List Tree}
    (hnew : ∀ c ∈ new, Above powers.2 c) :
    IsApplication (solid ([x] ++ moved.map .leaf ++ new)) := by
  obtain ⟨trivia, op, layout, rfl, htrivia, rfl, hlayout, -⟩ := hbite
  have hx' : x.isSolid = true := by
    cases x with
    | leaf => cases hx
    | node => rfl
  have hop : (Tree.leaf op).isSolid = true := by
    change op.kind.isSignificant = true
    generalize op.kind = kind at hk
    cases kind <;> first | rfl | cases hk
  -- Around the operator there is only layout, which is no element.
  have hnone (ts : List Token) (hts : ∀ t ∈ ts, t.kind.isTrivia = true ∨ t.kind = .newline) :
      solid (ts.map Tree.leaf) = [] := by
    refine List.filter_eq_nil_iff.2 fun c hc => ?_
    obtain ⟨t, ht, rfl⟩ := List.mem_map.1 hc
    rcases hts t ht with h | h <;> simp [Tree.isSolid, TokenKind.isSignificant, h]
  have hnode : ∀ c ∈ solid new, c.isNode (fun _ => true) = true
      ∧ (c.isNode (· == .binExpr) = true → ∃ p, c.powers? = some p ∧ powers.2 ≤ p.1) := by
    intro c hc
    obtain ⟨hmem, hsolid⟩ := List.mem_filter.1 hc
    refine (hnew c hmem).resolve_left fun hlayout => ?_
    rw [hsolid] at hlayout
    cases hlayout
  refine ⟨x, op, solid new, powers, ?_, hk, hx, fun c hc => (hnode c hc).1,
    fun p hp => hfits p hp powers hk, fun c hc p hp => ?_⟩
  · have hbefore := hnone trivia fun t ht => .inl (htrivia t ht)
    have hafter := hnone layout hlayout
    simp only [solid] at hbefore hafter ⊢
    simp [List.filter_append, hx', hop, hbefore, hafter]
  · have hbinary : c.isNode (· == .binExpr) = true := by
      unfold Tree.powers? at hp
      split at hp
      · rfl
      · cases hp
    obtain ⟨p', hp', hfloor⟩ := (hnode c hc).2 hbinary
    rw [hp', Option.some.injEq] at hp
    exact hp ▸ hfloor

/-- **An operator is taken up with what it has a right to**, and lets the next one have it. -/
theorem application_leads (hR : R.Grades) (power : Nat) :
    Leads calm (TakingUp base floor power) (application R power) fun again ts k =>
      if again then Applying base floor ts k else Applied base floor ts k := by
  have := hR.coupled
  have hbody : Coupled Along false (do bumpAny; R.expression power)
      (do bumpAny; R.expression power) := inferInstance
  refine Leads.bind (q := fun _ ts k => Applying base floor ts k) ?_ fun _ => .pure _ fun _ _ h => h
  -- What is in the node: the operand to its left, the operator, and what it asked for.
  let q (before : List Tree) (x : Tree) : Unit → Outlook := fun _ children k => ∃ k' moved new,
    TakingUp base floor power (before ++ [x]) k' ∧ AllGraded children
      ∧ children = [x] ++ moved.map .leaf ++ new ∧ Bite calm k' moved
      ∧ (∀ c ∈ new, Above power c) ∧ Loose power k
  refine (Leads.nodeAround (q := q) hbody.later fun before x => ?_).giving ?_
  · refine (Leads.bumpAny fun ts k h => ?_).bind fun _ => ⟨(hR.expression calm [] power).later, ?_⟩
    · obtain ⟨-, -, left, hk, -⟩ := h
      rintro rfl
      cases hk
    · rintro s hcalm ⟨_, k', moved, ⟨rfl, htaking⟩, hts, hbite⟩ hfault
      have hbuilt : AllGraded ([x] ++ moved.map .leaf) := by
        intro c hc
        rcases List.mem_append.1 hc with hc | hc
        · exact htaking.1.1 c (List.mem_append_right _ hc)
        · obtain ⟨t, -, rfl⟩ := List.mem_map.1 hc
          exact .leaf t
      obtain ⟨hgraded, ⟨new, hnew, habove⟩, hloose⟩ :=
        (hR.expression calm ([x] ++ moved.map .leaf) power).run hcalm ⟨hts, hts ▸ hbuilt⟩ hfault
      exact ⟨k', moved, new, htaking, hgraded, hnew, hbite, habove, hloose⟩
  · rintro _ _ k ⟨before, x, span, children, hx, rfl, k', moved, new,
      ⟨⟨hgraded, front, last, hsplit, hfront, -, hfits⟩, left, hk, hfloor⟩, hinside, rfl, hbite,
      habove, hloose⟩
    obtain ⟨rfl, hlast⟩ := List.append_inj' hsplit rfl
    obtain rfl := List.singleton_inj.1 hlast
    have hpowers := powers?_application hx hbite hk span new
    refine ⟨fun c hc => ?_, front, _, rfl, hfront, ⟨.inr ⟨rfl, fun _ => ⟨_, hpowers, hfloor⟩⟩, ?_⟩⟩
    · rcases List.mem_append.1 hc with hc | hc
      · exact hgraded c (List.mem_append_left _ hc)
      · rw [List.mem_singleton.1 hc]
        refine .node (fun _ => isApplication_of_bite hx hbite hk hfits habove) (fun h => ?_) hinside
        cases h
    · intro p hp p' hp'
      rw [hpowers, Option.some.injEq] at hp
      exact hp ▸ hloose p' hp'

/-- The loop over operators ends in front of a looser operator, or of none. -/
theorem operators_leads (hR : R.Grades) :
    Leads calm (Applying base floor) (operators R floor) fun _ => Applied base floor := by
  have := hR.coupled
  exact .climb (roomForOperator_leads R) (application_leads hR) R.turns

/-- So does an expression with a floor. -/
theorem expression_leads (hR : R.Grades) :
    Leads calm (fun ts _ => ts = base ∧ AllGraded ts) (expression R floor)
      fun _ => Applied base floor := by
  have := hR.coupled
  have hread : Leads calm (fun ts _ => ts = base ∧ AllGraded ts) (R.operand true)
      fun there ts k => Answered base there ts k ∧ AllGraded ts :=
    (hR.operand calm base true).and graded_leads
  refine hread.bind fun there => .ite (fun hthere => ?_) fun hthere => ?_
  · refine (operators_leads hR).given fun ts k h => ⟨h.2, ?_⟩
    rw [hthere] at h
    -- An operand has no operator at its top, so it binds above every floor.
    refine Tops.mono h.1 (fun c hc => hc.above floor) fun c hc => ⟨hc.above floor, fun p hp => ?_⟩
    rw [hc.powers_eq_none] at hp
    cases hp
  · refine .pure _ fun ts k h => ?_
    rw [Bool.not_eq_true] at hthere
    rw [hthere] at h
    refine ⟨h.2, over_of_eq h.1.1, fun p hp => ?_⟩
    rw [h.1.2] at hp
    cases hp

/-- What an operator in front of an operand is applied to is no operation between
operands: it binds tighter than all of them. -/
theorem unary_leads (hR : R.Grades) {kind : TokenKind} {power : Nat}
    (hpower : kind.unaryPower? = some power) (calls : Bool) :
    Leads calm (fun ts _ => ts = [])
      (do bumpAny; if calls then R.expression power else discard <| R.operand false)
      fun _ ts _ => ∀ c ∈ ts, c.isNode (· == .binExpr) = false := by
  have hleaf (moved : List Token) :
      ∀ c ∈ moved.map Tree.leaf, c.isNode (· == .binExpr) = false := by
    intro c hc
    obtain ⟨t, -, rfl⟩ := List.mem_map.1 hc
    rfl
  -- A sign binds more tightly than any operator, so no operation of two sides stands above it.
  have habove (c : Tree) (hc : Above power c) : c.isNode (· == .binExpr) = false := by
    by_contra hbinary
    rw [Bool.not_eq_false] at hbinary
    rcases hc with hlayout | ⟨-, hc⟩
    · cases c with
      | leaf => cases hbinary
      | node => cases hlayout
    · obtain ⟨p, hp, hfloor⟩ := hc hbinary
      have hlt := Tree.powers_lt hp
      rw [TokenKind.unaryPower?_eq hpower] at hfloor
      omega
  have hlater : ∀ s : State, s.Later
      ((if calls then R.expression power else discard <| R.operand false) s).2 := by
    have := hR.coupled
    exact later_along
  refine Leads.bumpTokens.bind fun _ => ⟨hlater, ?_⟩
  rintro s hcalm ⟨_, k, moved, rfl, hts⟩ hfault
  rw [List.nil_append] at hts
  have hall : ∃ new,
      ((if calls then R.expression power else discard <| R.operand false) s).2.out.toList
        = moved.map .leaf ++ new ∧ ∀ c ∈ new, Above power c := by
    cases calls with
    | true =>
      have hgraded : AllGraded (moved.map .leaf) := by
        intro c hc
        obtain ⟨t, -, rfl⟩ := List.mem_map.1 hc
        exact .leaf t
      exact ((hR.expression calm _ power).run hcalm ⟨hts, hts ▸ hgraded⟩ hfault).2.1
    | false =>
      have hanswer := (hR.operand calm _ false).run hcalm hts hfault
      change ∃ new, (R.operand false s).2.out.toList = _ ∧ _
      cases hthere : (R.operand false s).1 with
      | true =>
        rw [hthere] at hanswer
        exact (Tops.over hanswer fun _ => id).mono fun c hc => hc.above power
      | false =>
        rw [hthere] at hanswer
        exact ⟨[], by rw [hanswer.1, List.append_nil], by simp⟩
  obtain ⟨new, hnew, hbound⟩ := hall
  rw [hnew]
  exact fun c hc => (List.mem_append.1 hc).elim (hleaf moved c) fun hc => habove c (hbound c hc)

end Operators

/-! ## All levels -/

section Levels

variable {calm : Bool} {R : Rules}

/-- Operands without signs go along with themselves. -/
theorem shallowOperand_along (hR : R.Grades) (calls : Bool) :
    Coupled Along calm (shallowOperand R calls) (shallowOperand R calls) := by
  have := hR.coupled
  unfold shallowOperand
  refine .andThen fun kind => ?_
  split
  · next power hpower =>
    have hbody : Coupled Along calm
        (do bumpAny; if calls then R.expression power else discard <| R.operand false)
        (do bumpAny; if calls then R.expression power else discard <| R.operand false) :=
      inferInstance
    -- The node of the sign is the only one built here that has to be looked at.
    have hnode : Coupled Along calm
        (node .unaryExpr do
          bumpAny
          if calls then R.expression power else discard <| R.operand false)
        (node .unaryExpr do
          bumpAny
          if calls then R.expression power else discard <| R.operand false) := by
      refine .of_alone (Coupled.later_node hbody.later _) fun s hs hcalm hfault => ?_
      have hcalm' (hc : calm = true) : ((s.opened .unaryExpr).inside #[]).parens = 0 :=
        (State.Later.opened .unaryExpr s).parens.trans (hcalm hc)
      refine hbody.node_alone hs hcalm hfault fun hbuilt =>
        .node (fun h => absurd h (by decide)) (fun _ => ?_) hbuilt.out
      exact (unary_leads hR hpower calls).run hcalm' rfl hfault
    infer_instance
  · infer_instance

/-- So do all rules of a level that have an operator in them. -/
theorem singled_along (hR : R.Grades) : R.Singled Along R := by
  have hcoupled := hR.coupled
  refine { nameOrCall := fun _ calls => .nameOrCall R R rfl calls
           shallowOperand := fun _ calls => shallowOperand_along hR calls
           expression := fun calm floor => ?_ }
  have hreads (base : List Tree) : Leads calm (fun ts _ => ts = base ∧ AllGraded ts)
      (expression R floor) fun _ => Applied base floor := expression_leads hR
  refine .of_alone (hreads []).later fun s hs hcalm hfault =>
    ⟨trivial, ((hreads s.out.toList).run hcalm ⟨rfl, hs.out⟩ hfault).1⟩

/-- The rules of every level bind as they should. -/
theorem grades_rules (f : String → Bool) (levels : Nat) : (rules f levels).Grades := by
  induction levels with
  | zero =>
    exact { coupled := .exhausted _ f f
            operand := fun _ _ _ =>
              (Leads.giveUp _ (q := fun _ _ _ => False)).bind fun _ => .pure _ nofun
            expression := fun _ _ _ => .giveUp _ }
  | succ levels ih =>
    have hcoupled := ih.coupled
    exact { coupled := by
              have : (rules f levels).Singled Along (rules f levels) := singled_along ih
              exact .deeper
            operand := fun _ _ calls => operand_leads calls
            expression := fun _ _ floor => expression_leads ih }

end Levels

end Grammar

open Grammar in
/-- **In the tree of every text, operators bind what their powers say.** Wherever one
operator stands between operands, there is one operand in front of it, no other operator
in the node, and no operation below it that would have let it go, or that it would have
let go; and no operator in front of an operand has such an operation for its operand. -/
theorem operators_bind (isFunction : String → Bool) (text : String) :
    (parseWith isFunction text).root.Graded := by
  set start := State.initial (tokens text)
  set R := rules isFunction (levelsFor start.rest.length)
  have hgrades : R.Grades := grades_rules isFunction _
  have hcoupled : R.Coupled Along R := hgrades.coupled
  have hsingled : R.Singled Along R := singled_along hgrades
  have hscript : Coupled Along true (script R) (script R) := .script R R
  have hstart : start.Has (fun _ => True) fun _ t => t.Graded :=
    ⟨trivial, fun c hc => absurd hc List.not_mem_nil⟩
  have hbuilt := hscript.alone hstart (fun _ => rfl) (fault_run_script isFunction (tokens text))
  refine .node (fun h => by cases h) (fun h => by cases h) fun c hc => ?_
  rw [State.toList_out_shiftMany, List.mem_append] at hc
  rcases hc with hc | hc
  · exact hbuilt.out c hc
  · obtain ⟨t, -, rfl⟩ := List.mem_map.1 hc
    exact .leaf t

end ScriptSense
