/-
Names known to be functions make calls and nothing else.

A text is read twice, once with some names known to be functions and once with none. The
two readings consume the same tokens and complain about the same. They differ in one place:
behind a name that is known, where no argument can follow, the first builds a call without
arguments and the second leaves the name alone. In front of the empty list of arguments the
first also passes over the trivia, which the second passes over later; so the two have the
same next token, but one may have blank space in front of it (`Abreast`).

That the two stay abreast is a matter of the grammar as a whole; only the rule for names has
to be gone through. Where both readings build a call, the call has to stay one when the
empty ones are taken back, so its arguments need a token: an argument begins where
something can begin it, and that is consumed (`Rules.Feeds`).
-/
import ScriptSense.Proofs.Grammar.Leads
import ScriptSense.Proofs.Grammar.Prefix
import ScriptSense.Proofs.Grammar.TandemRules
import ScriptSense.Proofs.Syntax.Outline
import ScriptSense.Proofs.Totality

set_option autoImplicit false

namespace ScriptSense.Grammar

open Outline (call call_of_ne pruned prunedAll tokensOfAll)
open ScriptSense.Tree (leavesOfAll outlines tokensShown)

variable {α β σ : Type}

/-! ## Two readings abreast -/

/-- **The two readings are at the same token and have built the same**, but for calls
without arguments and for blank space. -/
structure Abreast (s s' : State) : Prop where
  ahead : s.rest.dropWhile (·.kind.isTrivia) = s'.rest.dropWhile (·.kind.isTrivia)
  anchor : s.anchor = s'.anchor
  complaints : s.complaints = s'.complaints
  count (c : Counter) : s.count c = s'.count c
  built : prunedAll (outlines s.out.toList) = outlines s'.out.toList

/-- Trivia leave no outline. -/
theorem outlines_shiftTrivia (s : State) :
    outlines s.shiftTrivia.out.toList = outlines s.out.toList := by
  rw [State.shiftTrivia, State.toList_out_shiftMany, Tree.outlines_append,
    Tree.outlines_trivia fun t => State.isTrivia_of_mem_take, List.append_nil]

namespace Abreast

variable {s s' t t' : State}

/-- Only the parts named matter. -/
theorem congr {u u' : State} (h : Abreast s s') (hrest : u.rest = s.rest ∧ u'.rest = s'.rest)
    (hanchor : u.anchor = s.anchor ∧ u'.anchor = s'.anchor)
    (hcomplaints : u.complaints = s.complaints ∧ u'.complaints = s'.complaints)
    (hcount : ∀ c, u.count c = u'.count c) (hout : u.out = s.out ∧ u'.out = s'.out) :
    Abreast u u' where
  ahead := by rw [hrest.1, hrest.2, h.ahead]
  anchor := by rw [hanchor.1, hanchor.2, h.anchor]
  complaints := by rw [hcomplaints.1, hcomplaints.2, h.complaints]
  count := hcount
  built := by rw [hout.1, hout.2, h.built]

theorem shiftTrivia (h : Abreast s s') : Abreast s.shiftTrivia s'.shiftTrivia where
  ahead := by
    rw [State.rest_shiftTrivia, State.rest_shiftTrivia, List.dropWhile_idempotent,
      List.dropWhile_idempotent, h.ahead]
  anchor := by rw [State.anchor_shiftTrivia, State.anchor_shiftTrivia, h.anchor]
  complaints := by
    rw [State.shiftTrivia_eq State.complaints_shift, State.shiftTrivia_eq State.complaints_shift,
      h.complaints]
  count c := by rw [State.count_shiftTrivia, State.count_shiftTrivia, h.count]
  built := by rw [outlines_shiftTrivia, outlines_shiftTrivia, h.built]

/-- Where nothing is in front of the next token in either reading, they move the same. -/
theorem shift (h : Abreast s s') (hrest : s.rest = s'.rest) : Abreast s.shift s'.shift := by
  cases hs : s.rest with
  | nil =>
    have hstill : s.shift = s := by simp [State.shift, hs]
    have hstill' : s'.shift = s' := by simp [State.shift, ← hrest, hs]
    rwa [hstill, hstill']
  | cons t ts =>
    refine ⟨?_, ?_, ?_, fun c => ?_, ?_⟩
    · rw [State.shift_of_rest hs, State.shift_of_rest (hrest ▸ hs)]
    · rw [State.shift_of_rest hs, State.shift_of_rest (hrest ▸ hs)]
      simp only [h.anchor]
    · rw [State.complaints_shift, State.complaints_shift, h.complaints]
    · rw [State.count_shift, State.count_shift, h.count]
    · rw [State.shift_of_rest hs, State.shift_of_rest (hrest ▸ hs)]
      -- Leaves are not pruned, so both runs have built the same.
      have hleaf : prunedAll (outlines [.leaf t]) = outlines [.leaf t] := by
        rw [Tree.outlines_cons]
        split <;> simp [Tree.outline]
      simp only [Array.toList_push, Tree.outlines_append, Outline.prunedAll_append, h.built, hleaf]

theorem shiftMany (n : Nat) (h : Abreast s s') (hrest : s.rest = s'.rest) :
    Abreast (s.shiftMany n) (s'.shiftMany n) := by
  induction n generalizing s s' with
  | zero => exact h
  | succ n ih =>
    refine ih (h.shift hrest) ?_
    have hone (s : State) : s.shift.rest = s.rest.drop 1 := State.rest_shiftMany 1 s
    rw [hone, hone, hrest]

theorem consume (h : Abreast s s') : Abreast s.consume s'.consume := by
  have hsame : s.shiftTrivia.rest = s'.shiftTrivia.rest := by
    rw [State.rest_shiftTrivia, State.rest_shiftTrivia, h.ahead]
  have hone (s : State) : s.shift.rest = s.rest.drop 1 := State.rest_shiftMany 1 s
  have hrest : s.shiftTrivia.shift.rest = s'.shiftTrivia.shift.rest := by rw [hone, hone, hsame]
  have hshift := h.shiftTrivia.shift hsame
  have hparens : s.shiftTrivia.shift.parens = s'.shiftTrivia.shift.parens := hshift.count .parens
  have hbreaks : Abreast s.shiftTrivia.shift.shiftBreaks s'.shiftTrivia.shift.shiftBreaks := by
    unfold State.shiftBreaks
    rw [← hparens, ← hrest]
    split
    · exact hshift.shiftMany _ hrest
    · exact hshift
  exact hbreaks.congr ⟨rfl, rfl⟩ ⟨rfl, rfl⟩ ⟨rfl, rfl⟩ (fun c => hbreaks.count c) ⟨rfl, rfl⟩

theorem place (h : Abreast s s') : s.place = s'.place := by
  unfold State.place
  rw [h.ahead, h.anchor]

theorem setCount (c : Counter) (n : Nat) (h : Abreast s s') :
    Abreast (s.setCount c n) (s'.setCount c n) := by
  obtain ⟨hrest, -, hanchor, hcomplaints⟩ := State.level_setCount c n s
  obtain ⟨hrest', -, hanchor', hcomplaints'⟩ := State.level_setCount c n s'
  refine h.congr ⟨hrest, hrest'⟩ ⟨hanchor, hanchor'⟩ ⟨hcomplaints, hcomplaints'⟩ (fun d => ?_)
    ⟨State.out_setCount .., State.out_setCount ..⟩
  by_cases hd : d = c
  · rw [hd, State.count_setCount, State.count_setCount]
  · rw [State.count_setCount_of_ne hd, State.count_setCount_of_ne hd, h.count]

/-- The elements built last correspond, if they are nodes. -/
theorem last (h : Abreast s s') {outer outer' : Array Tree} {x x' : Tree}
    (hout : s.out = outer.push x) (hout' : s'.out = outer'.push x')
    (hx : x.isNode (fun _ => true) = true) (hx' : x'.isNode (fun _ => true) = true) :
    prunedAll (outlines outer.toList) = outlines outer'.toList ∧ x.outline.pruned = x'.outline := by
  have hbuilt := h.built
  rw [hout, hout', Array.toList_push, Array.toList_push, Tree.outlines_append,
    Tree.outlines_append, Outline.prunedAll_append, Tree.outlines_singleton hx,
    Tree.outlines_singleton hx'] at hbuilt
  obtain ⟨houter, hlast⟩ := List.append_inj' hbuilt rfl
  exact ⟨houter, by simpa using hlast⟩

/-- A node in each reading, with what corresponds in front of them and inside. -/
theorem close {kind kind' : NodeKind} {start start' : Nat} {outer outer' : Array Tree}
    (ht : Abreast t t') (houter : prunedAll (outlines outer.toList) = outlines outer'.toList)
    (hnode : call kind (prunedAll (outlines t.out.toList))
      = .node kind' (outlines t'.out.toList)) :
    Abreast (t.close kind start outer) (t'.close kind' start' outer') where
  ahead := ht.ahead
  anchor := ht.anchor
  complaints := ht.complaints
  count := ht.count
  built := by
    simp only [State.close, Array.toList_push, Tree.outlines_append, Outline.prunedAll_append]
    rw [houter, Tree.outlines_singleton rfl, Tree.outlines_singleton rfl, Tree.outline_node,
      Tree.outline_node, Outline.prunedAll_cons, Outline.pruned_node, hnode, Outline.prunedAll_nil]

/-- A call without arguments around the name built last is taken back to the name. -/
theorem taking (h : Abreast s s') {outer : Array Tree} {span : Span} {cs : List Tree}
    (hname : s.out = outer.push (.node .nameRef span cs))
    (hrest : t.rest = s.rest.dropWhile (·.kind.isTrivia)) (hanchor : t.anchor = s.anchor)
    (hcomplaints : t.complaints = s.complaints) (hcount : ∀ c, t.count c = s.count c)
    (hout : outlines t.out.toList = outlines outer.toList
      ++ [.node .funcExpr [.node .nameRef (outlines cs), .node .argList []]]) : Abreast t s' where
  ahead := by rw [hrest, List.dropWhile_idempotent, h.ahead]
  anchor := hanchor.trans h.anchor
  complaints := hcomplaints.trans h.complaints
  count c := (hcount c).trans (h.count c)
  built := by
    -- A call without arguments is pruned to its name, which is what the other run has built.
    have hbuilt := h.built
    rw [hname, Array.toList_push, Tree.outlines_append, Tree.outlines_singleton rfl,
      Tree.outline_node, Outline.prunedAll_append, Outline.prunedAll_cons, Outline.pruned_node,
      call_of_ne (by decide), Outline.prunedAll_nil] at hbuilt
    rw [hout, Outline.prunedAll_append, Outline.prunedAll_cons, Outline.pruned_node,
      Outline.prunedAll_cons, Outline.prunedAll_cons, Outline.pruned_node, Outline.pruned_node,
      call_of_ne (by decide : NodeKind.nameRef ≠ .funcExpr),
      call_of_ne (by decide : NodeKind.argList ≠ .funcExpr), Outline.prunedAll_nil,
      Outline.call_empty, hbuilt]

/-- The trees of two readings that end abreast. -/
theorem root (h : Abreast s s') (kind : NodeKind) (hkind : kind ≠ .funcExpr) :
    (s.root kind).outline.pruned = (s'.root kind).outline := by
  have hrest : outlines (s.rest.map .leaf) = outlines (s'.rest.map .leaf) := by
    rw [Tree.outlines_visible, h.ahead, ← Tree.outlines_visible]
  simp only [State.root, Tree.outline_node, Outline.pruned_node, State.toList_out_shiftMany,
    List.take_length, Tree.outlines_append, Outline.prunedAll_append, call_of_ne hkind, h.built,
    Outline.prunedAll_tokens, hrest]

end Abreast

/-- Every node but a call is the same in both readings. -/
theorem encloses_abreast {kind : NodeKind} (h : kind ≠ .funcExpr) : Encloses Abreast kind where
  node hs ht _ _ := ht.close hs.built (by rw [call_of_ne h, ht.built])
  around hs hout hout' hx hx' ht _ _ :=
    ht.close (hs.last hout hout' hx hx').1 (by rw [call_of_ne h, ht.built])

instance : Encloses Abreast .binExpr := encloses_abreast (by decide)
instance : Encloses Abreast .unaryExpr := encloses_abreast (by decide)
instance : Encloses Abreast .varDeclStmt := encloses_abreast (by decide)
instance : Encloses Abreast .setStmt := encloses_abreast (by decide)
instance : Encloses Abreast .letStmt := encloses_abreast (by decide)
instance : Encloses Abreast .returnStmt := encloses_abreast (by decide)
instance : Encloses Abreast .breakStmt := encloses_abreast (by decide)
instance : Encloses Abreast .continueStmt := encloses_abreast (by decide)
instance : Encloses Abreast .exprStmt := encloses_abreast (by decide)

instance : Tandem Abreast where
  ahead h := by rw [← faces_dropWhile, h.ahead, faces_dropWhile]
  count c h := h.count c
  looked h := h.congr ⟨rfl, rfl⟩ ⟨rfl, rfl⟩ ⟨rfl, rfl⟩ (fun c => h.count c) ⟨rfl, rfl⟩
  shiftTrivia h := h.shiftTrivia
  consume h := h.consume
  complain p h :=
    { ahead := h.ahead
      anchor := h.anchor
      complaints := by simp only [h.complaints, h.place]
      count := fun c => h.count c
      built := h.built }
  setCount c n h := h.setCount c n
  inside h :=
    { ahead := h.ahead
      anchor := h.anchor
      complaints := h.complaints
      count := fun c => h.count c
      built := by simp [State.inside] }
  takeOver h hout hout' hx hx' :=
    { ahead := h.ahead
      anchor := h.anchor
      complaints := h.complaints
      count := fun c => h.count c
      built := by
        simp only [State.inside]
        rw [Tree.outlines_singleton hx, Tree.outlines_singleton hx', Outline.prunedAll_cons,
          (h.last hout hout' hx hx').2, Outline.prunedAll_nil] }
  encloses kind hkind := encloses_abreast (by rintro rfl; exact absurd hkind (by decide))

/-! ## Where a token is consumed -/

/-- A token was built that is no blank space and no comment. -/
abbrev Fed : Outlook := fun ts _ => tokensShown ts ≠ []

section Feeding

variable {calm : Bool} {m : Step α} {p : Outlook} {inner : TokenKind → Prop}

/-- What was built stays built. -/
theorem fed_grows (f : String → Bool) [Made f m] [Coupled Eq calm m m] :
    Leads calm Fed m fun _ => Fed := by
  refine .grown f (p := fun ts => ts.filter (!·.kind.isTrivia) ≠ []) fun ts moved h => ?_
  rw [List.filter_append]
  exact List.append_ne_nil_of_left_ne_nil h _

theorem fed_of_bite {before : List Tree} {moved : List Token} {kind : TokenKind}
    (hkind : kind.isTrivia = false) (h : Bite calm kind moved) :
    tokensShown (before ++ moved.map .leaf) ≠ [] := by
  obtain ⟨trivia, t, layout, rfl, -, rfl, -⟩ := h
  rw [Tree.tokensShown_append]
  refine List.append_ne_nil_of_right_ne_nil _ ?_
  simp [tokensShown, hkind]

theorem bump_feeds {kind : TokenKind} (hend : kind ≠ .eof) (hkind : kind.isTrivia = false) :
    Leads calm p (bump kind) fun _ => Fed :=
  (Leads.bump hend).giving fun _ _ _ ⟨_, _, _, hts, hbite⟩ => hts ▸ fed_of_bite hkind hbite

theorem starts_visible {kind : TokenKind} (h : kind.canStartExpression = true) :
    kind.isTrivia = false := by
  cases kind <;> revert h <;> decide

theorem bumpAny_feeds :
    Leads calm (fun _ k => k.canStartExpression = true) bumpAny fun _ => Fed :=
  (Leads.bumpAny fun _ _ h => (starts_excludes h).2.1).giving
    fun _ _ _ ⟨_, _, _, h, hts, hbite⟩ => hts ▸ fed_of_bite (starts_visible h) hbite

theorem node_feeds {kind : NodeKind} (h : Leads calm (fun _ k => inner k) m fun _ => Fed) :
    Leads calm (fun _ k => inner k) (node kind m) fun _ => Fed := by
  have hinside : Leads calm (fun ts k => ts = [] ∧ inner k) m fun _ => Fed :=
    h.given fun _ _ h => h.2
  refine (hinside.node (p := fun _ => True)).mono (fun _ _ h => ⟨trivial, h⟩) ?_
  rintro _ _ _ ⟨before, trivia, span, children, -, -, rfl, hfed⟩
  change tokensShown _ ≠ []
  rw [Tree.tokensShown_append]
  refine List.append_ne_nil_of_right_ne_nil _ ?_
  simpa [tokensShown] using hfed

end Feeding

/-- An operand that can begin consumes a token. -/
structure Rules.Feeds (R : Rules) : Prop where
  operand (calm calls : Bool) :
    Leads calm (fun _ k => k.canStartExpression = true) (R.operand calls) fun _ => Fed

section FeedingRules

variable {calm : Bool} {R : Rules}

theorem skipToken_feeds (opened : Nat) :
    Leads calm (fun _ k => k.canStartExpression = true) (skipToken opened)
      fun found => if found.isSome then Fed else fun _ _ => False := by
  have hon (n : Nat) : Leads calm (fun _ k => k.canStartExpression = true)
      (do bumpAny; return some n)
      fun found : Option Nat => if found.isSome then Fed else fun _ _ => False :=
    bumpAny_feeds.bind fun _ => .pure _ fun _ _ h => h
  refine Leads.atLineEnd.bind fun ends => .ite (fun hends => ?_) fun _ => ?_
  -- The line ends with no token that begins an expression.
  · refine .pure _ fun _ k h => ?_
    obtain ⟨hstart, hk⟩ := h
    rw [hends] at hk
    cases k <;> first | exact absurd hk (by decide) | exact absurd hstart (by decide)
  · refine Leads.current.bind fun kind => ?_
    cases kind
    case rParen | rBracket | rBrace =>
      refine .ite (fun _ => .pure _ fun _ k h => ?_) fun _ => (hon _).given fun _ _ h => h.1.1
      obtain ⟨⟨hstart, -⟩, rfl⟩ := h
      cases hstart
    all_goals exact (hon _).given fun _ _ h => h.1.1

theorem deepExpression_feeds (R : Rules) :
    Leads calm (fun _ k => k.canStartExpression = true) (deepExpression R) fun _ => Fed := by
  have hskip : Leads true (fun _ k => k.canStartExpression = true) (R.loopFrom 0 skipToken)
      fun _ => Fed := by
    -- The loop has fed already, or its next token can begin an expression and will be taken.
    refine Leads.given (p := fun ts k => Fed ts k ∨ k.canStartExpression = true) ?_ fun _ _ => .inr
    refine .iterate (fun opened => .or ?_ ?_) _ _
    · exact (fed_grows R.isFunction).giving fun found _ _ h => by
        split
        · exact .inl h
        · exact h
    · refine (skipToken_feeds opened).giving fun found _ _ h => ?_
      cases found with
      | some => exact .inl h
      | none => exact h.elim
  exact node_feeds ((Leads.complain _).bind fun _ => hskip.withoutParens)

-- The longest rules have more parts than an instance may have otherwise.
set_option synthInstance.maxSize 1000

variable [hmade : R.Made] [hself : R.Coupled Eq R]

theorem nameOrCall_feeds (calls : Bool) {p : Outlook} :
    Leads calm p (nameOrCall R calls) fun _ => Fed := by
  have hbump : Leads calm (fun _ _ => True) (bump .ident) fun _ => Fed :=
    bump_feeds (by decide) rfl
  have hname : Leads calm p (node .nameRef (bump .ident)) fun _ => Fed :=
    (node_feeds hbump).given fun _ _ _ => trivial
  exact (Leads.atFunction R).bind fun _ => hname.bind fun _ => fed_grows R.isFunction

theorem lambda_feeds : Leads calm (fun _ _ => True) (lambda R) fun _ => Fed := by
  have hopen : Leads true (fun _ _ => True) (bump .lParen) fun _ => Fed :=
    bump_feeds (by decide) rfl
  refine node_feeds (.bind (q := fun _ => Fed) (.withoutParens ?_) fun _ => fed_grows R.isFunction)
  dsimp only
  exact hopen.bind fun _ => fed_grows R.isFunction

theorem parenthesized_feeds : Leads calm (fun _ _ => True) (parenthesized R) fun _ => Fed := by
  have hopen : Leads false (fun _ _ => True) (bump .lParen) fun _ => Fed :=
    bump_feeds (by decide) rfl
  refine node_feeds (.bind (q := fun _ => Fed) ?_ fun _ => fed_grows R.isFunction)
  exact .withinParens (hopen.bind fun _ => fed_grows R.isFunction)

theorem parenArguments_feeds :
    Leads calm (fun _ _ => True) (parenArguments R) fun _ => Fed := by
  have hopen : Leads false (fun _ _ => True) (bump .lParen) fun _ => Fed :=
    bump_feeds (by decide) rfl
  refine .bind (q := fun _ => Fed) ?_ fun _ => fed_grows R.isFunction
  exact .withinParens (hopen.bind fun _ => fed_grows R.isFunction)

theorem primary_feeds (calls : Bool) :
    Leads calm (fun _ k => k.canStartExpression = true ∧ k.unaryPower? = none) (primary R calls)
      fun _ => Fed := by
  have hliteral : Leads calm (fun _ k => k.canStartExpression = true)
      (do node .literal bumpAny; return true) fun _ => Fed :=
    (node_feeds bumpAny_feeds).bind fun _ => .pure _ fun _ _ h => h
  have hnone {p : Outlook} (hp : ∀ ts k, ¬ p ts k) : Leads calm p noOperand fun _ => Fed :=
    .absurd hp
  refine Leads.current.bind fun kind => ?_
  cases kind
  case number | hexNumber | string => exact hliteral.given fun _ _ h => h.1.1
  case ident => exact (nameOrCall_feeds calls).bind fun _ => .pure _ fun _ _ h => h
  case lParen =>
    refine (Leads.look 1).bind fun second => ?_
    refine .ite (fun _ => ?_) fun _ => ?_
    · exact (lambda_feeds.given fun _ _ _ => trivial).bind fun _ => .pure _ fun _ _ h => h
    · exact (parenthesized_feeds.given fun _ _ _ => trivial).bind fun _ => .pure _ fun _ _ h => h
  all_goals
    -- Nothing else begins an expression but an operator in front.
    refine hnone fun _ _ h => ?_
    obtain ⟨⟨hstart, hpower⟩, rfl⟩ := h
    revert hstart hpower
    decide

theorem operand_feeds (calls : Bool) :
    Leads calm (fun _ k => k.canStartExpression = true) (operand R calls) fun _ => Fed := by
  refine Leads.isTooDeep.bind fun deep => .ite (fun _ => ?_) fun _ => ?_
  · exact (deepExpression_feeds R).bind fun _ => .pure _ fun _ _ h => h
  refine .within .nesting (Leads.current.bind fun kind => ?_) (by decide)
  split
  · refine (node_feeds ?_).bind fun _ => .pure _ fun _ _ h => h
    exact (bumpAny_feeds.given fun _ _ h => h.1).bind fun _ => fed_grows R.isFunction
  · next hpower =>
    refine .bind (q := fun _ => Fed) ?_ fun there => fed_grows R.isFunction
    exact (primary_feeds calls).given fun _ _ h => ⟨h.1, h.2 ▸ hpower⟩

/-- The arguments of a call. -/
abbrev arguments (R : Rules) : Step Unit := do
  if ← opensArguments then parenArguments R
  else bareArguments R

/-- In front of an argument, the list of arguments consumes a token. -/
theorem arguments_feed (hR : R.Feeds) :
    Leads calm (fun _ k => k.canStartArgument = true) (arguments R) fun _ => Fed := by
  have hopens : Leads calm (fun _ k => k.canStartArgument = true) opensArguments
      fun _ _ k => k.canStartArgument = true := by
    refine (Leads.isAt .lParen).bind fun opens => .ite (fun _ => ?_) fun _ => ?_
    · exact (Leads.look 1).bind fun _ => .pure _ fun _ _ h => h.1
    · exact .pure _ fun _ _ h => h.1
  refine hopens.bind fun opens =>
    .ite (fun _ => parenArguments_feeds.given fun _ _ _ => trivial) fun _ => ?_
  -- The loop has fed already, or its next token can begin an argument and will be taken.
  refine Leads.given (p := fun ts k => Fed ts k ∨ k.canStartArgument = true) ?_ fun _ _ => .inr
  refine .iterate (fun afterComma => .or ?_ ?_) _ _
  · exact (fed_grows R.isFunction).giving fun found _ _ h => by
      split
      · exact .inl h
      · exact h
  · refine Leads.bind (q := fun follows ts k => k.canStartArgument = true ∧ follows = true) ?_
      fun follows => .ite (fun _ => ?_) fun hnot => .pure _ fun _ _ h => (hnot h.2).elim
    · refine Leads.current.bind fun kind =>
        .ite (fun _ => .pure _ fun _ _ h => ⟨h.1, rfl⟩) fun hnot => ?_
      exact .absurd fun _ _ h => hnot (h.2 ▸ h.1)
    · refine Leads.bind (q := fun _ => Fed) ?_ fun _ => ?_
      · exact ((hR.operand calm false).given fun _ _ h => starts_of_argument h.1).discard
      · exact (fed_grows R.isFunction).bind fun _ => .pure _ fun _ _ h => Or.inl h

end FeedingRules

/-! ## Names -/

section Names

variable {calm : Bool} {s s' : State}

/-- Looking at the next token, where that is not given up. -/
theorem run_current_bind {f : TokenKind → Step α} [hf : ∀ k, Coupled Eq false (f k) (f k)]
    (h : ((current >>= f) s).2.fault = none) :
    (current >>= f) s = f (kindAhead 0 s.rest) s.looked := by
  rcases run_look_cases 0 s with ⟨-, -, hlook⟩ | hlost
  · rw [run_bind, current, hlook]
  · have hcurrent : (current s).2.fault = none := ((hf _).later _).unbroken h
    rw [current, hlost] at hcurrent
    exact absurd hcurrent (State.fault_giveUp_ne_none _ _)

/-- Whether the next token is a name that is known changes nothing but what was looked at. -/
theorem snd_atFunction (R : Rules) (s : State) : (atFunction R s).2 = (current s).2 := by
  rw [run_atFunction]
  split <;> rfl

theorem fst_atFunction {R : Rules} (h : R.isFunction = noFunctions) (s : State) :
    (atFunction R s).1 = false := by
  rw [run_atFunction, h]
  split
  · change Option.any _ _ = false
    simp [noFunctions]
  · rfl

/-- Where no argument can follow, none is read. -/
theorem bareArgument_none {R : Rules} [hself : R.Coupled Eq R]
    (hnext : (kindAhead 0 s.rest).canStartArgument = false)
    (hfault : (bareArgument R false s).2.fault = none) :
    bareArgument R false s = (none, s.looked) := by
  have hrun : bareArgument R false s = (current >>= fun kind => do
      if ← (if kind.canStartArgument then pure true else pure false) then
        discard <| R.operand false
        return some (← eat .comma)
      return none) s := rfl
  rw [hrun] at hfault ⊢
  rw [run_current_bind hfault, hnext]
  rfl

/-- Where no argument can follow, the list of arguments is empty. -/
theorem arguments_still {R : Rules} [hself : R.Coupled Eq R]
    (hnext : (kindAhead 0 s.rest).canStartArgument = false)
    (hfault : (arguments R s).2.fault = none) :
    (arguments R s).2 = s.looked.looked := by
  have hrun : arguments R s = (current >>= fun kind =>
      (if kind == .lParen then (do return (← look 1) != .kwBegin) else return false) >>=
        fun opens => if opens then parenArguments R else bareArguments R) s := rfl
  -- A parenthesis can begin an argument, so none is next.
  have hparen : (kindAhead 0 s.rest == .lParen) = false := by
    generalize kindAhead 0 s.rest = kind at hnext
    cases kind <;> first | rfl | cases hnext
  rw [hrun] at hfault ⊢
  have hcurrent := run_current_bind hfault
  rw [hcurrent, hparen] at hfault ⊢
  change (bareArguments R s.looked).2.fault = none at hfault
  change (bareArguments R s.looked).2 = _
  unfold bareArguments Rules.loopFrom at hfault ⊢
  cases hturns : R.turns with
  | zero =>
    rw [hturns] at hfault
    exact absurd hfault (State.fault_giveUp_ne_none _ _)
  | succ n =>
    rw [hturns] at hfault
    have hfirst : (bareArgument R false s.looked).2.fault = none := by
      have hrest (x : Bool) : Coupled Eq false (iterate (bareArgument R) n x)
        (iterate (bareArgument R) n x) := inferInstance
      rw [run_iterate_succ] at hfault
      split at hfault
      · exact hfault
      · exact ((hrest _).later _).unbroken hfault
    have hnone := bareArgument_none (s := s.looked) hnext hfirst
    rw [run_iterate_succ, hnone]

/-- A call around the name built last. -/
abbrev callAround (R : Rules) : Step Unit := nodeAround .funcExpr (node .argList (arguments R))

variable {R R' : Rules} [hR : R.Coupled Abreast R'] [R'.Made] [R'.Coupled Eq R']

/-- Where both readings make a call, there is a token among its arguments, so that it stays
one. -/
theorem call_abreast (hfeeds : R'.Feeds) (h : Abreast s s') (hcalm : calm = true → s.parens = 0)
    (hnext : (kindAhead 0 s'.rest).canStartArgument = true)
    (hfault : (callAround R s).2.fault = none) (hfault' : (callAround R' s').2.fault = none) :
    Abreast (callAround R s).2 (callAround R' s').2 := by
  have hbody : Coupled Abreast calm (node .argList (arguments R)) (node .argList (arguments R')) :=
    inferInstance
  unfold callAround at hfault hfault' ⊢
  obtain ⟨first, span, cs, outer, hout, hrun⟩ := Coupled.last_of_nodeAround hbody.later hfault
  obtain ⟨first', span', cs', outer', hout', hrun'⟩ :=
    Coupled.last_of_nodeAround hbody.later' hfault'
  rw [hrun] at hfault ⊢
  rw [hrun'] at hfault' ⊢
  obtain ⟨-, hbehind⟩ := hbody.run (Tandem.takeOver h hout hout' rfl rfl) hcalm hfault hfault'
  have hcalm' (hc : calm = true) : s'.parens = 0 :=
    (Tandem.count .parens h : s.parens = s'.parens).symm.trans (hcalm hc)
  have hlist : Leads calm (fun ts k => ts = [.node first' span' cs'] ∧ k.canStartArgument = true)
      (node .argList (arguments R')) _ := .node ((arguments_feed hfeeds).given fun _ _ h => h.2)
  obtain ⟨_, trivia, at', args, rfl, htrivia, hargs, hfed⟩ :=
    hlist.run (s := s'.inside #[.node first' span' cs']) hcalm' ⟨rfl, hnext⟩ hfault'
  refine hbehind.close (h.last hout hout' rfl rfl).1 ?_
  -- The arguments are shown with their tokens, so the call is not pruned on either side.
  have hshown :
      outlines (node .argList (arguments R') (s'.inside #[.node first' span' cs'])).2.out.toList
        = [(Tree.node first' span' cs').outline, .node .argList (outlines args)] := by
    rw [hargs, Tree.outlines_append, Tree.outlines_append, Tree.outlines_trivia htrivia,
      Tree.outlines_singleton rfl, Tree.outlines_singleton rfl, Tree.outline_node .argList]
    rfl
  rw [hbehind.built, hshown]
  exact Outline.call_of_tokens (by rw [Tree.tokensOfAll_outlines]; exact hfed)

/-- Where only the reading with hints makes a call, that has no arguments and is taken back. -/
theorem hint_abreast [hself : R.Coupled Eq R] (h : Abreast s s') {outer : Array Tree} {span : Span}
    {cs : List Tree} (hname : s.out = outer.push (.node .nameRef span cs))
    (hnext : (kindAhead 0 s.rest).canStartArgument = false)
    (hfault : (callAround R s).2.fault = none) : Abreast (callAround R s).2 s' := by
  have hlast : s.out.back? = some (.node .nameRef span cs) := by rw [hname, Array.back?_push]
  -- In front of the list the trivia are passed over; inside it nothing happens.
  obtain ⟨t, ht⟩ : ∃ t, t = (s.inside #[.node .nameRef span cs]).opened .argList := ⟨_, rfl⟩
  have hrun : (callAround R s).2
      = ((arguments R (t.inside #[])).2.close .argList t.offset t.out).close .funcExpr
        span.start outer := by
    rw [callAround, run_nodeAround hlast, run_node, hname, Array.pop_push, ht]
  rw [hrun] at hfault ⊢
  have hkind : kindAhead 0 (t.inside #[]).rest = kindAhead 0 s.rest := by
    rw [ht]
    exact State.kindAhead_opened .argList (s.inside #[.node .nameRef span cs])
  have hstill : (arguments R (t.inside #[])).2 = (t.inside #[]).looked.looked :=
    arguments_still (hkind ▸ hnext) hfault
  rw [hstill]
  replace ht : t = (s.inside #[.node .nameRef span cs]).shiftTrivia := ht
  refine h.taking hname ?_ ?_ ?_ (fun c => ?_) ?_
  · change t.rest = _
    rw [ht, State.rest_shiftTrivia]
    rfl
  · change t.anchor = _
    rw [ht, State.anchor_shiftTrivia]
    rfl
  · change t.complaints = _
    rw [ht, State.shiftTrivia_eq State.complaints_shift]
    rfl
  · change t.count c = _
    rw [ht, State.count_shiftTrivia]
    rfl
  · have hbuilt : outlines t.out.toList = [.node .nameRef (outlines cs)] := by
      rw [ht, outlines_shiftTrivia]
      simp [State.inside, Tree.outlines_cons, Tree.isBlank]
    simp only [State.close, Array.toList_push, Tree.outlines_append]
    rw [Tree.outlines_singleton rfl, Tree.outline_node, Tree.outlines_append, hbuilt]
    rfl

/-- A call, if the name is known or an argument follows. -/
abbrev callIf (R : Rules) (known : Bool) : Step Unit := do
  let called ← if known then pure true else (·.canStartArgument) <$> current
  if called then callAround R

theorem nameOrCall_eq (R : Rules) (calls : Bool) : nameOrCall R calls = (do
    let known ← atFunction R
    node .nameRef (bump .ident)
    if calls then callIf R known) := rfl

/-- Behind a name, the two readings stay abreast whether the name is known or not. -/
theorem callIf_abreast [hself : R.Coupled Eq R] (hfeeds : R'.Feeds) (h : Abreast s s')
    (hcalm : calm = true → s.parens = 0) {outer : Array Tree} {span : Span} {cs : List Tree}
    (hname : s.out = outer.push (.node .nameRef span cs)) (known : Bool)
    (hfault : (callIf R known s).2.fault = none) (hfault' : (callIf R' false s').2.fault = none) :
    Abreast (callIf R known s).2 (callIf R' false s').2 := by
  have hkind : kindAhead 0 s.rest = kindAhead 0 s'.rest := Tandem.kindAhead_eq h 0
  have hlooked : Abreast s s'.looked := h.congr ⟨rfl, rfl⟩ ⟨rfl, rfl⟩ ⟨rfl, rfl⟩ h.count ⟨rfl, rfl⟩
  have hlooks (R : Rules) (s : State) : callIf R false s
      = (current >>= fun kind => if kind.canStartArgument then callAround R else pure ()) s := rfl
  rw [hlooks] at hfault' ⊢
  have hplain := run_current_bind hfault'
  rw [hplain] at hfault' ⊢
  -- Whether an argument can begin here decides the plain run. The hint matters only where none
  -- can.
  cases hnext : (kindAhead 0 s'.rest).canStartArgument with
  | true =>
    rw [hnext] at hfault'
    cases known with
    | true => exact call_abreast hfeeds hlooked hcalm hnext hfault hfault'
    | false =>
      rw [hlooks] at hfault ⊢
      have hhinted := run_current_bind hfault
      rw [hhinted, hkind, hnext] at hfault ⊢
      exact call_abreast hfeeds (Tandem.looked h) hcalm hnext hfault hfault'
  | false =>
    cases known with
    | true => exact hint_abreast hlooked hname (hkind ▸ hnext) hfault
    | false =>
      rw [hlooks] at hfault ⊢
      have hhinted := run_current_bind hfault
      rw [hhinted, hkind, hnext] at hfault ⊢
      exact Tandem.looked h

/-- **A name, with the arguments behind it, read with hints and without.** -/
theorem nameOrCall_abreast [hself : R.Coupled Eq R] (hfeeds : R'.Feeds)
    (hplain : R'.isFunction = noFunctions) (calls : Bool) :
    Coupled Abreast calm (nameOrCall R calls) (nameOrCall R' calls) where
  later := (Coupled.nameOrCall R R rfl calls : Coupled Eq calm _ _).later
  later' := (Coupled.nameOrCall R' R' rfl calls : Coupled Eq calm _ _).later
  run {s s'} hs hcalm hfault hfault' := by
    -- The name is taken in both runs, whatever the hint says about it.
    have hrun (R : Rules) (s : State) : nameOrCall R calls s
        = (if calls then callIf R (atFunction R s).1 else pure ())
          (node .nameRef (bump .ident) (current s).2).2 := by
      rw [nameOrCall_eq, run_bind, run_bind, snd_atFunction]
    have hlater (R : Rules) [R.Coupled Eq R] (known : Bool) :
        Coupled Eq calm (if calls then callIf R known else pure ())
          (if calls then callIf R known else pure ()) := inferInstance
    have hname : Coupled Abreast calm (current >>= fun _ => node .nameRef (bump .ident))
        (current >>= fun _ => node .nameRef (bump .ident)) := inferInstance
    rw [hrun] at hfault hfault' ⊢
    rw [hrun, fst_atFunction hplain]
    rw [fst_atFunction hplain] at hfault'
    obtain ⟨-, hbehind⟩ := hname.run hs hcalm (((hlater R _).later _).unbroken hfault)
      (((hlater R' _).later _).unbroken hfault')
    refine ⟨Subsingleton.elim _ _, ?_⟩
    cases calls with
    | false => exact hbehind
    | true =>
      have hparens (hc : calm = true) := (hname.later s).parens.trans (hcalm hc)
      exact callIf_abreast hfeeds hbehind hparens (by rw [run_bind, run_node]; rfl) _ hfault hfault'

/-- The rules for what stands on its own, read with hints and without. -/
theorem singled_abreast [hself : R.Coupled Eq R] (hfeeds : R'.Feeds)
    (hplain : R'.isFunction = noFunctions) : R.Singled Abreast R' where
  nameOrCall _ calls := nameOrCall_abreast hfeeds hplain calls
  shallowOperand calm calls := by
    have (calls : Bool) : Coupled Abreast calm (nameOrCall R calls) (nameOrCall R' calls) :=
      nameOrCall_abreast hfeeds hplain calls
    exact .shallowOperand R R' calls
  expression _ floor := .expression R R' floor

end Names

/-! ## All levels -/

theorem feeds_rules (f : String → Bool) (levels : Nat) : (rules f levels).Feeds := by
  cases levels with
  | zero =>
    exact ⟨fun _ _ => (Leads.giveUp _ (q := fun _ => Fed)).bind fun _ => .pure _ fun _ _ h => h⟩
  | succ levels => exact ⟨fun _ calls => operand_feeds calls⟩

instance coupled_abreast (f : String → Bool) (levels : Nat) :
    (rules f levels).Coupled Abreast (rules noFunctions levels) := by
  induction levels with
  | zero => exact .exhausted Abreast f noFunctions
  | succ levels ih =>
    have : (rules f levels).Singled Abreast (rules noFunctions levels) :=
      singled_abreast (feeds_rules noFunctions levels) (isFunction_rules noFunctions levels)
    exact .deeper

end ScriptSense.Grammar

namespace ScriptSense

open Grammar in
/-- **Names known to be functions only make calls without arguments.** Whatever names are
known, the complaints about a text are the same, and if every call without arguments is
replaced by the name that is called, so is its tree, but for blank space and comments. -/
theorem hints_only_call (isFunction : String → Bool) (text : String) :
    (parseWith isFunction text).complaints = (parse text).complaints
      ∧ (parseWith isFunction text).root.outline.pruned = (parse text).root.outline := by
  set start := State.initial (tokens text)
  set levels := levelsFor start.rest.length
  have hscript : Coupled Abreast true (script (rules isFunction levels))
      (script (rules noFunctions levels)) := by
    have : (rules isFunction levels).Singled Abreast (rules noFunctions levels) :=
      singled_abreast (feeds_rules noFunctions levels) (isFunction_rules noFunctions levels)
    exact .script _ _
  have hstart : Abreast start start := ⟨rfl, rfl, rfl, fun _ => rfl, by simp [start, State.initial]⟩
  obtain ⟨-, hend⟩ := hscript.run hstart (fun _ => rfl) (fault_run_script isFunction (tokens text))
    (fault_run_script noFunctions (tokens text))
  exact ⟨congrArg Array.toList hend.complaints, hend.root .script (by decide)⟩

end ScriptSense
