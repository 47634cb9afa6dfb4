/-
What a step does, seen without layout.

Of a state only a few things matter to what a text means: the tokens ahead and the
node under construction, both without their layout, the complaints, and the open
parentheses and levels. `Does v m a w` says of a step that, wherever this much is
`v`, the step answers `a` and leaves `w`, unless it gives up. Giving up is left
out because a whole reading never does: what is shown of the parts of a reading is
then true of the reading, and nobody counts looks, turns or levels on the way.

To leave it out, a step that comes after another must not make good a fault
(`Tame`). All steps of the grammar are such, by what they are made of.
-/
import ScriptSense.Proofs.Grammar.Budget
import ScriptSense.Proofs.Grammar.Shape
import ScriptSense.Proofs.Syntax.Bare

set_option autoImplicit false

namespace ScriptSense.Grammar

variable {α β σ : Type}

/-! ## Steps that keep a fault -/

/-- A step that ends without a fault began without one. -/
class Tame (m : Step α) : Prop where
  keeps (s : State) : (m s).2.fault = none → s.fault = none

/-- Whatever is put together of the makings keeps a fault. -/
theorem Alike.tame {i : Sync} {o : α → Sync} {m m' : Step α} (h : Alike i o m m') : Tame m :=
  ⟨fun _ => h.fault_eq_none⟩

namespace Tame

instance pure (a : α) : Tame (Pure.pure a : Step α) := ⟨fun _ h => h⟩

instance bind (m : Step α) (f : α → Step β) [hm : Tame m] [hf : ∀ a, Tame (f a)] :
    Tame (m >>= f) :=
  ⟨fun s h => hm.keeps s ((hf _).keeps _ h)⟩

instance map (g : α → β) (m : Step α) [hm : Tame m] : Tame (g <$> m) := ⟨hm.keeps⟩

instance discard (m : Step α) [hm : Tame m] : Tame (Functor.discard m) := ⟨hm.keeps⟩

instance ite (c : Prop) [Decidable c] (m m' : Step α) [hm : Tame m] [hm' : Tame m'] :
    Tame (if c then m else m') := by
  split <;> assumption

instance raise (c : Counter) : Tame (modify (State.raise c) : Step Unit) :=
  ⟨fun s h => by rwa [run_modify, State.raise, State.fault_setCount] at h⟩

instance lower (c : Counter) : Tame (modify (State.lower c) : Step Unit) :=
  ⟨fun _ h => State.fault_lower h⟩

instance complain (problem : Problem) : Tame (complain problem) :=
  (Alike.complain (i := .next) problem).tame

instance look (n : Nat) : Tame (look n) := by
  refine ⟨fun s h => ?_⟩
  rcases run_look_cases n s with ⟨hs, -⟩ | hlost
  · exact hs
  · rw [hlost] at h
    exact absurd h (State.fault_giveUp_ne_none _ _)

instance current : Tame current := look 0

instance consume : Tame (modify State.consume : Step Unit) := Alike.consume.tame

instance giveUp (f : Fault) : Tame (modify (State.giveUp f) : Step Unit) :=
  (Alike.giveUp (i := .next) (o := fun _ => .next) f).tame

instance isTooDeep : Tame isTooDeep := (Alike.isTooDeep (i := .next)).tame

instance textAhead (p : String → Bool) : Tame (textAhead p) := ⟨fun _ h => h⟩

instance isAt (kind : TokenKind) : Tame (isAt kind) := inferInstanceAs (Tame (Grammar.current >>= _))

instance atEnd : Tame atEnd := isAt .eof

instance atLineEnd : Tame atLineEnd := inferInstanceAs (Tame (Grammar.current >>= _))

instance eat (kind : TokenKind) : Tame (eat kind) := inferInstanceAs (Tame (Grammar.isAt kind >>= _))

instance bump (kind : TokenKind) : Tame (bump kind) :=
  inferInstanceAs (Tame (Grammar.current >>= _))

instance bumpAny : Tame bumpAny := bumpAny_alike.tame

instance passInLine : Tame passInLine := inferInstanceAs (Tame (Grammar.atLineEnd >>= _))

instance expect (kind : TokenKind) (wanted : Wanted) : Tame (expect kind wanted) :=
  inferInstanceAs (Tame (Grammar.eat kind >>= _))

instance node (kind : NodeKind) (m : Step α) [hm : Tame m] : Tame (node kind m) := by
  refine ⟨fun s h => ?_⟩
  rw [run_node] at h
  have hopened : (s.opened kind).fault = none := hm.keeps ((s.opened kind).inside #[]) h
  unfold State.opened at hopened
  split at hopened
  · exact hopened
  · rwa [State.shiftTrivia_eq State.fault_shift] at hopened

instance nodeAround (kind : NodeKind) (m : Step α) [hm : Tame m] : Tame (nodeAround kind m) := by
  refine ⟨fun s h => ?_⟩
  by_cases hlast : ∃ first span children, s.out.back? = some (.node first span children)
  · obtain ⟨first, span, children, hlast⟩ := hlast
    rw [run_nodeAround hlast] at h
    exact hm.keeps (s.inside #[.node first span children]) h
  · rw [run_nodeAround_none fun first span children hback => hlast ⟨_, _, _, hback⟩] at h
    exact absurd ((node kind m).keeps _ h) (State.fault_giveUp_ne_none _ _)

instance within (c : Counter) (m : Step α) [hm : Tame m] : Tame (within c m) :=
  inferInstanceAs (Tame (modify (State.raise c) >>= _))

instance iterate (step : σ → Step (Option σ)) [h : ∀ x, Tame (step x)] (n : Nat) (x : σ) :
    Tame (iterate step n x) := by
  induction n generalizing x with
  | zero => exact ⟨fun s hs => absurd hs (State.fault_giveUp_ne_none _ s)⟩
  | succ n ih =>
    refine ⟨fun s hs => ?_⟩
    rw [run_iterate_succ] at hs
    cases hanswer : (step x s).1 with
    | none =>
      rw [hanswer] at hs
      exact (h x).keeps s hs
    | some y =>
      rw [hanswer] at hs
      exact (h x).keeps s ((ih y).keeps _ hs)

instance climbTurn (check : Step (Option β)) (act : β → Step Bool) [hcheck : Tame check]
    [hact : ∀ b, Tame (act b)] : Tame (climbTurn check act) := by
  have hturn : ∀ r : Option β, Tame (match r with
      | none => Pure.pure none
      | some b => do
        modify (State.raise .nesting)
        if ← act b then return some () else return none : Step (Option Unit)) := by
    intro r
    cases r <;> infer_instance
  exact Tame.bind check _

section Rules

variable (f : String → Bool) (levels : Nat)

instance expression (floor : Nat) : Tame ((rules f levels).expression floor) :=
  ((rules_alike_self f levels).expression floor).tame

instance operand (calls : Bool) : Tame ((rules f levels).operand calls) :=
  ((rules_alike_self f levels).operand calls).tame

instance roomForAccess : Tame (roomForAccess (rules f levels)) :=
  (roomForAccess_alike (rules f levels) (rules f levels)).tame

instance access (calls : Bool) : Tame (access (rules f levels) calls) :=
  (access_alike (rules_alike_self f levels) calls).tame

instance accesses (calls : Bool) : Tame (accesses (rules f levels) calls) :=
  (accesses_alike (rules_alike_self f levels) calls).tame

instance roomForOperator (floor : Nat) : Tame (roomForOperator (rules f levels) floor) :=
  (roomForOperator_alike (rules f levels) (rules f levels) floor).tame

instance application (power : Nat) : Tame (application (rules f levels) power) :=
  (application_alike (rules_alike_self f levels) power).tame

instance operators (floor : Nat) : Tame (operators (rules f levels) floor) :=
  (operators_alike (rules_alike_self f levels) floor).tame

instance lineEnd : Tame (lineEnd (rules f levels)) :=
  (lineEnd_alike (rules f levels) (rules f levels)).tame

instance opensArguments : Tame opensArguments := opensArguments_alike.tame

instance parenArguments : Tame (parenArguments (rules f levels)) :=
  (parenArguments_alike (rules_alike_self f levels)).tame

instance bareArguments : Tame (bareArguments (rules f levels)) :=
  (bareArguments_alike (rules_alike_self f levels)).tame

instance nameOrCall (calls : Bool) : Tame (nameOrCall (rules f levels) calls) :=
  (nameOrCall_alike (rules_alike_self f levels) calls).tame

instance lambda : Tame (lambda (rules f levels)) := (lambda_alike (rules_alike_self f levels)).tame

instance parenthesized : Tame (parenthesized (rules f levels)) :=
  (parenthesized_alike (rules_alike_self f levels)).tame

instance noOperand : Tame noOperand := noOperand_alike.tame

instance primary (calls : Bool) : Tame (primary (rules f levels) calls) :=
  (primary_alike (rules_alike_self f levels) calls).tame

instance shallowOperand (calls : Bool) : Tame (shallowOperand (rules f levels) calls) :=
  (shallowOperand_alike (rules_alike_self f levels) calls).tame

instance deepExpression : Tame (deepExpression (rules f levels)) :=
  (deepExpression_alike (rules f levels) (rules f levels)).tame

instance declaredName (wanted : Wanted) : Tame (declaredName wanted) :=
  (declaredName_alike wanted).tame

instance statement : Tame (rules f levels).statement := (rules_alike_self f levels).statement.tame

instance expressionStatement : Tame (expressionStatement (rules f levels)) :=
  (expressionStatement_alike (rules_alike_self f levels)).tame

instance letStatement : Tame (letStatement (rules f levels)) :=
  (letStatement_alike (rules_alike_self f levels)).tame

instance lineBreaks : Tame (lineBreaks (rules f levels)) :=
  (lineBreaks_alike (rules f levels) (rules f levels)).tame

instance scriptName : Tame (scriptName (rules f levels)) :=
  (scriptName_alike (rules f levels) (rules f levels)).tame

instance topLevel : Tame (topLevel (rules f levels)) :=
  (topLevel_alike_word (rules_alike_self f levels)).tame

instance breakOr (step : Step Unit) [Tame step] : Tame (breakOr step) :=
  inferInstanceAs (Tame (Grammar.eat .newline >>= _))

instance scriptTurn : Tame (scriptTurn (rules f levels)) :=
  (scriptTurn_alike (rules_alike_self f levels)).tame

instance loop (R : Rules) (step : Step Bool) [Tame step] : Tame (R.loop step) :=
  inferInstanceAs (Tame (Grammar.iterate _ _ _))

end Rules

end Tame

/-! ## What is seen of a state -/

/-- What matters of a state to the meaning of a text. -/
structure Sight where
  /-- The tokens ahead, without trivia. -/
  ahead : List Glyph
  /-- The node under construction. -/
  built : List Bare
  /-- The complaints so far. -/
  complaints : Array Complaint
  /-- The open parentheses. -/
  parens : Nat
  /-- The depth of expressions and blocks. -/
  nesting : Nat

/-- What is seen of a state. -/
def State.sight (s : State) : Sight where
  ahead := (s.rest.filter (!·.kind.isTrivia)).map Token.glyph
  built := Tree.bareOfAll s.out.toList
  complaints := s.complaints
  parens := s.parens
  nesting := s.nesting

/-- What is seen further on, when some more was built. -/
def Sight.moved (v : Sight) (ahead : List Glyph) (built : List Bare) : Sight :=
  { v with ahead := ahead, built := v.built ++ built }

/-- The kind of the next token, `eof` if there is none. -/
def kindOf (gs : List Glyph) : TokenKind := (gs.head?.map Prod.fst).getD .eof

/-- The next token is the first one ahead. -/
@[simp] theorem kindOf_cons (g : Glyph) (gs : List Glyph) : kindOf (g :: gs) = g.1 := rfl

/-- **What a step does, unless it gives up**, to a state of which this much is seen. -/
def Does (v : Sight) (m : Step α) (a : α) (w : Sight) : Prop :=
  ∀ s : State, s.sight = v → (m s).2.fault = none → (m s).1 = a ∧ (m s).2.sight = w

namespace Does

variable {v w x : Sight} {m : Step α} {f : α → Step β} {a : α} {b : β}

/-- An answer changes nothing that is seen. -/
theorem pure (a : α) : Does v (Pure.pure a) a v := fun _ hs _ => ⟨rfl, hs⟩

/-- A step and what comes after it, all ways of which keep a fault. -/
theorem bindOf (hf : ∀ a, Tame (f a)) (hm : Does v m a w) (hnext : Does w (f a) b x) :
    Does v (m >>= f) b x := by
  intro s hs hfault
  rw [run_bind] at hfault ⊢
  obtain ⟨hanswer, hsight⟩ := hm s hs ((hf _).keeps _ hfault)
  rw [hanswer] at hfault ⊢
  exact hnext _ hsight hfault

/-- What is seen behind the first step is what the second begins with. -/
theorem bind [hf : ∀ a, Tame (f a)] (hm : Does v m a w) (hnext : Does w (f a) b x) :
    Does v (m >>= f) b x :=
  bindOf hf hm hnext

/-- What is left may be written in another way. -/
theorem giving (hm : Does v m a w) (hw : w = x) : Does v m a x := hw ▸ hm

/-- The answer may be changed. -/
theorem map (g : α → β) (hm : Does v m a w) : Does v (g <$> m) (g a) w :=
  fun s hs hfault => (hm s hs hfault).imp_left (congrArg g)

/-- The answer may be dropped. -/
theorem discard (hm : Does v m a w) : Does v (Functor.discard m) () w :=
  fun s hs hfault => (hm s hs hfault).imp_left fun _ => rfl

/-- A choice of which the condition holds. -/
theorem ite_true {c : Prop} [Decidable c] {m m' : Step α} (hc : c) (h : Does v m a w) :
    Does v (if c then m else m') a w := by
  rwa [if_pos hc]

/-- A choice of which the condition does not hold. -/
theorem ite_false {c : Prop} [Decidable c] {m m' : Step α} (hc : ¬ c) (h : Does v m' a w) :
    Does v (if c then m else m') a w := by
  rwa [if_neg hc]

/-! ### Looks -/

/-- A look reads the tokens that are seen. -/
theorem kindAhead_sight {s : State} (hs : s.sight = v) (n : Nat) :
    kindAhead n s.rest = kindOf (v.ahead.drop n) := by
  rw [← hs, kindAhead_eq, State.sight, kindOf]
  have hkinds : (s.rest.map Token.kind).filter (!·.isTrivia)
      = (((s.rest.filter (!·.kind.isTrivia)).map Token.glyph).map Prod.fst) := by
    rw [List.filter_map, List.map_map]
    rfl
  rw [hkinds, List.head?_drop, List.getD_eq_getElem?_getD, List.getElem?_map]

/-- A look changes nothing that is seen. -/
theorem look (n : Nat) : Does v (look n) (kindOf (v.ahead.drop n)) v := by
  intro s hs hfault
  rcases run_look_cases n s with ⟨-, -, hlook⟩ | hlost
  · rw [hlook]
    exact ⟨kindAhead_sight hs n, hs⟩
  · rw [hlost] at hfault
    exact absurd hfault (State.fault_giveUp_ne_none _ _)

/-- A look at the next token tells its kind. -/
theorem current : Does v current (kindOf v.ahead) v := look 0

/-- What a rule does behind a look matters for what is seen only, and for the end of
the text, which a look that gives up answers. -/
theorem ofCurrent {f : TokenKind → Step β} (hf : Tame (f .eof))
    (hnext : Does v (f (kindOf v.ahead)) b x) : Does v (Grammar.current >>= f) b x := by
  intro s hs hfault
  rw [run_bind] at hfault ⊢
  rcases run_look_cases 0 s with ⟨hs', hlooks, hlook⟩ | hlost
  · obtain ⟨hkind, hsight⟩ := current s hs (by rw [Grammar.current, hlook]; exact hs')
    rw [hkind] at hfault ⊢
    exact hnext _ hsight hfault
  · rw [Grammar.current, hlost] at hfault
    exact absurd (hf.keeps _ hfault) (State.fault_giveUp_ne_none _ _)

/-- A test of the next token compares its kind. -/
theorem isAt (kind : TokenKind) : Does v (isAt kind) (kindOf v.ahead == kind) v :=
  .bind .current (.pure _)

/-- A test for the end of the text. -/
theorem atEnd : Does v atEnd (kindOf v.ahead == .eof) v := isAt .eof

/-- Whether the parser is too deep is a matter of the levels seen. -/
theorem isTooDeep : Does v isTooDeep (decide (nestingLimit ≤ v.nesting)) v := by
  rintro s rfl -
  exact ⟨rfl, rfl⟩

/-- Nothing is known to be a function. -/
theorem atFunction (levels : Nat) :
    Does v (atFunction (rules noFunctions levels)) false v := by
  have hahead : Does v (Grammar.textAhead (rules noFunctions levels).isFunction) false v := by
    rw [isFunction_rules]
    rintro s rfl -
    exact ⟨(Option.any_eq_false _ _).2 fun _ _ => rfl, rfl⟩
  refine .bind (.isAt .ident) ?_
  split
  · exact hahead
  · exact .pure _

/-! ### Tokens -/

/-- A token moved by one. -/
theorem sight_shift {s : State} {t : Token} {ts : List Token} (h : s.rest = t :: ts) :
    s.shift.rest = ts ∧ Tree.bareOfAll s.shift.out.toList
      = Tree.bareOfAll s.out.toList ++ (Tree.leaf t).bare := by
  rw [State.shift_of_rest h]
  simp

/-- Trivia moved is not seen. -/
theorem sight_shiftMany (n : Nat) (s : State) (hs : ∀ t ∈ s.rest.take n, t.kind.isTrivia = true) :
    (s.shiftMany n).sight = s.sight := by
  induction n generalizing s with
  | zero => rfl
  | succ n ih =>
    cases hrest : s.rest with
    | nil =>
      have hsame : s.shift = s := by simp [State.shift, hrest]
      rw [State.shiftMany, hsame]
      exact ih s (by simp [hrest])
    | cons t ts =>
      have ht : t.kind.isTrivia = true := hs t (by simp [hrest])
      -- Trivia is neither seen ahead nor seen in what was built.
      have hbare : (Tree.leaf t).bare = [] := by
        rw [Tree.bare_leaf, if_neg (by simp [TokenKind.isSignificant, ht])]
      obtain ⟨hshift, hout⟩ := sight_shift hrest
      have hsight : s.shift.sight = s.sight := by
        simp only [State.sight, hshift, hout, hbare, hrest, List.append_nil]
        rw [State.shift_of_rest hrest, List.filter_cons_of_neg (by simp [ht])]
      rw [State.shiftMany, ih s.shift, hsight]
      intro t' ht'
      rw [hshift] at ht'
      exact hs t' (by rw [hrest, List.take_succ_cons]; exact List.mem_cons_of_mem _ ht')

/-- Trivia is not seen. -/
theorem sight_shiftTrivia (s : State) : s.shiftTrivia.sight = s.sight := by
  refine sight_shiftMany _ s fun t ht => ?_
  have hall := List.all_takeWhile (p := (·.kind.isTrivia)) (l := s.rest)
  have htake : s.rest.take (s.rest.takeWhile (·.kind.isTrivia)).length
      = s.rest.takeWhile (·.kind.isTrivia) :=
    (List.prefix_iff_eq_take.1 (List.takeWhile_prefix _)).symm
  rw [htake] at ht
  exact List.all_eq_true.1 hall t ht

/-- The next token stands behind the trivia. -/
theorem exists_next {s : State} {g : Glyph} {gs : List Glyph} (h : s.sight.ahead = g :: gs) :
    ∃ t ts, s.shiftTrivia.rest = t :: ts ∧ t.kind.isTrivia = false ∧ t.glyph = g
      ∧ (ts.filter (!·.kind.isTrivia)).map Token.glyph = gs := by
  rw [← sight_shiftTrivia] at h
  simp only [State.sight] at h
  cases hrest : s.shiftTrivia.rest with
  | nil => simp [hrest] at h
  | cons t ts =>
    have ht : t.kind.isTrivia = false := by
      have hdrop : s.rest.dropWhile (·.kind.isTrivia) = t :: ts := by
        rw [← State.rest_shiftTrivia, hrest]
      have := List.head_dropWhile_not (·.kind.isTrivia) (l := s.rest) (by simp [hdrop])
      simpa [hdrop] using this
    rw [hrest, List.filter_cons_of_pos (by simp [ht]), List.map_cons, List.cons.injEq] at h
    exact ⟨t, ts, rfl, ht, h.1, h.2⟩

/-- What is left after a token is consumed, if no line break goes along. -/
theorem sight_consume {s : State} {g : Glyph} {gs : List Glyph} (hs : s.sight.ahead = g :: gs)
    (hbreak : s.sight.parens = 0 ∨ kindOf gs ≠ .newline) :
    s.consume.sight = s.sight.moved gs (if g.1 = .newline then [] else [.leaf g]) := by
  obtain ⟨t, ts, hrest, ht, rfl, hgs⟩ := exists_next hs
  obtain ⟨hshift, hout⟩ := sight_shift hrest
  have hbare : (Tree.leaf t).bare = if t.glyph.1 = .newline then [] else [.leaf t.glyph] := by
    rw [Tree.bare_leaf, TokenKind.isSignificant, ht, Token.glyph_fst]
    by_cases hn : t.kind = .newline <;> simp [hn]
  have hshifted : s.shiftTrivia.shift.sight
      = s.shiftTrivia.sight.moved gs (if t.glyph.1 = .newline then [] else [.leaf t.glyph]) := by
    simp only [State.sight, Sight.moved, hshift, hgs, hout, hbare]
    rw [State.shift_of_rest hrest]
  rw [sight_shiftTrivia] at hshifted
  -- No line break is next or no parenthesis is open, so nothing is passed over behind the
  -- token.
  have hstill : s.shiftTrivia.shift.shiftBreaks = s.shiftTrivia.shift := by
    unfold State.shiftBreaks
    split
    · next hopen =>
      have hparens : s.shiftTrivia.shift.parens = s.sight.parens := congrArg Sight.parens hshifted
      have hnext : kindOf gs ≠ .newline := hbreak.resolve_left (by omega)
      have hnone : breaksAhead s.shiftTrivia.shift.rest = 0 := by
        refine breaksAhead_eq_zero ?_
        rwa [kindAhead_sight hshifted 0]
      rw [hnone]
      rfl
    · rfl
  have hconsume : s.consume = { s.shiftTrivia.shift.shiftBreaks with looks := 0 } := rfl
  rw [hconsume, hstill]
  exact hshifted

/-- A token goes from what is ahead into the node under construction. -/
theorem consume {g : Glyph} {gs : List Glyph} (hv : v.ahead = g :: gs) (hg : g.1 ≠ .newline)
    (hbreak : v.parens = 0 ∨ kindOf gs ≠ .newline) :
    Does v (modify State.consume) () (v.moved gs [.leaf g]) := by
  rintro s rfl -
  refine ⟨rfl, (sight_consume hv hbreak).trans ?_⟩
  rw [if_neg hg]

/-- A line break goes, and nothing is seen of it. -/
theorem consumeBreak {g : Glyph} {gs : List Glyph} (hv : v.ahead = g :: gs) (hg : g.1 = .newline)
    (hbreak : v.parens = 0) : Does v (modify State.consume) () (v.moved gs []) := by
  rintro s rfl -
  refine ⟨rfl, (sight_consume hv (.inl hbreak)).trans ?_⟩
  rw [if_pos hg]

/-- A word that is next is taken and built. -/
theorem bump {kind : TokenKind} {g : Glyph} {gs : List Glyph} (hv : v.ahead = g :: gs)
    (hkind : g.1 = kind) (hg : kind ≠ .newline) (hbreak : v.parens = 0 ∨ kindOf gs ≠ .newline) :
    Does v (bump kind) () (v.moved gs [.leaf g]) := by
  have hfound : kindOf v.ahead = kind := by rw [hv, kindOf_cons, hkind]
  refine .bind .current ?_
  refine .ite_true (by simp [hfound]) ?_
  exact consume hv (by rwa [hkind]) hbreak

/-- Any word is taken and built. -/
theorem bumpAny {g : Glyph} {gs : List Glyph} (hv : v.ahead = g :: gs) (hg : g.1 ≠ .newline)
    (hend : g.1 ≠ .eof) (hbreak : v.parens = 0 ∨ kindOf gs ≠ .newline) :
    Does v bumpAny () (v.moved gs [.leaf g]) := by
  refine .bind .current ?_
  refine .ite_false (by simp [hv, hend]) ?_
  exact consume hv hg hbreak

/-- A token that is not next is left. -/
theorem eat_missing {kind : TokenKind} (hkind : kindOf v.ahead ≠ kind) : Does v (eat kind) false v := by
  refine .bind (.isAt kind) ?_
  have hanswer : (kindOf v.ahead == kind) = false := by simpa using hkind
  rw [hanswer]
  exact .bind (f := fun _ => Pure.pure false) (.pure ()) (.pure false)

/-- A token that is next is consumed. -/
theorem eat {kind : TokenKind} {w : Sight} (hkind : kindOf v.ahead = kind)
    (hconsume : Does v (modify State.consume) () w) : Does v (eat kind) true w := by
  refine .bind (.isAt kind) ?_
  have hanswer : (kindOf v.ahead == kind) = true := by simpa using hkind
  rw [hanswer]
  exact .bind hconsume (.pure true)

/-- An expected token that is next is consumed, without a complaint. -/
theorem expect {kind : TokenKind} {wanted : Wanted} {g : Glyph} {gs : List Glyph}
    (hv : v.ahead = g :: gs) (hkind : g.1 = kind) (hg : kind ≠ .newline)
    (hbreak : v.parens = 0 ∨ kindOf gs ≠ .newline) :
    Does v (expect kind wanted) true (v.moved gs [.leaf g]) := by
  refine .bind (.eat (by rw [hv, kindOf_cons, hkind]) (consume hv (by rwa [hkind]) hbreak)) ?_
  exact .bind (f := fun _ => Pure.pure true) (.pure ()) (.pure true)

/-! ### Nodes -/

/-- A node is built of what is built inside of it. -/
theorem node {kind : NodeKind} (hkind : kind ≠ .stmtList)
    (hbody : Does { v with built := [] } m a w) :
    Does v (node kind m) a { w with built := v.built ++ [.node kind w.built] } := by
  rintro s rfl hfault
  have hopened : s.opened kind = s.shiftTrivia := by rw [State.opened, if_neg hkind]
  rw [run_node, hopened] at hfault ⊢
  have hsight : (s.shiftTrivia.inside #[]).sight = { s.sight with built := [] } := by
    rw [← sight_shiftTrivia s]
    rfl
  obtain ⟨hanswer, hbehind⟩ := hbody _ hsight hfault
  refine ⟨hanswer, ?_⟩
  have hout : Tree.bareOfAll s.shiftTrivia.out.toList = s.sight.built :=
    congrArg Sight.built (sight_shiftTrivia s)
  rw [← hbehind, ← hout]
  simp [State.sight, State.close]

/-- A node built around the node built last takes its place. -/
theorem nodeAround {kind : NodeKind} {before : List Bare} {first : Bare}
    (hv : v.built = before ++ [first]) (hbody : Does { v with built := [first] } m a w)
    [hm : Tame m] :
    Does v (nodeAround kind m) a { w with built := before ++ [.node kind w.built] } := by
  rintro s rfl hfault
  -- Without a node to go around the step gives up, and giving up is left out.
  by_cases hlast : ∃ k span cs, s.out.back? = some (.node k span cs)
  · obtain ⟨k, span, cs, hlast⟩ := hlast
    obtain ⟨outer, hout⟩ := Array.back?_eq_some_iff.1 hlast
    rw [run_nodeAround hlast] at hfault ⊢
    have hsplit : s.sight.built
        = Tree.bareOfAll outer.toList ++ [.node k (Tree.bareOfAll cs)] := by
      simp [State.sight, hout]
    obtain ⟨hbefore, hfirst⟩ := List.append_inj' (hsplit.symm.trans hv) rfl
    have hsight : (s.inside #[.node k span cs]).sight = { s.sight with built := [first] } := by
      rw [← hfirst]
      simp [State.sight, State.inside]
    obtain ⟨hanswer, hbehind⟩ := hbody _ hsight hfault
    refine ⟨hanswer, ?_⟩
    rw [← hbehind, ← hbefore, hout]
    simp [State.sight, State.close]
  · rw [run_nodeAround_none fun k span cs hback => hlast ⟨_, _, _, hback⟩] at hfault
    exact absurd ((Tame.node kind m).keeps _ hfault) (State.fault_giveUp_ne_none _ _)

/-! ### Counters -/

/-- One level more is seen. -/
theorem raise : Does v (modify (State.raise .nesting)) () { v with nesting := v.nesting + 1 } := by
  rintro s rfl -
  exact ⟨rfl, rfl⟩

/-- One level more is seen inside, and the old number behind. -/
theorem withinNesting (hbody : Does { v with nesting := v.nesting + 1 } m a w)
    (hw : w.nesting = v.nesting + 1) :
    Does v (within .nesting m) a { w with nesting := v.nesting } := by
  rintro s rfl hfault
  rw [run_within] at hfault ⊢
  obtain ⟨hanswer, hbehind⟩ := hbody (s.raise .nesting) rfl (State.fault_lower hfault)
  refine ⟨hanswer, ?_⟩
  have hcount : (m (s.raise .nesting)).2.count .nesting = s.nesting + 1 := by
    rw [← hbehind] at hw
    exact hw
  rw [← hbehind, State.lower, hcount]
  rfl

/-- One open parenthesis more is seen inside, and the old number behind. -/
theorem withinParens (hbody : Does { v with parens := v.parens + 1 } m a w)
    (hw : w.parens = v.parens + 1) :
    Does v (within .parens m) a { w with parens := v.parens } := by
  rintro s rfl hfault
  rw [run_within] at hfault ⊢
  obtain ⟨hanswer, hbehind⟩ := hbody (s.raise .parens) rfl (State.fault_lower hfault)
  refine ⟨hanswer, ?_⟩
  have hcount : (m (s.raise .parens)).2.count .parens = s.parens + 1 := by
    rw [← hbehind] at hw
    exact hw
  rw [← hbehind, State.lower, hcount]
  rfl

/-! ### Loops -/

/-- A loop that stops at once does what its turn does. -/
theorem iterate_stop {step : σ → Step (Option σ)} [hstep : ∀ x, Tame (step x)] {x : σ}
    {turns : Nat} (h : Does v (step x) none w) : Does v (iterate step turns x) () w := by
  intro s hs hfault
  cases turns with
  | zero => exact absurd hfault (State.fault_giveUp_ne_none _ _)
  | succ n =>
    rw [run_iterate_succ] at hfault ⊢
    -- Without a fault behind the loop there is none behind its first turn.
    have hfirst : (step x s).2.fault = none := by
      cases hanswer : (step x s).1 with
      | none => rwa [hanswer] at hfault
      | some y =>
        rw [hanswer] at hfault
        exact (Tame.iterate step n y).keeps _ hfault
    obtain ⟨hanswer, hsight⟩ := h s hs hfirst
    rw [hanswer]
    exact ⟨rfl, hsight⟩

/-- A loop that goes on does what its turn does and then the rest. -/
theorem iterate_turn {step : σ → Step (Option σ)} [hstep : ∀ x, Tame (step x)] {x y : σ} {u : Sight}
    {turns : Nat} (h : Does v (step x) (some y) w)
    (hnext : ∀ turns, Does w (iterate step turns y) () u) :
    Does v (iterate step turns x) () u := by
  intro s hs hfault
  cases turns with
  | zero => exact absurd hfault (State.fault_giveUp_ne_none _ _)
  | succ n =>
    rw [run_iterate_succ] at hfault ⊢
    -- The fault of the first turn would have stayed.
    have hfirst : (step x s).2.fault = none := by
      cases hanswer : (step x s).1 with
      | none => rwa [hanswer] at hfault
      | some z =>
        rw [hanswer] at hfault
        exact (Tame.iterate step n z).keeps _ hfault
    obtain ⟨hanswer, hsight⟩ := h s hs hfirst
    rw [hanswer] at hfault ⊢
    exact hnext n _ hsight hfault

/-- The turns of a loop. -/
theorem loop_turn {R : Rules} {step : Step Bool} [hstep : Tame step] {u : Sight}
    (h : Does v step true w) (hnext : ∀ turns, Does w (iterate (fun _ => do
      if ← step then return some () else return none) turns ()) () u) :
    Does v (R.loop step) () u :=
  .iterate_turn (.bind h (.pure (some ()))) hnext

/-- A loop without a state that stops at once. -/
theorem loop_stop {R : Rules} {step : Step Bool} [hstep : Tame step]
    (h : Does v step false w) : Does v (R.loop step) () w :=
  .iterate_stop (.bind h (.pure none))

/-- A turn whose check finds nothing is the last one. -/
theorem climbTurn_none {check : Step (Option α)} {act : α → Step Bool} [hact : ∀ a, Tame (act a)]
    (h : Does v check none w) : Does v (climbTurn check act) none w :=
  .bindOf (fun r => by split <;> infer_instance) h (.pure none)

/-- A turn is taken, and it was the last one. -/
theorem climbTurn_stop {check : Step (Option α)} {act : α → Step Bool} [hact : ∀ a, Tame (act a)]
    (h : Does v check (some a) w)
    (hturn : Does { w with nesting := w.nesting + 1 } (act a) false x) :
    Does v (climbTurn check act) none x :=
  .bindOf (fun r => by split <;> infer_instance) h (.bind .raise (.bind hturn (.pure none)))

/-- A turn is taken, and another one follows. -/
theorem climbTurn {check : Step (Option α)} {act : α → Step Bool} [hact : ∀ a, Tame (act a)]
    (h : Does v check (some a) w)
    (hturn : Does { w with nesting := w.nesting + 1 } (act a) true x) :
    Does v (climbTurn check act) (some ()) x :=
  .bindOf (fun r => by split <;> infer_instance) h (.bind .raise (.bind hturn (.pure (some ()))))

/-- A climb does what its turns do, with the level put back. -/
theorem climb {check : Step (Option α)} {act : α → Step Bool} {turns : Nat}
    (h : Does v (iterate (fun _ => Grammar.climbTurn check act) turns ()) () w) :
    Does v (climb check act turns) () { w with nesting := v.nesting } := by
  rintro s rfl hfault
  rw [Grammar.climb, run_restoring] at hfault ⊢
  rw [State.fault_setCount] at hfault
  obtain ⟨-, hbehind⟩ := h s rfl hfault
  refine ⟨rfl, ?_⟩
  rw [← hbehind]
  rfl

/-! ### Levels -/

/-- Where no level is left, a rule gives up. -/
theorem expression {levels floor : Nat}
    (h : ∀ n, Does v (Grammar.expression (rules noFunctions n) floor) () w) :
    Does v ((rules noFunctions levels).expression floor) () w := by
  cases levels with
  | zero => exact fun s _ hfault => absurd hfault (State.fault_giveUp_ne_none _ s)
  | succ n => exact h n

/-- An operand of any level does what one of the levels below does. -/
theorem operand {levels : Nat} {calls there : Bool}
    (h : ∀ n, Does v (Grammar.operand (rules noFunctions n) calls) there w) :
    Does v ((rules noFunctions levels).operand calls) there w := by
  cases levels with
  | zero => exact fun s _ hfault => absurd hfault (State.fault_giveUp_ne_none _ s)
  | succ n => exact h n

end Does

end ScriptSense.Grammar
