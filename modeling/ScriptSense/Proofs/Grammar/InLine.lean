/-
An expression without an error does not end its line.

Where line breaks count, the last token of an expression is a word: a closing bracket,
a name or a literal. Line breaks go along only while parentheses are open, and a list
that is never closed is an error. So behind an expression that is read without one, the
line break that ends the text is still ahead (`Lands`).

Two judgements are needed, because a part of an expression may be empty. A step that
`Lands` leaves something ahead wherever it begins, at the end of the text as well, where
it ends with an error; a step that is `InLine` leaves something where something was
ahead. What comes in front of a step that lands does not matter.
-/
import ScriptSense.Proofs.Grammar.Longer
import ScriptSense.Proofs.Grammar.WholeRules

set_option autoImplicit false

namespace ScriptSense.Grammar

variable {α β σ : Type}

/-! ## Where a node begins -/

/-- Opening a node opens no parenthesis. -/
theorem State.parens_opened (kind : NodeKind) (s : State) : (s.opened kind).parens = s.parens := by
  unfold opened
  split
  · rfl
  · exact count_shiftTrivia .parens s

namespace WholeLines

variable {s : State} (h : WholeLines s.rest)

include h

/-- Behind the trivia that is moved out of a node the lines are whole as before. -/
theorem opened (kind : NodeKind) : WholeLines (s.opened kind).rest :=
  h.suffix (State.opened_suffix kind s)

/-- Behind that trivia something is left, since the text ends with a line break. -/
theorem opened_ne_nil (kind : NodeKind) (hsome : s.rest ≠ []) : (s.opened kind).rest ≠ [] := by
  intro hnil
  have hkind := State.kindAhead_opened kind s
  rw [hnil] at hkind
  exact h.kindAhead_ne_eof hsome hkind.symm

end WholeLines

/-- A node around the one built last, or one without anything to be around. -/
theorem run_nodeAround_cases (kind : NodeKind) (m : Step α) (s : State) :
    (∃ children start outer, nodeAround kind m s
        = ((m (s.inside children)).1, (m (s.inside children)).2.close kind start outer))
      ∨ ∃ f, nodeAround kind m s = node kind m (s.giveUp f) := by
  by_cases hlast : ∃ first span children, s.out.back? = some (.node first span children)
  · obtain ⟨first, span, children, hlast⟩ := hlast
    exact .inl ⟨_, _, _, run_nodeAround hlast kind m⟩
  · exact .inr ⟨_, run_nodeAround_none (fun first span children hback =>
      hlast ⟨_, _, _, hback⟩) kind m⟩

/-! ## What holds of all steps -/

/-- The step takes tokens from the front only, leaves the parentheses as they were, and
makes good no error. -/
class Orderly (m : Step α) : Prop where
  honest : Honest m
  suffix (s : State) : (m s).2.rest <:+ s.rest
  parens (s : State) : (m s).2.parens = s.parens

/-- Whatever is put together of the makings is orderly. -/
theorem Alike.orderly {i : Sync} {o : α → Sync} {m m' : Step α} (h : Alike i o m m') :
    Orderly m :=
  ⟨h.honest, h.onward.suffix, h.count_eq .parens⟩

namespace Orderly

instance pure (a : α) : Orderly (Pure.pure a : Step α) :=
  ⟨.pure a, fun _ => List.suffix_refl _, fun _ => rfl⟩

instance bind (m : Step α) (f : α → Step β) [hm : Orderly m] [hf : ∀ a, Orderly (f a)] :
    Orderly (m >>= f) where
  honest := hm.honest.bind fun a => (hf a).honest
  suffix s := ((hf _).suffix _).trans (hm.suffix s)
  parens s := ((hf _).parens _).trans (hm.parens s)

instance map (g : α → β) (m : Step α) [hm : Orderly m] : Orderly (g <$> m) :=
  ⟨hm.honest, hm.suffix, hm.parens⟩

instance discard (m : Step α) [hm : Orderly m] : Orderly (Functor.discard m) :=
  ⟨hm.honest, hm.suffix, hm.parens⟩

instance ite (c : Prop) [Decidable c] (m m' : Step α) [hm : Orderly m] [hm' : Orderly m'] :
    Orderly (if c then m else m') := by
  split <;> assumption

instance node (kind : NodeKind) (m : Step α) [hm : Orderly m] : Orderly (node kind m) where
  honest := hm.honest.node
  suffix s := by
    rw [run_node]
    exact (hm.suffix ((s.opened kind).inside #[])).trans (State.opened_suffix kind s)
  parens s := by
    rw [run_node]
    exact (hm.parens ((s.opened kind).inside #[])).trans (State.parens_opened kind s)

instance nodeAround (kind : NodeKind) (m : Step α) [hm : Orderly m] :
    Orderly (nodeAround kind m) where
  honest s h := by
    rcases run_nodeAround_cases kind m s with ⟨children, _, _, hrun⟩ | ⟨f, hrun⟩ <;> rw [hrun] at h
    · exact hm.honest (s.inside children) h
    · exact absurd ((node kind m).honest _ h) (State.not_clean_giveUp f s)
  suffix s := by
    rcases run_nodeAround_cases kind m s with ⟨_, _, _, hrun⟩ | ⟨f, hrun⟩ <;> rw [hrun]
    · exact hm.suffix (s.inside _)
    · exact (node kind m).suffix (s.giveUp f)
  parens s := by
    rcases run_nodeAround_cases kind m s with ⟨_, _, _, hrun⟩ | ⟨f, hrun⟩ <;> rw [hrun]
    · exact hm.parens (s.inside _)
    · exact (node kind m).parens (s.giveUp f)

instance within (c : Counter) (m : Step α) [hm : Orderly m] : Orderly (within c m) where
  honest s h := by
    rw [run_within] at h
    exact (State.clean_raise c s).1 (hm.honest _ (State.clean_of_lower h))
  suffix s := by
    have hraised : (s.raise c).rest = s.rest := State.rest_setCount ..
    rw [run_within, State.rest_lower, ← hraised]
    exact hm.suffix _
  parens s := by
    rw [run_within]
    change ((m (s.raise c)).2.lower c).count .parens = s.count .parens
    have hinside : (m (s.raise c)).2.count .parens = (s.raise c).count .parens := hm.parens _
    by_cases hc : c = .parens
    · subst hc
      rw [State.count_lower, hinside, State.count_raise, Nat.add_sub_cancel]
    · have hne : Counter.parens ≠ c := fun h => hc h.symm
      rw [State.count_lower_of_ne hne, hinside, State.count_raise_of_ne hne]

instance withoutParens (m : Step α) [hm : Orderly m] : Orderly (withoutParens m) where
  honest s h := by
    rw [run_withoutParens] at h
    exact (State.clean_setCount ..).1 (hm.honest _ ((State.clean_setCount ..).1 h))
  suffix s := by
    rw [run_withoutParens, State.rest_setCount]
    exact hm.suffix (s.setCount .parens 0)
  parens s := by
    rw [run_withoutParens]
    rfl

instance look (n : Nat) : Orderly (look n) where
  honest := (Sees.look n).honest
  suffix s := by
    rcases run_look_cases n s with ⟨-, -, hlook⟩ | hlost
    · rw [hlook]
      exact List.suffix_refl _
    · rw [hlost]
      exact List.suffix_refl _
  parens s := by
    rcases run_look_cases n s with ⟨-, -, hlook⟩ | hlost
    · rw [hlook]
      rfl
    · rw [hlost]
      rfl

instance current : Orderly current := look 0

instance isTooDeep : Orderly isTooDeep := (Alike.isTooDeep (i := .next)).orderly

instance isOutside : Orderly isOutside := (Alike.isOutside (i := .next)).orderly

instance isAt (kind : TokenKind) : Orderly (isAt kind) :=
  inferInstanceAs (Orderly (Grammar.current >>= _))

instance atLineEnd : Orderly atLineEnd := inferInstanceAs (Orderly (Grammar.current >>= _))

instance consume : Orderly (modify State.consume : Step Unit) := Alike.consume.orderly

instance giveUp (f : Fault) : Orderly (modify (State.giveUp f) : Step Unit) :=
  (Alike.giveUp (i := .next) (o := fun _ => .next) f).orderly

instance complain (p : Problem) : Orderly (complain p) := (Alike.complain (i := .next) p).orderly

instance eat (kind : TokenKind) : Orderly (eat kind) :=
  inferInstanceAs (Orderly (Grammar.isAt kind >>= _))

instance bump (kind : TokenKind) : Orderly (bump kind) :=
  inferInstanceAs (Orderly (Grammar.current >>= _))

instance bumpAny : Orderly bumpAny := bumpAny_alike.orderly

instance expect (kind : TokenKind) (wanted : Wanted) : Orderly (expect kind wanted) :=
  inferInstanceAs (Orderly (Grammar.eat kind >>= _))

end Orderly

/-! ## Steps that leave something ahead -/

/-- **Wherever the step begins, it leaves something ahead**, unless it ends with an error:
where line breaks count, and the tokens ahead are those of whole lines. -/
structure Lands (m : Step α) : Prop where
  orderly : Orderly m
  lands (s : State) : WholeLines s.rest → s.parens = 0 → (m s).2.Clean → (m s).2.rest ≠ []

/-- **Where something is ahead, the step leaves something**, unless it ends with an error. -/
structure InLine (m : Step α) : Prop where
  orderly : Orderly m
  stays (s : State) : WholeLines s.rest → s.parens = 0 → s.rest ≠ [] → (m s).2.Clean →
    (m s).2.rest ≠ []

/-- A word is consumed, and the line break behind it is left. -/
theorem State.consume_ne_nil {s : State} (hlines : WholeLines s.rest) (hparens : s.parens = 0)
    (hbreak : kindAhead 0 s.rest ≠ .newline) (hend : kindAhead 0 s.rest ≠ .eof) :
    s.consume.rest ≠ [] := by
  have hsome : s.rest ≠ [] := by
    rintro hnil
    rw [hnil] at hend
    exact hend rfl
  have hlong : 1 < s.input.length := hlines.one_lt_visible hsome hbreak
  intro hnil
  have hinput := State.input_consume hparens
  rw [State.input, hnil] at hinput
  have hshort : s.input.tail.length = 0 := by rw [← hinput]; rfl
  rw [List.length_tail] at hshort
  omega

/-- A look that is not given up tells the kind of the next token. -/
theorem current_clean {s : State} (h : (current s).2.Clean) :
    current s = (kindAhead 0 s.rest, s.looked) := by
  rcases run_look_cases 0 s with ⟨-, -, hlook⟩ | hlost
  · exact hlook
  · change (look 0 s).2.Clean at h
    rw [hlost] at h
    exact absurd h (State.not_clean_giveUp _ s)

/-- A word that was seen is consumed. -/
theorem consumed {s : State} {kind : TokenKind} (hlines : WholeLines s.rest)
    (hparens : s.parens = 0) (hclean : (current s).2.Clean) (hkind : (current s).1 = kind)
    (hbreak : kind ≠ .newline) (hend : kind ≠ .eof) : (current s).2.consume.rest ≠ [] := by
  rw [current_clean hclean] at hkind ⊢
  subst hkind
  exact State.consume_ne_nil (s := s.looked) hlines hparens hbreak hend

namespace Lands

variable {m : Step α} {f : α → Step β}

/-- A step that lands leaves something ahead. -/
theorem inLine (h : Lands m) : InLine m :=
  ⟨h.orderly, fun s hlines hparens _ => h.lands s hlines hparens⟩

/-- What comes in front does not matter. -/
theorem after [hm : Orderly m] (hf : ∀ a, Lands (f a)) : Lands (m >>= f) where
  orderly := have := fun a => (hf a).orderly; .bind m f
  lands s hlines hparens :=
    (hf _).lands _ (hlines.suffix (hm.suffix s)) ((hm.parens s).trans hparens)

/-- Behind a step that lands, another one may follow that stays in line. -/
theorem bind (hm : Lands m) (hf : ∀ a, InLine (f a)) : Lands (m >>= f) where
  orderly := have := hm.orderly; have := fun a => (hf a).orderly; .bind m f
  lands s hlines hparens hclean :=
    (hf _).stays _ (hlines.suffix (hm.orderly.suffix s)) ((hm.orderly.parens s).trans hparens)
      (hm.lands s hlines hparens ((hf _).orderly.honest _ hclean)) hclean

/-- A step of which nothing has to be shown. -/
theorem never (h : Fails m) [Orderly m] : Lands m :=
  ⟨inferInstance, fun s _ _ hclean => absurd hclean (h.fails s)⟩

/-- A choice lands when both ways do. -/
theorem ite {c : Prop} [Decidable c] {m m' : Step α} (h : Lands m) (h' : Lands m') :
    Lands (if c then m else m') := by
  split
  · exact h
  · exact h'

/-- The answer may be dropped. -/
theorem discard (h : Lands m) : Lands (Functor.discard m) :=
  ⟨have := h.orderly; .discard m, h.lands⟩

/-- A node around a step that lands. -/
theorem node (kind : NodeKind) (h : Lands m) : Lands (node kind m) where
  orderly := have := h.orderly; .node kind m
  lands s hlines hparens hclean := by
    rw [run_node] at hclean ⊢
    exact h.lands ((s.opened kind).inside #[]) (hlines.opened kind)
      ((State.parens_opened kind s).trans hparens) hclean

/-- A node around the last one and a step that lands. -/
theorem nodeAround (kind : NodeKind) (h : Lands m) : Lands (nodeAround kind m) where
  orderly := have := h.orderly; .nodeAround kind m
  lands s hlines hparens hclean := by
    have := h.orderly
    rcases run_nodeAround_cases kind m s with ⟨_, _, _, hrun⟩ | ⟨f, hrun⟩
    · rw [hrun] at hclean ⊢
      exact h.lands (s.inside _) hlines hparens hclean
    · rw [hrun] at hclean
      exact absurd ((Orderly.node kind m).honest _ hclean) (State.not_clean_giveUp f s)

/-- A counter that is raised, other than the one of the parentheses. -/
theorem within {c : Counter} (hc : c ≠ .parens) (h : Lands m) : Lands (within c m) where
  orderly := have := h.orderly; .within c m
  lands s hlines hparens hclean := by
    have hraised : (s.raise c).rest = s.rest := State.rest_setCount ..
    have hcount : (s.raise c).count .parens = s.count .parens :=
      State.count_raise_of_ne (fun h => hc h.symm) s
    rw [run_within] at hclean ⊢
    rw [State.rest_lower]
    exact h.lands _ (by rwa [hraised]) (hcount.trans hparens) (State.clean_of_lower hclean)

/-- What is seen of the next token is known of it in what follows. -/
theorem current {f : TokenKind → Step β} (horderly : Orderly (Grammar.current >>= f))
    (hend : Honest (f .eof))
    (hf : ∀ s, WholeLines s.rest → s.parens = 0 → (f (kindAhead 0 s.rest) s).2.Clean →
      (f (kindAhead 0 s.rest) s).2.rest ≠ []) : Lands (Grammar.current >>= f) where
  orderly := horderly
  lands s hlines hparens hclean := by
    have hrun : (Grammar.current >>= f) s = f (Grammar.look 0 s).1 (Grammar.look 0 s).2 := rfl
    rw [hrun] at hclean ⊢
    rcases run_look_cases 0 s with ⟨-, -, hlook⟩ | hlost
    · rw [hlook] at hclean ⊢
      exact hf s.looked hlines hparens hclean
    · rw [hlost] at hclean
      exact absurd (hend _ hclean) (State.not_clean_giveUp _ s)

/-- A token that a rule counts on. -/
theorem bump {kind : TokenKind} (hbreak : kind ≠ .newline) (hend : kind ≠ .eof) :
    Lands (bump kind) where
  orderly := inferInstance
  lands s hlines hparens hclean := by
    have hrun : Grammar.bump kind s = (if (Grammar.current s).1 == kind
        then modify State.consume
        else modify (State.giveUp (.mismatch (.token kind) (.token (Grammar.current s).1))) :
        Step Unit) (Grammar.current s).2 := rfl
    rw [hrun] at hclean ⊢
    split at hclean
    · next hfound =>
      rw [if_pos hfound]
      exact consumed hlines hparens ((State.clean_consume _).1 hclean) (eq_of_beq hfound) hbreak
        hend
    · exact absurd hclean (State.not_clean_giveUp _ _)

/-- A token that has to be there. -/
theorem expect {kind : TokenKind} (hbreak : kind ≠ .newline) (hend : kind ≠ .eof)
    (wanted : Wanted) : Lands (expect kind wanted) where
  orderly := inferInstance
  lands s hlines hparens hclean := by
    have hrun : Grammar.expect kind wanted s = (do
        unless (Grammar.eat kind s).1 do complain (.missing wanted)
        return (Grammar.eat kind s).1 : Step Bool) (Grammar.eat kind s).2 := rfl
    rw [hrun, run_eat] at hclean ⊢
    by_cases hthere : (Grammar.current s).1 = kind
    · rw [if_pos hthere] at hclean ⊢
      exact consumed hlines hparens ((State.clean_consume _).1 hclean) hthere hbreak hend
    · rw [if_neg hthere] at hclean
      exact absurd hclean ((Fails.complain rfl).fails _)

end Lands

namespace InLine

variable {m : Step α} {f : α → Step β}

/-- An answer takes nothing. -/
theorem pure (a : α) : InLine (Pure.pure a : Step α) := ⟨inferInstance, fun _ _ _ h _ => h⟩

/-- Two steps in line after each other. -/
theorem bind (hm : InLine m) (hf : ∀ a, InLine (f a)) : InLine (m >>= f) where
  orderly := have := hm.orderly; have := fun a => (hf a).orderly; .bind m f
  stays s hlines hparens hsome hclean :=
    (hf _).stays _ (hlines.suffix (hm.orderly.suffix s)) ((hm.orderly.parens s).trans hparens)
      (hm.stays s hlines hparens hsome ((hf _).orderly.honest _ hclean)) hclean

/-- A choice stays in line when both ways do. -/
theorem ite {c : Prop} [Decidable c] {m m' : Step α} (h : InLine m) (h' : InLine m') :
    InLine (if c then m else m') := by
  split
  · exact h
  · exact h'

/-- The answer may be changed. -/
theorem map (g : α → β) (h : InLine m) : InLine (g <$> m) :=
  ⟨have := h.orderly; .map g m, h.stays⟩

/-- The answer may be dropped. -/
theorem discard (h : InLine m) : InLine (Functor.discard m) :=
  ⟨have := h.orderly; .discard m, h.stays⟩

/-- A step that takes nothing. -/
theorem looking [Orderly m] (h : ∀ s, (m s).2.rest = s.rest) : InLine m :=
  ⟨inferInstance, fun s _ _ hsome _ => by rwa [h s]⟩

/-- A look takes nothing. -/
theorem look (n : Nat) : InLine (Grammar.look n) := by
  refine looking fun s => ?_
  rcases run_look_cases n s with ⟨-, -, hlook⟩ | hlost
  · rw [hlook]
    rfl
  · rw [hlost]
    rfl

/-- A look at the next token takes nothing. -/
theorem current : InLine Grammar.current := look 0

/-- A test of the next token takes nothing. -/
theorem isAt (kind : TokenKind) : InLine (isAt kind) := current.bind fun _ => .pure _

/-- Asking for the depth takes nothing. -/
theorem isTooDeep : InLine isTooDeep := looking fun _ => rfl

/-- A token that may be there. -/
theorem eat {kind : TokenKind} (hbreak : kind ≠ .newline) (hend : kind ≠ .eof) :
    InLine (eat kind) where
  orderly := inferInstance
  stays s hlines hparens hsome hclean := by
    rw [run_eat] at hclean ⊢
    by_cases hthere : (Grammar.current s).1 = kind
    · rw [if_pos hthere] at hclean ⊢
      exact consumed hlines hparens ((State.clean_consume _).1 hclean) hthere hbreak hend
    · rw [if_neg hthere] at hclean ⊢
      rw [current_clean hclean]
      exact hsome

/-- The trivia in front of a node leaves the next token. -/
theorem node (kind : NodeKind) (h : InLine m) : InLine (node kind m) where
  orderly := have := h.orderly; .node kind m
  stays s hlines hparens hsome hclean := by
    rw [run_node] at hclean ⊢
    refine h.stays ((s.opened kind).inside #[]) (hlines.opened kind) ?_ ?_ hclean
    · exact (State.parens_opened kind s).trans hparens
    · exact hlines.opened_ne_nil kind hsome

/-- A node around the last one and a step in line. -/
theorem nodeAround (kind : NodeKind) (h : InLine m) : InLine (nodeAround kind m) where
  orderly := have := h.orderly; .nodeAround kind m
  stays s hlines hparens hsome hclean := by
    have := h.orderly
    rcases run_nodeAround_cases kind m s with ⟨_, _, _, hrun⟩ | ⟨f, hrun⟩
    · rw [hrun] at hclean ⊢
      exact h.stays (s.inside _) hlines hparens hsome hclean
    · rw [hrun] at hclean
      exact absurd ((Orderly.node kind m).honest _ hclean) (State.not_clean_giveUp f s)

/-- A loop stays in line when its turns do. -/
theorem iterate {step : σ → Step (Option σ)} (h : ∀ x, InLine (step x)) (n : Nat) (x : σ) :
    InLine (iterate step n x) := by
  induction n generalizing x with
  | zero => exact (Lands.never (.giveUp _)).inLine
  | succ n ih =>
    refine (h x).bind fun r => ?_
    cases r with
    | none => exact pure ()
    | some y => exact ih y

/-- Two steps in turn, each time one level deeper. -/
theorem climb {check : Step (Option β)} {act : β → Step Bool} (hcheck : InLine check)
    (hact : ∀ b, InLine (act b)) (n : Nat) : InLine (climb check act n) := by
  -- Raising the depth takes nothing, so each turn is a check and an act in line.
  have hraise : InLine (modify (State.raise .nesting) : Step Unit) :=
    ⟨⟨fun s h => (State.clean_raise .nesting s).1 h, fun s => List.suffix_refl _, fun s => rfl⟩,
      fun s _ _ hsome _ => hsome⟩
  have hturns : InLine (Grammar.iterate (fun _ => climbTurn check act) n ()) := by
    refine iterate (fun _ => hcheck.bind fun r => ?_) n ()
    cases r with
    | none => exact pure none
    | some b =>
      refine hraise.bind fun _ => (hact b).bind fun again => ?_
      cases again <;> exact pure _
  refine ⟨⟨fun s h => ?_, fun s => ?_, fun s => ?_⟩, fun s hlines hparens hsome h => ?_⟩
  · rw [Grammar.climb, run_restoring] at h
    exact hturns.orderly.honest s ((State.clean_setCount ..).1 h)
  · rw [Grammar.climb, run_restoring]
    exact hturns.orderly.suffix s
  · rw [Grammar.climb, run_restoring]
    exact hturns.orderly.parens s
  · rw [Grammar.climb, run_restoring] at h ⊢
    exact hturns.stays s hlines hparens hsome ((State.clean_setCount ..).1 h)

end InLine

/-! ## Expressions -/

/-- The expressions of a level leave the end of the line. -/
structure Rules.InLine (R : Rules) : Prop where
  alike : R.Alike R
  expression (floor : Nat) : Lands (R.expression floor)
  operand (calls : Bool) : Lands (R.operand calls)

instance lineEnd_orderly (R : Rules) : Orderly (lineEnd R) := (lineEnd_alike R R).orderly

instance declaredName_orderly (wanted : Wanted) : Orderly (declaredName wanted) :=
  (declaredName_alike wanted).orderly

instance parameters_orderly (R : Rules) : Orderly (parameters R) := (parameters_alike R R).orderly

/-- A declared name is taken, and something is left behind it. -/
theorem declaredName_lands (wanted : Wanted) : Lands (declaredName wanted) where
  orderly := inferInstance
  lands s hlines hparens hclean := by
    -- A name that is missing is complained about, and then the reading is not clean.
    have hrun : declaredName wanted s = (if (current s).1 == .ident
        then node .name (modify State.consume) else complain (.missing wanted) :
        Step Unit) (current s).2 := rfl
    rw [hrun] at hclean ⊢
    split at hclean
    · next hthere =>
      rw [if_pos hthere, run_node]
      rw [run_node] at hclean
      have hopened : ((current s).2.opened .name).Clean :=
        (State.clean_consume (((current s).2.opened .name).inside #[])).1 hclean
      have hlooked := current_clean ((State.clean_opened .name _).1 hopened)
      have hkind : kindAhead 0 s.rest = .ident := by
        rw [hlooked] at hthere
        exact eq_of_beq hthere
      rw [hlooked]
      refine State.consume_ne_nil (s := (s.looked.opened .name).inside #[])
        (WholeLines.opened (s := s.looked) hlines .name) ((State.parens_opened .name s.looked).trans hparens) ?_ ?_
      · change kindAhead 0 (s.looked.opened .name).rest ≠ .newline
        rw [State.kindAhead_opened]
        exact fun h => by cases hkind.symm.trans h
      · change kindAhead 0 (s.looked.opened .name).rest ≠ .eof
        rw [State.kindAhead_opened]
        exact fun h => by cases hkind.symm.trans h
    · exact absurd hclean ((Fails.complain rfl).fails _)

section Rules

variable {R : Rules}

/-- Arguments between parentheses end with the closing one. -/
theorem parenArguments_lands (hR : R.InLine) : Lands (parenArguments R) := by
  have halike : Alike .next (fun _ => .next) (R.loop (parenArgument R)) (R.loop (parenArgument R)) :=
    loop_alike (parenArgument_alike hR.alike)
  have hturns : Orderly (R.loop (parenArgument R)) := halike.orderly
  exact .after fun _ => (Lands.expect (by decide) (by decide) _).discard

/-- Whether another argument follows is only looked for. -/
theorem argumentFollows_inLine (afterComma : Bool) : InLine (argumentFollows afterComma) := by
  refine InLine.current.bind fun kind => .ite (.pure _) (.ite ?_ (.pure _))
  exact InLine.current.bind fun _ => .pure _

/-- Arguments without parentheses leave the end of the line ahead. -/
theorem bareArguments_inLine (hR : R.InLine) : InLine (bareArguments R) := by
  refine .iterate (fun afterComma => (argumentFollows_inLine afterComma).bind fun follows =>
    .ite ?_ (.pure _)) R.turns false
  exact (hR.operand false).inLine.discard.bind fun _ =>
    (InLine.eat (by decide) (by decide)).bind fun _ => .pure _

/-- A name is taken, and something is left behind it. -/
theorem nameRef_lands : Lands (node .nameRef (bump .ident)) :=
  .node _ (.bump (by decide) (by decide))

/-- Whether a parenthesis opens the arguments is only looked for. -/
theorem opensArguments_inLine : InLine opensArguments := by
  refine (InLine.isAt _).bind fun opens => .ite ?_ (.pure _)
  exact (InLine.look 1).bind fun _ => .pure _

/-- A name or a call leaves something ahead. -/
theorem nameOrCall_lands (hR : R.InLine) (calls : Bool) : Lands (nameOrCall R calls) := by
  have hcall (called : Bool) : InLine (do
      if called then
        nodeAround .funcExpr do
          node .argList do
            if ← opensArguments then parenArguments R else bareArguments R) := by
    refine .ite (.nodeAround _ (.node _ (opensArguments_inLine.bind fun opens => ?_))) (.pure _)
    exact .ite (parenArguments_lands hR).inLine (bareArguments_inLine hR)
  have hfunction : Orderly (atFunction R) := (Alike.atFunction (R := R) rfl).orderly
  refine .after fun known => nameRef_lands.bind fun _ => ?_
  refine .ite ?_ (.pure _)
  cases known with
  | true => exact (InLine.pure true).bind hcall
  | false => exact (InLine.current.map _).bind hcall

/-! ### Lambdas -/

/-- A declaration in the place of a variable leaves something ahead. -/
theorem variableDecl_lands : Lands variableDecl :=
  .node _ (.after fun _ => declaredName_lands _)

/-- A variable, named or declared, leaves something ahead. -/
theorem variableOrDecl_lands (recovers : TokenKind → Bool) :
    Lands (variableOrDecl recovers) := by
  have haside : Orderly (setAside .variable recovers) := (setAside_alike _ _).orderly
  refine .after fun kind => .ite variableDecl_lands (.after fun there => ?_)
  exact .ite nameRef_lands (.never (setAside_fails _ _))

/-- Parameters end with the closing brace. -/
theorem parameters_lands (R : Rules) : Lands (parameters R) := by
  have halike : Alike .next (fun _ => .next) (R.loop parameter) (R.loop parameter) :=
    loop_alike parameter_alike
  have hturns : Orderly (R.loop parameter) := halike.orderly
  exact .node _ (.after fun _ => .after fun _ => (Lands.expect (by decide) (by decide) _).discard)

/-- A lambda ends with the closing parenthesis. -/
theorem lambda_lands (hR : R.InLine) : Lands (lambda R) := by
  have hblock : Orderly R.block := hR.alike.block.orderly
  refine .node _ (@Lands.after _ _ _ _ (@Orderly.withoutParens _ _ ?_) fun _ =>
    (Lands.expect (by decide) (by decide) _).discard)
  -- Only the closing parenthesis has to land. All that is in front of it need only be orderly.
  have hbody : Orderly (do
      lineEnd R
      within .begins R.block
      discard <| expect .kwEnd .kwEnd) := inferInstance
  have hheader (braces : Bool) : Orderly (do
      if braces then parameters R
      lineEnd R
      within .begins R.block
      discard <| expect .kwEnd .kwEnd) := by
    cases braces with
    | true => exact .bind (parameters R) _
    | false => exact hbody
  exact .bind (bump .lParen) _

/-! ### Operands -/

/-- An expression between parentheses ends with the closing one. -/
theorem parenthesized_lands (hR : R.InLine) : Lands (parenthesized R) := by
  have hexpression : Orderly (R.expression 0) := (hR.expression 0).orderly
  exact .node _ (.after fun _ => (Lands.expect (by decide) (by decide) _).discard)

/-- A literal is one word. -/
theorem rest_literal {s : State} (hlines : WholeLines s.rest) (hparens : s.parens = 0)
    (hbreak : kindAhead 0 s.rest ≠ .newline) (hend : kindAhead 0 s.rest ≠ .eof)
    (hclean : (node .literal bumpAny s).2.Clean) : (node .literal bumpAny s).2.rest ≠ [] := by
  have hrun (t : State) : bumpAny t = (do
      unless (current t).1 == .eof do modify State.consume : Step Unit) (current t).2 := rfl
  rw [run_node, hrun] at hclean ⊢
  set t := (s.opened .literal).inside #[] with ht
  have hahead : kindAhead 0 t.rest = kindAhead 0 s.rest := State.kindAhead_opened .literal s
  -- A look that ran out would not be clean.
  have hlooked : (current t).2.Clean := by
    split at hclean
    · exact hclean
    · exact (State.clean_consume _).1 hclean
  have hkind : (current t).1 = kindAhead 0 s.rest := by rw [current_clean hlooked, hahead]
  rw [if_neg (by simpa [hkind] using hend)]
  exact consumed (s := t) (WholeLines.opened hlines .literal)
    ((State.parens_opened .literal s).trans hparens) hlooked hkind hbreak hend

/-- The innermost operand leaves something ahead. -/
theorem primary_lands (hR : R.InLine) (calls : Bool) : Lands (primary R calls) := by
  refine .current (primary_alike hR.alike calls).orderly noOperand_fails.honest
    fun s hlines hparens hclean => ?_
  generalize hkind : kindAhead 0 s.rest = kind at hclean ⊢
  cases kind
  case number | hexNumber | string =>
    exact rest_literal hlines hparens (by rw [hkind]; decide) (by rw [hkind]; decide) hclean
  case ident => exact (nameOrCall_lands hR calls).lands s hlines hparens hclean
  case lParen =>
    refine (Lands.after (m := look 1) fun second => ?_).lands s hlines hparens hclean
    exact .ite ((lambda_lands hR).bind fun _ => .pure _)
      ((parenthesized_lands hR).bind fun _ => .pure _)
  all_goals exact absurd hclean (noOperand_fails.fails s)

/-- An access leaves something ahead. -/
theorem access_inLine (hR : R.InLine) (calls : Bool) : InLine (access R calls) := by
  have hname := nameOrCall_lands hR calls
  have hmember : InLine (do
      nodeAround .memberExpr do
        bumpAny
        if ← isAt .ident then nameOrCall R calls else complain (.missing .memberName)
      return true) := by
    refine (Lands.nodeAround _ (.after fun _ => .after fun there => ?_)).inLine.bind fun _ => .pure _
    exact .ite hname (.never (.complain rfl))
  refine InLine.current.bind fun kind => ?_
  split
  · exact hmember
  · exact hmember
  · have hexpression : Orderly (R.expression 0) := (hR.expression 0).orderly
    refine (Lands.nodeAround _ (.after fun _ => .after fun _ => ?_)).inLine.bind fun _ => .pure _
    exact (Lands.expect (by decide) (by decide) _).discard
  · exact .pure _

/-- Whether there is room for an access is only looked for, unless the chain is too deep. -/
theorem roomForAccess_inLine (R : Rules) : InLine (roomForAccess R) := by
  have hdeep : Orderly (deepExpression R) := (deepExpression_alike R R).orderly
  have hrest (deep : Bool) : InLine
      (do if deep then deepExpression R; return none else return some ()) :=
    .ite ((Lands.never (deepExpression_fails R)).inLine.bind fun _ => .pure _) (.pure _)
  refine InLine.current.bind fun kind => .ite ?_ ?_
  · exact InLine.isTooDeep.bind hrest
  · exact (InLine.pure false).bind hrest

/-- An operand without signs leaves something ahead. -/
theorem shallowOperand_lands (hR : R.InLine) (calls : Bool) : Lands (shallowOperand R calls) := by
  refine .after fun kind => ?_
  split
  · refine (Lands.node _ (.after fun _ => .ite (hR.expression _) ?_)).bind fun _ => .pure _
    exact (hR.operand false).discard
  · refine (primary_lands hR calls).bind fun there => .ite ?_ (.pure _)
    exact (InLine.climb (roomForAccess_inLine R) (fun _ => access_inLine hR calls) _).bind
      fun _ => .pure _

/-- An operand with its signs leaves something ahead. -/
theorem operand_lands (hR : R.InLine) (calls : Bool) : Lands (operand R calls) := by
  have hdeep : Orderly (deepExpression R) := (deepExpression_alike R R).orderly
  refine .after fun deep => .ite ?_ (.within (by decide) (shallowOperand_lands hR calls))
  exact (Lands.never (deepExpression_fails R)).bind fun _ => .pure _

/-! ### Operators -/

/-- Whether an operator follows is only looked for, unless the chain is too deep. -/
theorem roomForOperator_inLine (R : Rules) (floor : Nat) : InLine (roomForOperator R floor) := by
  have hdeep : Orderly (deepExpression R) := (deepExpression_alike R R).orderly
  refine InLine.current.bind fun kind => ?_
  split
  · exact .pure _
  · refine .ite (.pure _) (InLine.isTooDeep.bind fun deep => .ite ?_ (.pure _))
    exact (Lands.never (deepExpression_fails R)).inLine.bind fun _ => .pure _

/-- An expression without a complaint leaves at least the end of its line ahead. -/
theorem expression_lands (hR : R.InLine) (floor : Nat) : Lands (expression R floor) := by
  have hoperators : InLine (operators R floor) := by
    refine .climb (roomForOperator_inLine R floor) (fun power => ?_) _
    exact (Lands.nodeAround _ (.after fun _ => hR.expression power)).inLine.bind fun _ => .pure _
  exact (hR.operand true).bind fun there => .ite hoperators (.pure _)

end Rules

/-! ## All levels -/

/-- **An expression that is read without an error leaves the end of its line.** -/
theorem rules_inLine (f : String → Bool) (levels : Nat) : (rules f levels).InLine := by
  induction levels with
  | zero =>
    have hnever : Lands (modify (State.giveUp .stuck) : Step Unit) := .never (.giveUp _)
    exact ⟨rules_alike_self f 0, fun _ => hnever, fun _ => hnever.bind fun _ => .pure _⟩
  | succ levels ih =>
    exact ⟨rules_alike_self f (levels + 1), expression_lands ih, operand_lands ih⟩

end ScriptSense.Grammar
