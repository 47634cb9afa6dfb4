/-
Where the block of a node stands, and what a name is made of.

A node with a block begins with a word, then comes its header, then its block. For
the views that is more than they say: they find the parameters, the loop variable
and the block by their kinds, wherever these stand. That a parameter is written in
front of the block in which it can be seen is a matter of the rules, and so is it
that a block is never all of the node around it.

For names it is less: whatever else goes wrong, a name is one identifier.

A step is `Formal` if it builds such nodes only, unless it gives up. This is shown of
what steps are put together with, and then of the rules one after the other. Along
with it goes what the seven nodes with blocks need of the steps behind their word:
what was built up to a token stays, whatever is built behind it.
-/
import Mathlib.Data.List.DropRight
import Mathlib.Data.List.TakeWhile
import ScriptSense.Proofs.Grammar.Frame

set_option autoImplicit false

namespace ScriptSense

/-! ## Nodes with a block -/

/-- The node has a header and a block. -/
def NodeKind.isHeaded : NodeKind → Bool
  | .ifStmt | .elseIfBranch | .elseBranch | .whileStmt | .foreachStmt | .beginStmt
  | .lambdaExpr => true
  | _ => false

/-- The word that begins the statement or the branch. -/
def NodeKind.opener? : NodeKind → Option TokenKind
  | .ifStmt => some .kwIf
  | .elseIfBranch => some .kwElseIf
  | .elseBranch => some .kwElse
  | .whileStmt => some .kwWhile
  | .foreachStmt => some .kwForeach
  | .beginStmt => some .kwBegin
  | _ => none

/-- **Where the parts of a node with a block stand**, by its children. -/
structure Headed (kind : NodeKind) (children : List Tree) : Prop where
  /-- It begins with a word. -/
  word : ∃ word rest, children = .leaf word :: rest
  /-- The word that opens it is there. -/
  opener : ∀ word ∈ kind.opener?, ∃ m, .leaf m ∈ children ∧ m.kind = word
  /-- Parameters stand in front of arguments and of the block. -/
  params : kind = .beginStmt ∨ kind = .lambdaExpr → ∃ front back, children = front ++ back
    ∧ (∀ c ∈ front, c.isNode (fun k => k == .stmtList || k == .argList) = false)
    ∧ ∀ c ∈ back, c.isNode (· == .paramList) = false
  /-- The arrow of a loop over a collection stands in front of the block. -/
  arrow : kind = .foreachStmt → (∀ m, .leaf m ∈ children → m.kind ≠ .lArrow)
    ∨ ∃ front m back, children = front ++ .leaf m :: back ∧ m.kind = .lArrow
      ∧ ∀ c ∈ front, c.isNode (· == .stmtList) = false

/-! ## Names -/

/-- The node is a name, where it is declared or where it is used. -/
def NodeKind.isNaming : NodeKind → Bool
  | .name | .nameRef => true
  | _ => false

/-- **A name is one identifier**, with nothing but layout around it. -/
def IsName (children : List Tree) : Prop :=
  ∃ (before : List Token) (word : Token) (after : List Token),
    children = (before ++ word :: after).map .leaf ∧ word.kind = .ident
      ∧ (∀ t ∈ before, t.kind.isTrivia = true)
      ∧ ∀ t ∈ after, t.kind.isTrivia = true ∨ t.kind = .newline

/-- The node has neither a block nor a name of its own. -/
def NodeKind.isPlain (kind : NodeKind) : Bool := !kind.isHeaded && !kind.isNaming

/-- A plain node has no block and is no name. -/
theorem NodeKind.isPlain_iff {kind : NodeKind} :
    kind.isPlain = true ↔ kind.isHeaded = false ∧ kind.isNaming = false := by
  simp [isPlain]

/-! ## Trees -/

/-- In all nodes with a block the parts stand where they should, and every name is one
identifier. -/
inductive Tree.Formed : Tree → Prop
  | leaf (t : Token) : Formed (.leaf t)
  | node {kind : NodeKind} {span : Span} {children : List Tree}
      (h : kind.isHeaded = true → Headed kind children)
      (hname : kind.isNaming = true → IsName children) (hcs : ∀ c ∈ children, Formed c) :
      Formed (.node kind span children)

namespace Tree.Formed

variable {t c : Tree}

/-- The children of a well-formed tree are well-formed. -/
theorem of_mem_children (h : Formed t) (hc : c ∈ t.children) : Formed c := by
  cases h with
  | leaf => simp [children] at hc
  | node _ _ hcs => exact hcs c hc

/-- In a well-formed tree a node with a block has its header in front of it. -/
theorem headed {kind : NodeKind} {span : Span} {cs : List Tree} (h : Formed (.node kind span cs))
    (hkind : kind.isHeaded = true) : Headed kind cs := by
  cases h with
  | node h _ _ => exact h hkind

/-- In a well-formed tree a name is one identifier. -/
theorem named {kind : NodeKind} {span : Span} {cs : List Tree} (h : Formed (.node kind span cs))
    (hkind : kind.isNaming = true) : IsName cs := by
  cases h with
  | node _ hname _ => exact hname hkind

end Tree.Formed

namespace Grammar

open ScriptSense.Tree (Formed)

variable {α β σ : Type}

/-! ## Tokens that are consumed -/

namespace State

/-- Tokens that are taken over stand behind what was built, in their order. -/
theorem toList_out_shiftMany (n : Nat) (s : State) :
    (s.shiftMany n).out.toList = s.out.toList ++ (s.rest.take n).map .leaf := by
  induction n generalizing s with
  | zero => simp [shiftMany]
  | succ n ih =>
    rw [shiftMany, ih]
    cases h : s.rest with
    | nil => simp [shift, h]
    | cons t ts => simp [shift, h]

/-- What is passed over with the line breaks is trivia or a line break. -/
theorem mem_take_breaksAhead {ts : List Token} {t : Token} (ht : t ∈ ts.take (breaksAhead ts)) :
    t.kind.isTrivia = true ∨ t.kind = .newline := by
  induction ts with
  | nil => cases ht
  | cons u ts ih =>
    -- Trivia counts only where a line break comes behind it, so nothing else is passed over.
    unfold breaksAhead at ht
    split at ht
    · next hbreak =>
      rw [List.take_succ_cons, List.mem_cons] at ht
      exact ht.elim (fun h => .inr (by rw [h]; exact eq_of_beq hbreak)) ih
    · split at ht
      · next htrivia =>
        split at ht
        · cases ht
        · next n hn =>
          rw [List.take_succ_cons, List.mem_cons] at ht
          exact ht.elim (fun h => .inl (by rw [h]; exact htrivia)) fun h => ih (by rwa [hn])
      · cases ht

/-- The next token is the first one behind the trivia. -/
theorem kindAhead_zero (ts : List Token) :
    kindAhead 0 ts = ((ts.dropWhile (·.kind.isTrivia)).head?.map Token.kind).getD .eof := by
  induction ts with
  | nil => rfl
  | cons t ts ih =>
    unfold kindAhead
    by_cases ht : t.kind.isTrivia
    · rw [if_pos ht, ih, List.dropWhile_cons, if_pos ht]
    · rw [if_neg ht, List.dropWhile_cons, if_neg ht]
      rfl

/-- The next token is the same inside of a node that is opened. -/
theorem kindAhead_opened (kind : NodeKind) (s : State) :
    kindAhead 0 (s.opened kind).rest = kindAhead 0 s.rest := by
  unfold opened
  split
  · rfl
  · rw [kindAhead_zero, kindAhead_zero, rest_shiftTrivia, List.dropWhile_idempotent]

/-- What is moved out of a node is trivia. -/
theorem isTrivia_of_mem_take {s : State} {t : Token}
    (ht : t ∈ s.rest.take (s.rest.takeWhile (·.kind.isTrivia)).length) : t.kind.isTrivia = true := by
  rw [(List.prefix_iff_eq_take.1 (List.takeWhile_prefix _)).symm] at ht
  exact List.all_eq_true.1 List.all_takeWhile t ht

/-- Consumed are the trivia in front of the next token, the token, and perhaps line
breaks behind it. -/
theorem toList_out_consume (s : State) : ∃ before next after : List Token,
    s.consume.out.toList = s.out.toList ++ (before ++ next ++ after).map .leaf
      ∧ (∀ t ∈ before, t.kind.isTrivia = true)
      ∧ (∀ t ∈ after, t.kind.isTrivia = true ∨ t.kind = .newline)
      ∧ (∀ t ∈ next, t.kind = kindAhead 0 s.rest)
      ∧ (kindAhead 0 s.rest ≠ .eof → ∃ t, next = [t]) := by
  set before := s.rest.take (s.rest.takeWhile (·.kind.isTrivia)).length with hbefore
  have hout : s.shiftTrivia.out.toList = s.out.toList ++ before.map .leaf :=
    toList_out_shiftMany _ s
  have hkind := kindAhead_zero s.rest
  rw [← rest_shiftTrivia] at hkind
  obtain ⟨next, hshift, hnext, hsome⟩ : ∃ next : List Token,
      s.shiftTrivia.shift.out.toList = s.shiftTrivia.out.toList ++ next.map .leaf
        ∧ (∀ t ∈ next, t.kind = kindAhead 0 s.rest) ∧ (kindAhead 0 s.rest ≠ .eof → ∃ t, next = [t]) := by
    cases hrest : s.shiftTrivia.rest with
    | nil =>
      refine ⟨[], by simp [shift, hrest], by simp, fun hne => absurd ?_ hne⟩
      rw [hkind, hrest]
      rfl
    | cons u us =>
      refine ⟨[u], by rw [shift_of_rest hrest, Array.toList_push]; rfl, fun t ht => ?_, fun _ => ⟨u, rfl⟩⟩
      rw [List.mem_singleton.1 ht, hkind, hrest]
      rfl
  -- Line breaks behind the token are taken with it between parentheses only.
  obtain ⟨after, hbreaks, hafter⟩ : ∃ after : List Token,
      s.consume.out.toList = s.shiftTrivia.shift.out.toList ++ after.map .leaf
        ∧ ∀ t ∈ after, t.kind.isTrivia = true ∨ t.kind = .newline := by
    have hconsume : s.consume.out = s.shiftTrivia.shift.shiftBreaks.out := rfl
    rw [hconsume, shiftBreaks]
    split
    · exact ⟨_, toList_out_shiftMany _ _, fun t ht => mem_take_breaksAhead ht⟩
    · exact ⟨[], by simp, by simp⟩
  refine ⟨before, next, after, ?_, fun t => isTrivia_of_mem_take, hafter, hnext, hsome⟩
  simp only [hbreaks, hshift, hout, List.map_append, List.append_assoc]

end State

/-! ## The judgement -/

/-- What was built up to a token stays. -/
def KeepsTokens (s t : State) : Prop :=
  ∀ front m, front ++ [Tree.leaf m] <+: s.out.toList → front ++ [Tree.leaf m] <+: t.out.toList

/-- A step that builds formed nodes only, unless it gives up. -/
class Formal (m : Step α) : Prop where
  /-- It does not make good a fault. -/
  unbroken (s : State) : (m s).2.fault = none → s.fault = none
  kept (s : State) : KeepsTokens s (m s).2
  formed (s : State) : (m s).2.fault = none → (∀ c ∈ s.out.toList, Formed c) →
    ∀ c ∈ (m s).2.out.toList, Formed c

namespace Formal

/-- A step that moves no token and builds nothing. -/
theorem of_out {m : Step α} (hfault : ∀ s, (m s).2.fault = none → s.fault = none)
    (hout : ∀ s, (m s).2.out = s.out) : Formal m where
  unbroken := hfault
  kept s _ _ h := by rwa [hout]
  formed s _ h := by rwa [hout]

/-- What is added behind leaves the tokens of before where they are. -/
theorem keepsTokens_append {s t : State} {new : List Tree} (h : t.out.toList = s.out.toList ++ new) :
    KeepsTokens s t := by
  intro front m hfront
  rw [h]
  exact hfront.trans (List.prefix_append _ _)

instance pure (a : α) : Formal (Pure.pure a : Step α) := of_out (fun _ h => h) fun _ => rfl

instance bind (m : Step α) (f : α → Step β) [hm : Formal m] [hf : ∀ a, Formal (f a)] :
    Formal (m >>= f) where
  unbroken s h := hm.unbroken s ((hf _).unbroken _ h)
  kept s _ _ h := (hf _).kept _ _ _ (hm.kept s _ _ h)
  formed s h hs := (hf _).formed _ h (hm.formed s ((hf _).unbroken _ h) hs)

instance map (g : α → β) (m : Step α) [hm : Formal m] : Formal (g <$> m) :=
  ⟨hm.unbroken, hm.kept, hm.formed⟩

instance discard (m : Step α) [hm : Formal m] : Formal (Functor.discard m) :=
  ⟨hm.unbroken, hm.kept, hm.formed⟩

instance ite (c : Prop) [Decidable c] (m m' : Step α) [hm : Formal m] [hm' : Formal m'] :
    Formal (if c then m else m') := by
  split <;> assumption

instance complain (problem : Problem) : Formal (complain problem) := of_out (fun _ h => h) fun _ => rfl

instance giveUp (f : Fault) : Formal (modify (State.giveUp f) : Step Unit) :=
  of_out (fun s h => absurd h (State.fault_giveUp_ne_none f s)) fun _ => rfl

instance look (n : Nat) : Formal (look n) := by
  refine of_out (fun s h => ?_) fun s => ?_
  all_goals rcases run_look_cases n s with ⟨hs, -, hlook⟩ | hlost
  · exact hs
  · rw [hlost] at h
    exact absurd h (State.fault_giveUp_ne_none _ _)
  · rw [hlook]
    rfl
  · rw [hlost]
    rfl

instance current : Formal current := look 0

instance isTooDeep : Formal isTooDeep := of_out (fun _ h => h) fun _ => rfl

instance isOutside : Formal isOutside := of_out (fun _ h => h) fun _ => rfl

instance textAhead (p : String → Bool) : Formal (textAhead p) := of_out (fun _ h => h) fun _ => rfl

instance consume : Formal (modify State.consume : Step Unit) where
  unbroken s h := (State.fault_consume s).symm.trans h
  kept s := by
    obtain ⟨before, next, after, hout, -⟩ := s.toList_out_consume
    exact keepsTokens_append hout
  formed s _ hs c hc := by
    obtain ⟨before, next, after, hout, -⟩ := s.toList_out_consume
    have hc : c ∈ s.consume.out.toList := hc
    rw [hout, List.mem_append] at hc
    rcases hc with hc | hc
    · exact hs c hc
    · obtain ⟨t, -, rfl⟩ := List.mem_map.1 hc
      exact .leaf t

/-! ### Nodes -/

/-- The node that was built behind what was there before. -/
theorem toList_out_node (kind : NodeKind) (m : Step α) (s : State) : ∃ moved : List Token,
    (node kind m s).2.out.toList = s.out.toList ++ (moved.map .leaf
      ++ [.node kind ⟨(s.opened kind).offset, (m ((s.opened kind).inside #[])).2.offset⟩
        (m ((s.opened kind).inside #[])).2.out.toList])
      ∧ ∀ t ∈ moved, t.kind.isTrivia = true := by
  obtain ⟨moved, hout, hmoved⟩ : ∃ moved : List Token,
      (s.opened kind).out.toList = s.out.toList ++ moved.map .leaf
        ∧ ∀ t ∈ moved, t.kind.isTrivia = true := by
    unfold State.opened
    split
    · exact ⟨[], by simp, by simp⟩
    · exact ⟨_, State.toList_out_shiftMany _ s, fun t => State.isTrivia_of_mem_take⟩
  refine ⟨moved, ?_, hmoved⟩
  rw [run_node, State.close, Array.toList_push, hout, List.append_assoc]

/-- Without a fault behind a node there was none in front of it. -/
theorem unbroken_node {kind : NodeKind} {m : Step α} [hm : Formal m] {s : State}
    (hs : (node kind m s).2.fault = none) : s.fault = none := by
  rw [run_node] at hs
  have hopened : (s.opened kind).fault = none :=
    hm.unbroken ((s.opened kind).inside #[]) hs
  unfold State.opened at hopened
  split at hopened
  · exact hopened
  · rwa [State.shiftTrivia_eq State.fault_shift] at hopened

/-- A node leaves the tokens in front of it where they are. -/
theorem kept_node (kind : NodeKind) (m : Step α) (s : State) : KeepsTokens s (node kind m s).2 := by
  obtain ⟨moved, hout, -⟩ := toList_out_node kind m s
  exact keepsTokens_append hout

/-- The trees behind a node, with what is to be shown of its children if it has a block
or is a name. -/
theorem formed_node {kind : NodeKind} {m : Step α} [hm : Formal m] {s : State}
    (hfault : (node kind m s).2.fault = none)
    (h : kind.isHeaded = true → Headed kind (m ((s.opened kind).inside #[])).2.out.toList)
    (hname : kind.isNaming = true → IsName (m ((s.opened kind).inside #[])).2.out.toList)
    (hs : ∀ c ∈ s.out.toList, Formed c) : ∀ c ∈ (node kind m s).2.out.toList, Formed c := by
  intro c hc
  obtain ⟨moved, hout, -⟩ := toList_out_node kind m s
  rw [hout, List.mem_append, List.mem_append, List.mem_singleton] at hc
  -- What was there before, the trivia in front of the node, and the node itself.
  rcases hc with hc | hc | rfl
  · exact hs c hc
  · obtain ⟨t, -, rfl⟩ := List.mem_map.1 hc
    exact .leaf t
  · rw [run_node] at hfault
    exact .node h hname (hm.formed _ hfault (by simp [State.inside]))

/-- A node, with what is to be shown of its children if it has a block or is a name. -/
theorem node_of_children {kind : NodeKind} (m : Step α) [Formal m]
    (h : kind.isHeaded = true → ∀ s : State, s.out = #[] → (m s).2.fault = none →
      Headed kind (m s).2.out.toList)
    (hname : kind.isNaming = true → ∀ s : State, s.out = #[] → (m s).2.fault = none →
      IsName (m s).2.out.toList) : Formal (node kind m) where
  unbroken _ := unbroken_node
  kept := kept_node kind m
  formed s hfault := by
    have hbody : (m ((s.opened kind).inside #[])).2.fault = none := by rwa [run_node] at hfault
    exact formed_node hfault (fun hkind => h hkind _ rfl hbody) fun hkind => hname hkind _ rfl hbody

/-- A node with a block, with what is to be shown of its children. -/
theorem node_of_headed {kind : NodeKind} (m : Step α) [Formal m] (hkind : kind.isNaming = false)
    (h : ∀ s : State, s.out = #[] → (m s).2.fault = none → Headed kind (m s).2.out.toList) :
    Formal (node kind m) :=
  node_of_children m (fun _ => h) fun hname => absurd (hkind.symm.trans hname) Bool.false_ne_true

instance node (kind : NodeKind) (m : Step α) [Formal m] [hkind : Fact (kind.isPlain = true)] :
    Formal (node kind m) := by
  obtain ⟨hheaded, hname⟩ := NodeKind.isPlain_iff.1 hkind.out
  exact node_of_children m (fun h => absurd (hheaded.symm.trans h) Bool.false_ne_true)
    fun h => absurd (hname.symm.trans h) Bool.false_ne_true

instance nodeAround (kind : NodeKind) (m : Step α) [hm : Formal m]
    [hkind : Fact (kind.isPlain = true)] : Formal (nodeAround kind m) := by
  have hheaded : kind.isHeaded = true → ∀ cs, Headed kind cs := fun h =>
    absurd ((NodeKind.isPlain_iff.1 hkind.out).1.symm.trans h) Bool.false_ne_true
  have hname : kind.isNaming = true → ∀ cs, IsName cs := fun h =>
    absurd ((NodeKind.isPlain_iff.1 hkind.out).2.symm.trans h) Bool.false_ne_true
  have hcase (s : State) : (∃ first span cs outer, s.out = outer.push (.node first span cs)
        ∧ Grammar.nodeAround kind m s = ((m (s.inside #[.node first span cs])).1,
          (m (s.inside #[.node first span cs])).2.close kind span.start outer))
      ∨ Grammar.nodeAround kind m s
        = Grammar.node kind m (s.giveUp (.mismatch (.built true) (.built false))) := by
    by_cases hlast : ∃ first span cs, s.out.back? = some (.node first span cs)
    · obtain ⟨first, span, cs, hlast⟩ := hlast
      obtain ⟨outer, hout⟩ := Array.back?_eq_some_iff.1 hlast
      refine .inl ⟨first, span, cs, outer, hout, ?_⟩
      rw [run_nodeAround hlast, hout, Array.pop_push]
    · exact .inr (run_nodeAround_none (fun first span cs hback => hlast ⟨_, _, _, hback⟩) kind m)
  refine ⟨fun s h => ?_, fun s => ?_, fun s h hs => ?_⟩
  all_goals rcases hcase s with ⟨first, span, cs, outer, hout, hrun⟩ | hrun
  · rw [hrun] at h
    exact hm.unbroken (s.inside #[.node first span cs]) h
  · rw [hrun] at h
    exact absurd ((node kind m).unbroken _ h) (State.fault_giveUp_ne_none _ _)
  · intro front t hfront
    rw [hout, Array.toList_push] at hfront
    rw [hrun]
    -- A token cannot be the node that is built around.
    have hprefix : front ++ [.leaf t] <+: outer.toList := by
      refine (List.prefix_concat_iff.1 hfront).resolve_left fun heq => ?_
      have := (List.append_inj' heq rfl).2
      cases this
    simp only [State.close, Array.toList_push]
    exact hprefix.trans (List.prefix_append _ _)
  · rw [hrun]
    exact fun front t hfront => (node kind m).kept (s.giveUp _) front t hfront
  · rw [hrun] at h ⊢
    intro c hc
    simp only [State.close, Array.toList_push, List.mem_append, List.mem_singleton] at hc
    have hall : ∀ c ∈ outer.toList ++ [.node first span cs], Formed c := by
      rwa [hout, Array.toList_push] at hs
    rcases hc with hc | rfl
    · exact hall c (List.mem_append_left _ hc)
    · refine .node (fun hkind => hheaded hkind _) (fun hkind => hname hkind _) (hm.formed _ h ?_)
      simpa [State.inside] using hall (.node first span cs) (by simp)
  · rw [hrun] at h ⊢
    exact (node kind m).formed _ h hs

/-! ### Counters and loops -/

instance get : Formal (get : Step State) := of_out (fun _ h => h) fun _ => rfl

instance setCount (c : Counter) (n : Nat) : Formal (modify (State.setCount c n) : Step Unit) :=
  of_out (fun s h => by rwa [run_modify, State.fault_setCount] at h) fun s => State.out_setCount c n s

instance raise (c : Counter) : Formal (modify (State.raise c) : Step Unit) :=
  of_out (fun s h => by rwa [run_modify, State.raise, State.fault_setCount] at h)
    fun s => State.out_setCount c _ s

instance lower (c : Counter) : Formal (modify (State.lower c) : Step Unit) :=
  of_out (fun _ h => State.fault_lower h) fun s => State.out_lower c s

instance within (c : Counter) (m : Step α) [Formal m] : Formal (within c m) :=
  inferInstanceAs (Formal (modify (State.raise c) >>= _))

instance restoring (c : Counter) (m : Step α) [Formal m] : Formal (restoring c m) :=
  inferInstanceAs (Formal ((MonadState.get : Step State) >>= _))

instance withoutParens (m : Step α) [Formal m] : Formal (withoutParens m) :=
  inferInstanceAs (Formal (Grammar.restoring _ _))

instance iterate (step : σ → Step (Option σ)) [h : ∀ x, Formal (step x)] (n : Nat) (x : σ) :
    Formal (iterate step n x) := by
  induction n generalizing x with
  | zero => exact giveUp .stuck
  | succ n ih =>
    have hturn : ∀ r : Option σ, Formal (match r with
        | none => Pure.pure ()
        | some y => Grammar.iterate step n y : Step Unit) := by
      intro r
      cases r <;> infer_instance
    exact bind (step x) _

instance climbTurn (check : Step (Option β)) (act : β → Step Bool) [Formal check]
    [hact : ∀ b, Formal (act b)] : Formal (climbTurn check act) := by
  have hturn : ∀ r : Option β, Formal (match r with
      | none => Pure.pure none
      | some b => do
        modify (State.raise .nesting)
        if ← act b then return some () else return none : Step (Option Unit)) := by
    intro r
    cases r <;> infer_instance
  exact bind check _

instance climb (check : Step (Option β)) (act : β → Step Bool) [Formal check]
    [∀ b, Formal (act b)] (n : Nat) : Formal (climb check act n) :=
  inferInstanceAs (Formal (Grammar.restoring _ _))

end Formal

/-! ## What a step adds -/

/-- Whatever the step adds to the node under construction has a property, unless it
gives up. -/
def Adds (p : Tree → Prop) (m : Step α) : Prop :=
  ∀ s : State, (m s).2.fault = none →
    ∃ new, (m s).2.out.toList = s.out.toList ++ new ∧ ∀ c ∈ new, p c

/-- The same in two parts, with a property for each. -/
def Parts (p q : Tree → Prop) (m : Step α) : Prop :=
  ∀ s : State, (m s).2.fault = none → ∃ front back,
    (m s).2.out.toList = s.out.toList ++ (front ++ back) ∧ (∀ c ∈ front, p c) ∧ ∀ c ∈ back, q c

/-- Built from nothing, the node begins with a token, and it has one of the kind. -/
def BeginsWith (kind : TokenKind) (m : Step α) : Prop :=
  ∀ s : State, s.out = #[] → (m s).2.fault = none →
    (∃ word rest, (m s).2.out.toList = .leaf word :: rest)
      ∧ ∃ word, .leaf word ∈ (m s).2.out.toList ∧ word.kind = kind

namespace Adds

variable {p q : Tree → Prop} {m : Step α} {f : α → Step β}

/-- A step that builds nothing adds only what is asked for. -/
theorem of_out (h : ∀ s, (m s).2.out = s.out) : Adds p m := fun s _ => ⟨[], by simp [h s], by simp⟩

/-- What two steps add is what the one and the other add. -/
theorem bind [hformal : ∀ a, Formal (f a)] (hm : Adds p m) (hf : ∀ a, Adds p (f a)) :
    Adds p (m >>= f) := by
  intro s hfault
  obtain ⟨new, hout, hnew⟩ := hm s ((hformal _).unbroken _ hfault)
  obtain ⟨new', hout', hnew'⟩ := hf _ _ hfault
  refine ⟨new ++ new', ?_, fun c hc => (List.mem_append.1 hc).elim (hnew c) (hnew' c)⟩
  rw [run_bind, hout', hout, List.append_assoc]

/-- A choice adds what both ways may add. -/
theorem ite {c : Prop} [Decidable c] {m m' : Step α} (h : Adds p m) (h' : Adds p m') :
    Adds p (if c then m else m') := by
  split <;> assumption

/-- An answer adds nothing. -/
theorem pure (a : α) : Adds p (Pure.pure a : Step α) := of_out fun _ => rfl

/-- The answer may be dropped. -/
theorem discard (hm : Adds p m) : Adds p (Functor.discard m) := hm

/-- A complaint adds nothing. -/
theorem complain (problem : Problem) : Adds p (complain problem) := of_out fun _ => rfl

/-- A look adds nothing. -/
theorem look (n : Nat) : Adds p (look n) := by
  refine of_out fun s => ?_
  rcases run_look_cases n s with ⟨-, -, hlook⟩ | hlost
  · rw [hlook]
    rfl
  · rw [hlost]
    rfl

/-- A look at the next token adds nothing. -/
theorem current : Adds p current := look 0

/-- A test of the next token adds nothing. -/
theorem isAt (kind : TokenKind) : Adds p (isAt kind) := bind current fun _ => pure _

/-- A test for the end of the text adds nothing. -/
theorem atEnd : Adds p atEnd := isAt .eof

/-- A counter that is raised adds nothing. -/
theorem within (c : Counter) (hm : Adds p m) : Adds p (within c m) := by
  intro s hfault
  rw [run_within] at hfault ⊢
  obtain ⟨new, hout, hnew⟩ := hm _ (State.fault_lower hfault)
  refine ⟨new, ?_, hnew⟩
  rw [State.out_lower, hout, State.raise, State.out_setCount]

/-- Of a node and the trivia in front of it, the node and the trivia are added. -/
theorem node {kind : NodeKind} (hleaf : ∀ t : Token, t.kind.isTrivia = true → p (.leaf t))
    (hnode : ∀ span cs, p (.node kind span cs)) : Adds p (node kind m) := by
  intro s _
  obtain ⟨moved, hout, hmoved⟩ := Formal.toList_out_node kind m s
  refine ⟨_, hout, fun c hc => ?_⟩
  rcases List.mem_append.1 hc with hc | hc
  · obtain ⟨t, ht, rfl⟩ := List.mem_map.1 hc
    exact hleaf t (hmoved t ht)
  · rw [List.mem_singleton.1 hc]
    exact hnode _ _

end Adds

/-- Where the reading goes on, a look at the next token tells its kind. -/
theorem current_sound {s : State} (h : (current s).2.fault = none) :
    (current s).1 = kindAhead 0 (current s).2.rest ∧ (current s).2.out = s.out := by
  rcases run_look_cases 0 s with ⟨-, -, hlook⟩ | hlost
  · rw [current, hlook]
    exact ⟨rfl, rfl⟩
  · rw [current, hlost] at h
    exact absurd h (State.fault_giveUp_ne_none _ _)

/-- A token that is eaten, and what goes along with it. -/
theorem toList_out_eat {kind : TokenKind} (hkind : kind ≠ .eof) {s : State}
    (hfault : (eat kind s).2.fault = none) :
    (eat kind s).1 = false ∧ (eat kind s).2.out = s.out
      ∨ (eat kind s).1 = true ∧ ∃ (before : List Token) (t : Token) (after : List Token),
        (eat kind s).2.out.toList = s.out.toList ++ (before ++ t :: after).map .leaf ∧ t.kind = kind
          ∧ (∀ t ∈ before, t.kind.isTrivia = true)
          ∧ ∀ t ∈ after, t.kind.isTrivia = true ∨ t.kind = .newline := by
  rw [run_eat] at hfault ⊢
  split
  · next hfound =>
    rw [if_pos hfound] at hfault
    obtain ⟨hahead, hout⟩ := current_sound ((State.fault_consume _).symm.trans hfault)
    obtain ⟨before, next, after, hconsume, hbefore, hafter, hnext, hsome⟩ :=
      (current s).2.toList_out_consume
    -- A word is next, so something is consumed, and it is of this kind.
    obtain ⟨t, rfl⟩ := hsome (by rwa [← hahead, hfound])
    refine .inr ⟨rfl, before, t, after, ?_, ?_, hbefore, hafter⟩
    · rw [hconsume, hout, List.append_assoc, List.singleton_append]
    · rw [hnext t (List.mem_singleton_self t), ← hahead, hfound]
  · next hfound =>
    rw [if_neg hfound] at hfault
    exact .inl ⟨rfl, (current_sound hfault).2⟩

/-- A token that is asked for is eaten, or it is complained about. -/
theorem toList_out_expect {kind : TokenKind} (hkind : kind ≠ .eof) {wanted : Wanted} {s : State}
    (hfault : (expect kind wanted s).2.fault = none) :
    (expect kind wanted s).1 = false ∧ (expect kind wanted s).2.out = s.out
      ∨ (expect kind wanted s).1 = true ∧ ∃ (before : List Token) (t : Token) (after : List Token),
        (expect kind wanted s).2.out.toList = s.out.toList ++ (before ++ t :: after).map .leaf
          ∧ t.kind = kind ∧ (∀ t ∈ before, t.kind.isTrivia = true)
          ∧ ∀ t ∈ after, t.kind.isTrivia = true ∨ t.kind = .newline := by
  rw [run_expect] at hfault ⊢
  by_cases hfound : (eat kind s).1 = true
  · rw [if_pos hfound] at hfault ⊢
    exact toList_out_eat hkind hfault
  · rw [if_neg hfound] at hfault ⊢
    exact (toList_out_eat (s := s) hkind hfault).imp_right fun h => absurd h.1 hfound

/-- A token that a rule counts on is there. -/
theorem bump_sound {kind : TokenKind} {s : State} (hfault : (bump kind s).2.fault = none) :
    (eat kind s).1 = true ∧ (bump kind s).2 = (eat kind s).2 := by
  rw [run_bump] at hfault ⊢
  rw [run_eat]
  by_cases hfound : (current s).1 = kind
  · rw [if_pos hfound, if_pos hfound]
    exact ⟨rfl, rfl⟩
  · rw [if_neg hfound] at hfault
    exact absurd hfault (State.fault_giveUp_ne_none _ _)

namespace Adds

variable {p : Tree → Prop}

/-- A token of a kind is added, if it is there, with what goes along with it. -/
theorem eat {kind : TokenKind} (hkind : kind ≠ .eof) (hleaf : ∀ t : Token,
    t.kind.isTrivia = true ∨ t.kind = .newline ∨ t.kind = kind → p (.leaf t)) :
    Adds p (eat kind) := by
  intro s hfault
  rcases toList_out_eat hkind hfault with ⟨-, hout⟩ | ⟨-, before, t, after, hout, ht, hbefore, hafter⟩
  · exact ⟨[], by simp [hout], by simp⟩
  · refine ⟨_, hout, fun c hc => ?_⟩
    obtain ⟨u, hu, rfl⟩ := List.mem_map.1 hc
    rcases List.mem_append.1 hu with hu | hu
    · exact hleaf u (.inl (hbefore u hu))
    · rcases List.mem_cons.1 hu with rfl | hu
      · exact hleaf u (.inr (.inr ht))
      · exact hleaf u ((hafter u hu).imp_right .inl)

/-- A token that is expected is added with the layout around it. -/
theorem expect {kind : TokenKind} (hkind : kind ≠ .eof) (wanted : Wanted) (hleaf : ∀ t : Token,
    t.kind.isTrivia = true ∨ t.kind = .newline ∨ t.kind = kind → p (.leaf t)) :
    Adds p (expect kind wanted) :=
  bind (eat hkind hleaf) fun _ => ite (pure _) (bind (complain _) fun _ => pure _)

/-- So is a token that is known to be next. -/
theorem bump {kind : TokenKind} (hkind : kind ≠ .eof) (hleaf : ∀ t : Token,
    t.kind.isTrivia = true ∨ t.kind = .newline ∨ t.kind = kind → p (.leaf t)) :
    Adds p (bump kind) := by
  intro s hfault
  obtain ⟨-, hbump⟩ := bump_sound hfault
  rw [hbump] at hfault ⊢
  exact eat hkind hleaf s hfault

end Adds

namespace Parts

variable {p q : Tree → Prop} {m : Step α} {f : α → Step β}

/-- All of it in the second part. -/
theorem of_adds (hm : Adds q m) : Parts p q m := by
  intro s hfault
  obtain ⟨new, hout, hnew⟩ := hm s hfault
  exact ⟨[], new, by simpa using hout, by simp, hnew⟩

/-- Something may stand in front of the parts. -/
theorem cons [hformal : ∀ a, Formal (f a)] (hm : Adds p m) (hf : ∀ a, Parts p q (f a)) :
    Parts p q (m >>= f) := by
  intro s hfault
  obtain ⟨new, hout, hnew⟩ := hm s ((hformal _).unbroken _ hfault)
  obtain ⟨front, back, hout', hfront, hback⟩ := hf _ _ hfault
  refine ⟨new ++ front, back, ?_, fun c hc => (List.mem_append.1 hc).elim (hnew c) (hfront c), hback⟩
  rw [run_bind, hout', hout]
  simp only [List.append_assoc]

/-- Something may stand behind the parts. -/
theorem concat [hformal : ∀ a, Formal (f a)] (hm : Parts p q m) (hf : ∀ a, Adds q (f a)) :
    Parts p q (m >>= f) := by
  intro s hfault
  obtain ⟨front, back, hout, hfront, hback⟩ := hm s ((hformal _).unbroken _ hfault)
  obtain ⟨new, hout', hnew⟩ := hf _ _ hfault
  refine ⟨front, back ++ new, ?_, hfront, fun c hc => (List.mem_append.1 hc).elim (hback c) (hnew c)⟩
  rw [run_bind, hout', hout]
  simp only [List.append_assoc]

/-- A choice between two steps with such parts. -/
theorem ite {c : Prop} [Decidable c] {m m' : Step α} (h : Parts p q m) (h' : Parts p q m') :
    Parts p q (if c then m else m') := by
  split <;> assumption

/-- Parentheses that are put aside have no part in what is added. -/
theorem withoutParens (hm : Parts p q m) : Parts p q (withoutParens m) := by
  intro s hfault
  rw [run_withoutParens] at hfault ⊢
  rw [State.fault_setCount] at hfault
  obtain ⟨front, back, hout, hparts⟩ := hm _ hfault
  exact ⟨front, back, by rw [State.out_setCount, hout, State.out_setCount], hparts⟩

end Parts

namespace BeginsWith

variable {kind : TokenKind} {m : Step α} {f : α → Step β}

/-- A token that is taken is the first one. -/
theorem bump (hkind : kind ≠ .eof) : BeginsWith kind (bump kind) := by
  intro s hs hfault
  obtain ⟨hthere, hbump⟩ := bump_sound hfault
  rw [hbump] at hfault ⊢
  rcases toList_out_eat hkind hfault with ⟨hmissing, -⟩ | ⟨-, before, t, after, hout, ht, -⟩
  -- The word was seen, so it is not missing.
  · rw [hthere] at hmissing
    cases hmissing
  · rw [hout, hs]
    refine ⟨?_, t, by simp, ht⟩
    cases before with
    | nil => exact ⟨t, _, rfl⟩
    | cons u before => exact ⟨u, _, rfl⟩

/-- Tokens stay where they are, so it is enough to begin with one. -/
theorem bind [hformal : ∀ a, Formal (f a)] (hm : BeginsWith kind m) :
    BeginsWith kind (m >>= f) := by
  intro s hs hfault
  obtain ⟨⟨first, rest, hfirst⟩, word, hword, hkind⟩ := hm s hs ((hformal _).unbroken _ hfault)
  -- What follows only adds children behind the word.
  have hkept := (hformal (m s).1).kept (m s).2
  obtain ⟨rest', hrest⟩ := hkept [] first ⟨rest, by rw [hfirst]; rfl⟩
  obtain ⟨front, back, hsplit⟩ := List.append_of_mem hword
  obtain ⟨back', hback⟩ := hkept front word ⟨back, by rw [hsplit]; simp⟩
  refine ⟨⟨first, rest', hrest.symm⟩, word, ?_, hkind⟩
  change Tree.leaf word ∈ (f (m s).1 (m s).2).2.out.toList
  rw [← hback]
  simp

/-- Parentheses that are put aside have no part in what comes first. -/
theorem withoutParens (hm : BeginsWith kind m) : BeginsWith kind (withoutParens m) := by
  intro s hs hfault
  rw [run_withoutParens] at hfault ⊢
  rw [State.fault_setCount] at hfault
  rw [State.out_setCount]
  exact hm _ ((State.out_setCount _ _ s).trans hs) hfault

/-- What a node with a block begins with. -/
theorem headed (nodeKind : NodeKind) (hm : BeginsWith kind m)
    (hopener : ∀ word ∈ nodeKind.opener?, word = kind) {s : State} (hs : s.out = #[])
    (hfault : (m s).2.fault = none) :
    (∃ word rest, (m s).2.out.toList = .leaf word :: rest)
      ∧ ∀ word ∈ nodeKind.opener?, ∃ t, .leaf t ∈ (m s).2.out.toList ∧ t.kind = word := by
  obtain ⟨hfirst, hword⟩ := hm s hs hfault
  exact ⟨hfirst, fun word h => hopener word h ▸ hword⟩

end BeginsWith

end Grammar

end ScriptSense
