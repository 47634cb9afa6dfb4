/-
Reading a text in another case.

The grammar asks for kinds and places of tokens, and of a text only whether it names a
function. So where functions are known regardless of case, folding the tokens in front
of a step and then taking it is the same as taking it and folding what it leaves
(`Uncased`). Each of the makings of the grammar has this property, hence every rule
has. Two texts that differ in the case of letters only are read into trees that fold to
the same, with the same complaints.
-/
import ScriptSense.Proofs.Casing.Tokens
import ScriptSense.Proofs.Grammar.Made
import ScriptSense.Proofs.Grammar.Shape

set_option autoImplicit false

namespace ScriptSense

/-! ## Folded trees -/

namespace Tree

mutual

/-- The tree with the capitals of its tokens written small. -/
def folded : Tree → Tree
  | .leaf t => .leaf t.folded
  | .node k s cs => .node k s (foldedAll cs)

/-- The trees of a list with the capitals of their tokens written small. -/
def foldedAll : List Tree → List Tree
  | [] => []
  | t :: ts => t.folded :: foldedAll ts

end

/-- A folded leaf has its text in small letters. -/
@[simp] theorem folded_leaf (t : Token) : (leaf t).folded = .leaf t.folded := by simp [folded]

/-- Trees are folded one by one. -/
@[simp] theorem foldedAll_eq_map (ts : List Tree) : foldedAll ts = ts.map folded := by
  induction ts with
  | nil => simp [foldedAll]
  | cons t ts ih => simp [foldedAll, ih]

/-- A folded node has folded children, at the same place. -/
@[simp] theorem folded_node (k : NodeKind) (s : Span) (cs : List Tree) :
    (node k s cs).folded = .node k s (cs.map folded) := by simp [folded]

end Tree

namespace Grammar

variable {α β σ : Type}

/-! ## Folded tokens ahead -/

/-- A look does not see the case of letters. -/
theorem kindAhead_map_folded (n : Nat) (ts : List Token) :
    kindAhead n (ts.map Token.folded) = kindAhead n ts := by
  induction ts generalizing n with
  | nil => rfl
  | cons t ts ih => cases n <;> simp only [List.map_cons, kindAhead, Token.kind_folded, ih]

/-- Line breaks have no case. -/
theorem breaksAhead_map_folded (ts : List Token) :
    breaksAhead (ts.map Token.folded) = breaksAhead ts := by
  induction ts with
  | nil => rfl
  | cons t ts ih => simp only [List.map_cons, breaksAhead, Token.kind_folded, ih]

/-- Folding keeps the trivia at the front. -/
theorem isTrivia_comp_folded : (fun t : Token => t.kind.isTrivia) ∘ Token.folded
    = fun t => t.kind.isTrivia := rfl

namespace State

/-- The state with the capitals of its tokens written small, those ahead and those built
upon. -/
def folded (s : State) : State :=
  { s with rest := s.rest.map Token.folded, out := s.out.map Tree.folded }

variable (s : State)

/-- A token is folded before it is taken or after. -/
theorem folded_shift : s.folded.shift = s.shift.folded := by
  obtain ⟨rest, _⟩ := s
  cases rest with
  | nil => rfl
  | cons t ts => simp [shift, folded]

/-- So are any number of tokens. -/
theorem folded_shiftMany (n : Nat) : s.folded.shiftMany n = (s.shiftMany n).folded := by
  induction n generalizing s with
  | zero => rfl
  | succ n ih => rw [shiftMany, folded_shift, ih, shiftMany]

/-- So is the trivia ahead. -/
theorem folded_shiftTrivia : s.folded.shiftTrivia = s.shiftTrivia.folded := by
  have hcount : (s.folded.rest.takeWhile (·.kind.isTrivia)).length
      = (s.rest.takeWhile (·.kind.isTrivia)).length := by
    change ((s.rest.map Token.folded).takeWhile _).length = _
    rw [List.takeWhile_map, List.length_map, isTrivia_comp_folded]
  rw [shiftTrivia, hcount, folded_shiftMany, shiftTrivia]

/-- So are the line breaks ahead. -/
theorem folded_shiftBreaks : s.folded.shiftBreaks = s.shiftBreaks.folded := by
  have hcount : breaksAhead s.folded.rest = breaksAhead s.rest := breaksAhead_map_folded s.rest
  have hparens : s.folded.parens = s.parens := rfl
  unfold shiftBreaks
  rw [hcount, hparens]
  split
  · exact folded_shiftMany s _
  · rfl

/-- So is a token that is consumed. -/
theorem folded_consume : s.folded.consume = s.consume.folded := by
  unfold consume
  rw [folded_shiftTrivia, folded_shift, folded_shiftBreaks]
  rfl

/-- A complaint belongs in the same place. -/
theorem place_folded : s.folded.place = s.place := by
  have hdrop : s.folded.rest.dropWhile (·.kind.isTrivia)
      = (s.rest.dropWhile (·.kind.isTrivia)).map Token.folded := by
    change (s.rest.map Token.folded).dropWhile _ = _
    rw [List.dropWhile_map, isTrivia_comp_folded]
  unfold place
  rw [hdrop]
  cases s.rest.dropWhile (·.kind.isTrivia) with
  | nil => rfl
  | cons t ts => simp only [List.map_cons, Token.kind_folded, Token.span_folded]; rfl

/-- Counters have no case. -/
theorem folded_setCount (c : Counter) (n : Nat) :
    s.folded.setCount c n = (s.setCount c n).folded := by
  cases c <;> rfl

/-- A folded state counts what the state counts. -/
theorem count_folded (c : Counter) : s.folded.count c = s.count c := by
  cases c <;> rfl

/-- A counter is raised before folding or after. -/
theorem folded_raise (c : Counter) : s.folded.raise c = (s.raise c).folded := by
  rw [raise, count_folded, folded_setCount, raise]

/-- A counter is lowered before folding or after. -/
theorem folded_lower (c : Counter) : s.folded.lower c = (s.lower c).folded := by
  unfold lower
  rw [count_folded]
  split
  · rfl
  · exact folded_setCount s c _

/-- A node is opened before folding or after. -/
theorem folded_opened (kind : NodeKind) : s.folded.opened kind = (s.opened kind).folded := by
  unfold opened
  split
  · rfl
  · exact folded_shiftTrivia s

/-- A node is closed before folding or after. -/
theorem folded_close (kind : NodeKind) (start : Nat) (outer : Array Tree) :
    s.folded.close kind start (outer.map Tree.folded) = (s.close kind start outer).folded := by
  simp [close, folded]

/-- The root over the tokens folded is the root folded. -/
theorem folded_root (kind : NodeKind) : s.folded.root kind = (s.root kind).folded := by
  have hlength : s.folded.rest.length = s.rest.length := List.length_map _
  unfold root
  rw [hlength, folded_shiftMany]
  simp [folded]

end State

/-! ## Steps -/

/-- **The step does not see the case of letters**: from the tokens folded it answers the
same, and leaves behind what it leaves otherwise, folded. -/
def Uncased (m : Step α) : Prop := ∀ s : State, m s.folded = ((m s).1, (m s).2.folded)

namespace Uncased

variable {m : Step α} {g : α → Step β}

/-- An answer has no case. -/
theorem pure (a : α) : Uncased (Pure.pure a) := fun _ => rfl

/-- Two steps without regard to case, after each other. -/
theorem bind (hm : Uncased m) (hg : ∀ a, Uncased (g a)) : Uncased (m >>= g) := by
  intro s
  rw [run_bind, run_bind, hm s, hg]

/-- The answer may be changed. -/
theorem map (g : α → β) (hm : Uncased m) : Uncased (g <$> m) := by
  intro s
  rw [run_map, run_map, hm s]

/-- A change of the state that may be made before folding or after. -/
theorem moving {h : State → State} (hh : ∀ s, h s.folded = (h s).folded) :
    Uncased (modify h : Step Unit) :=
  fun s => congrArg (Prod.mk ()) (hh s)

/-- A look tells the same of a folded text. -/
theorem look (n : Nat) : Uncased (look n) := by
  intro s
  have hkind : kindAhead n s.folded.rest = kindAhead n s.rest := kindAhead_map_folded n s.rest
  have hstill : (s.folded.fault.isSome || decide (lookLimit < s.folded.looks))
      = (s.fault.isSome || decide (lookLimit < s.looks)) := rfl
  unfold Grammar.look
  rw [hkind, hstill]
  split <;> rfl

/-- A question about names that does not depend on their case. -/
theorem textAhead {p : String → Bool} (hp : ∀ name, p (foldCase name) = p name) :
    Uncased (textAhead p) := by
  intro s
  have hnext : (s.folded.rest.find? (!·.kind.isTrivia)).any (fun t => p t.text)
      = (s.rest.find? (!·.kind.isTrivia)).any fun t => p t.text := by
    change ((s.rest.map Token.folded).find? _).any _ = _
    rw [List.find?_map]
    change (((s.rest.find? (!·.kind.isTrivia)).map Token.folded).any fun t => p t.text) = _
    cases s.rest.find? (!·.kind.isTrivia) with
    | none => rfl
    | some t => exact hp t.text
  exact congrArg (Prod.mk · s.folded) hnext

/-- A complaint stands at the same place. -/
theorem complain (p : Problem) : Uncased (complain p) := by
  refine moving fun s => ?_
  rw [State.place_folded]
  rfl

/-- A counter is put back to the same value. -/
theorem restoring (c : Counter) (hm : Uncased m) : Uncased (restoring c m) := by
  intro s
  rw [run_restoring, run_restoring, hm s, State.count_folded, State.folded_setCount]

/-- Inside a node that begins with some children. -/
theorem inside (hm : Uncased m) (s : State) (children : Array Tree) :
    m (s.folded.inside (children.map Tree.folded))
      = ((m (s.inside children)).1, (m (s.inside children)).2.folded) :=
  hm (s.inside children)

/-- A node of the same kind is built. -/
theorem node (k : NodeKind) (hm : Uncased m) : Uncased (node k m) := by
  intro s
  have hinside := hm.inside (s.opened k) #[]
  rw [Array.map_empty] at hinside
  rw [run_node, run_node, State.folded_opened, hinside]
  exact congrArg (Prod.mk _) (State.folded_close _ k _ (s.opened k).out)

/-- A node is built around the same last one. -/
theorem nodeAround (k : NodeKind) (hm : Uncased m) : Uncased (nodeAround k m) := by
  intro s
  have hback : s.folded.out.back? = s.out.back?.map Tree.folded := by
    simp [State.folded]
  by_cases hlast : ∃ first span children, s.out.back? = some (.node first span children)
  · obtain ⟨first, span, children, hlast⟩ := hlast
    have hlast' : s.folded.out.back? = some (.node first span (children.map Tree.folded)) := by
      rw [hback, hlast, Option.map_some, Tree.folded_node]
    have hinside := hm.inside s #[.node first span children]
    rw [List.map_toArray, List.map_cons, List.map_nil, Tree.folded_node] at hinside
    have hpop : s.folded.out.pop = s.out.pop.map Tree.folded := by simp [State.folded]
    rw [run_nodeAround hlast, run_nodeAround hlast', hinside, hpop]
    exact congrArg (Prod.mk _) (State.folded_close _ k span.start s.out.pop)
  · have hnone : ∀ first span children, s.out.back? ≠ some (.node first span children) :=
      fun first span children hback => hlast ⟨_, _, _, hback⟩
    -- Folding turns no leaf into a node, so the folded state has none to go around either.
    have hnone' : ∀ first span children, s.folded.out.back? ≠ some (.node first span children) := by
      intro first span children hfound
      rw [hback, Option.map_eq_some_iff] at hfound
      obtain ⟨t, ht, hfolded⟩ := hfound
      cases t with
      | leaf => rw [Tree.folded_leaf] at hfolded; cases hfolded
      | node => exact hnone _ _ _ ht
    rw [run_nodeAround_none hnone, run_nodeAround_none hnone']
    exact hm.node k (s.giveUp _)

/-- A loop takes the same turns. -/
theorem iterate {step : σ → Step (Option σ)} (hstep : ∀ x, Uncased (step x)) (n : Nat) (x : σ) :
    Uncased (iterate step n x) := by
  induction n generalizing x with
  | zero => exact moving fun _ => rfl
  | succ n ih =>
    refine bind (hstep x) fun next => ?_
    cases next with
    | none => exact pure ()
    | some y => exact ih y

end Uncased

/-- **What is made of the makings of the grammar does not see the case of letters**, if
functions are known regardless of case. -/
theorem Made.uncased {f : String → Bool} (hf : ∀ name, f (foldCase name) = f name) {m : Step α}
    (h : Made f m) : Uncased m := by
  -- One case for each of the makings of the grammar.
  induction h with
  | pure a => exact .pure a
  | bind _ _ ihm ihg => exact .bind ihm ihg
  | map g _ ih => exact .map g ih
  | look n => exact .look n
  | textAhead => exact .textAhead hf
  | isTooDeep => exact fun _ => rfl
  | isOutside => exact fun _ => rfl
  | consume => exact .moving State.folded_consume
  | complain p => exact .complain p
  | giveUp fault => exact .moving fun _ => rfl
  | raise c => exact .moving (State.folded_raise · c)
  | lower c => exact .moving (State.folded_lower · c)
  | setCount c n => exact .moving (State.folded_setCount · c n)
  | restoring c _ ih => exact .restoring c ih
  | node k _ ih => exact .node k ih
  | nodeAround k _ ih => exact .nodeAround k ih
  | iterate _ n x ih => exact .iterate ih n x

/-! ## Whole texts -/

/-- A text and its tokens folded are read in the same way. -/
theorem run_map_folded {f : String → Bool} (hf : ∀ name, f (foldCase name) = f name)
    (ts : List Token) : run f script (ts.map Token.folded) = (run f script ts).folded := by
  have hstart : State.initial (ts.map Token.folded) = (State.initial ts).folded := by
    unfold State.initial State.folded
    rw [List.filter_map, Array.map_empty]
    rfl
  have hmade := Made.script (rules f (levelsFor (State.initial ts).rest.length))
  rw [isFunction_rules] at hmade
  have hlength : (State.initial ts).folded.rest.length = (State.initial ts).rest.length :=
    List.length_map _
  unfold run
  dsimp only
  rw [hstart, hlength]
  exact congrArg Prod.snd (hmade.uncased hf (State.initial ts))

/-- **A text in another case is read into the same tree, up to case, with the same
complaints**, if functions are known regardless of case. -/
theorem parseWith_uncased {f : String → Bool} (hf : ∀ name, f (foldCase name) = f name)
    {text text' : String} (h : foldCase text = foldCase text') :
    (parseWith f text).root.folded = (parseWith f text').root.folded
      ∧ (parseWith f text).complaints = (parseWith f text').complaints := by
  have hrun : (run f script (tokens text)).folded = (run f script (tokens text')).folded := by
    rw [← run_map_folded hf, ← run_map_folded hf, map_folded_tokens h]
  refine ⟨?_, ?_⟩
  · change ((run f script (tokens text)).root .script).folded
      = ((run f script (tokens text')).root .script).folded
    rw [← State.folded_root, hrun, State.folded_root]
  · have hcomplaints : (run f script (tokens text)).folded.complaints
        = (run f script (tokens text')).folded.complaints := congrArg State.complaints hrun
    exact congrArg Array.toList hcomplaints

end Grammar

end ScriptSense
