/-
What a node holds where nothing is missing.

A whole node begins with one of a few rows of elements (`NodeKind.rows`). For most kinds
that is all there is; in a list, elements of some sorts follow (`NodeKind.sorts`), any
number of them. A node of what was set aside is never whole. A tree is whole if all its
nodes are.

That a reading without an error builds whole trees only is shown of steps. Judged is what
a step adds to the node under construction if it ends without an error, and the rule for
two steps is that what they add stands one behind the other. A step that complains ends
with an error, so nothing has to be shown of it: it adds one of no rows. All this is with
the layout left out; layout may be anywhere.
-/
import Mathlib.Data.List.Forall2
import ScriptSense.Proofs.Grammar.Headed
import ScriptSense.Proofs.Grammar.Shape

set_option autoImplicit false

namespace ScriptSense

/-! ## Rows of elements -/

/-- The element is no layout: a node, or a token that is neither trivia nor a line
break. -/
def Tree.isSolid : Tree → Bool
  | .leaf t => t.kind.isSignificant
  | .node .. => true

/-- The elements without layout. -/
abbrev solid (ts : List Tree) : List Tree := ts.filter Tree.isSolid

/-- What is wanted at one place. -/
inductive Slot where
  /-- A token of a kind with the property. -/
  | token (p : TokenKind → Bool)
  /-- A node of a kind with the property. -/
  | node (p : NodeKind → Bool)

namespace Slot

/-- The element is what is wanted. -/
def Fits : Slot → Tree → Prop
  | .token p, t => ∃ m, t = .leaf m ∧ p m.kind = true
  | .node p, t => t.isNode p = true

/-- A token of one kind. -/
abbrev word (kind : TokenKind) : Slot := .token (· == kind)

/-- A node of one kind. -/
abbrev one (kind : NodeKind) : Slot := .node (· == kind)

/-- An expression. -/
abbrev expression : Slot := .node NodeKind.isExpression

end Slot

/-- The elements are what is wanted, one for each slot. -/
abbrev Row (slots : List Slot) (ts : List Tree) : Prop := List.Forall₂ Slot.Fits slots ts

/-- The elements are one of the rows. -/
def OneOf (rows : List (List Slot)) (ts : List Tree) : Prop := ∃ slots ∈ rows, Row slots ts

/-- Each of the elements is one of the sorts. -/
def AllOf (sorts : List Slot) (ts : List Tree) : Prop := ∀ t ∈ ts, ∃ slot ∈ sorts, slot.Fits t

namespace OneOf

variable {rows rows' : List (List Slot)} {sorts : List Slot} {ts us : List Tree}

/-- A sequence that fits one of the rows fits one of more rows. -/
theorem mono (h : OneOf rows ts) (hrows : rows ⊆ rows') : OneOf rows' ts := by
  obtain ⟨slots, hslots, hrow⟩ := h
  exact ⟨slots, hrows hslots, hrow⟩

/-- Nothing fits the empty row. -/
theorem nil : OneOf [[]] [] := ⟨[], List.mem_singleton_self _, .nil⟩

/-- Each row of the first ones with each row of the second ones behind it. -/
abbrev joined (rows rows' : List (List Slot)) : List (List Slot) :=
  rows.flatMap fun slots => rows'.map (slots ++ ·)

/-- Two sequences behind each other fit two rows behind each other. -/
theorem append (h : OneOf rows ts) (h' : OneOf rows' us) :
    OneOf (joined rows rows') (ts ++ us) := by
  obtain ⟨slots, hslots, hrow⟩ := h
  obtain ⟨slots', hslots', hrow'⟩ := h'
  exact ⟨slots ++ slots', List.mem_flatMap.2 ⟨slots, hslots, List.mem_map_of_mem hslots'⟩,
    List.rel_append hrow hrow'⟩

/-- The elements of a row are of the sorts of its slots. -/
theorem allOf (h : OneOf rows ts) (hsorts : ∀ slots ∈ rows, slots ⊆ sorts) : AllOf sorts ts := by
  obtain ⟨slots, hslots, hrow⟩ := h
  have hslot := hsorts slots hslots
  clear hslots
  induction hrow with
  | nil => exact fun _ ht => absurd ht List.not_mem_nil
  | cons hfits _ ih =>
    intro t ht
    rcases List.mem_cons.1 ht with rfl | ht
    · exact ⟨_, hslot List.mem_cons_self, hfits⟩
    · exact ih (fun _ h => hslot (List.mem_cons_of_mem _ h)) t ht

end OneOf

namespace AllOf

variable {sorts : List Slot} {ts us : List Tree}

/-- Nothing at all is of any sorts. -/
theorem nil (sorts : List Slot) : AllOf sorts [] := fun _ ht => absurd ht List.not_mem_nil

/-- Nothing is of no sort. -/
theorem eq_nil (h : AllOf [] ts) : ts = [] :=
  List.eq_nil_iff_forall_not_mem.2 fun t ht => by simpa using h t ht

/-- Sequences of the same sorts stay of these sorts behind each other. -/
theorem append (h : AllOf sorts ts) (h' : AllOf sorts us) : AllOf sorts (ts ++ us) :=
  fun t ht => (List.mem_append.1 ht).elim (h t) (h' t)

end AllOf

/-! ## Whole nodes -/

namespace NodeKind

/-- **The rows with which a whole node of a kind begins.** -/
def rows : NodeKind → List (List Slot)
  | .scriptNameDecl => [[.word .kwScriptName, .one .name]]
  | .varDecl => [[.token TokenKind.isTypeName, .one .name]]
  | .varDeclStmt => [[.one .varDecl, .word .colonEq, .expression], [.one .varDecl]]
  | .setStmt => [[.word .kwSet, .expression, .word .kwTo, .expression]]
  | .letStmt => [[.word .kwLet, .expression]]
  | .ifStmt =>
    [[.word .kwIf, .expression, .one .stmtList, .node isBranch, .word .kwEndIf],
      [.word .kwIf, .expression, .one .stmtList, .word .kwEndIf]]
  | .elseIfBranch =>
    [[.word .kwElseIf, .expression, .one .stmtList, .node isBranch],
      [.word .kwElseIf, .expression, .one .stmtList]]
  | .elseBranch => [[.word .kwElse, .one .stmtList]]
  | .whileStmt => [[.word .kwWhile, .expression, .one .stmtList, .word .kwLoop]]
  | .foreachStmt =>
    [[.word .kwForeach, .node isVariable, .word .lArrow, .expression, .one .stmtList,
      .word .kwLoop]]
  | .beginStmt =>
    [[.word .kwBegin, .one .name, .one .paramList, .one .stmtList, .word .kwEnd],
      [.word .kwBegin, .one .name, .one .argList, .one .stmtList, .word .kwEnd],
      [.word .kwBegin, .one .name, .one .stmtList, .word .kwEnd]]
  | .returnStmt => [[.word .kwReturn, .expression], [.word .kwReturn]]
  | .breakStmt => [[.word .kwBreak]]
  | .continueStmt => [[.word .kwContinue]]
  | .exprStmt => [[.expression]]
  | .name | .nameRef => [[.word .ident]]
  | .literal => [[.token TokenKind.isLiteral]]
  | .binExpr => [[.expression, .token (·.binaryPower?.isSome), .expression]]
  | .unaryExpr => [[.token (·.unaryPower?.isSome), .expression]]
  | .parenExpr => [[.word .lParen, .expression, .word .rParen]]
  | .memberExpr =>
    [[.expression, .token (fun k => k == .dot || k == .arrow),
        .node (fun k => k == .nameRef || k == .funcExpr)],
      [.expression, .word .lBracket, .expression, .word .rBracket]]
  | .funcExpr => [[.one .nameRef, .one .argList]]
  | .lambdaExpr =>
    [[.word .lParen, .word .kwBegin, .one .name, .one .paramList, .one .stmtList, .word .kwEnd,
        .word .rParen],
      [.word .lParen, .word .kwBegin, .one .name, .one .stmtList, .word .kwEnd, .word .rParen]]
  | .script => [[.one .scriptNameDecl]]
  | .exprRoot => [[.expression]]
  | .stmtList | .paramList | .argList => [[]]
  | .error => []

/-- The sorts of elements that may follow, any number of them. -/
def sorts : NodeKind → List Slot
  | .script | .stmtList => [.node isStatement]
  | .paramList => [.word .lBrace, .node isVariable, .word .comma, .word .rBrace]
  | .argList => [.word .lParen, .expression, .word .comma, .word .rParen]
  | _ => []

/-- **Nothing is missing in the node**, by its children without layout. -/
def IsWhole (kind : NodeKind) (ts : List Tree) : Prop :=
  ∃ row rest, ts = row ++ rest ∧ OneOf kind.rows row ∧ AllOf kind.sorts rest

variable {kind : NodeKind} {ts : List Tree}

/-- A node is whole when its elements fit one of its rows. -/
theorem isWhole_of_row {rows : List (List Slot)} (h : OneOf rows ts) (hrows : rows ⊆ kind.rows) :
    kind.IsWhole ts :=
  ⟨ts, [], (List.append_nil ts).symm, h.mono hrows, .nil _⟩

/-- A node without fixed rows is whole when each element is of one of its sorts. -/
theorem isWhole_of_all (h : AllOf kind.sorts ts) (hrows : [] ∈ kind.rows) : kind.IsWhole ts :=
  ⟨[], ts, rfl, ⟨[], hrows, .nil⟩, h⟩

/-- A whole node in which nothing may follow is a row. -/
theorem IsWhole.row (h : kind.IsWhole ts) (hsorts : kind.sorts = []) : OneOf kind.rows ts := by
  obtain ⟨row, rest, rfl, hrow, hrest⟩ := h
  rw [hsorts] at hrest
  rwa [hrest.eq_nil, List.append_nil]

/-- A whole list is all of its sorts. -/
theorem IsWhole.all (h : kind.IsWhole ts) (hrows : kind.rows = [[]]) : AllOf kind.sorts ts := by
  obtain ⟨row, rest, rfl, ⟨slots, hslots, hrow⟩, hrest⟩ := h
  rw [hrows, List.mem_singleton] at hslots
  subst hslots
  cases hrow
  exact hrest

end NodeKind

/-- **Nothing is missing in the tree.** -/
inductive Tree.Whole : Tree → Prop
  | leaf (t : Token) : Whole (.leaf t)
  | node {kind : NodeKind} {span : Span} {children : List Tree} (h : kind.IsWhole (solid children))
      (hcs : ∀ c ∈ children, Whole c) : Whole (.node kind span children)

namespace Tree.Whole

variable {t c : Tree} {kind : NodeKind} {span : Span} {cs : List Tree}

/-- The children of a whole tree are whole. -/
theorem of_mem_children (h : Whole t) (hc : c ∈ t.children) : Whole c := by
  cases h with
  | leaf => simp [children] at hc
  | node _ hcs => exact hcs c hc

end Tree.Whole

namespace Grammar

variable {α β σ : Type}

/-! ## Readings without an error -/

/-- Nothing was given up, and no complaint is an error. -/
def State.Clean (s : State) : Prop :=
  s.fault = none ∧ ∀ c ∈ s.complaints.toList, c.severity ≠ .error

namespace State

/-- Whether a reading is clean is a matter of its fault and its complaints. -/
theorem clean_congr {s t : State} (hfault : t.fault = s.fault)
    (hcomplaints : t.complaints = s.complaints) :
    t.Clean ↔ s.Clean := by
  rw [Clean, Clean, hfault, hcomplaints]

/-- Tokens taken over say nothing about the text. -/
theorem clean_shiftMany (n : Nat) (s : State) : (s.shiftMany n).Clean ↔ s.Clean :=
  clean_congr (shiftMany_eq fault_shift n s) (shiftMany_eq complaints_shift n s)

/-- Opening a node makes no complaint. -/
theorem clean_opened (kind : NodeKind) (s : State) : (s.opened kind).Clean ↔ s.Clean := by
  unfold opened
  split
  · rfl
  · exact clean_shiftMany _ s

/-- Taking a token makes no complaint. -/
theorem clean_consume (s : State) : s.consume.Clean ↔ s.Clean :=
  clean_congr (fault_consume s) (consume_eq complaints_shift (fun _ _ => rfl) s)

/-- Counters have no part in whether a reading is clean. -/
theorem clean_setCount (c : Counter) (n : Nat) (s : State) : (s.setCount c n).Clean ↔ s.Clean := by
  cases c <;> rfl

/-- Raising a counter keeps a reading clean. -/
theorem clean_raise (c : Counter) (s : State) : (s.raise c).Clean ↔ s.Clean := clean_setCount c _ s

/-- A counter that may be lowered has not spoilt the reading. -/
theorem clean_of_lower {c : Counter} {s : State} (h : (s.lower c).Clean) : s.Clean := by
  refine ⟨fault_lower h.1, ?_⟩
  have hcomplaints : (s.lower c).complaints = s.complaints := by
    unfold lower
    split
    · rfl
    · cases c <;> rfl
  rw [← hcomplaints]
  exact h.2

/-- A reading that gives up is not clean. -/
theorem not_clean_giveUp (f : Fault) (s : State) : ¬ (s.giveUp f).Clean :=
  fun h => fault_giveUp_ne_none f s h.1

end State

/-- A step that ends without an error began without one. -/
def Honest (m : Step α) : Prop := ∀ s, (m s).2.Clean → s.Clean

/-- Errors stay. -/
theorem frame_clean : Frame fun s t => t.Clean → s.Clean where
  refl _ h := h
  trans hst htu h := hst (htu h)
  look _ h := h
  shiftTrivia s h := (State.clean_shiftMany _ s).1 h
  consume s h := (State.clean_consume s).1 h
  complain _ _ h := ⟨h.1, fun c hc => h.2 c (by simp [Array.toList_push, hc])⟩
  giveUp f s h := absurd h (State.not_clean_giveUp f s)
  within c _ _ hst h := (State.clean_raise c _).1 (hst (State.clean_of_lower h))
  carry c _ _ _ hst htu h := hst ((State.clean_setCount ..).2 (htu ((State.clean_setCount ..).1 h)))
  enclose _ _ _ _ _ _ _ hst h := hst h

/-- No step of the grammar makes good an error. -/
theorem Alike.honest {i : Sync} {o : α → Sync} {m m' : Step α} (h : Alike i o m m') : Honest m :=
  h.frame frame_clean

namespace Honest

/-- An answer cleans up nothing. -/
theorem pure (a : α) : Honest (Pure.pure a : Step α) := fun _ h => h

/-- Two honest steps after each other are honest. -/
theorem bind {m : Step α} {f : α → Step β} (hm : Honest m) (hf : ∀ a, Honest (f a)) :
    Honest (m >>= f) :=
  fun s h => hm s (hf _ _ h)

/-- A node around an honest step is honest. -/
theorem node {kind : NodeKind} {m : Step α} (hm : Honest m) : Honest (node kind m) := by
  intro s h
  rw [run_node] at h
  exact (State.clean_opened kind s).1 (hm ((s.opened kind).inside #[]) h)

/-- A loop over honest steps is honest, and so is running out of fuel. -/
theorem iterate {step : σ → Step (Option σ)} (h : ∀ x, Honest (step x)) (n : Nat) (x : σ) :
    Honest (iterate step n x) := by
  induction n generalizing x with
  | zero => exact fun s hs => absurd hs (State.not_clean_giveUp _ s)
  | succ n ih =>
    intro s hs
    rw [run_iterate_succ] at hs
    cases hanswer : (step x s).1 with
    | none =>
      rw [hanswer] at hs
      exact h x s hs
    | some y =>
      rw [hanswer] at hs
      exact h x s (ih y _ hs)

end Honest

/-- A step that always ends with an error. -/
structure Fails (m : Step α) : Prop where
  honest : Honest m
  fails (s : State) : ¬ (m s).2.Clean

namespace Fails

/-- A complaint that is an error is never clean. -/
theorem complain {problem : Problem} (h : problem.severity = .error) :
    Fails (complain problem) where
  honest := (Alike.complain (i := .next) problem).honest
  fails s hs := hs.2 ⟨problem, s.place⟩ (by simp [Grammar.complain]) h

/-- What gives up is never clean. -/
theorem giveUp (f : Fault) : Fails (modify (State.giveUp f) : Step Unit) where
  honest s h := absurd h (State.not_clean_giveUp f s)
  fails := State.not_clean_giveUp f

/-- An error is not made good by what follows. -/
theorem bind {m : Step α} {f : α → Step β} (hm : Fails m) (hf : ∀ a, Honest (f a)) :
    Fails (m >>= f) where
  honest := hm.honest.bind hf
  fails s hs := hm.fails s (hf _ _ hs)

/-- Nor does it matter what came before. -/
theorem after {m : Step α} {f : α → Step β} (hm : Honest m) (hf : ∀ a, Fails (f a)) :
    Fails (m >>= f) where
  honest := hm.bind fun a => (hf a).honest
  fails _ := (hf _).fails _

/-- A choice fails where both ways fail. -/
theorem ite {c : Prop} [Decidable c] {m m' : Step α} (h : Fails m) (h' : Fails m') :
    Fails (if c then m else m') := by
  split
  · exact h
  · exact h'

/-- A node around a failing step fails. -/
theorem node {kind : NodeKind} {m : Step α} (hm : Fails m) : Fails (node kind m) where
  honest := hm.honest.node
  fails s hs := by
    rw [run_node] at hs
    exact hm.fails _ hs

end Fails

/-! ## Looks -/

/-- A step that only looks, with what its answer says about the next token. -/
structure Sees (m : Step α) (Q : α → TokenKind → Prop) : Prop where
  honest : Honest m
  sees (s : State) : (m s).2.Clean → (m s).2.out = s.out
    ∧ kindAhead 0 (m s).2.rest = kindAhead 0 s.rest ∧ Q (m s).1 (kindAhead 0 s.rest)

namespace Sees

variable {m : Step α} {f : α → Step β} {Q Q' : α → TokenKind → Prop} {S : β → TokenKind → Prop}

/-- Less may be said of an answer. -/
theorem mono (h : Sees m Q) (hQ : ∀ a k, Q a k → Q' a k) : Sees m Q' where
  honest := h.honest
  sees s hs := (h.sees s hs).imp_right fun h => h.imp_right (hQ _ _)

/-- An answer looks at nothing. -/
theorem pure (a : α) : Sees (Pure.pure a : Step α) fun b _ => b = a where
  honest := .pure a
  sees _ _ := ⟨rfl, rfl, rfl⟩

/-- A look that leads to another look. -/
theorem bind (hm : Sees m Q) (hf : ∀ a, Sees (f a) fun b k => Q a k → S b k) :
    Sees (m >>= f) S where
  honest := hm.honest.bind fun a => (hf a).honest
  sees s hs := by
    obtain ⟨hout, hahead, hQ⟩ := hm.sees s ((hf _).honest _ hs)
    obtain ⟨hout', hahead', hS⟩ := (hf (m s).1).sees _ hs
    exact ⟨hout'.trans hout, hahead'.trans hahead, hahead ▸ hS (by rwa [hahead])⟩

/-- The answer of a look may be changed. -/
theorem map (g : α → β) (hm : Sees m Q) : Sees (g <$> m) fun b k => ∃ a, b = g a ∧ Q a k where
  honest s hs := hm.honest s hs
  sees s hs := by
    obtain ⟨hout, hahead, hQ⟩ := hm.sees s hs
    exact ⟨hout, hahead, _, rfl, hQ⟩

/-- A look that depends on a choice. -/
theorem ite {c : Prop} [Decidable c] {m m' : Step α} (h : c → Sees m Q) (h' : ¬ c → Sees m' Q) :
    Sees (if c then m else m') Q := by
  split
  · next hc => exact h hc
  · next hc => exact h' hc

/-- Of what is only looked at, nothing need be told. -/
theorem ignoring (h : Sees m Q) : Sees m fun _ _ => True := h.mono fun _ _ _ => trivial

/-- Two looks of which nothing is asked. -/
theorem bindIgnoring (hm : Sees m Q) (hf : ∀ a, Sees (f a) fun _ _ => True) :
    Sees (m >>= f) fun _ _ => True :=
  hm.bind fun a => (hf a).mono fun _ _ h _ => h

/-- A step of which nothing has to be shown. -/
theorem never (h : Fails m) : Sees m Q where
  honest := h.honest
  sees s hs := absurd hs (h.fails s)

/-- A look at the next token tells its kind. -/
theorem look (n : Nat) : Sees (look n) fun a k => n = 0 → a = k where
  honest s hs := by
    rcases run_look_cases n s with ⟨-, -, hlook⟩ | hlost
    · rw [hlook] at hs
      exact hs
    · rw [hlost] at hs
      exact absurd hs (State.not_clean_giveUp _ s)
  sees s hs := by
    rcases run_look_cases n s with ⟨-, -, hlook⟩ | hlost
    · rw [hlook]
      exact ⟨rfl, rfl, fun hn => by rw [hn]⟩
    · rw [hlost] at hs
      exact absurd hs (State.not_clean_giveUp _ s)

/-- A look at the next token tells its kind. -/
theorem current : Sees current fun a k => a = k := (look 0).mono fun _ _ h => h rfl

/-- A test of the next token tells whether it is of the kind. -/
theorem isAt (kind : TokenKind) : Sees (isAt kind) fun a k => a = (k == kind) :=
  current.bind fun _ => (pure _).mono fun _ _ h hk => hk ▸ h

/-- The end of the text is looked for. -/
theorem atEnd : Sees atEnd fun _ _ => True := (isAt .eof).mono fun _ _ _ => trivial

/-- The end of the line is a line break or the end of the text. -/
theorem atLineEnd : Sees atLineEnd fun ends k => ends = (k == .newline || k == .eof) :=
  current.bind fun _ => (pure _).mono fun _ _ h hk => hk ▸ h

/-- Asking for the depth looks at nothing. -/
theorem isTooDeep : Sees isTooDeep fun _ _ => True := ⟨fun _ h => h, fun _ _ => ⟨rfl, rfl, trivial⟩⟩

/-- Asking for open parentheses looks at nothing. -/
theorem isOutside : Sees isOutside fun _ _ => True := ⟨fun _ h => h, fun _ _ => ⟨rfl, rfl, trivial⟩⟩

/-- A look at the spelling of a word. -/
theorem textAhead (p : String → Bool) : Sees (textAhead p) fun _ _ => True :=
  ⟨fun _ h => h, fun _ _ => ⟨rfl, rfl, trivial⟩⟩

end Sees

/-! ## What a step adds -/

/-- Any kind. -/
abbrev Anything : TokenKind → Prop := fun _ => True

/-- **What a step adds to the node under construction**, if it ends without an error and
the next token is of a kind with the property: whole trees and layout, without the layout
such as is said for its answer. -/
structure Yields (φ : TokenKind → Prop) (m : Step α) (P : α → List Tree → Prop) : Prop where
  honest : Honest m
  yields (s : State) : (m s).2.Clean → φ (kindAhead 0 s.rest) →
    ∃ new, (m s).2.out.toList = s.out.toList ++ new ∧ (∀ c ∈ new, c.Whole) ∧ P (m s).1 (solid new)

namespace Yields

variable {φ ψ : TokenKind → Prop} {m : Step α} {f : α → Step β} {P P' : α → List Tree → Prop}
  {Q : β → List Tree → Prop}

/-- More may be asked of the token ahead, and less of what is added. -/
theorem mono (h : Yields φ m P) (hφ : ∀ k, ψ k → φ k) (hP : ∀ a ts, P a ts → P' a ts) :
    Yields ψ m P' where
  honest := h.honest
  yields s hs hk := by
    obtain ⟨new, hout, hwhole, hnew⟩ := h.yields s hs (hφ _ hk)
    exact ⟨new, hout, hwhole, hP _ _ hnew⟩

/-- What was shown anywhere holds where something is seen. -/
theorem anywhere (h : Yields Anything m P) : Yields φ m P :=
    h.mono (fun _ _ => trivial) fun _ _ h => h

/-- A step of which nothing has to be shown. -/
theorem never (h : Fails m) : Yields φ m P where
  honest := h.honest
  yields s hs := (h.fails s hs).elim

/-- A step that is not taken. -/
theorem absurd (honest : Honest m) (h : ∀ k, ¬ φ k) : Yields φ m P where
  honest := honest
  yields _ _ hk := (h _ hk).elim

/-- An answer adds nothing. -/
theorem pure {a : α} (h : P a []) : Yields φ (Pure.pure a : Step α) P where
  honest := .pure a
  yields _ _ _ := ⟨[], (List.append_nil _).symm, List.forall_mem_nil _, h⟩

/-- What the second step adds stands behind what the first one adds. -/
theorem bind (hm : Yields φ m P) (hf : ∀ a, Yields Anything (f a) fun b ts =>
    ∀ front, P a front → Q b (front ++ ts)) : Yields φ (m >>= f) Q where
  honest := hm.honest.bind fun a => (hf a).honest
  yields s hs hk := by
    obtain ⟨new, hout, hwhole, hnew⟩ := hm.yields s ((hf _).honest _ hs) hk
    obtain ⟨new', hout', hwhole', hnew'⟩ := (hf (m s).1).yields _ hs trivial
    refine ⟨new ++ new', ?_, fun c hc => (List.mem_append.1 hc).elim (hwhole c) (hwhole' c), ?_⟩
    · rw [run_bind, hout', hout, List.append_assoc]
    · rw [solid, List.filter_append]
      exact hnew' _ hnew

/-- What a look tells is known of the next token. -/
theorem seeing {R : α → TokenKind → Prop} (hm : Sees m R)
    (hf : ∀ a, Yields (fun k => φ k ∧ R a k) (f a) Q) : Yields φ (m >>= f) Q where
  honest := hm.honest.bind fun a => (hf a).honest
  yields s hs hk := by
    obtain ⟨hout, hahead, hsees⟩ := hm.sees s ((hf _).honest _ hs)
    obtain ⟨new, hnew, hwhole, hQ⟩ := (hf (m s).1).yields _ hs (by rw [hahead]; exact ⟨hk, hsees⟩)
    exact ⟨new, by rw [run_bind, hnew, hout], hwhole, hQ⟩

/-- What both ways of a choice add. -/
theorem ite {c : Prop} [Decidable c] {m m' : Step α} (h : c → Yields φ m P)
    (h' : ¬ c → Yields φ m' P) :
    Yields φ (if c then m else m') P := by
  split
  · next hc => exact h hc
  · next hc => exact h' hc

/-- The answer may be dropped. -/
theorem discard {P : Unit → List Tree → Prop} (h : Yields φ m fun _ => P ()) :
    Yields φ (Functor.discard m) P :=
  ⟨h.honest, h.yields⟩

/-- A complaint that is no error adds nothing. -/
theorem complain {problem : Problem} {P : Unit → List Tree → Prop} (h : P () []) :
    Yields φ (complain problem) P where
  honest := (Alike.complain (i := .next) problem).honest
  yields _ _ _ := ⟨[], (List.append_nil _).symm, List.forall_mem_nil _, h⟩

end Yields

/-- The next token is consumed with the layout around it. -/
theorem State.solid_consume {s : State} (h : kindAhead 0 s.rest ≠ .eof) : ∃ new t,
    s.consume.out.toList = s.out.toList ++ new ∧ (∀ c ∈ new, c.Whole) ∧ t.kind = kindAhead 0 s.rest
      ∧ solid new = solid [.leaf t] := by
  obtain ⟨before, next, after, hout, hbefore, hafter, hnext, hsome⟩ := s.toList_out_consume
  obtain ⟨t, rfl⟩ := hsome h
  -- Trivia in front of the token and line breaks behind it do not count as elements.
  have hlayout : ∀ ts : List Token, (∀ t ∈ ts, t.kind.isTrivia = true ∨ t.kind = .newline) →
      solid (ts.map .leaf) = [] := by
    intro ts hts
    refine List.filter_eq_nil_iff.2 fun c hc => ?_
    obtain ⟨u, hu, rfl⟩ := List.mem_map.1 hc
    rcases hts u hu with h | h <;> simp [Tree.isSolid, TokenKind.isSignificant, h]
  refine ⟨_, t, hout, fun c hc => ?_, hnext t (List.mem_singleton_self t), ?_⟩
  · obtain ⟨u, -, rfl⟩ := List.mem_map.1 hc
    exact .leaf u
  · have hfront := hlayout before fun u hu => .inl (hbefore u hu)
    have hback := hlayout after hafter
    simp only [solid, List.map_append, List.filter_append] at hfront hback ⊢
    rw [hfront, hback, List.nil_append, List.append_nil]
    rfl

namespace Yields

variable {φ ψ : TokenKind → Prop} {m : Step α} {f : α → Step β} {rows : List (List Slot)}
  {sorts : List Slot}

/-- The next token is added. -/
theorem consume {p : TokenKind → Bool} (hp : ∀ k, p k = true → k.isSignificant = true ∧ k ≠ .eof) :
    Yields (p · = true) (modify State.consume : Step Unit) fun _ => OneOf [[.token p]] where
  honest s h := (State.clean_consume s).1 h
  yields s _ hk := by
    obtain ⟨new, t, hout, hwhole, hkind, hsolid⟩ := State.solid_consume (hp _ hk).2
    have hself : Tree.isSolid (.leaf t) = true := by
      rw [Tree.isSolid, hkind]
      exact (hp _ hk).1
    refine ⟨new, hout, hwhole, [.token p], List.mem_singleton_self _, ?_⟩
    rw [hsolid, solid, List.filter_cons_of_pos hself]
    exact .cons ⟨t, rfl, by rwa [hkind]⟩ .nil

/-- A line break is not among the elements of a node. -/
theorem consumeBreak :
    Yields (· = .newline) (modify State.consume : Step Unit) fun _ => OneOf [[]] where
  honest s h := (State.clean_consume s).1 h
  yields s _ hk := by
    obtain ⟨new, t, hout, hwhole, hkind, hsolid⟩ :=
      State.solid_consume (s := s) (by rw [hk]; decide)
    refine ⟨new, hout, hwhole, ?_⟩
    have hself : Tree.isSolid (.leaf t) = false := by
      rw [Tree.isSolid, hkind, hk]
      rfl
    rw [hsolid, solid, List.filter_cons_of_neg (by simp [hself])]
    exact .nil

/-- A token that is taken as it comes. -/
theorem bumpAny {p : TokenKind → Bool} (hp : ∀ k, p k = true → k.isSignificant = true ∧ k ≠ .eof) :
    Yields (p · = true) bumpAny fun _ => OneOf [[.token p]] := by
  refine .seeing .current fun k => .ite (fun hend => .absurd (.pure _) ?_) fun _ =>
    (consume hp).mono (fun _ h => h.1) fun _ _ h => h
  rintro k' ⟨hk, rfl⟩
  exact (hp _ hk).2 (eq_of_beq hend)

/-- A token that is eaten if it is there. -/
theorem eat {kind : TokenKind} (hkind : kind.isSignificant = true ∧ kind ≠ .eof) :
    Yields φ (eat kind) fun there => OneOf (if there then [[.word kind]] else [[]]) := by
  refine .seeing (.isAt kind) fun there => ?_
  dsimp only
  refine .ite (fun hthere => ?_) fun hthere => .pure ?_
  · subst hthere
    have hconsume := (consume (p := (· == kind)) fun k hk => by rwa [eq_of_beq hk]).mono
      (ψ := fun k => φ k ∧ true = (k == kind)) (fun k h => h.2.symm) fun _ _ h => h
    exact hconsume.bind fun _ => .pure fun front hfront => by rwa [List.append_nil]
  · rw [if_neg hthere]
    exact .nil

/-- A line break that is eaten if it is there. -/
theorem eatBreak : Yields φ (Grammar.eat .newline) fun _ => OneOf [[]] := by
  refine .seeing (.isAt _) fun there => ?_
  dsimp only
  refine .ite (fun hthere => ?_) fun _ => .pure .nil
  subst hthere
  have hconsume := consumeBreak.mono (ψ := fun k => φ k ∧ true = (k == .newline))
    (fun k h => eq_of_beq h.2.symm) fun _ _ h => h
  exact hconsume.bind fun _ => .pure fun front hfront => by rwa [List.append_nil]

/-- A token that is asked for. -/
theorem expect {kind : TokenKind} (hkind : kind.isSignificant = true ∧ kind ≠ .eof)
    (wanted : Wanted) :
    Yields φ (expect kind wanted) fun there => OneOf (if there then [[.word kind]] else []) := by
  refine (eat hkind).bind fun there => ?_
  dsimp only
  refine .ite (fun hthere => .pure fun front hfront => ?_) fun hthere =>
    .never ((Fails.complain rfl).bind fun _ => .pure _)
  subst hthere
  rwa [List.append_nil]

/-- A token that may be there in a list. -/
theorem eatListed {kind : TokenKind} (hkind : kind.isSignificant = true ∧ kind ≠ .eof)
    (hsort : .word kind ∈ sorts) : Yields φ (Grammar.eat kind) fun _ => AllOf sorts := by
  refine (eat hkind).mono (fun _ h => h) fun there ts h => h.allOf ?_
  cases there <;> simp [hsort]

/-- A token that has to be there. -/
theorem required {kind : TokenKind} (hkind : kind.isSignificant = true ∧ kind ≠ .eof)
    (wanted : Wanted) :
    Yields φ (Functor.discard (Grammar.expect kind wanted)) fun _ => OneOf [[.word kind]] := by
  refine discard ((expect hkind wanted).mono (fun _ h => h) fun there ts h => h.mono ?_)
  cases there <;> simp

/-- A token that a rule counts on. -/
theorem bump (kind : TokenKind) (hkind : kind.isSignificant = true ∧ kind ≠ .eof) :
    Yields φ (bump kind) fun _ => OneOf [[.word kind]] := by
  refine .seeing .current fun k => .ite (fun hfound => ?_) fun _ => .never (.giveUp _)
  exact (consume (p := (· == kind)) fun k hk => by rwa [eq_of_beq hk]).mono
    (fun k' h => by rw [← h.2]; exact hfound) fun _ _ h => h

/-! ### One behind the other -/

/-- Rows stand one behind the other. -/
theorem andThen {r : β → List (List Slot)} (hm : Yields φ m fun _ => OneOf rows)
    (hf : ∀ a, Yields Anything (f a) fun b => OneOf (r b)) :
    Yields φ (m >>= f) fun b => OneOf (OneOf.joined rows (r b)) :=
  hm.bind fun a => (hf a).mono (fun _ h => h) fun _ _ hts _ hfront => hfront.append hts

/-- The step taken next depends on the answer. -/
theorem branch {m : Step Bool} {m₁ m₂ : Step β} {F : Bool → List (List Slot)}
    (rows₁ rows₂ : β → List (List Slot)) (hm : Yields φ m fun there => OneOf (F there))
    (h₁ : Yields Anything m₁ fun b => OneOf (rows₁ b))
    (h₂ : Yields Anything m₂ fun b => OneOf (rows₂ b)) :
    Yields φ (m >>= fun there => if there = true then m₁ else m₂) fun b =>
      OneOf (OneOf.joined (F true) (rows₁ b) ++ OneOf.joined (F false) (rows₂ b)) := by
  refine hm.bind fun there => .ite (fun hthere => ?_) fun hthere => ?_
  · subst hthere
    exact h₁.mono (fun _ h => h) fun _ _ hts _ hfront =>
      (hfront.append hts).mono (List.subset_append_left _ _)
  · obtain rfl := Bool.not_eq_true _ ▸ hthere
    exact h₂.mono (fun _ h => h) fun _ _ hts _ hfront =>
      (hfront.append hts).mono (List.subset_append_right _ _)

/-- Elements of some sorts stand one behind the other. -/
theorem andAll (hm : Yields φ m fun _ => AllOf sorts)
    (hf : ∀ a, Yields Anything (f a) fun _ => AllOf sorts) :
    Yields φ (m >>= f) fun _ => AllOf sorts :=
  hm.bind fun a => (hf a).mono (fun _ h => h) fun _ _ hts _ hfront => hfront.append hts

/-- More rows may be allowed, and what was shown anywhere holds where something is seen. -/
theorem among {rows' : List (List Slot)} (h : Yields Anything m fun _ => OneOf rows)
    (hrows : rows ⊆ rows') : Yields φ m fun _ => OneOf rows' :=
  h.mono (fun _ _ => trivial) fun _ _ h => h.mono hrows

/-- Elements that fit a row are of the sorts in the row. -/
theorem all (h : Yields φ m fun _ => OneOf rows) (hsorts : ∀ slots ∈ rows, slots ⊆ sorts) :
    Yields φ m fun _ => AllOf sorts :=
  h.mono (fun _ h => h) fun _ _ h => h.allOf hsorts

/-! ### Loops and counters -/

/-- A loop adds as many elements of the sorts as it has turns. -/
theorem iterate {step : σ → Step (Option σ)}
    (h : ∀ x, Yields Anything (step x) fun _ => AllOf sorts) (n : Nat) (x : σ) :
    Yields Anything (iterate step n x) fun _ => AllOf sorts := by
  induction n generalizing x with
  | zero => exact .never (.giveUp _)
  | succ n ih =>
    -- A clean end of the loop makes the end of its first turn clean as well.
    refine ⟨.iterate (fun x => (h x).honest) _ x, fun s hs _ => ?_⟩
    rw [run_iterate_succ] at hs ⊢
    cases hanswer : (step x s).1 with
    | none =>
      rw [hanswer] at hs
      exact (h x).yields s hs trivial
    | some y =>
      rw [hanswer] at hs
      obtain ⟨new, hout, hwhole, hnew⟩ := (h x).yields s ((ih y).honest _ hs) trivial
      obtain ⟨new', hout', hwhole', hnew'⟩ := (ih y).yields _ hs trivial
      refine ⟨new ++ new', ?_, fun c hc => (List.mem_append.1 hc).elim (hwhole c) (hwhole' c), ?_⟩
      · rw [hout', hout, List.append_assoc]
      · rw [solid, List.filter_append]
        exact hnew.append hnew'

/-- A loop without a state adds elements of the sorts. -/
theorem loop {step : Step Bool} (h : Yields Anything step fun _ => AllOf sorts) (R : Rules) :
    Yields Anything (R.loop step) fun _ => AllOf sorts :=
  iterate (fun _ => h.andAll fun _ => .ite (fun _ => .pure (.nil _)) fun _ => .pure (.nil _)) _ _

/-- A counter that is raised around a step adds no element. -/
theorem within {P : α → List Tree → Prop} (c : Counter) (h : Yields φ m P) :
    Yields φ (within c m) P where
  honest s hs := by
    rw [run_within] at hs
    exact (State.clean_raise c s).1 (h.honest _ (State.clean_of_lower hs))
  yields s hs hk := by
    rw [run_within] at hs ⊢
    obtain ⟨new, hout, hnew⟩ := h.yields (s.raise c) (State.clean_of_lower hs)
      (by rwa [State.raise, State.rest_setCount])
    exact ⟨new, by rw [State.out_lower, hout, State.raise, State.out_setCount], hnew⟩

/-- Parentheses that are put aside add no element. -/
theorem withoutParens {P : α → List Tree → Prop} (h : Yields φ m P) :
    Yields φ (withoutParens m) P where
  honest s hs := by
    rw [run_withoutParens, State.clean_setCount] at hs
    exact (State.clean_setCount _ _ s).1 (h.honest _ hs)
  yields s hs hk := by
    rw [run_withoutParens, State.clean_setCount] at hs
    obtain ⟨new, hout, hnew⟩ := h.yields (s.setCount .parens 0) hs (by rwa [State.rest_setCount])
    refine ⟨new, ?_, ?_⟩
    · rw [run_withoutParens, State.out_setCount, hout, State.out_setCount]
    · rwa [run_withoutParens]

end Yields

/-! ## Nodes -/

/-- A step that adds one node with a kind of the property, behind layout. -/
structure Ends (φ : TokenKind → Prop) (m : Step α) (p : NodeKind → Bool) : Prop where
  honest : Honest m
  ends (s : State) : (m s).2.Clean → φ (kindAhead 0 s.rest) →
    ∃ front last, (m s).2.out.toList = s.out.toList ++ (front ++ [last])
      ∧ (∀ c ∈ front, c.Whole) ∧ solid front = [] ∧ last.isNode p = true ∧ last.Whole

/-- A step that puts another node in the place of the last one, as a rule by taking it
over. -/
structure Wraps (φ : TokenKind → Prop) (p : NodeKind → Bool) (m : Step α) (q : NodeKind → Bool) :
    Prop where
  honest : Honest m
  wraps (s : State) {before : List Tree} {first : Tree} : s.out.toList = before ++ [first] →
    first.isNode p = true → first.Whole → (m s).2.Clean → φ (kindAhead 0 s.rest) →
    ∃ last, (m s).2.out.toList = before ++ [last] ∧ last.isNode q = true ∧ last.Whole

namespace Ends

variable {φ ψ : TokenKind → Prop} {m : Step α} {f : α → Step β} {p q : NodeKind → Bool}

/-- A node whose elements make it whole is the one element that a step adds. -/
theorem node {kind : NodeKind} {P : α → List Tree → Prop} (hm : Yields φ m P)
    (hP : ∀ a ts, P a ts → kind.IsWhole ts) (hkind : p kind = true) : Ends φ (node kind m) p where
  honest := hm.honest.node
  ends s hs hk := by
    obtain ⟨moved, hout, hmoved⟩ := Formal.toList_out_node kind m s
    rw [run_node] at hs
    obtain ⟨new, hnew, hwhole, hsolid⟩ := hm.yields ((s.opened kind).inside #[]) hs
      ((State.kindAhead_opened kind s).symm ▸ hk)
    -- The node starts from nothing, so what the step yields is all that is inside of it.
    have hinside : (m ((s.opened kind).inside #[])).2.out.toList = new :=
      hnew.trans (List.nil_append new)
    -- In front of the node there is only the trivia that was moved out of it.
    rw [hinside] at hout
    refine ⟨moved.map .leaf, _, hout, fun c hc => ?_, ?_, hkind, .node (hP _ _ hsolid) hwhole⟩
    · obtain ⟨t, -, rfl⟩ := List.mem_map.1 hc
      exact .leaf t
    · refine List.filter_eq_nil_iff.2 fun c hc => ?_
      obtain ⟨t, ht, rfl⟩ := List.mem_map.1 hc
      simp [Tree.isSolid, TokenKind.isSignificant, hmoved t ht]

/-- A node whose content is one of its rows. -/
theorem nodeOfRow {kind : NodeKind} {rows : List (List Slot)} (hm : Yields φ m fun _ => OneOf rows)
    (hrows : rows ⊆ kind.rows) (hkind : p kind = true) : Ends φ (Grammar.node kind m) p :=
  node hm (fun _ _ h => NodeKind.isWhole_of_row h hrows) hkind

/-- A node whose content is of its sorts. -/
theorem nodeOfAll {kind : NodeKind} (hm : Yields φ m fun _ => AllOf kind.sorts)
    (hrows : [] ∈ kind.rows) (hkind : p kind = true) : Ends φ (Grammar.node kind m) p :=
  node hm (fun _ _ h => NodeKind.isWhole_of_all h hrows) hkind

/-- The answer may be dropped. -/
theorem discard (h : Ends φ m p) : Ends φ (Functor.discard m) p := ⟨h.honest, h.ends⟩

/-- More may be asked of the token ahead, and less of the kind of the node. -/
theorem mono (h : Ends φ m p) (hφ : ∀ k, ψ k → φ k) (hp : ∀ k, p k = true → q k = true) :
    Ends ψ m q where
  honest := h.honest
  ends s hs hk := by
    obtain ⟨front, last, hout, hwhole, hsolid, hnode, hlast⟩ := h.ends s hs (hφ _ hk)
    refine ⟨front, last, hout, hwhole, hsolid, ?_, hlast⟩
    cases last with
    | leaf => cases hnode
    | node kind span cs => exact hp kind hnode

/-- What was shown anywhere holds where something is seen. -/
theorem anywhere (h : Ends Anything m p) : Ends φ m p := h.mono (fun _ _ => trivial) fun _ h => h

/-- Of a failing step nothing has to be shown. -/
theorem never (h : Fails m) : Ends φ m p where
  honest := h.honest
  ends s hs := absurd hs (h.fails s)

/-- A look in front of the node. -/
theorem seeing {R : α → TokenKind → Prop} (hm : Sees m R)
    (hf : ∀ a, Ends (fun k => φ k ∧ R a k) (f a) p) :
    Ends φ (m >>= f) p where
  honest := hm.honest.bind fun a => (hf a).honest
  ends s hs hk := by
    obtain ⟨hout, hahead, hsees⟩ := hm.sees s ((hf _).honest _ hs)
    obtain ⟨front, last, hnew, hrest⟩ := (hf (m s).1).ends _ hs (by rw [hahead]; exact ⟨hk, hsees⟩)
    exact ⟨front, last, by rw [run_bind, hnew, hout], hrest⟩

/-- What both ways of a choice end in. -/
theorem ite {c : Prop} [Decidable c] {m m' : Step α} (h : c → Ends φ m p) (h' : ¬ c → Ends φ m' p) :
    Ends φ (if c then m else m') p := by
  split
  · next hc => exact h hc
  · next hc => exact h' hc

/-- The node is taken over by what is done next. -/
theorem wrap (hm : Ends φ m p) (hf : ∀ a, Wraps Anything p (f a) q) : Ends φ (m >>= f) q where
  honest := hm.honest.bind fun a => (hf a).honest
  ends s hs hk := by
    obtain ⟨front, first, hout, hwhole, hsolid, hnode, hfirst⟩ := hm.ends s ((hf _).honest _ hs) hk
    rw [← List.append_assoc] at hout
    obtain ⟨last, hout', hlast⟩ := (hf (m s).1).wraps _ hout hnode hfirst hs trivial
    exact ⟨front, last, by rw [run_bind, hout', List.append_assoc], hwhole, hsolid, hlast⟩

/-- A counter that is raised around a node. -/
theorem within (c : Counter) (h : Ends φ m p) : Ends φ (within c m) p where
  honest s hs := by
    rw [run_within] at hs
    exact (State.clean_raise c s).1 (h.honest _ (State.clean_of_lower hs))
  ends s hs hk := by
    rw [run_within] at hs ⊢
    obtain ⟨front, last, hout, hrest⟩ := h.ends (s.raise c) (State.clean_of_lower hs)
      (by rwa [State.raise, State.rest_setCount])
    exact ⟨front, last, by rw [State.out_lower, hout, State.raise, State.out_setCount], hrest⟩

/-- A node is a row. -/
theorem yields (h : Ends φ m p) : Yields φ m fun _ => OneOf [[.node p]] where
  honest := h.honest
  yields s hs hk := by
    obtain ⟨front, last, hout, hwhole, hsolid, hnode, hlast⟩ := h.ends s hs hk
    refine ⟨front ++ [last], hout, fun c hc => ?_, [.node p], List.mem_singleton_self _, ?_⟩
    · rcases List.mem_append.1 hc with hc | hc
      · exact hwhole c hc
      · rwa [List.mem_singleton.1 hc]
    · have hself : last.isSolid = true := by
        cases last with
        | leaf => cases hnode
        | node => rfl
      rw [solid, List.filter_append, List.filter_cons_of_pos hself]
      rw [solid] at hsolid
      rw [hsolid]
      exact .cons hnode .nil

end Ends

namespace Wraps

variable {φ ψ : TokenKind → Prop} {m : Step α} {f : α → Step β} {p q r : NodeKind → Bool}

/-- Where nothing is done the last node stays the last. -/
theorem pure (a : α) (hp : ∀ k, p k = true → q k = true) : Wraps φ p (Pure.pure a) q where
  honest := .pure a
  wraps s before first hout hnode hfirst _ _ := by
    refine ⟨first, hout, ?_, hfirst⟩
    cases first with
    | leaf => cases hnode
    | node kind span cs => exact hp kind hnode

/-- More may be asked of the token ahead, and less of the node. -/
theorem mono (h : Wraps φ p m q) (hφ : ∀ k, ψ k → φ k) (hq : ∀ k, q k = true → r k = true) :
    Wraps ψ p m r where
  honest := h.honest
  wraps s before first hout hnode hfirst hs hk := by
    obtain ⟨last, hout', hlast, hwhole⟩ := h.wraps s hout hnode hfirst hs (hφ _ hk)
    refine ⟨last, hout', ?_, hwhole⟩
    cases last with
    | leaf => cases hlast
    | node kind span cs => exact hq kind hlast

/-- What was shown anywhere holds where something is seen. -/
theorem anywhere (h : Wraps Anything p m q) : Wraps φ p m q :=
  h.mono (fun _ _ => trivial) fun _ h => h

/-- Of a failing step nothing has to be shown. -/
theorem never (h : Fails m) : Wraps φ p m q where
  honest := h.honest
  wraps s _ _ _ _ _ hs := absurd hs (h.fails s)

/-- A look in front of a step that wraps. -/
theorem seeing {R : α → TokenKind → Prop} (hm : Sees m R)
    (hf : ∀ a, Wraps (fun k => φ k ∧ R a k) p (f a) q) : Wraps φ p (m >>= f) q where
  honest := hm.honest.bind fun a => (hf a).honest
  wraps s before first hout hnode hfirst hs hk := by
    obtain ⟨hsame, hahead, hsees⟩ := hm.sees s ((hf _).honest _ hs)
    exact (hf (m s).1).wraps _ (by rw [hsame, hout]) hnode hfirst hs
      (by rw [hahead]; exact ⟨hk, hsees⟩)

/-- Two wraps after each other, the second around what the first has left. -/
theorem bind (hm : Wraps φ p m q) (hf : ∀ a, Wraps Anything q (f a) r) : Wraps φ p (m >>= f) r where
  honest := hm.honest.bind fun a => (hf a).honest
  wraps s before first hout hnode hfirst hs hk := by
    obtain ⟨last, hout', hlast, hwhole⟩ := hm.wraps s hout hnode hfirst ((hf _).honest _ hs) hk
    exact (hf (m s).1).wraps _ hout' hlast hwhole hs trivial

/-- What both ways of a choice wrap. -/
theorem ite {c : Prop} [Decidable c] {m m' : Step α} (h : c → Wraps φ p m q)
    (h' : ¬ c → Wraps φ p m' q) :
    Wraps φ p (if c then m else m') q := by
  split
  · next hc => exact h hc
  · next hc => exact h' hc

/-- A node around the last one, with what the step adds behind it. -/
theorem nodeAround {kind : NodeKind} {P : α → List Tree → Prop} (hm : Yields φ m P)
    (hP : ∀ a first ts, first.isNode p = true → P a ts → kind.IsWhole (first :: ts))
    (hkind : q kind = true) : Wraps φ p (nodeAround kind m) q where
  honest s hs := by
    -- Without a node to go around the parser gives up, and a state that gave up is not clean.
    by_cases hlast : ∃ first span cs, s.out.back? = some (.node first span cs)
    · obtain ⟨first, span, cs, hlast⟩ := hlast
      rw [run_nodeAround hlast] at hs
      exact hm.honest (s.inside #[.node first span cs]) hs
    · rw [run_nodeAround_none fun first span cs hback => hlast ⟨_, _, _, hback⟩] at hs
      exact absurd (hm.honest.node _ hs) (State.not_clean_giveUp _ s)
  wraps s before first hout hnode hfirst hs hk := by
    obtain ⟨kind', span, cs, rfl⟩ : ∃ kind' span cs, first = .node kind' span cs := by
      cases first with
      | leaf => cases hnode
      | node kind' span cs => exact ⟨kind', span, cs, rfl⟩
    -- The node that was built last is taken off and comes back as the first child.
    have hpush : s.out = before.toArray.push (.node kind' span cs) := by
      apply Array.toList_inj.1
      rw [hout, Array.toList_push]
    have hlast : s.out.back? = some (.node kind' span cs) := by rw [hpush, Array.back?_push]
    rw [run_nodeAround hlast] at hs ⊢
    obtain ⟨new, hnew, hwhole, hsolid⟩ := hm.yields (s.inside #[.node kind' span cs]) hs hk
    have hinside :
        (m (s.inside #[.node kind' span cs])).2.out.toList = .node kind' span cs :: new := by
      rw [hnew]
      rfl
    have hkindWhole := hP _ _ _ hnode hsolid
    refine ⟨.node kind ⟨span.start, (m (s.inside #[.node kind' span cs])).2.offset⟩
      (.node kind' span cs :: new), ?_, hkind,
        .node hkindWhole (List.forall_mem_cons.2 ⟨hfirst, hwhole⟩)⟩
    rw [State.close, hpush, hinside, Array.pop_push, Array.toList_push]

/-- A node around the last one whose content is one of its rows. -/
theorem nodeOfRow {kind : NodeKind} {rows : List (List Slot)} (hm : Yields φ m fun _ => OneOf rows)
    (hrows : rows.map (.node p :: ·) ⊆ kind.rows) (hkind : q kind = true) :
    Wraps φ p (Grammar.nodeAround kind m) q := by
  refine nodeAround hm (fun _ first ts hfirst h => NodeKind.isWhole_of_row ?_ hrows) hkind
  obtain ⟨slots, hslots, hrow⟩ := h
  exact ⟨.node p :: slots, List.mem_map_of_mem hslots, .cons hfirst hrow⟩

/-! ### Climbs -/

/-- A counter that is raised wraps nothing. -/
theorem raised {c : Counter} (h : Wraps φ p m q) :
    Wraps φ p (modify (State.raise c) >>= fun _ => m) q where
  honest s hs := (State.clean_raise c s).1 (h.honest _ hs)
  wraps s before first hout hnode hfirst hs hk :=
    h.wraps (s.raise c) (by rwa [State.raise, State.out_setCount]) hnode hfirst hs
      (by rwa [State.raise, State.rest_setCount])

/-- A counter that is put back wraps nothing. -/
theorem restoring {c : Counter} (h : Wraps φ p m q) : Wraps φ p (restoring c m) q where
  honest s hs := by
    rw [run_restoring, State.clean_setCount] at hs
    exact h.honest s hs
  wraps s before first hout hnode hfirst hs hk := by
    rw [run_restoring, State.clean_setCount] at hs
    rw [run_restoring, State.out_setCount]
    exact h.wraps s hout hnode hfirst hs hk

/-- A loop wraps the last node as often as it has turns. -/
theorem iterate {step : σ → Step (Option σ)} (h : ∀ x, Wraps Anything p (step x) p) (n : Nat)
    (x : σ) : Wraps Anything p (iterate step n x) p := by
  induction n generalizing x with
  | zero => exact .never (.giveUp _)
  | succ n ih =>
    refine (h x).bind fun next => ?_
    cases next with
    | none => exact .pure _ fun _ hp => hp
    | some y => exact ih y

/-- **What each act of a climb takes over**, the climb takes over. -/
theorem climb {check : Step (Option α)} {act : α → Step Bool} {R : α → TokenKind → Prop}
    (hcheck : Sees check fun found k => ∀ a, found = some a → R a k)
    (hact : ∀ a, Wraps (R a) p (act a) p) (n : Nat) :
    Wraps Anything p (climb check act n) p := by
  refine restoring (iterate (fun _ => .seeing hcheck fun found => ?_) n ())
  cases found with
  | none => exact .pure _ fun _ hp => hp
  | some a =>
    refine .raised (((hact a).mono (fun k h => h.2 a rfl) fun _ hp => hp).bind fun again => ?_)
    exact .ite (fun _ => .pure _ fun _ hp => hp) fun _ => .pure _ fun _ hp => hp

end Wraps

end Grammar

end ScriptSense
