/-
The elements of a tree lie side by side.

The spans of a tree are not read off its tokens but kept at its nodes, and the
views tell the operands of an operator apart by comparing them. That this is
right rests on one property of the trees that the grammar builds: the children of
a node lead from the beginning of its span to the end without gap or overlap, at
every level (`Tile`). Then the order of the children is the order of their
offsets, and what the views find by offset they could have found by position.

The property is a frame of the grammar: a token is appended where the last one
ended, and a node is closed over children that begin where it does.
-/
import Mathlib.Data.List.Find
import ScriptSense.Proofs.Conservation
import ScriptSense.Syntax.View

set_option autoImplicit false

namespace ScriptSense

namespace Tree

/-! ## Trees side by side -/

/-- **The trees lead from one offset to another**, one beginning where the other
ends, and so do the children of every node in them. No token is empty. -/
inductive Tile : Nat → List Tree → Nat → Prop
  | nil (offset : Nat) : Tile offset [] offset
  | leaf {start stop : Nat} {t : Token} {ts : List Tree} (hstart : t.start = start)
      (htext : t.text ≠ "") (hts : Tile t.stop ts stop) : Tile start (.leaf t :: ts) stop
  | node {start stop : Nat} {kind : NodeKind} {span : Span} {cs ts : List Tree}
      (hstart : span.start = start) (hcs : Tile span.start cs span.stop)
      (hts : Tile span.stop ts stop) : Tile start (.node kind span cs :: ts) stop

/-- The elements of a tree lie side by side. -/
def Tiled (t : Tree) : Prop := Tile t.span.start [t] t.span.stop

theorem token_start_lt_stop {t : Token} (h : t.text ≠ "") : t.start < t.stop := by
  have hpos : 0 < t.text.utf8ByteSize :=
    Nat.pos_of_ne_zero fun hzero => h (String.utf8ByteSize_eq_zero_iff.1 hzero)
  rw [Token.stop]
  omega

namespace Tile

variable {a b c : Nat} {t u : Tree} {ts us : List Tree}

theorem append (hts : Tile a ts b) (hus : Tile b us c) : Tile a (ts ++ us) c := by
  induction hts with
  | nil => exact hus
  | leaf hstart htext _ ih => exact .leaf hstart htext (ih hus)
  | node hstart hcs _ _ ih => exact .node hstart hcs (ih hus)

/-- What leads from one offset to another can be cut between any two trees. -/
theorem split (h : Tile a (ts ++ us) c) : ∃ b, Tile a ts b ∧ Tile b us c := by
  induction ts generalizing a with
  | nil => exact ⟨a, .nil a, h⟩
  | cons t ts ih =>
    cases h with
    | leaf hstart htext hrest =>
      obtain ⟨b, hts, hus⟩ := ih hrest
      exact ⟨b, .leaf hstart htext hts, hus⟩
    | node hstart hcs hrest =>
      obtain ⟨b, hts, hus⟩ := ih hrest
      exact ⟨b, .node hstart hcs hts, hus⟩

theorem le (h : Tile a ts b) : a ≤ b := by
  induction h with
  | nil => exact Nat.le_refl _
  | leaf hstart htext _ ih =>
    have := token_start_lt_stop htext
    omega
  | node hstart _ _ ihcs ihts => omega

/-- The first tree begins where the trees begin. -/
theorem cons (h : Tile a (t :: ts) b) : t.span.start = a ∧ Tiled t ∧ Tile t.span.stop ts b := by
  cases h with
  | leaf hstart htext hts => exact ⟨hstart, .leaf rfl htext (.nil _), hts⟩
  | node hstart hcs hts => exact ⟨hstart, .node rfl hcs (.nil _), hts⟩

/-- Each of the trees is tiled and lies between the ends. -/
theorem of_mem (h : Tile a ts b) (ht : t ∈ ts) :
    Tiled t ∧ a ≤ t.span.start ∧ t.span.stop ≤ b := by
  obtain ⟨before, after, rfl⟩ := List.append_of_mem ht
  obtain ⟨m, hbefore, hafter⟩ := h.split
  obtain ⟨hstart, htiled, hrest⟩ := hafter.cons
  exact ⟨htiled, hstart ▸ hbefore.le, hrest.le⟩

end Tile

namespace Tiled

variable {t c : Tree}

theorem le (h : Tiled t) : t.span.start ≤ t.span.stop := Tile.le h

/-- The children of a tree lead from its beginning to its end. -/
theorem children {kind : NodeKind} {span : Span} {cs : List Tree}
    (h : Tiled (.node kind span cs)) : Tile span.start cs span.stop := by
  cases h with
  | node _ hcs _ => exact hcs

theorem of_mem_children (h : Tiled t) (hc : c ∈ t.children) : Tiled c := by
  cases t with
  | leaf => simp [Tree.children] at hc
  | node kind span cs => exact (h.children.of_mem hc).1

/-- A child lies inside. -/
theorem covers_child (h : Tiled t) (hc : c ∈ t.children) :
    t.span.start ≤ c.span.start ∧ c.span.stop ≤ t.span.stop := by
  cases t with
  | leaf => simp [Tree.children] at hc
  | node kind span cs => exact (h.children.of_mem hc).2

/-- What stands in front of a child ends where it begins or before, and what stands
behind it begins where it ends or later. -/
theorem order {before after : List Tree} (h : Tiled t) (hsplit : t.children = before ++ c :: after) :
    (∀ d ∈ before, d.span.stop ≤ c.span.start) ∧ ∀ d ∈ after, c.span.stop ≤ d.span.start := by
  cases t with
  | leaf => simp [Tree.children] at hsplit
  | node kind span cs =>
    have hcs : Tile span.start (before ++ c :: after) span.stop := by
      rw [← hsplit]
      exact h.children
    obtain ⟨m, hbefore, hrest⟩ := hcs.split
    obtain ⟨hstart, -, hafter⟩ := hrest.cons
    exact ⟨fun d hd => hstart ▸ (hbefore.of_mem hd).2.2, fun d hd => (hafter.of_mem hd).2.1⟩

end Tiled

/-! ## Kinds of nodes -/

section Kinds

variable {t c : Tree} {p q : NodeKind → Bool}

theorem not_isNode (hc : c.isNode p = true) (hpq : ∀ k, p k = true → q k = false) : c.isNode q = false := by
  cases c with
  | leaf => rfl
  | node kind span cs => exact hpq kind hc

theorem isNode_mono (hc : c.isNode p = true) (hpq : ∀ k, p k = true → q k = true) : c.isNode q = true := by
  cases c with
  | leaf => cases hc
  | node kind span cs => exact hpq kind hc

/-- What is true of a node of a kind is what is true of the kind. -/
theorem isNode_eq {k : NodeKind} (hc : c.isNode (· == k) = true) : c.isNode q = q k := by
  cases c with
  | leaf => cases hc
  | node kind span cs => exact congrArg q (eq_of_beq hc)

theorem isNode_or (hc : c.isNode p = true) : c.isNode (fun k => p k || q k) = true := by
  cases c with
  | leaf => cases hc
  | node kind span cs => exact Bool.or_eq_true_iff.2 (.inl hc)

theorem or_isNode (hc : c.isNode q = true) : c.isNode (fun k => p k || q k) = true := by
  cases c with
  | leaf => cases hc
  | node kind span cs => exact Bool.or_eq_true_iff.2 (.inr hc)

theorem isNode_of_nodeWhere? {c : t.Child} (hc : t.nodeWhere? p = some c) : c.val.isNode p = true :=
  List.find?_some (p := fun a : t.Child => a.val.isNode p) hc

theorem isNode_of_nodeBefore? {mark : Option Token} {c : t.Child} (hc : t.nodeBefore? mark p = some c) :
    c.val.isNode p = true :=
  (Bool.and_eq_true_iff.1 (List.find?_some (p := fun a : t.Child =>
    a.val.isNode p && mark.all fun m : Token => decide (a.val.span.stop ≤ m.start)) hc)).1

theorem isNode_of_nodeAfter? {mark : Option Token} {c : t.Child} (hc : t.nodeAfter? mark p = some c) :
    c.val.isNode p = true := by
  cases mark with
  | none => cases hc
  | some m =>
    exact (Bool.and_eq_true_iff.1 (List.find?_some (p := fun a : t.Child =>
      a.val.isNode p && decide (m.stop ≤ a.val.span.start)) hc)).1

theorem isNode_of_mem_nodesWhere {c : t.Child} (hc : c ∈ t.nodesWhere p) : c.val.isNode p = true :=
  (List.mem_filter.1 hc).2

end Kinds

/-! ## Views by offset and by position -/

/-- A child found among the children with their proofs is the one found among the
children. -/
theorem map_val_find?_attach (cs : List Tree) (p : Tree → Bool) :
    (cs.attach.find? fun c => p c.val).map Subtype.val = cs.find? p := by
  conv_rhs => rw [← List.attach_map_subtype_val cs, List.find?_map]
  rfl

theorem map_val_nodeWhere? (p : NodeKind → Bool) (t : Tree) :
    (t.nodeWhere? p).map Subtype.val = t.children.find? (·.isNode p) :=
  map_val_find?_attach _ _

theorem map_val_nodesWhere (p : NodeKind → Bool) (t : Tree) :
    (t.nodesWhere p).map Subtype.val = t.children.filter (·.isNode p) := by
  rw [nodesWhere]
  conv_rhs => rw [← List.attach_map_subtype_val t.children, List.filter_map]
  rfl

/-- The children around the first token with a property. -/
theorem tokenWhere?_eq_some {p : TokenKind → Bool} {t : Tree} {m : Token}
    (h : t.tokenWhere? p = some m) : p m.kind = true
      ∧ ∃ before after, t.children = before ++ .leaf m :: after
        ∧ ∀ c ∈ before, c.token?.all (fun u => !p u.kind) = true := by
  unfold tokenWhere? at h
  obtain ⟨hp, front, back, hsplit, hfront⟩ := List.find?_eq_some_iff_append.1 h
  obtain ⟨before, rest, hchildren, hbefore, hrest⟩ := List.filterMap_eq_append_iff.1 hsplit
  obtain ⟨skipped, d, after, hskip, hskipped, hd, -⟩ := List.filterMap_eq_cons_iff.1 hrest
  -- Only a leaf gives a token.
  have hleaf : d = .leaf m := by
    cases d with
    | leaf u => exact congrArg leaf (by simpa [token?] using hd)
    | node => simp [token?] at hd
  refine ⟨hp, before ++ skipped, after, ?_, ?_⟩
  · rw [hchildren, hskip, hleaf, List.append_assoc]
  · intro c hc
    rcases List.mem_append.1 hc with hc | hc
    · cases htoken : c.token? with
      | none => rfl
      | some u =>
        have hu : u ∈ front := hbefore ▸ List.mem_filterMap.2 ⟨c, hc, htoken⟩
        simpa using hfront u hu
    · rw [hskipped c hc]
      rfl

variable {t : Tree} {m : Token} {before after : List Tree}

/-- The node in front of a token is the first one among the children in front of it. -/
theorem map_val_nodeBefore? (ht : t.Tiled) (hsplit : t.children = before ++ .leaf m :: after)
    (p : NodeKind → Bool) :
    (t.nodeBefore? (some m) p).map Subtype.val = before.find? (·.isNode p) := by
  obtain ⟨hbefore, hafter⟩ := ht.order hsplit
  have hm : m.start < m.stop := by
    have htiled := ht.of_mem_children (c := .leaf m) (by simp [hsplit])
    cases htiled with
    | leaf _ htext _ => exact token_start_lt_stop htext
  -- What stands behind the token does not end in front of it, and all that stands before it
  -- does.
  have hlate : ∀ d ∈ after, ¬ d.span.stop ≤ m.start := by
    intro d hd hle
    have htiled := ht.of_mem_children (c := d) (by simp [hsplit, hd])
    have hfrom : m.stop ≤ d.span.start := hafter d hd
    have := htiled.le
    omega
  unfold nodeBefore?
  rw [map_val_find?_attach t.children
      fun c => c.isNode p && (some m).all fun m => c.span.stop ≤ m.start, hsplit,
    List.find?_append, List.find?_cons_of_neg (by simp [isNode, kind, ElementKind.isNode])]
  have hfront : before.find? (fun c => c.isNode p && (some m).all fun m => c.span.stop ≤ m.start)
      = before.find? (·.isNode p) := by
    refine List.find?_congr fun d hd => ?_
    have hle : d.span.stop ≤ m.start := hbefore d hd
    simp [hle]
  have hback : after.find? (fun c => c.isNode p && (some m).all fun m => c.span.stop ≤ m.start)
      = none := by
    refine List.find?_eq_none.2 fun d hd => ?_
    simp [hlate d hd]
  rw [hfront, hback, Option.or_none]

/-- The node behind a token is the first one among the children behind it. -/
theorem map_val_nodeAfter? (ht : t.Tiled) (hsplit : t.children = before ++ .leaf m :: after)
    (p : NodeKind → Bool) :
    (t.nodeAfter? (some m) p).map Subtype.val = after.find? (·.isNode p) := by
  obtain ⟨hbefore, hafter⟩ := ht.order hsplit
  have hm : m.start < m.stop := by
    have htiled := ht.of_mem_children (c := .leaf m) (by simp [hsplit])
    cases htiled with
    | leaf _ htext _ => exact token_start_lt_stop htext
  -- What stands before the token does not start behind it, and all that stands after it does.
  have hearly : ∀ d ∈ before, ¬ m.stop ≤ d.span.start := by
    intro d hd hle
    have htiled := ht.of_mem_children (c := d) (by simp [hsplit, hd])
    have huntil : d.span.stop ≤ m.start := hbefore d hd
    have := htiled.le
    omega
  unfold nodeAfter?
  rw [Option.bind_some,
    map_val_find?_attach t.children fun c => c.isNode p && decide (m.stop ≤ c.span.start), hsplit,
    List.find?_append, List.find?_cons_of_neg (by simp [isNode, kind, ElementKind.isNode])]
  have hfront : before.find? (fun c => c.isNode p && decide (m.stop ≤ c.span.start)) = none := by
    refine List.find?_eq_none.2 fun d hd => ?_
    simp [hearly d hd]
  have hback : after.find? (fun c => c.isNode p && decide (m.stop ≤ c.span.start))
      = after.find? (·.isNode p) := by
    refine List.find?_congr fun d hd => ?_
    have hle : m.stop ≤ d.span.start := hafter d hd
    simp [hle]
  rw [hfront, hback, Option.none_or]

end Tree

/-! ## The trees of the grammar -/

namespace Grammar

open ScriptSense.Tree (Tile Tiled)

/-- What is built leads to the tokens ahead, which follow each other and are not
empty. -/
structure Laid (start : Nat) (s : State) : Prop where
  built : Tile start s.out.toList s.offset
  ahead : Token.Chain s.offset s.rest
  text : ∀ t ∈ s.rest, t.text ≠ ""

/-- What is laid side by side stays so. -/
def StaysLaid (s t : State) : Prop := ∀ start, Laid start s → Laid start t

theorem staysLaid_moves : Moves StaysLaid where
  same hrest hout hoffset start h :=
    ⟨hout ▸ hoffset ▸ h.built, hrest ▸ hoffset ▸ h.ahead, hrest ▸ h.text⟩
  trans hst htu start h := htu start (hst start h)
  shift s start h := by
    cases hrest : s.rest with
    | nil =>
      have hsame : s.shift = s := by simp [State.shift, hrest]
      rwa [hsame]
    | cons t ts =>
      obtain ⟨hbuilt, hahead, htext⟩ := h
      rw [hrest] at hahead htext
      obtain ⟨hstart, hchain⟩ := hahead
      rw [State.shift_of_rest hrest]
      refine ⟨?_, hchain, fun u hu => htext u (List.mem_cons_of_mem _ hu)⟩
      rw [Array.toList_push]
      refine hbuilt.append ?_
      exact .leaf hstart (htext t List.mem_cons_self) (.nil _)
  enclose kind s t outer inner hsplit hinner hinside start h := by
    obtain ⟨hbuilt, hahead, htext⟩ := h
    rw [hsplit, Array.toList_append] at hbuilt
    obtain ⟨first, houter, htaken⟩ := hbuilt.split
    -- The new node starts where the first tree it takes in does, or else here.
    have hbegin : s.beginning inner = first := by
      rcases hinner with rfl | ⟨-, hone⟩
      · cases htaken
        rfl
      · obtain ⟨c, rfl⟩ := Array.size_eq_one_iff.1 hone
        exact htaken.cons.1
    obtain ⟨hnode, hahead', htext'⟩ := hinside first ⟨htaken, hahead, htext⟩
    refine ⟨?_, hahead', htext'⟩
    rw [hbegin, State.close, Array.toList_push]
    exact houter.append (.node rfl hnode (.nil _))

/-- The root of what is laid from the beginning on is tiled. -/
theorem tiled_root (kind : NodeKind) {s : State} (h : Laid 0 s) : Tiled (s.root kind) :=
  .node rfl (staysLaid_moves.shiftMany _ s 0 h).built (.nil _)

end Grammar

open Grammar in
/-- **In the tree of a text the elements lie side by side**, whatever content is
read, as long as it is made of the makings of the grammar. -/
theorem tiled_ofContent {content : Rules → Step Unit} {i : Sync} {o : Unit → Sync}
    (hcontent : ∀ R : Rules, R.Alike R → Alike i o (content R) (content R)) (kind : NodeKind)
    (isFunction : String → Bool) (text : String) :
    (Parse.ofContent kind content isFunction text).root.Tiled := by
  obtain ⟨htiling, -⟩ := tokens_tiling text
  have halike := hcontent _
    (rules_alike_self isFunction (levelsFor (State.initial (tokens text)).rest.length))
  have hinitial : Laid 0 (State.initial (tokens text)) :=
    ⟨.nil 0, htiling.chain, fun t ht => (htiling.significant t ht).2⟩
  exact tiled_root kind (halike.frame staysLaid_moves.frame _ 0 hinitial)

/-- The tree of a script is tiled. -/
theorem tiled_parseWith (isFunction : String → Bool) (text : String) :
    (parseWith isFunction text).root.Tiled :=
  tiled_ofContent (fun _ => Grammar.script_alike) .script isFunction text

end ScriptSense
