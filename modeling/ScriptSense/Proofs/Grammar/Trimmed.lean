/-
Trivia stand outside.

Trivia are never consumed for their own sake. They go where the next token or the next
node goes: in front of it, and so into the node around. What is consumed ends with a
token or with a line break. So a node begins with a token that means something and ends
with one, or with a line break (`Course.neat`).

There is one exception. A node that turns out to hold nothing was opened behind the
trivia as well, and where it is the last one in the node around, they stand in front of it
at the end. That is so of a call without arguments to a known function: its list of
arguments stands behind the trivia, and the call reaches that far. A list of statements is
exempt at its beginning, because it is opened in front of the trivia.

The induction is over the course of a reading. Besides what is shown of the nodes
(`Tree.Neat`), it carries that no trivia are ahead where a node without tokens was built
last: what is built around such a node has nothing else to begin with.
-/
import ScriptSense.Proofs.Grammar.SetAside
import ScriptSense.Proofs.Grammar.Straight
import ScriptSense.Proofs.Syntax.Sites

set_option autoImplicit false

namespace ScriptSense

/-! ## Nodes without tokens -/

namespace Tree

/-- The node holds no token, and it is no list of statements. -/
def IsVacant (t : Tree) : Prop := t.isNode (· != .stmtList) = true ∧ t.leaves = []

/-- A vacant node stands at the end of the elements: no token stands behind it. -/
inductive EndsVacant : List Tree → Prop
  | here {before after : List Tree} {v : Tree} (hv : v.IsVacant)
      (hafter : leavesOfAll after = []) : EndsVacant (before ++ v :: after)
  | inside {before after cs : List Tree} {kind : NodeKind} {span : Span} (h : EndsVacant cs)
      (hafter : leavesOfAll after = []) : EndsVacant (before ++ .node kind span cs :: after)

/-- The elements do not end with trivia, or a vacant node stands behind them. -/
def EndsClean (ts : List Tree) : Prop :=
  ∀ m ∈ (leavesOfAll ts).getLast?, m.kind.isTrivia = true → EndsVacant ts

/-- No trivia stand at the ends of the node and of those inside it, but for the exceptions:
a list of statements may begin with trivia, and any node may end with some in front of a
vacant node. -/
inductive Neat : Tree → Prop
  | leaf (m : Token) : Neat (.leaf m)
  | node {kind : NodeKind} {span : Span} {cs : List Tree}
      (first : kind ≠ .stmtList → ∀ m ∈ (leavesOfAll cs).head?, m.kind.isTrivia = false)
      (last : EndsClean cs) (hcs : ∀ c ∈ cs, Neat c) : Neat (.node kind span cs)

variable {ts us cs : List Tree} {kind : NodeKind} {span : Span}

theorem EndsVacant.append (h : EndsVacant ts) (hus : leavesOfAll us = []) :
    EndsVacant (ts ++ us) := by
  cases h with
  | here hv hafter =>
    rw [List.append_assoc, List.cons_append]
    exact .here hv (by rw [leavesOfAll_append, hafter, hus, List.append_nil])
  | inside h hafter =>
    rw [List.append_assoc, List.cons_append]
    exact .inside h (by rw [leavesOfAll_append, hafter, hus, List.append_nil])

namespace EndsClean

theorem nil : EndsClean [] := fun _ hm => by simp at hm

/-- A token that is no trivia may end the elements. -/
theorem tokens {ms : List Token} (h : ∀ m ∈ ms.getLast?, m.kind.isTrivia = false)
    (hne : ms ≠ []) : EndsClean (ts ++ ms.map .leaf) := by
  intro m hm htrivia
  rw [leavesOfAll_append, Grammar.leavesOfAll_tokens,
    List.getLast?_append_of_ne_nil _ hne] at hm
  rw [h m hm] at htrivia
  cases htrivia

/-- A node that holds tokens ends the elements as it ends itself. -/
theorem concat_of_ne (h : EndsClean cs) (hcs : leavesOfAll cs ≠ []) :
    EndsClean (ts ++ [.node kind span cs]) := by
  intro m hm htrivia
  refine .inside (h m ?_ htrivia) leavesOfAll_nil
  simpa [List.getLast?_append_of_ne_nil _ hcs] using hm

/-- A node may end the elements, if it is no list: it ends as it should or is vacant. -/
theorem node (h : EndsClean cs) (hkind : kind ≠ .stmtList) :
    EndsClean (ts ++ [.node kind span cs]) := by
  by_cases hcs : leavesOfAll cs = []
  · exact fun _ _ _ => .here ⟨bne_iff_ne.2 hkind, by rw [leaves_node, hcs]⟩ leavesOfAll_nil
  · exact h.concat_of_ne hcs

/-- Any node may end elements that end as they should. -/
theorem concat (hts : EndsClean ts) (h : EndsClean cs) :
    EndsClean (ts ++ [.node kind span cs]) := by
  by_cases hcs : leavesOfAll cs = []
  · intro m hm htrivia
    have hnone : leavesOfAll [.node kind span cs] = [] := by simp [hcs]
    rw [leavesOfAll_append, hnone, List.append_nil] at hm
    exact (hts m hm htrivia).append hnone
  · exact h.concat_of_ne hcs

end EndsClean

end Tree

namespace Grammar

open ScriptSense.Tree (leavesOfAll EndsVacant EndsClean)

variable {g : Grade} {s t u : State}

/-! ## Tokens that move -/

/-- The tokens that a node was closed over are those that were read since it was opened. -/
theorem advances_closed (kind : NodeKind) (h : Advances (s.entered kind) t) :
    Advances s (s.closed kind t) := by
  have hopened : Advances s (s.opened kind) := by
    unfold State.opened
    split
    · exact advances_frame.refl s
    · exact advances_frame.shiftTrivia s
  exact advances_moves.trans hopened (advances_close kind _ Array.append_empty.symm h)

/-- Along a course tokens move from those ahead to those built upon. -/
theorem Course.advances (h : Course g s t) : Advances s t := by
  induction h with
  | refl => exact advances_frame.refl _
  | looked _ ih | complain _ _ ih => exact ih
  | consume _ _ ih => exact advances_moves.trans ih (advances_moves.consume _)
  | setCount _ _ n ih => exact advances_moves.trans ih (advances_moves.setCount _ n _)
  | node _ _ _ _ ih ihbody | error _ _ ih ihbody | list _ _ ih ihbody =>
    exact advances_moves.trans ih (advances_closed _ ihbody)
  | around _ hout _ _ _ ih ihbody =>
    exact advances_moves.trans ih (advances_close _ _ hout ihbody)
  -- The counter moves no tokens.
  | @counted _ t _ _ _ ih ihbody =>
    have hraised : Advances t (t.raise .begins) := advances_moves.setCount .begins _ t
    exact advances_moves.trans (advances_moves.trans ih hraised)
      (advances_moves.trans (advances_closed _ ihbody) (advances_moves.lower _ _))
  | nested _ _ _ _ ih ihbody =>
    have hinner := advances_closed _ (advances_moves.trans (advances_moves.consume _) ihbody)
    exact advances_moves.trans ih (advances_closed .error hinner)

namespace State

/-- No trivia are ahead. -/
def AtWord (s : State) : Prop := ∀ m ∈ s.rest.head?, m.kind.isTrivia = false

theorem atWord_opened {kind : NodeKind} (hkind : kind ≠ .stmtList) (s : State) :
    (s.opened kind).AtWord := by
  intro m hm
  rw [opened, if_neg hkind, rest_shiftTrivia] at hm
  have hhead := List.head?_dropWhile_not (fun t : Token => t.kind.isTrivia) s.rest
  rw [Option.mem_def.1 hm] at hhead
  exact hhead

namespace AtWord

/-- What is read next begins with a word. -/
theorem moved {ms : List Token} (h : s.AtWord) (hrest : s.rest = ms ++ t.rest) :
    ∀ m ∈ ms.head?, m.kind.isTrivia = false := by
  intro m hm
  refine h m ?_
  rw [hrest, List.head?_append, Option.mem_def.1 hm]
  rfl

theorem congr (h : s.AtWord) (hrest : s.rest = t.rest) : t.AtWord :=
  fun m hm => h m (hrest ▸ hm)

end AtWord

theorem isTrivia_kindAhead (ts : List Token) : (kindAhead 0 ts).isTrivia = false := by
  have hhead := List.head?_dropWhile_not (fun t : Token => t.kind.isTrivia) ts
  rw [kindAhead_zero]
  cases hword : (ts.dropWhile (·.kind.isTrivia)).head? with
  | none => rfl
  | some m =>
    rw [hword] at hhead
    exact hhead

/-! ## What is built is neat -/

/-- Everything built in the node under construction is neat, and it may be closed here. -/
structure Neat (s : State) : Prop where
  each : ∀ c ∈ s.out.toList, c.Neat
  ends : EndsClean s.out.toList
  /-- The trivia stand in front of a vacant node. -/
  fresh : ∀ c ∈ s.out.toList.getLast?, c.IsVacant → s.AtWord

namespace Neat

/-- Only what is built matters, and what is ahead. -/
theorem congr (h : s.Neat) (hrest : t.rest = s.rest) (hout : t.out = s.out) : t.Neat where
  each := by rw [hout]; exact h.each
  ends := by rw [hout]; exact h.ends
  fresh c hc hvacant m hm := h.fresh c (hout ▸ hc) hvacant m (hrest ▸ hm)

/-- Nothing is built yet. -/
theorem empty (h : s.out = #[]) : s.Neat where
  each c hc := by
    rw [h] at hc
    cases hc
  ends := by
    rw [h]
    exact .nil
  fresh c hc := by
    rw [h] at hc
    cases hc

/-- A node that is taken over is the first element of the one around it. -/
theorem inside {outer : Array Tree} {first : Tree} (h : s.Neat) (hout : s.out = outer.push first)
    (hfirst : first.isNode (· != .stmtList) = true) : (s.inside #[first]).Neat where
  each c hc := h.each c (by
    obtain rfl : c = first := by simpa [State.inside] using hc
    simp [hout])
  ends := by
    have hneat : first.Neat := h.each first (by simp [hout])
    cases hneat with
    | leaf => cases hfirst
    | node _ last _ => exact EndsClean.nil.concat last
  fresh c hc hvacant := h.fresh c (by simpa [State.inside, hout] using hc) hvacant

/-- What is consumed ends with the token or with a line break. -/
theorem consume (h : s.Neat) (hreal : kindAhead 0 s.rest ≠ .eof) : s.consume.Neat := by
  obtain ⟨trivia, word, layout, -, hout, -, hword, hlayout⟩ := s.consumed hreal
  -- The last token that was passed is the word itself or a line break behind it.
  have hlast : ∀ m ∈ (trivia ++ word :: layout).getLast?, m.kind.isTrivia = false := by
    intro m hm
    rw [List.getLast?_append_of_ne_nil _ (List.cons_ne_nil _ _)] at hm
    cases hmore : layout.getLast? with
    | none =>
      obtain rfl : m = word := by simpa [List.getLast?_cons, hmore] using hm.symm
      rw [hword]
      exact isTrivia_kindAhead _
    | some b =>
      obtain rfl : m = b := by simpa [List.getLast?_cons, hmore] using hm.symm
      rw [hlayout m hmore]
      rfl
  refine ⟨fun c hc => ?_, ?_, fun c hc hvacant => ?_⟩
  · rw [hout, List.mem_append] at hc
    rcases hc with hc | hc
    · exact h.each c hc
    · obtain ⟨m, -, rfl⟩ := List.mem_map.1 hc
      exact .leaf m
  · rw [hout]
    exact .tokens hlast (by simp)
  · rw [hout, List.getLast?_append_of_ne_nil _ (by simp)] at hc
    obtain ⟨m, -, rfl⟩ := List.mem_map.1 (List.mem_of_getLast? hc)
    cases hvacant.1

/-- A node that is closed, unless it is a list: it begins with what was read in it, and
no trivia were ahead when that began. -/
theorem closed {kind : NodeKind} (hs : s.Neat) (hkind : kind ≠ .stmtList)
    (hmoved : Advances (s.entered kind) t) (ht : t.Neat) : (s.closed kind t).Neat := by
  obtain ⟨moved, hrest, hleaves⟩ := hmoved
  obtain ⟨trivia, hout⟩ := State.out_closed kind s t
  have hword : (s.entered kind).AtWord := atWord_opened hkind s
  -- The leaves of the node are the tokens that were moved while it was open.
  have hinside : leavesOfAll t.out.toList = moved := by simpa [State.inside] using hleaves
  refine ⟨fun c hc => ?_, ?_, fun c hc hvacant => ?_⟩
  · rw [hout, List.mem_append, List.mem_append, List.mem_singleton] at hc
    rcases hc with (hc | hc) | rfl
    · exact hs.each c hc
    · obtain ⟨m, -, rfl⟩ := List.mem_map.1 hc
      exact .leaf m
    · refine .node (fun _ => ?_) ht.ends ht.each
      rw [hinside]
      exact hword.moved hrest
  · rw [hout]
    exact ht.ends.node hkind
  · rw [hout, List.getLast?_concat, Option.mem_some_iff] at hc
    obtain rfl : moved = [] := by
      rw [← hc] at hvacant
      simpa [hinside] using hvacant.2
    exact hword.congr hrest

/-- A list of statements that is closed. -/
theorem list (hs : s.Neat) (ht : t.Neat) : (s.closed .stmtList t).Neat := by
  have hout : (s.closed .stmtList t).out.toList
      = s.out.toList ++ [.node .stmtList ⟨s.offset, t.offset⟩ t.out.toList] := by
    simp [State.closed, State.close, State.opened]
  refine ⟨fun c hc => ?_, ?_, fun c hc hvacant => ?_⟩
  · rw [hout, List.mem_append, List.mem_singleton] at hc
    rcases hc with hc | rfl
    · exact hs.each c hc
    · exact .node (absurd rfl ·) ht.ends ht.each
  · rw [hout]
    exact hs.ends.concat ht.ends
  · rw [hout, List.getLast?_concat, Option.mem_some_iff] at hc
    rw [← hc] at hvacant
    cases hvacant.1

/-- A node that is closed around the one built last: it begins as that does, or with what
was read behind it if that is vacant. -/
theorem around {outer : Array Tree} {first : Tree} {kind : NodeKind} (hs : s.Neat)
    (hout : s.out = outer.push first) (hfirst : first.isNode (· != .stmtList) = true)
    (hkind : kind ≠ .stmtList) (hmoved : Advances (s.inside #[first]) t) (ht : t.Neat)
    (start : Nat) : (t.close kind start outer).Neat := by
  obtain ⟨moved, hrest, hleaves⟩ := hmoved
  have hinside : leavesOfAll t.out.toList = first.leaves ++ moved := by
    simpa [State.inside] using hleaves
  have hneat : first.Neat := hs.each first (by simp [hout])
  have hfresh (h : first.leaves = []) : s.AtWord := hs.fresh first (by simp [hout]) ⟨hfirst, h⟩
  have hclosed : (t.close kind start outer).out.toList
      = outer.toList ++ [.node kind ⟨start, t.offset⟩ t.out.toList] := by
    simp [State.close]
  refine ⟨fun c hc => ?_, ?_, fun c hc hvacant => ?_⟩
  · rw [hclosed, List.mem_append, List.mem_singleton] at hc
    rcases hc with hc | rfl
    · exact hs.each c (by simp [hout, hc])
    · refine .node (fun _ m hm => ?_) ht.ends ht.each
      rw [hinside, List.head?_append] at hm
      cases hhead : first.leaves.head? with
      | some b =>
        rw [hhead] at hm
        cases hneat with
        | leaf => cases hfirst
        | node first' _ _ =>
          rw [Tree.leaves_node] at hhead
          exact first' (bne_iff_ne.1 hfirst) m (hhead.trans hm)
      | none =>
        -- The first element is vacant, so the node begins with what was read behind it.
        rw [hhead, Option.none_or] at hm
        exact (hfresh (List.head?_eq_none_iff.1 hhead)).moved hrest m hm
  · rw [hclosed]
    exact ht.ends.node hkind
  · rw [hclosed, List.getLast?_concat, Option.mem_some_iff] at hc
    rw [← hc] at hvacant
    obtain ⟨hnone, rfl⟩ : first.leaves = [] ∧ moved = [] := by simpa [hinside] using hvacant.2
    exact (hfresh hnone).congr hrest

end Neat

end State

/-- **What is built along a course is neat.** -/
theorem Course.neat (h : Course g s t) (hs : s.Neat) : t.Neat := by
  induction h with
  | refl => exact hs
  | looked _ ih | complain _ _ ih => exact (ih hs).congr rfl rfl
  | consume _ hreal ih => exact (ih hs).consume hreal
  | setCount _ _ n ih =>
    exact (ih hs).congr (State.rest_setCount _ _ _) (State.out_setCount _ _ _)
  | node _ hkind _ hbody ih ihbody =>
    exact (ih hs).closed hkind.2 hbody.advances (ihbody (.empty rfl))
  | error _ hbody ih ihbody =>
    exact (ih hs).closed (by decide) hbody.advances (ihbody (.empty rfl))
  | around _ hout hfirst hkind hbody ih ihbody =>
    exact (ih hs).around hout hfirst (NodeKind.isFree_iff.1 hkind).2.1 hbody.advances
      (ihbody ((ih hs).inside hout hfirst)) _
  | list _ _ ih ihbody => exact (ih hs).list (ihbody (.empty rfl))
  | @counted _ t _ _ _ ih ihbody =>
    have hraised : (t.raise .begins).Neat :=
      (ih hs).congr (State.rest_setCount .begins _ t) (State.out_setCount .begins _ t)
    exact (hraised.list (ihbody (.empty rfl))).congr (State.rest_lower _ _) (State.out_lower _ _)
  -- The block set aside begins with its word, and so does the error node around it.
  | @nested _ s t u _ _ hahead hbody ih ihbody =>
    have hinner : kindAhead 0 (t.aside.entered .beginStmt).rest ≠ .eof := by
      rw [t.kindAhead_aside, hahead]
      decide
    have hmoved := advances_moves.trans (advances_moves.consume _) hbody.advances
    have hbegin := ihbody (State.Neat.consume (.empty rfl) hinner)
    have haside : t.aside.Neat := .empty rfl
    exact (ih hs).closed (by decide) (advances_closed .beginStmt hmoved)
      (haside.closed (by decide) hmoved hbegin)

/-- What a text is turned into is neat, but for the root. -/
theorem neat_parseWith (f : String → Bool) (text : String) :
    ∀ c ∈ (parseWith f text).root.children, c.Neat := by
  have hbuilt := (course_script f (tokens text)).neat (.empty rfl)
  intro c hc
  replace hc : c ∈ ((run f script (tokens text)).shiftMany _).out.toList := hc
  rw [State.toList_out_shiftMany, List.mem_append] at hc
  rcases hc with hc | hc
  · exact hbuilt.each c hc
  · obtain ⟨m, -, rfl⟩ := List.mem_map.1 hc
    exact .leaf m

end Grammar

/-! ## Where a vacant node stands -/

namespace Tree

variable {a b : Nat} {t u : Tree} {ts : List Tree}

/-- Elements without tokens end where they begin. -/
theorem Tile.eq_of_leaves (h : Tile a ts b) (hts : leavesOfAll ts = []) : a = b := by
  induction h with
  | nil => rfl
  | leaf => simp at hts
  | node hstart _ _ ihcs ihts =>
    rw [leavesOfAll_cons, leaves_node, List.append_eq_nil_iff] at hts
    exact hstart.symm.trans ((ihcs hts.1).trans (ihts hts.2))

/-- A vacant node with which the elements end stands where they end. -/
theorem EndsVacant.exists_point (h : EndsVacant ts) (hts : Tile a ts b) :
    ∃ v, (∃ c ∈ ts, c.Holds v) ∧ v.IsVacant ∧ v.span = .point b := by
  induction h generalizing a b with
  | @here before after v hv hafter =>
    obtain ⟨_, -, hrest⟩ := hts.split
    obtain ⟨-, htiled, hbehind⟩ := hrest.cons
    -- Nothing with a text stands behind the node, so it ends where the trees do.
    have hstop : v.span.stop = b := hbehind.eq_of_leaves hafter
    have hstart : v.span.start = v.span.stop := Tile.eq_of_leaves htiled (by simp [hv.2])
    refine ⟨v, ⟨v, by simp, .self v⟩, hv, ?_⟩
    rw [Span.point, ← hstop]
    exact congrArg (Span.mk · v.span.stop) hstart
  | @inside before after cs kind span _ hafter ih =>
    obtain ⟨_, -, hrest⟩ := hts.split
    obtain ⟨-, htiled, hbehind⟩ := hrest.cons
    obtain ⟨v, ⟨c, hc, hholds⟩, hv, hspan⟩ := ih htiled.children
    have hstop := hbehind.eq_of_leaves hafter
    have hmem : .node kind span cs ∈ before ++ .node kind span cs :: after := by simp
    exact ⟨v, ⟨_, hmem, .deeper hc hholds⟩, hv, hspan.trans (congrArg Span.point hstop)⟩

theorem Holds.neat (h : t.Holds u) (ht : t.Neat) : u.Neat := by
  induction h with
  | self => exact ht
  | deeper hc _ ih =>
    cases ht with
    | leaf => cases hc
    | node _ _ hcs => exact ih (hcs _ hc)

/-- **No trivia stand at the ends of the node**, but for those in front of a vacant node
with which it ends. -/
structure Trimmed (t : Tree) : Prop where
  first : ∀ m ∈ t.leaves.head?, m.kind.isTrivia = false
  last : ∀ m ∈ t.leaves.getLast?, m.kind.isTrivia = true →
    ∃ v, t.Holds v ∧ v.IsVacant ∧ v.span = .point t.span.stop

theorem Neat.trimmed (h : t.Neat) (ht : t.Tiled) (hkind : t.isNode (· != .stmtList) = true) :
    t.Trimmed := by
  cases h with
  | leaf => cases hkind
  | node first last _ =>
    refine ⟨fun m hm => first (bne_iff_ne.1 hkind) m (by simpa using hm), fun m hm htrivia => ?_⟩
    have hends := last m (by simpa using hm) htrivia
    obtain ⟨v, ⟨c, hc, hholds⟩, hv, hspan⟩ := hends.exists_point ht.children
    exact ⟨v, .deeper hc hholds, hv, hspan⟩

/-- The nodes below the root are trimmed, but for the lists of statements. -/
def TrimmedBelow (root : Tree) : Prop :=
  ∀ s ∈ root.nodeSites, s.above ≠ [] → s.item.isNode (· != .stmtList) = true → s.item.Trimmed

end Tree

/-- **Trivia stand outside the nodes**, whatever the text and the functions known, but for
the root, for lists of statements, and for what stands in front of a vacant node. -/
theorem trivia_stand_outside (f : String → Bool) (text : String) :
    (parseWith f text).root.TrimmedBelow := by
  intro s hs habove hkind
  rcases List.mem_cons.1 hs with rfl | hs
  · exact absurd rfl habove
  · obtain ⟨c, hc, hholds⟩ := Tree.exists_holds_of_nodeSite hs
    have hneat := hholds.neat (Grammar.neat_parseWith f text c hc)
    exact hneat.trimmed (hholds.tiled ((tiled_parseWith f text).of_mem_children hc)) hkind

/-- A call without arguments ends with the comment in front of its empty list of arguments. -/
theorem call_ends_with_comment :
    ¬ ∀ s ∈ (parseWith (· == "f") "scn T\nset t to f ; c\n").root.nodeSites, s.above ≠ [] →
      s.item.isNode (· != .stmtList) = true → s.item.leaves ≠ [] →
        (∀ m ∈ s.item.leaves.head?, m.kind.isTrivia = false)
          ∧ ∀ m ∈ s.item.leaves.getLast?, m.kind.isTrivia = false := by
  decide +kernel

end ScriptSense
