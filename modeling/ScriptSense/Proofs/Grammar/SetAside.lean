/-
`begin` blocks inside one another.

The grammar counts the `begin` blocks and lambdas that are open, and where the count is
not zero it sets the next `begin` block aside. Here the count is compared with the tree.
It says whether the node under construction stands in a list of statements of a `begin`
block or a lambda, because it is raised for these lists alone and put back behind each
(`Course.begins`, `Course.housed`). So the blocks set aside are those that stand in such a
list. And each of them is complained about once, in the order of the text, at its first
word (`Course.reports`): no other node is built between the complaint and the word.
-/
import ScriptSense.Proofs.Grammar.Charts
import ScriptSense.Syntax.View

set_option autoImplicit false

namespace ScriptSense

/-! ## Where the blocks stand -/

/-- **In the tree exactly the `begin` blocks are set aside that stand in the list of
another one or of a lambda.** Of the tree itself is given whether it stands in such a list,
and whether it is set aside. -/
inductive Tree.Housed : Bool → Bool → Tree → Prop
  | leaf (inside aside : Bool) (t : Token) : Housed inside aside (.leaf t)
  | node {inside aside : Bool} {kind : NodeKind} {span : Span} {children : List Tree}
      (h : kind = .beginStmt → aside = inside)
      (hcs : ∀ c ∈ children,
        Housed (inside || kind.lists.isCounted && c.isNode (· == .stmtList)) (kind == .error) c) :
      Housed inside aside (.node kind span children)

theorem Tree.Housed.congr {inside inside' aside aside' : Bool} {t : Tree}
    (h : Housed inside aside t) (hinside : inside = inside') (haside : aside = aside') :
    Housed inside' aside' t :=
  hinside ▸ haside ▸ h

/-! ## The blocks that are set aside -/

namespace Tree

mutual

/-- The words that open the `begin` blocks set aside in a tree, from left to right, where
they have one. Of the tree itself is given whether it is set aside. -/
def asides (aside : Bool) : Tree → List (Option Token)
  | .leaf _ => []
  | .node kind span cs =>
    (if aside && kind == .beginStmt then [(Tree.node kind span cs).tokenOf? .kwBegin] else [])
      ++ asidesOfAll (kind == .error) cs

/-- The words that open the `begin` blocks set aside in a list of trees. -/
def asidesOfAll (aside : Bool) : List Tree → List (Option Token)
  | [] => []
  | t :: ts => t.asides aside ++ asidesOfAll aside ts

end

variable {aside : Bool} {ts us : List Tree}

@[simp] theorem asides_leaf (m : Token) : (Tree.leaf m).asides aside = [] := by simp [asides]

@[simp] theorem asidesOfAll_nil : asidesOfAll aside [] = [] := by simp [asidesOfAll]

@[simp] theorem asidesOfAll_cons (t : Tree) :
    asidesOfAll aside (t :: ts) = t.asides aside ++ asidesOfAll aside ts := by simp [asidesOfAll]

@[simp] theorem asidesOfAll_append :
    asidesOfAll aside (ts ++ us) = asidesOfAll aside ts ++ asidesOfAll aside us := by
  induction ts with
  | nil => simp
  | cons t ts ih => simp [ih]

/-- There is none among tokens. -/
@[simp] theorem asidesOfAll_leaves (ms : List Token) : asidesOfAll aside (ms.map .leaf) = [] := by
  induction ms with
  | nil => simp
  | cons m ms ih => simp [ih]

/-- A node that is not set aside. -/
theorem asides_node {kind : NodeKind} (span : Span) (h : (aside && kind == .beginStmt) = false) :
    (Tree.node kind span ts).asides aside = asidesOfAll (kind == .error) ts := by
  simp [asides, h]

end Tree

namespace Grammar

open ScriptSense.Tree (Housed asidesOfAll)

variable {g : Grade} {l : Lists} {s t u : State}

namespace State

theorem begins_opened (kind : NodeKind) (s : State) : (s.opened kind).begins = s.begins := by
  unfold opened
  split
  · rfl
  · exact count_shiftTrivia .begins s

/-- What is opened in front of a node are tokens. -/
theorem out_opened (kind : NodeKind) (s : State) : ∃ moved : List Token,
    (s.opened kind).out.toList = s.out.toList ++ moved.map .leaf := by
  unfold opened
  split
  · exact ⟨[], by simp⟩
  · exact ⟨_, toList_out_shiftMany _ s⟩

/-- A node that is closed is the last one, behind what there was before and the trivia. -/
theorem out_closed (kind : NodeKind) (s t : State) : ∃ moved : List Token,
    (s.closed kind t).out.toList = s.out.toList ++ moved.map .leaf
      ++ [.node kind ⟨(s.opened kind).offset, t.offset⟩ t.out.toList] := by
  obtain ⟨moved, hmoved⟩ := out_opened kind s
  exact ⟨moved, by rw [closed, close, Array.toList_push, hmoved]⟩

end State

/-- **The count is put back** by whatever stands between. -/
theorem Course.begins (h : Course g s t) : t.begins = s.begins := by
  have hcount {c : Counter} (hc : c ≠ .begins) (n : Nat) (t : State) :
      (t.setCount c n).begins = t.begins := State.count_setCount_of_ne hc.symm n t
  induction h with
  | refl => rfl
  | looked _ ih => exact ih
  | consume _ _ ih => exact (State.count_consume .begins _).trans ih
  | complain _ _ ih => exact ih
  | setCount _ hc n ih => exact (hcount hc n _).trans ih
  | node _ _ _ _ ih ihbody => exact (ihbody.trans (State.begins_opened _ _)).trans ih
  | error _ _ ih ihbody => exact (ihbody.trans (State.begins_opened _ _)).trans ih
  | around _ _ _ _ _ ih ihbody => exact ihbody.trans ih
  | list _ _ ih ihbody => exact ihbody.trans ih
  -- Only a counted list of statements raises the number, and it lowers it again.
  | @counted s t u _ _ ih ihbody =>
    have hlowered : (((t.raise .begins).closed .stmtList u).lower .begins).begins = u.begins - 1 :=
      State.count_lower .begins _
    have hraised : u.begins = t.begins + 1 := ihbody.trans (State.count_raise .begins t)
    omega
  | nested _ _ _ _ ih ihbody =>
    exact ((ihbody.trans (State.count_consume .begins _)).trans
      ((State.begins_opened _ _).trans (State.begins_opened _ _))).trans ih

/-- Where only tokens may be built, only tokens are. -/
theorem Course.flat (h : Course g s t) (hg : g = .tokens) :
    ∃ moved : List Token, t.out.toList = s.out.toList ++ moved.map .leaf := by
  induction h with
  | refl => exact ⟨[], by simp⟩
  | looked _ ih | complain _ _ ih => exact ih hg
  | @consume _ _ t _ _ ih =>
    obtain ⟨moved, hmoved⟩ := ih hg
    obtain ⟨before, next, after, hout, -⟩ := t.toList_out_consume
    exact ⟨moved ++ (before ++ next ++ after), by rw [hout, hmoved]; simp⟩
  | setCount _ _ n ih =>
    obtain ⟨moved, hmoved⟩ := ih hg
    exact ⟨moved, by rw [State.out_setCount, hmoved]⟩
  | node | error | around | list | counted | nested => cases hg

/-- A node that is no list. -/
theorem isNode_list_eq_false {x : Tree} (h : x.isNode (· != .stmtList) = true) :
    x.isNode (· == .stmtList) = false := by
  cases x with
  | leaf => cases h
  | node kind span cs => exact beq_eq_false_iff_ne.2 (bne_iff_ne.1 h)

/-- Everything built so far is housed, if it is known which lists may be among it. -/
def State.Houses (l : Lists) (s : State) : Prop :=
  ∀ c ∈ s.out.toList,
    Housed (s.begins != 0 || l.isCounted && c.isNode (· == .stmtList)) false c

namespace State.Houses

/-- Tokens may be added. -/
theorem tokens {moved : List Token} (h : s.Houses l) (hbegins : t.begins = s.begins)
    (hout : t.out.toList = s.out.toList ++ moved.map .leaf) : t.Houses l := by
  intro c hc
  rw [hout, List.mem_append] at hc
  rw [hbegins]
  rcases hc with hc | hc
  · exact h c hc
  · obtain ⟨m, -, rfl⟩ := List.mem_map.1 hc
    exact .leaf _ _ m

/-- Nothing is built yet in a node that was opened. -/
theorem entered (l : Lists) (kind : NodeKind) (s : State) : (s.entered kind).Houses l :=
  fun _ hc => absurd hc List.not_mem_nil

/-- A node may be added that is housed itself. -/
theorem closed {kind : NodeKind} (h : s.Houses l) (hbegins : t.begins = s.begins)
    (hnode : ∀ span, Housed (s.begins != 0 || l.isCounted && kind == .stmtList) false
      (.node kind span t.out.toList)) : (s.closed kind t).Houses l := by
  intro c hc
  have hcount : (s.closed kind t).begins = s.begins := hbegins
  obtain ⟨moved, hout⟩ := State.out_closed kind s t
  rw [hout, List.append_assoc, List.mem_append, List.mem_append, List.mem_singleton] at hc
  rw [hcount]
  rcases hc with hc | hc | rfl
  · exact h c hc
  · obtain ⟨m, -, rfl⟩ := List.mem_map.1 hc
    exact .leaf _ _ m
  · exact hnode _

/-- A node over what was built in it is housed. It is no list, and if it is a `begin` block
then none is open. -/
theorem node {kind : NodeKind} (h : t.Houses kind.lists) (hkind : kind ≠ .error)
    (hfree : kind = .beginStmt → t.begins = 0) (span : Span) :
    Housed (t.begins != 0) false (.node kind span t.out.toList) := by
  have herror : (kind == .error) = false := beq_eq_false_iff_ne.2 hkind
  refine .node (fun hbegin => ?_) fun c hc => herror ▸ h c hc
  rw [hfree hbegin]
  rfl

/-- What is built around a node that was built, no list, is housed. -/
theorem around {outer : Array Tree} {first : Tree} {kind : NodeKind} (h : s.Houses l)
    (hout : s.out = outer.push first) (hbegins : t.begins = s.begins)
    (hnode : ∀ span, Housed (s.begins != 0) false (.node kind span t.out.toList))
    (hkind : kind ≠ .stmtList) (start : Nat) : (t.close kind start outer).Houses l := by
  intro c hc
  have hcount : (t.close kind start outer).begins = s.begins := hbegins
  rw [State.close, Array.toList_push, List.mem_append, List.mem_singleton] at hc
  rw [hcount]
  rcases hc with hc | rfl
  · exact h c (by simp [hout, hc])
  · have hlist : (Tree.node kind ⟨start, t.offset⟩ t.out.toList).isNode (· == .stmtList) = false :=
      beq_eq_false_iff_ne.2 hkind
    rw [hlist, Bool.and_false, Bool.or_false]
    exact hnode _

/-- What is taken over stood in the node around, and no list did. -/
theorem taken {l' : Lists} {outer : Array Tree} {first : Tree} (h : s.Houses l)
    (hout : s.out = outer.push first) (hfirst : first.isNode (· != .stmtList) = true) :
    (s.inside #[first]).Houses l' := by
  intro c hc
  obtain rfl : c = first := by simpa [State.inside] using hc
  have hhoused := h c (by simp [hout])
  rwa [isNode_list_eq_false hfirst, Bool.and_false, Bool.or_false] at hhoused ⊢

/-- A list that counts as open inside is housed where it may stand. -/
theorem counted (h : s.Houses .counted) (hbegins : t.begins = s.begins + 1)
    (ht : t.Houses .none) :
    (((s.raise .begins).closed .stmtList t).lower .begins).Houses .counted := by
  have hcount : (((s.raise .begins).closed .stmtList t).lower .begins).begins = s.begins :=
    (State.count_lower .begins _).trans (congrArg (· - 1) hbegins)
  have hout : (((s.raise .begins).closed .stmtList t).lower .begins).out
      = s.out.push (.node .stmtList ⟨s.offset, t.offset⟩ t.out.toList) := State.out_lower _ _
  intro c hc
  rw [hout, Array.toList_push, List.mem_append, List.mem_singleton] at hc
  rw [hcount]
  rcases hc with hc | rfl
  · exact h c hc
  -- What was read inside is now below a list of statements in one more block.
  · have hlist : (Tree.node .stmtList ⟨s.offset, t.offset⟩ t.out.toList).isNode (· == .stmtList)
        = true := rfl
    refine .node (absurd · (by decide)) fun c hc => (ht c hc).congr ?_ rfl
    simp [hbegins, hlist]

/-- A `begin` block that is set aside where another one is open is housed. -/
theorem nested (h : s.Houses l) (hopen : s.begins ≠ 0) (hbegins : t.begins = s.begins)
    (ht : t.Houses .counted) : (s.closed .error (s.aside.closed .beginStmt t)).Houses l := by
  have hinside : (s.begins != 0) = true := bne_iff_ne.2 hopen
  refine h.closed hbegins fun span => .node (absurd · (by decide)) fun c hc => ?_
  obtain ⟨moved, hout⟩ := State.out_closed .beginStmt s.aside t
  rw [hout, List.append_assoc, List.mem_append, List.mem_append, List.mem_singleton] at hc
  rcases hc with hc | hc | rfl
  · exact absurd hc List.not_mem_nil
  · obtain ⟨m, -, rfl⟩ := List.mem_map.1 hc
    exact .leaf _ _ m
  · refine .node (fun _ => by simp [hinside]) fun c hc => (ht c hc).congr ?_ rfl
    simp [hbegins, hinside]

end State.Houses

/-- **What is built is housed.** -/
theorem Course.housed (h : Course g s t) (hg : g = .nodes l) (hs : s.Houses l) : t.Houses l := by
  induction h generalizing l with
  | refl => exact hs
  | looked _ ih | complain _ _ ih => exact ih hg hs
  | @consume _ _ t _ _ ih =>
    obtain ⟨before, next, after, hout, -⟩ := t.toList_out_consume
    exact (ih hg hs).tokens (State.count_consume .begins t) hout
  | @setCount _ _ t _ c hc n ih =>
    have hout : (t.setCount c n).out.toList = t.out.toList ++ ([] : List Token).map .leaf := by
      simp
    exact (ih hg hs).tokens (State.count_setCount_of_ne hc.symm n t) hout
  -- The node is closed around what it houses, in as many open blocks as before.
  | @node l' s t u _ kind hkind hfree hbody ih ihbody =>
    cases hg
    have hbegins : u.begins = t.begins := hbody.begins.trans (t.begins_opened kind)
    have hlist : (kind == .stmtList) = false := beq_eq_false_iff_ne.2 hkind.2
    refine (ih rfl hs).closed hbegins fun span => ?_
    rw [hlist, Bool.and_false, Bool.or_false, ← hbegins]
    exact (ihbody rfl (.entered _ _ _)).node hkind.1 (fun h => hbegins.trans (hfree h)) span
  | @error l' s t u _ hbody ih _ =>
    cases hg
    -- An error node of this kind holds tokens only.
    obtain ⟨moved, hout⟩ := hbody.flat rfl
    refine (ih rfl hs).closed (hbody.begins.trans (t.begins_opened .error)) fun span =>
      .node (absurd · (by decide)) fun c hc => ?_
    rw [hout, List.mem_append] at hc
    obtain ⟨m, -, rfl⟩ := List.mem_map.1 (hc.resolve_left List.not_mem_nil)
    exact .leaf _ _ m
  | @around l' s t u _ outer first hout hfirst kind hkind hbody ih ihbody =>
    cases hg
    obtain ⟨herror, hlist, hbegin⟩ := NodeKind.isFree_iff.1 hkind
    have hbegins : u.begins = t.begins := hbody.begins
    refine (ih rfl hs).around hout hbegins (fun span => ?_) hlist _
    rw [← hbegins]
    exact (ihbody rfl ((ih rfl hs).taken hout hfirst)).node herror (absurd · hbegin) span
  | @list s t u _ hbody ih ihbody =>
    cases hg
    have hbegins : u.begins = t.begins := hbody.begins
    refine (ih rfl hs).closed hbegins fun span => .node (absurd · (by decide)) fun c hc => ?_
    exact (ihbody rfl (.entered .none .stmtList t) c hc).congr (by simp [hbegins]) rfl
  | @counted s t u _ hbody ih ihbody =>
    cases hg
    have hbegins : u.begins = t.begins + 1 := hbody.begins.trans (State.count_raise .begins t)
    exact (ih rfl hs).counted hbegins (ihbody rfl (.entered _ _ _))
  | @nested l' s t u _ hopen _ hbody ih ihbody =>
    cases hg
    have hinner : (t.aside.entered .beginStmt).begins = t.begins :=
      (t.aside.begins_opened .beginStmt).trans (t.begins_opened .error)
    have hbegins : u.begins = t.begins :=
      (hbody.begins.trans (State.count_consume .begins _)).trans hinner
    obtain ⟨before, next, after, hconsumed, -⟩ := (t.aside.entered .beginStmt).toList_out_consume
    -- The word `begin` is taken as the first token of the block that is set aside.
    have hword := (State.Houses.entered .counted .beginStmt t.aside).tokens
      (State.count_consume .begins _) hconsumed
    exact (ih rfl hs).nested hopen hbegins (ihbody rfl hword)

/-! ## Complaints -/

/-- The places of the complaints about `begin` blocks inside one another. -/
def State.reported (s : State) : List Span :=
  (s.complaints.toList.filter (·.problem == .nestedBegin)).map Complaint.span

/-- **What is complained about and what is set aside go together**: on the way from the one
state to the other, the complaints about `begin` blocks inside one another are about the
words of those set aside, in order. -/
def Reports (s t : State) : Prop :=
  ∃ words : List Token, t.reported = s.reported ++ words.map Token.span
    ∧ asidesOfAll false t.out.toList = asidesOfAll false s.out.toList ++ words.map some

theorem State.reported_opened (kind : NodeKind) (s : State) :
    (s.opened kind).reported = s.reported := by
  have hcomplaints : (s.opened kind).complaints = s.complaints := by
    unfold State.opened
    split
    · rfl
    · exact State.shiftTrivia_eq State.complaints_shift s
  rw [State.reported, hcomplaints, State.reported]

theorem State.reported_consume (s : State) : s.consume.reported = s.reported := by
  rw [State.reported, State.consume_eq State.complaints_shift (fun _ _ => rfl) s, State.reported]

namespace Reports

theorem refl (s : State) : Reports s s := ⟨[], by simp, by simp⟩

theorem trans (h : Reports s t) (h' : Reports t u) : Reports s u := by
  obtain ⟨words, hwords, hasides⟩ := h
  obtain ⟨words', hwords', hasides'⟩ := h'
  exact ⟨words ++ words', by simp [hwords, hwords'], by simp [hasides, hasides']⟩

theorem setCount (h : Reports s t) (c : Counter) (n : Nat) : Reports s (t.setCount c n) := by
  cases c <;> exact h

theorem lower {c : Counter} (h : Reports s t) : Reports s (t.lower c) := by
  unfold State.lower
  split
  · exact h
  · exact h.setCount c _

/-- Tokens may be added, and other complaints. -/
theorem tokens {moved : List Token} (h : Reports s t) (hreported : u.reported = t.reported)
    (hout : u.out.toList = t.out.toList ++ moved.map .leaf) : Reports s u := by
  obtain ⟨words, hwords, hasides⟩ := h
  exact ⟨words, hreported.trans hwords, by simp [hout, hasides]⟩

/-- A node may be added: what is set aside in it stands behind what was in front of it. -/
theorem closed {kind : NodeKind} (h : Reports s t) (hkind : kind ≠ .error)
    (hbody : Reports (t.entered kind) u) : Reports s (t.closed kind u) := by
  obtain ⟨words, hwords, hasides⟩ := hbody
  obtain ⟨moved, hout⟩ := State.out_closed kind t u
  have hfree : (kind == .error) = false := beq_eq_false_iff_ne.2 hkind
  refine h.trans ⟨words, ?_, ?_⟩
  · rw [← State.reported_opened kind t]
    exact hwords
  · rw [hout]
    simpa [Tree.asides_node, hfree, State.inside] using hasides

end Reports

theorem KeepsTokens.trans (h : KeepsTokens s t) (h' : KeepsTokens t u) : KeepsTokens s u :=
  fun front m hfront => h' front m (h front m hfront)

theorem keepsTokens_closed (kind : NodeKind) (t u : State) : KeepsTokens t (t.closed kind u) := by
  obtain ⟨moved, hout⟩ := State.out_closed kind t u
  exact Formal.keepsTokens_append (by rw [hout, List.append_assoc])

/-- What was built up to a token stays. -/
theorem Course.kept (h : Course g s t) : KeepsTokens s t := by
  induction h with
  | refl => exact fun _ _ h => h
  | looked _ ih | complain _ _ ih => exact ih
  | consume _ _ ih =>
    obtain ⟨before, next, after, hout, -⟩ := State.toList_out_consume _
    exact ih.trans (Formal.keepsTokens_append hout)
  | setCount _ _ n ih => exact ih.trans fun front m hfront => by rwa [State.out_setCount]
  | node _ _ _ _ ih _ | error _ _ ih _ | list _ _ ih _ => exact ih.trans (keepsTokens_closed _ _ _)
  | @around _ s t u _ outer first hout hfirst kind _ _ ih _ =>
    refine ih.trans fun front m hfront => ?_
    rw [hout, Array.toList_push] at hfront
    rw [State.close, Array.toList_push]
    -- A token is not the node that is built around.
    have hfront : front ++ [.leaf m] <+: outer.toList := by
      refine (List.prefix_concat_iff.1 hfront).resolve_left fun heq => ?_
      obtain rfl := List.singleton_inj.1 (List.append_inj' heq rfl).2
      cases hfirst
    exact hfront.trans (List.prefix_append _ _)
  | @counted s t u _ _ ih _ =>
    refine ih.trans fun front m hfront => ?_
    rw [State.out_lower]
    exact keepsTokens_closed .stmtList (t.raise .begins) u front m hfront
  | nested _ _ _ _ ih _ => exact ih.trans (keepsTokens_closed _ _ _)

/-- The place of a complaint in front of a node that begins with a word. -/
theorem State.place_of_opened {kind : NodeKind} (hkind : kind ≠ .stmtList) {ms ms' : List Token}
    {word : Token} (hrest : (s.opened kind).rest = ms ++ word :: ms')
    (htrivia : ∀ m ∈ ms, m.kind.isTrivia = true) (hword : word.kind.isSignificant = true) :
    s.place = word.span := by
  have hsolid : word.kind.isTrivia = false ∧ word.kind ≠ .newline := by
    simpa [TokenKind.isSignificant] using hword
  rw [opened, if_neg hkind, rest_shiftTrivia] at hrest
  have hnext : s.rest.dropWhile (·.kind.isTrivia) = word :: ms' := by
    rw [← List.dropWhile_idempotent, hrest, List.dropWhile_append_of_pos htrivia,
      List.dropWhile_cons_of_neg (by simp [hsolid.1])]
  unfold State.place
  rw [hnext]
  exact if_neg fun h => hsolid.2 (eq_of_beq h)

/-- The first word of a node, behind nothing but trivia. -/
theorem tokenOf?_of_prefix {kind : NodeKind} {span : Span} {cs : List Tree} {ms : List Token}
    {word : Token} (hcs : ms.map Tree.leaf ++ [.leaf word] <+: cs)
    (htrivia : ∀ m ∈ ms, m.kind.isTrivia = true) (hword : word.kind.isTrivia = false) :
    (Tree.node kind span cs).tokenOf? word.kind = some word := by
  obtain ⟨more, rfl⟩ := hcs
  -- The trivia in front are of other kinds, so the word is the first of its kind.
  have hother : ∀ m ∈ ms, ¬ (m.kind == word.kind) = true := fun m hm heq => by
    rw [← eq_of_beq heq, htrivia m hm] at hword
    cases hword
  have htokens : (ms.map Tree.leaf ++ [Tree.leaf word] ++ more).filterMap Tree.token?
      = ms ++ [word] ++ more.filterMap Tree.token? := by
    rw [List.filterMap_append, List.filterMap_append, List.filterMap_map]
    exact congrArg (· ++ [word] ++ _) List.filterMap_some
  rw [Tree.tokenOf?, Tree.tokenWhere?, Tree.children, htokens, List.find?_append,
    List.find?_append, List.find?_eq_none.2 hother]
  simp

/-- The first word of a block that is set aside is the one that the complaint is about. -/
theorem State.exists_beginWord (hahead : kindAhead 0 s.rest = .kwBegin)
    (hkept : KeepsTokens (s.aside.entered .beginStmt).consume t) :
    ∃ word : Token, (s.entered .error).place = word.span
      ∧ asidesOfAll false (s.aside.entered .beginStmt).consume.out.toList = []
      ∧ ∀ span, (Tree.node .beginStmt span t.out.toList).tokenOf? .kwBegin = some word := by
  have hinner := s.kindAhead_aside.trans hahead
  obtain ⟨trivia, word, layout, hrest, hout, htrivia, hword, -⟩ :=
    (s.aside.entered .beginStmt).consumed (by rw [hinner]; decide)
  rw [hinner] at hword
  -- The error node and the node in it start at the same word, as the trivia are left outside of
  -- both.
  refine ⟨word, ?_, by rw [hout]; simp [State.inside], fun span => ?_⟩
  · exact State.place_of_opened (s := s.aside) (show NodeKind.beginStmt ≠ .stmtList by decide)
      (hrest.trans (List.append_assoc ..)) htrivia (by rw [hword]; rfl)
  · rw [← hword]
    refine tokenOf?_of_prefix (hkept _ _ ?_) htrivia (by rw [hword]; rfl)
    rw [hout]
    exact ⟨layout.map .leaf, by simp [State.inside]⟩

namespace Reports

/-- Nothing is complained about in an error that holds tokens only. -/
theorem error {moved : List Token} (hbody : Reports (s.entered .error) t)
    (hflat : t.out.toList = moved.map .leaf) : Reports s (s.closed .error t) := by
  obtain ⟨words, hwords, hasides⟩ := hbody
  obtain ⟨trivia, hout⟩ := State.out_closed .error s t
  have hnone : words = [] := by simpa [hflat, State.inside] using hasides
  rw [hnone, List.map_nil, List.append_nil] at hwords
  refine ⟨[], ?_, ?_⟩
  · rw [List.map_nil, List.append_nil]
    exact hwords.trans (State.reported_opened .error s)
  · rw [hout]
    simp [Tree.asides_node, hflat]

/-- A node that is taken over keeps what is set aside in it. -/
theorem around {outer : Array Tree} {first : Tree} {kind : NodeKind}
    (hout : s.out = outer.push first) (hkind : kind ≠ .error)
    (hbody : Reports (s.inside #[first]) t) (start : Nat) :
    Reports s (t.close kind start outer) := by
  obtain ⟨words, hwords, hasides⟩ := hbody
  have hfree : (kind == .error) = false := beq_eq_false_iff_ne.2 hkind
  have hinside : (s.inside #[first]).out.toList = [first] := rfl
  rw [hinside] at hasides
  refine ⟨words, hwords, ?_⟩
  rw [hout, State.close, Array.toList_push, Array.toList_push]
  simpa [Tree.asides_node, hfree] using hasides

/-- A block that is set aside is complained about, and then those inside it. -/
theorem nested (hahead : kindAhead 0 s.rest = .kwBegin)
    (hkept : KeepsTokens (s.aside.entered .beginStmt).consume t)
    (hbody : Reports (s.aside.entered .beginStmt).consume t) :
    Reports s (s.closed .error (s.aside.closed .beginStmt t)) := by
  obtain ⟨word, hplace, hnone, hfirst⟩ := State.exists_beginWord hahead hkept
  obtain ⟨words, hwords, hasides⟩ := hbody
  rw [hnone, List.nil_append] at hasides
  refine ⟨word :: words, ?_, ?_⟩
  -- Setting aside has reported the word where the node begins.
  · have hreported : (s.aside.entered .beginStmt).consume.reported = s.reported ++ [word.span] := by
      rw [State.reported_consume, ← State.reported_opened .error s, ← hplace]
      refine (State.reported_opened .beginStmt s.aside).trans ?_
      simp [State.reported, State.complained, State.inside]
    rw [List.map_cons, List.append_cons, ← hreported]
    exact hwords
  · obtain ⟨trivia, hout⟩ := State.out_closed .error s (s.aside.closed .beginStmt t)
    obtain ⟨front, hfront⟩ := State.out_closed .beginStmt s.aside t
    -- The node names that word first, and behind it those that its body has set aside.
    have hnode (span : Span) : (Tree.node .beginStmt span t.out.toList).asides true
        = some word :: words.map some := by
      rw [Tree.asides, hfirst]
      exact congrArg (some word :: ·) hasides
    rw [hout, hfront]
    simp [Tree.asides_node, hnode, State.complained, State.inside]

end Reports

/-- **Each `begin` block that is set aside is complained about once**, at its first word. -/
theorem Course.reports (h : Course g s t) : Reports s t := by
  induction h with
  | refl => exact .refl _
  | looked _ ih => exact ih
  | @consume _ _ t _ _ ih =>
    obtain ⟨before, next, after, hout, -⟩ := t.toList_out_consume
    exact ih.tokens t.reported_consume hout
  -- A complaint of this kind is never about a block that is set aside.
  | @complain _ _ t _ p hp ih =>
    have hout : (t.complained p).out.toList = t.out.toList ++ ([] : List Token).map .leaf := by
      simp [State.complained]
    refine ih.tokens ?_ hout
    simp [State.reported, State.complained, hp]
  | setCount _ _ n ih => exact ih.setCount _ n
  | node _ hkind _ _ ih ihbody => exact ih.closed hkind.1 ihbody
  | error _ hbody ih ihbody =>
    obtain ⟨moved, hflat⟩ := hbody.flat rfl
    exact ih.trans (ihbody.error hflat)
  -- A node that is put around another leaves its report in place.
  | around _ hout _ hkind _ ih ihbody =>
    exact ih.trans (ihbody.around hout (NodeKind.isFree_iff.1 hkind).1 _)
  | list _ _ ih ihbody => exact ih.closed (by decide) ihbody
  | counted _ _ ih ihbody => exact ((ih.setCount .begins _).closed (by decide) ihbody).lower
  | nested _ _ hahead hbody ih ihbody => exact ih.trans (ihbody.nested hahead hbody.kept)

end Grammar

end ScriptSense
