/-
A calculus for the walk from the tree to the meaning.

Every step of the walk goes over some ground: places of the text, and in them the nodes
that may open scopes and the declarations. The judgement `Walks` says of a step what the
steps after it rely on. What it opens and declares lies on its ground; it declares
nothing in the scopes that were there before, unless it is said to do so in its own; and
the names it has met are bound lexically, whatever comes later, if that stands behind
its ground.

Two steps in a row go over two pieces of ground. If neither declares anything for the
other to see, it is enough that no node opens scopes on both. Else the second piece must
stand behind the first one in the text.
-/
import ScriptSense.Proofs.Script.Log
import ScriptSense.Proofs.Syntax.Tiled

set_option autoImplicit false

namespace ScriptSense

/-! ## Ground -/

/-- A part of a text that a step goes over. -/
structure Ground where
  /-- The nodes that may open scopes. -/
  opens : NodeKey → Prop
  /-- The places where names are used and declared. -/
  spans : List Span
  /-- A declaration with the node of this ground that opens the scope it belongs to. -/
  inner : NodeKey → NodeKey → Prop
  /-- A declaration that belongs to the scope around the ground. -/
  outer : NodeKey → Prop

namespace Ground

variable {R S : Ground}

/-- No ground at all. -/
def nowhere : Ground := ⟨fun _ => False, [], fun _ _ => False, fun _ => False⟩

/-- Two pieces of ground. -/
instance : Append Ground where
  append R S := ⟨fun n => R.opens n ∨ S.opens n, R.spans ++ S.spans,
    fun decl node => R.inner decl node ∨ S.inner decl node, fun decl => R.outer decl ∨ S.outer decl⟩

/-- The ground inside a node that opens a scope. -/
def inside (key : NodeKey) (R : Ground) : Ground :=
  ⟨fun n => n = key ∨ R.opens n, R.spans,
    fun decl node => R.inner decl node ∨ R.outer decl ∧ node = key, fun _ => False⟩

/-- No node opens scopes on both pieces of ground. -/
def Apart (R S : Ground) : Prop := ∀ n, n.span.start < n.span.stop → R.opens n → ¬ S.opens n

/-- The first piece of ground stands in front of the second one. -/
def Before (R S : Ground) : Prop := ∀ r ∈ R.spans, ∀ s ∈ S.spans, r.stop ≤ s.start

/-- The first piece of ground is part of the second one. -/
structure Within (declares : Bool) (R S : Ground) : Prop where
  opens (n : NodeKey) : n.span.start < n.span.stop → R.opens n → S.opens n
  spans : ∀ r ∈ R.spans, ∃ s ∈ S.spans, s.start ≤ r.start ∧ r.stop ≤ s.stop
  inner (decl node : NodeKey) : R.inner decl node → S.inner decl node
  outer (decl : NodeKey) : declares = true → R.outer decl → S.outer decl

/-- A ground is within itself. -/
theorem Within.refl (declares : Bool) (R : Ground) : R.Within declares R :=
  ⟨fun _ _ => id, fun r hr => ⟨r, hr, Nat.le_refl _, Nat.le_refl _⟩, fun _ _ => id, fun _ _ => id⟩

/-- No ground at all is within every ground. -/
theorem within_nowhere (declares : Bool) (R : Ground) : nowhere.Within declares R :=
  ⟨fun _ _ => False.elim, nofun, fun _ _ => False.elim, fun _ _ => False.elim⟩

/-- The first of two grounds is within both together. -/
theorem within_append_left (declares : Bool) (R S : Ground) : R.Within declares (R ++ S) :=
  ⟨fun _ _ h => .inl h, fun r hr => ⟨r, List.mem_append_left _ hr, Nat.le_refl _, Nat.le_refl _⟩,
    fun _ _ h => .inl h, fun _ _ h => .inl h⟩

/-- So is the second. -/
theorem within_append_right (declares : Bool) (R S : Ground) : S.Within declares (R ++ S) :=
  ⟨fun _ _ h => .inr h, fun r hr => ⟨r, List.mem_append_right _ hr, Nat.le_refl _, Nat.le_refl _⟩,
    fun _ _ h => .inr h, fun _ _ h => .inr h⟩

/-- Two grounds within a third are so together. -/
theorem Within.append {declares : Bool} {T : Ground} (h : R.Within declares T)
    (h' : S.Within declares T) : (R ++ S).Within declares T where
  opens n hproper hn := hn.elim (h.opens n hproper) (h'.opens n hproper)
  spans r hr := (List.mem_append.1 hr).elim (h.spans r) (h'.spans r)
  inner decl node hd := hd.elim (h.inner decl node) (h'.inner decl node)
  outer decl hdeclares hd := hd.elim (h.outer decl hdeclares) (h'.outer decl hdeclares)

end Ground

open Ground (Within Apart Before)

/-! ## The judgement -/

/-- What a step finds in front of its ground: no scope has been opened on it, and what is
declared around it stands in front of it. -/
structure Ready (sc : ScopeId) (R : Ground) (g : Gathered) (log : List Entry) : Prop where
  logged : Logged g log
  scope : sc.index < g.scopes.scopes.size
  fresh {id : ScopeId} {s : Scope} : g.scopes.scope? id = some s →
    s.node.span.start < s.node.span.stop → ¬ R.opens s.node
  clear {e : Entry} : e ∈ log → e.home ∈ g.scopes.ancestors sc →
    ∀ r ∈ R.spans, e.symbol.decl.span.stop ≤ r.start

/-- What a step leaves behind: the scopes it has opened are opened by nodes on its
ground, and what it has declared belongs to them or, if it declares, to its own scope. -/
structure Reaches (sc : ScopeId) (declares : Bool) (R : Ground) (g : Gathered) (log : List Entry)
    (g' : Gathered) (log' : List Entry) : Prop where
  logged : Logged g' log'
  grows : Grows g log g' log'
  opens {id : ScopeId} {s : Scope} : g'.scopes.scope? id = some s →
    g.scopes.scopes.size ≤ id.index → s.node.span.start < s.node.span.stop → R.opens s.node
  entries {i : Nat} {e : Entry} : log'[i]? = some e → log.length ≤ i →
    (g.scopes.scopes.size ≤ e.home.index ∧ R.inner e.symbol.decl e.node)
      ∨ declares = true ∧ e.home = sc
        ∧ (∃ r ∈ R.spans, r.start ≤ e.symbol.decl.span.start ∧ e.symbol.decl.span.stop ≤ r.stop)
        ∧ R.outer e.symbol.decl

/-- The uses are bound lexically, whatever comes later. -/
def Bound (R : Ground) (g : Gathered) (log : List Entry) (uses : List SymbolId → Use → Prop) : Prop :=
  ∀ pending g' log', Follows R.spans pending g log g' log' → ∀ u, uses pending u →
    Lexical (LoggedIn log') g'.scopes g'.external.values u

variable {α β τ : Type} {sc : ScopeId} {d d' d₁ d₂ : Bool} {R S : Ground} {g g' g'' : Gathered}
  {log log' log'' : List Entry}

namespace Ready

/-- Who is ready for some ground is ready for less of it. -/
theorem mono (h : Ready sc S g log) (hwithin : R.Within d S) : Ready sc R g log where
  logged := h.logged
  scope := h.scope
  fresh hs hproper hopens := h.fresh hs hproper (hwithin.opens _ hproper hopens)
  clear he hhome r hr := by
    obtain ⟨s, hs, hstart, -⟩ := hwithin.spans r hr
    exact (h.clear he hhome s hs).trans hstart

end Ready

namespace Follows

variable {spans spans' : List Span} {pending : List SymbolId}

/-- What comes later behind some places comes later behind fewer. -/
theorem mono (h : Follows spans' pending g log g' log')
    (hspans : ∀ r ∈ spans, ∃ s ∈ spans', r.stop ≤ s.stop) : Follows spans pending g log g' log' where
  logged := h.logged
  grows := h.grows
  behind he hi hhome := (h.behind he hi hhome).imp_left fun hbehind r hr => by
    obtain ⟨s, hs, hstop⟩ := hspans r hr
    exact hstop.trans (hbehind s hs)
  pending := h.pending

end Follows

namespace Reaches

/-- A step that does nothing stays where it is. -/
theorem refl (h : Logged g log) : Reaches sc d R g log g log where
  logged := h
  grows := .refl g log
  opens hs hid := absurd (ScopeTree.lt_size_of_scope? hs) (Nat.not_lt_of_le hid)
  entries he hi := absurd (List.getElem?_eq_some_iff.1 he).1 (Nat.not_lt_of_le hi)

/-- A step may be said to reach over more ground than it does. -/
theorem mono (h : Reaches sc d R g log g' log') (hwithin : R.Within d S) (hd : d = true → d' = true) :
    Reaches sc d' S g log g' log' where
  logged := h.logged
  grows := h.grows
  opens hs hid hproper := hwithin.opens _ hproper (h.opens hs hid hproper)
  entries he hi := by
    rcases h.entries he hi with ⟨hnew, hinner⟩ | ⟨hdeclares, hhome, ⟨r, hr, hstart, hstop⟩, houter⟩
    · exact .inl ⟨hnew, hwithin.inner _ _ hinner⟩
    · obtain ⟨s, hs, hs₁, hs₂⟩ := hwithin.spans r hr
      exact .inr ⟨hd hdeclares, hhome, ⟨s, hs, hs₁.trans hstart, hstop.trans hs₂⟩,
        hwithin.outer _ hdeclares houter⟩

/-- Two steps over the same ground reach over it. -/
theorem trans (h : Reaches sc d R g log g' log') (h' : Reaches sc d R g' log' g'' log'') :
    Reaches sc d R g log g'' log'' where
  logged := h'.logged
  grows := h.grows.trans h'.grows
  opens {id s} hs hid hproper := by
    -- A scope was there before the second step, or the second step opened it.
    by_cases hold : id.index < g'.scopes.scopes.size
    · obtain ⟨r, hr⟩ := ScopeTree.exists_scope_of_lt hold
      obtain ⟨s', hs', -, hnode⟩ := h'.grows.scopes.scope hr
      obtain rfl := Option.some.inj (hs'.symm.trans hs)
      rw [hnode] at hproper ⊢
      exact h.opens hr hid hproper
    · exact h'.opens hs (Nat.le_of_not_lt hold) hproper
  entries {i e} he hi := by
    by_cases hold : i < log'.length
    · rw [h'.grows.getElem? hold] at he
      exact h.entries he hi
    · refine (h'.entries he (Nat.le_of_not_lt hold)).imp_left fun ⟨hnew, hinner⟩ => ⟨?_, hinner⟩
      exact h.grows.scopes.size_le.trans hnew

/-- The next piece of ground is ready. -/
theorem ready (h : Reaches sc d R g log g' log') (hready : Ready sc S g log) (hapart : R.Apart S)
    (hbefore : d = true → R.Before S) : Ready sc S g' log' where
  logged := h.logged
  scope := hready.scope.trans_le h.grows.scopes.size_le
  fresh {id s} hs hproper hopens := by
    -- A scope from before the step is as fresh as it was, and one of the step lies on its
    -- ground.
    by_cases hold : id.index < g.scopes.scopes.size
    · obtain ⟨r, hr⟩ := ScopeTree.exists_scope_of_lt hold
      obtain ⟨s', hs', -, hnode⟩ := h.grows.scopes.scope hr
      obtain rfl := Option.some.inj (hs'.symm.trans hs)
      rw [hnode] at hproper hopens
      exact hready.fresh hr hproper hopens
    · exact hapart _ hproper (h.opens hs (Nat.le_of_not_lt hold) hproper) hopens
  clear {e} he hhome s hs := by
    rw [h.grows.scopes.ancestors_eq hready.logged.ranked h.logged.ranked hready.scope] at hhome
    obtain ⟨i, he⟩ := List.getElem?_of_mem he
    by_cases hold : i < log.length
    · rw [h.grows.getElem? hold] at he
      exact hready.clear (List.mem_of_getElem? he) hhome s hs
    -- A declaration of the step is in a scope of its own, or in front of what comes next.
    · rcases h.entries he (Nat.le_of_not_lt hold) with ⟨hnew, -⟩ | ⟨hd, -, ⟨r, hr, -, hstop⟩, -⟩
      · obtain ⟨q, hq⟩ := ScopeTree.exists_scope_of_mem_ancestors hready.logged.ranked hhome
        exact absurd (ScopeTree.lt_size_of_scope? hq) (Nat.not_lt_of_le hnew)
      · exact hstop.trans (hbefore hd r hr s hs)

/-- What comes later than the next piece of ground comes later than this one. -/
theorem later {spans : List Span} {pending : List SymbolId} {gF : Gathered} {logF : List Entry}
    (h : Reaches sc d R g log g' log') (hlater : Follows spans pending g' log' gF logF)
    (hbefore : d = true → ∀ r ∈ spans, ∀ s ∈ R.spans, r.stop ≤ s.start) :
    Follows spans pending g log gF logF where
  logged := hlater.logged
  grows := h.grows.trans hlater.grows
  behind {i e} he hi hhome := by
    by_cases hold : i < log'.length
    · rw [hlater.grows.getElem? hold] at he
      rcases h.entries he hi with ⟨hnew, -⟩ | ⟨hd, -, ⟨s, hs, hstart, -⟩, -⟩
      · exact absurd hhome (Nat.not_lt_of_le hnew)
      · exact .inl fun r hr => (hbefore hd r hr s hs).trans hstart
    · exact hlater.behind he (Nat.le_of_not_lt hold) (hhome.trans_le h.grows.scopes.size_le)
  pending hx := h.grows.length_le.trans (hlater.pending hx)

end Reaches

/-! ## A scope that is opened -/

/-- Inside a scope that is opened the ground is ready. -/
theorem Ready.openScope {key : NodeKey} (h : Ready sc (R.inside key) g log) (kind : ScopeKind)
    (hopens : key.span.start < key.span.stop → ¬ R.opens key) : Ready ⟨g.scopes.scopes.size⟩ R
      { g with scopes := (g.scopes.openScope sc kind key).2 } log where
  logged := h.logged.openScope h.scope kind fun hs hproper hnode =>
    h.fresh hs (by rwa [hnode]) (.inl hnode)
  scope := by
    rw [ScopeTree.size_openScope]
    exact Nat.lt_succ_self _
  fresh hs hproper hR := by
    rcases ScopeTree.node_of_openScope h.scope hs with ⟨-, hnode⟩ | ⟨r, hr, hnode⟩
    · rw [hnode] at hproper hR
      exact hopens hproper hR
    · rw [hnode] at hproper hR
      exact h.fresh hr hproper (.inr hR)
  clear he hhome := by
    rw [ScopeTree.ancestors_openScope h.logged.ranked h.scope, List.mem_cons] at hhome
    rcases hhome with hhome | hhome
    -- Nothing can have been declared yet in a scope that was not there.
    · have hlt := h.logged.home_lt he
      rw [hhome] at hlt
      exact absurd hlt (Nat.lt_irrefl _)
    · exact h.clear he hhome

/-- What is reached inside a scope that is opened is reached. -/
theorem Reaches.of_openScope {key : NodeKey} {kind : ScopeKind} (hscope : sc.index < g.scopes.scopes.size)
    (h : Reaches ⟨g.scopes.scopes.size⟩ d' R { g with scopes := (g.scopes.openScope sc kind key).2 } log
      g' log') : Reaches sc d (R.inside key) g log g' log' := by
  have hextends : g.scopes.Extends (g.scopes.openScope sc kind key).2 :=
    ScopeTree.extends_openScope hscope kind key
  -- The scope opened here is still the one of its node when the walk inside is done.
  have hself := ScopeTree.scope?_openScope hscope kind key ⟨g.scopes.scopes.size⟩
  rw [if_pos rfl] at hself
  obtain ⟨s', hs', -, hnode⟩ := h.grows.scopes.scope hself
  have hsize := ScopeTree.size_openScope g.scopes sc kind key
  refine ⟨h.logged, ⟨hextends.trans h.grows.scopes, h.grows.log, h.grows.external⟩,
    fun {id s} hs hid hproper => ?_, fun {i e} he hi => ?_⟩
  · rcases Nat.eq_or_lt_of_le hid with heq | hlt
    · have hid' : (⟨g.scopes.scopes.size⟩ : ScopeId) = id := by cases id; exact congrArg ScopeId.mk heq
      rw [hid', hs] at hs'
      exact .inl (by rw [Option.some.inj hs', hnode])
    · exact .inr (h.opens hs (by rw [hsize]; exact hlt) hproper)
  · rcases h.entries he hi with ⟨hnew, hinner⟩ | ⟨-, hhome, -, houter⟩
    · rw [hsize] at hnew
      exact .inl ⟨Nat.le_of_succ_le hnew, .inl hinner⟩
    · -- What is declared in the new scope is declared at the node that opens it.
      obtain ⟨s, hs, hsnode⟩ := h.logged.homes (List.mem_of_getElem? he)
      rw [hhome, hs'] at hs
      have hkey : e.node = key := by rw [← hsnode, ← Option.some.inj hs, hnode]
      exact .inl ⟨by rw [hhome], .inr ⟨houter, hkey⟩⟩

/-- **The step goes over the ground**, in a scope: from where it is ready, and wherever it
ends, it has reached no further than the ground, and the uses in its answer are bound. -/
def Walks (sc : ScopeId) (declares : Bool) (R : Ground) (m : Lower α)
    (uses : α → List SymbolId → Use → Prop) : Prop :=
  ∀ g log, Ready sc R g log → ∃ log', Reaches sc declares R g log (m.after g).2 log'
    ∧ ∀ a, (m.after g).1 = some a → Bound R (m.after g).2 log' (uses a)

namespace Walks

variable {m : Lower α} {f : α → Lower β} {U : α → List SymbolId → Use → Prop}
  {V : β → List SymbolId → Use → Prop}

/-- On more ground it is the same. -/
theorem mono (h : Walks sc d R m U) (hwithin : R.Within d S) (hd : d = true → d' = true) :
    Walks sc d' S m U := by
  intro g log hready
  obtain ⟨log', hreaches, hbound⟩ := h g log (hready.mono hwithin)
  refine ⟨log', hreaches.mono hwithin hd, fun a ha pending g' log'' hlater => ?_⟩
  refine hbound a ha pending g' log'' (hlater.mono fun r hr => ?_)
  obtain ⟨s, hs, -, hstop⟩ := hwithin.spans r hr
  exact ⟨s, hs, hstop⟩

/-- Fewer uses are bound as well. -/
theorem weaken {U' : α → List SymbolId → Use → Prop} (h : Walks sc d R m U)
    (hU : ∀ a pending u, U' a pending u → U a pending u ∨ u.expr.usedName? = none) :
    Walks sc d R m U' := by
  intro g log hready
  obtain ⟨log', hreaches, hbound⟩ := h g log hready
  refine ⟨log', hreaches, fun a ha pending g' log'' hlater u hu => ?_⟩
  rcases hU a pending u hu with hu | hnone
  · exact hbound a ha pending g' log'' hlater u hu
  · intro name symbol hused
    rw [hnone] at hused
    cases hused

/-! ## Steps that collect nothing -/

/-- A step that collects nothing reaches nowhere. -/
theorem still (hm : ∀ g, (m.after g).2 = g)
    (hU : ∀ a pending u, U a pending u → u.expr.usedName? = none) : Walks sc d R m U := by
  intro g log hready
  rw [hm g]
  refine ⟨log, .refl hready.logged, fun a _ pending g' log' _ u hu name symbol hused => ?_⟩
  rw [hU a pending u hu] at hused
  cases hused

/-- An answer collects nothing. -/
theorem pure {a : α} (hU : ∀ pending u, U a pending u → u.expr.usedName? = none) :
    Walks sc d R (Pure.pure a) U := by
  intro g log hready
  refine ⟨log, .refl hready.logged, fun b hb pending g' log' _ u hu name symbol hused => ?_⟩
  obtain rfl : a = b := Option.some.inj hb
  rw [hU pending u hu] at hused
  cases hused

/-- A step that fails collects nothing. -/
theorem failure : Walks sc d R (Alternative.failure : Lower α) U := by
  intro g log hready
  exact ⟨log, .refl hready.logged, fun a ha => by cases ha⟩

/-- A value that is missing ends the step before it collects anything. -/
theorem given_bind {o : Option τ} {f : τ → Lower β} (hf : ∀ a, o = some a → Walks sc d R (f a) V) :
    Walks sc d R (Lower.given o >>= f) V := by
  intro g log hready
  cases o with
  | none =>
    rw [Lower.after_bind_none (Lower.after_given none g)]
    exact ⟨log, .refl hready.logged, nofun⟩
  | some a =>
    rw [Lower.after_bind_some (Lower.after_given (some a) g)]
    exact hf a rfl g log hready

/-! ## One step after the other -/

/-- Of the uses in the answer, those that the first step has met need no second look. -/
theorem bind (hm : Walks sc d₁ R m U)
    (hf : ∀ a, Walks sc d₂ S (f a) fun b pending u => V b pending u ∧ ¬ U a pending u)
    (hapart : R.Apart S) (hbefore : (d₁ || d₂) = true → R.Before S) :
    Walks sc (d₁ || d₂) (R ++ S) (m >>= f) V := by
  intro g log hready
  have hleft : d₁ = true → (d₁ || d₂) = true := fun h => by rw [h, Bool.true_or]
  have hright : d₂ = true → (d₁ || d₂) = true := fun h => by rw [h, Bool.or_true]
  obtain ⟨log', hreaches, hbound⟩ := hm g log (hready.mono (Ground.within_append_left d₁ R S))
  have hfirst := hreaches.mono (Ground.within_append_left d₁ R S) hleft
  cases hanswer : m.after g with
  | mk answer g' =>
    rw [hanswer] at hreaches hbound hfirst
    cases answer with
    | none =>
      rw [Lower.after_bind_none hanswer]
      exact ⟨log', hfirst, nofun⟩
    | some a =>
      rw [Lower.after_bind_some hanswer]
      have hready' := hreaches.ready (hready.mono (Ground.within_append_right d₂ R S)) hapart
        fun h => hbefore (hleft h)
      obtain ⟨log'', hreaches', hbound'⟩ := hf a g' log' hready'
      refine ⟨log'', hfirst.trans (hreaches'.mono (Ground.within_append_right d₂ R S) hright),
        fun b hb pending gF logF hlater u hu => ?_⟩
      -- A use was met by the first step or by the second.
      by_cases hmet : U a pending u
      · refine hbound a rfl pending gF logF (hreaches'.later (hlater.mono fun r hr => ?_) ?_) u hmet
        · exact ⟨r, List.mem_append_left _ hr, Nat.le_refl _⟩
        · exact fun h => hbefore (hright h)
      · refine hbound' b hb pending gF logF (hlater.mono fun r hr => ?_) u ⟨hu, hmet⟩
        exact ⟨r, List.mem_append_right _ hr, Nat.le_refl _⟩

/-- Where neither step declares anything, it does not matter which stands in front. -/
theorem chain (hm : Walks sc false R m U)
    (hf : ∀ a, Walks sc false S (f a) fun b pending u => V b pending u ∧ ¬ U a pending u)
    (hapart : R.Apart S) : Walks sc false (R ++ S) (m >>= f) V :=
  bind hm hf hapart fun h => absurd h Bool.false_ne_true

/-- What is declared stands in front of what can see it. -/
theorem inFront (hm : Walks sc true R m U)
    (hf : ∀ a, Walks sc false S (f a) fun b pending u => V b pending u ∧ ¬ U a pending u)
    (hapart : R.Apart S) (hbefore : R.Before S) : Walks sc true (R ++ S) (m >>= f) V :=
  bind hm hf hapart fun _ => hbefore

/-- Where both declare, the first one stands in front. -/
theorem sequence (hm : Walks sc d R m U)
    (hf : ∀ a, Walks sc d S (f a) fun b pending u => V b pending u ∧ ¬ U a pending u)
    (hapart : R.Apart S) (hbefore : R.Before S) : Walks sc d (R ++ S) (m >>= f) V := by
  have hboth := bind hm hf hapart fun _ => hbefore
  rwa [Bool.or_self] at hboth

/-- The answer may be put into something that uses no more names. -/
theorem returning {f : α → β} (hm : Walks sc d R m U)
    (hV : ∀ a pending u, V (f a) pending u → U a pending u ∨ u.expr.usedName? = none) :
    Walks sc d R (m >>= fun a => Pure.pure (f a)) V := by
  intro g log hready
  obtain ⟨log', hreaches, hbound⟩ := hm g log hready
  cases hanswer : m.after g with
  | mk answer g' =>
    rw [hanswer] at hreaches hbound
    cases answer with
    | none =>
      rw [Lower.after_bind_none hanswer]
      exact ⟨log', hreaches, nofun⟩
    | some a =>
      rw [Lower.after_bind_some hanswer]
      refine ⟨log', hreaches, fun b hb pending gF logF hlater u hu name symbol hused => ?_⟩
      obtain rfl : f a = b := Option.some.inj hb
      -- What the wrapped result has besides uses no name.
      rcases hV a pending u hu with hu | hnone
      · exact hbound a rfl pending gF logF hlater u hu name symbol hused
      · rw [hnone] at hused
        cases hused

/-- The answer may be changed to something that uses no more names. -/
theorem map {f : α → β} (hm : Walks sc d R m U)
    (hV : ∀ a pending u, V (f a) pending u → U a pending u ∨ u.expr.usedName? = none) :
    Walks sc d R (f <$> m) V := by
  rw [map_eq_pure_bind]
  exact returning hm hV

/-- A step that may be left out has collected what it has collected. -/
theorem attempt (hm : Walks sc d R m U) :
    Walks sc d R (Lower.attempt m) fun o pending u => ∃ a, o = some a ∧ U a pending u := by
  intro g log hready
  obtain ⟨log', hreaches, hbound⟩ := hm g log hready
  rw [Lower.after_attempt]
  refine ⟨log', hreaches, fun o ho pending gF logF hlater u hu => ?_⟩
  obtain ⟨a, rfl, hu⟩ := hu
  exact hbound a (Option.some.inj ho) pending gF logF hlater u hu

/-! ## Scopes -/

/-- What is opened is seen inside only, and so is what is declared in it. -/
theorem opening {t : Tree} {key : NodeKey} {kind : ScopeKind} {f : ScopeId → Lower β}
    (hkey : t.key? = some key) (hf : ∀ own, Walks own true R (f own) V)
    (hopens : key.span.start < key.span.stop → ¬ R.opens key) :
    Walks sc d (R.inside key) (Lower.openScope sc kind t >>= f) V := by
  intro g log hready
  have hafter : (Lower.openScope sc kind t).after g = (some ⟨g.scopes.scopes.size⟩,
      { g with scopes := (g.scopes.openScope sc kind key).2 }) := by
    rw [Lower.openScope, hkey]
    rfl
  obtain ⟨log', hreaches, hbound⟩ := hf _ _ log (hready.openScope kind hopens)
  rw [Lower.after_bind_some hafter]
  exact ⟨log', hreaches.of_openScope hready.scope, hbound⟩

/-! ## Names -/

end Walks

/-- What is collected behind a name that is looked up. -/
def Gathered.noting (g : Gathered) (sc : ScopeId) (name : String) : Gathered :=
  if (g.scopes.resolve? sc name).isNone then { g with external := g.external.insertNew name name } else g

/-- A name that is not found is noted as external. -/
theorem Lower.after_symbolOrOutside (sc : ScopeId) (name : String) (g : Gathered) :
    (Lower.symbolOrOutside sc name).after g
      = (some ((g.scopes.resolve? sc name).map Prod.snd), g.noting sc name) := by
  have hsymbol : (Lower.symbolOf? sc name).after g = (some ((g.scopes.resolve? sc name).map Prod.snd), g) :=
    rfl
  rw [Lower.symbolOrOutside, Lower.after_bind_some hsymbol, Gathered.noting]
  cases g.scopes.resolve? sc name <;> rfl

/-- A use has the symbol that is found, and is noted as external where none is. -/
theorem Lower.after_nameUse (sc : ScopeId) (t : Tree) (g : Gathered) : (Lower.nameUse sc t).after g
    = (some (.mk (.name (View.Identifier.text t)
        ((g.scopes.resolve? sc (View.Identifier.text t)).map Prod.snd))
        ((((g.scopes.resolve? sc (View.Identifier.text t)).map Prod.snd).map fun x =>
          ((g.scopes.symbol? x).map Symbol.ty).getD .unknown).getD .ambiguous) t.span),
      g.noting sc (View.Identifier.text t)) := by
  rw [Lower.nameUse, Lower.after_bind_some (Lower.after_symbolOrOutside sc _ g)]
  cases hresolve : g.scopes.resolve? sc (View.Identifier.text t) with
  | none => rfl
  | some found =>
    have hsame : g.noting sc (View.Identifier.text t) = g := by
      rw [Gathered.noting, hresolve]
      rfl
    rw [hsame]
    rfl

namespace Walks

variable {f : α → Lower β} {U : α → List SymbolId → Use → Prop} {V : β → List SymbolId → Use → Prop}

/-- The ground of a name alone. -/
theorem reaches_noting (hready : Ready sc R g log) (name : String) :
    Reaches sc d R g log (g.noting sc name) log := by
  have hsame : Reaches sc d R g log g log := .refl hready.logged
  unfold Gathered.noting
  -- Noting an external name opens no scope and declares nothing.
  split
  · refine ⟨{ hready.logged with external := fun {entry} hentry => ?_ },
      ⟨.refl _, List.prefix_rfl, fun {other} hother => ?_⟩, hsame.opens, hsame.entries⟩
    · unfold NameMap.insertNew at hentry
      split at hentry
      · exact hready.logged.external hentry
      · rcases Entries.mem_of_mem_put hentry with rfl | hentry
        · rfl
        · exact hready.logged.external hentry
    · rw [NameMap.contains, NameMap.find?_insertNew]
      split
      · rfl
      · exact hother
  · exact hsame

/-- A name that is not found is among the external ones behind the look. -/
theorem contains_noting {name : String} (hnone : g.scopes.resolve? sc name = none) :
    (g.noting sc name).external.contains name = true := by
  rw [Gathered.noting, hnone]
  simp [NameMap.contains, NameMap.find?_insertNew]

/-- A name that has been looked up is bound lexically, if it stands on the ground. -/
theorem bound_noting (hready : Ready sc R g log) {name : String} {u : Use} {pending : List SymbolId}
    {gF : Gathered} {logF : List Entry}
    (hlater : Follows R.spans pending (g.noting sc name) log gF logF) (hspan : u.expr.span ∈ R.spans)
    (hle : u.expr.span.start ≤ u.expr.span.stop) (hscope : u.scope = sc) (hpending : u.pending = pending)
    (hused : u.expr.usedName? = some (name, (g.scopes.resolve? sc name).map Prod.snd))
    (hty : u.expr.isName = true → u.expr.ty = (((g.scopes.resolve? sc name).map Prod.snd).map fun x =>
      ((g.scopes.symbol? x).map Symbol.ty).getD .unknown).getD .ambiguous) :
    Lexical (LoggedIn logF) gF.scopes gF.external.values u := by
  subst hscope hpending
  have hreaches : Reaches u.scope false R g log (g.noting u.scope name) log := reaches_noting hready name
  refine lexical_of_follows hready.logged ((hreaches.later hlater nofun).mono fun r hr => ?_) hle
    (fun e he hhome => hready.clear he hhome _ hspan) hready.scope hused rfl hty fun hnone => ?_
  · rw [List.mem_singleton.1 hr]
    exact ⟨_, hspan, Nat.le_refl _⟩
  · exact hlater.grows.external (contains_noting (Option.map_eq_none_iff.1 hnone))

/-- A call of a name that has been looked up. -/
theorem symbolOrOutside {name : String} (hle : ∀ r ∈ R.spans, r.start ≤ r.stop) :
    Walks sc d R (Lower.symbolOrOutside sc name) fun symbol pending u =>
      u.scope = sc ∧ u.pending = pending ∧ u.expr.span ∈ R.spans
        ∧ u.expr.usedName? = some (name, symbol) ∧ u.expr.isName = false := by
  intro g log hready
  rw [Lower.after_symbolOrOutside]
  refine ⟨log, reaches_noting hready name, fun symbol hsymbol pending gF logF hlater u hu => ?_⟩
  obtain ⟨hscope, hpending, hspan, hused, hisName⟩ := hu
  rw [← Option.some.inj hsymbol] at hused
  exact bound_noting hready hlater hspan (hle _ hspan) hscope hpending hused fun h =>
    absurd (hisName.symm.trans h) Bool.false_ne_true

/-- A name where it is used. -/
theorem nameUse {t : Tree} (hspan : t.span ∈ R.spans) (hle : t.span.start ≤ t.span.stop) :
    Walks sc d R (Lower.nameUse sc t) fun e pending u => u ∈ e.uses sc pending := by
  intro g log hready
  rw [Lower.after_nameUse]
  refine ⟨log, reaches_noting hready _, fun e he pending gF logF hlater u hu => ?_⟩
  rw [← Option.some.inj he, Expr.uses, ExprForm.uses, List.mem_singleton] at hu
  subst hu
  exact bound_noting hready hlater hspan hle rfl rfl rfl fun _ => rfl

/-! ## Declarations -/

end Walks

/-- A tree with a token under it is not empty. -/
theorem Tree.Tiled.start_lt_stop {t : Tree} (ht : t.Tiled) {m : Token} (hm : .leaf m ∈ t.children) :
    t.span.start < t.span.stop := by
  obtain ⟨hstart, hstop⟩ := ht.covers_child hm
  have hleaf := ht.of_mem_children hm
  cases hleaf with
  | leaf _ htext _ =>
    have hproper : m.start < m.stop := token_start_lt_stop htext
    have hstart : t.span.start ≤ m.start := hstart
    have hstop : m.stop ≤ t.span.stop := hstop
    omega

/-- A tree that opens a scope has the place of its key. -/
theorem Tree.span_of_key? {t : Tree} {key : NodeKey} (h : t.key? = some key) : t.span = key.span := by
  cases t with
  | leaf => cases h
  | node => rw [← Option.some.inj h]; rfl

/-- **The tree declares the symbol**: it is the node of the declaration, and the identifier
in it is the name. -/
structure Tree.Declares (t : Tree) (symbol : Symbol) : Prop where
  key : t.key? = some symbol.decl
  named : ∃ name ident, View.VarDecl.name? t = some name ∧ View.Identifier.token? name.val = some ident
    ∧ symbol.name = ident.text ∧ symbol.nameSpan = ident.span

/-- A declaration is not empty. -/
theorem Tree.Declares.start_lt_stop {t : Tree} {symbol : Symbol} (h : t.Declares symbol) (ht : t.Tiled) :
    symbol.decl.span.start < symbol.decl.span.stop := by
  obtain ⟨name, ident, -, hident, -⟩ := h.named
  obtain ⟨-, before, after, hchildren, -⟩ :=
    Tree.tokenWhere?_eq_some (p := (· == .ident)) (t := name.val) hident
  have hinner := (ht.of_mem_children name.property).start_lt_stop (m := ident) (by simp [hchildren])
  obtain ⟨hstart, hstop⟩ := ht.covers_child name.property
  rw [← Tree.span_of_key? h.key]
  omega

/-- A declaration declares one symbol, or there is nothing to be declared. -/
theorem Lower.after_declare (sc : ScopeId) (t : Tree) (g : Gathered) :
    (Lower.declare sc t).after g = (none, g)
      ∨ ∃ symbol, t.Declares symbol ∧ (Lower.declare sc t).after g
          = (some ⟨g.scopes.symbols.size⟩, { g with scopes := (g.scopes.declare sc symbol).2 }) := by
  unfold Lower.declare
  cases hname : View.VarDecl.name? t with
  | none => exact .inl rfl
  | some name =>
    rw [Lower.after_bind_some (Lower.after_given (some name) g)]
    -- Without a name nothing is declared, and the gathered scopes stay as they are.
    cases hident : View.Identifier.token? name.val with
    | none => exact .inl rfl
    | some ident =>
      rw [Lower.after_bind_some (Lower.after_given (some ident) g)]
      cases t with
      | leaf => exact .inl rfl
      | node kind span cs =>
        exact .inr ⟨⟨ident.text, .variable, _, ⟨kind, span⟩, ident.span⟩,
          ⟨rfl, name, ident, hname, hident, rfl, rfl⟩, rfl⟩

/-! ## The ground of trees -/

namespace Tree

/-- The node begins where nodes of the tree do. Where the tree itself begins, only a
list of statements has another one beginning. -/
def Begins (t : Tree) (n : NodeKey) : Prop :=
  t.span.start ≤ n.span.start ∧ n.span.start < t.span.stop ∧ n.kind ≠ .script
    ∧ (n.kind = .stmtList → n.span.start = t.span.start → t.isNode (· == .stmtList) = true)

end Tree

/-- The ground that trees stand on. -/
def Ground.of (ts : List Tree) : Ground where
  opens n := ∃ t ∈ ts, t.Begins n
  spans := ts.map Tree.span
  inner decl node := ∃ t ∈ ts, ∀ around, (decl, some node) ∈ t.declarations around
  outer decl := ∃ t ∈ ts, ∀ around, (decl, around) ∈ t.declarations around

namespace Tree

variable {t c c' : Tree} {n key : NodeKey}

/-- What begins with a child begins with the tree around it, unless the child is a list of
statements at its front. -/
theorem Begins.of_child (h : c.Begins n) (ht : t.Tiled) (hc : c ∈ t.children)
    (hlist : c.isNode (· == .stmtList) = true →
      t.span.start < c.span.start ∨ t.isNode (· == .stmtList) = true) : t.Begins n := by
  obtain ⟨hstart, hstop, hkind, hsame⟩ := h
  obtain ⟨hfrom, huntil⟩ := ht.covers_child hc
  refine ⟨hfrom.trans hstart, hstop.trans_le huntil, hkind, fun hn heq => ?_⟩
  refine (hlist (hsame hn (by omega))).resolve_left fun hlt => ?_
  omega

/-- What begins with a tree does not begin with one behind it. -/
theorem Begins.not_of_le (h : c.Begins n) (hle : c.span.stop ≤ c'.span.start) : ¬ c'.Begins n := by
  rintro ⟨hstart, -⟩
  have hstop := h.2.1
  omega

/-- A node does not begin in its children, if these begin behind it or it is a list. -/
theorem Begins.not_of_child (hkey : t.key? = some key) (ht : t.Tiled) (hc : c ∈ t.children)
    (hlist : t.span.start < c.span.start
      ∨ t.isNode (· == .stmtList) = true ∧ c.isNode (· == .stmtList) = false) : ¬ c.Begins key := by
  rintro ⟨hstart, -, -, hsame⟩
  have hfrom := (ht.covers_child hc).1
  cases t with
  | leaf => cases hkey
  | node kind span cs =>
    rw [← Option.some.inj hkey] at hstart hsame
    rcases hlist with hlt | ⟨hkind, hnot⟩
    · exact absurd hstart (Nat.not_le_of_lt hlt)
    · have hkind : kind = .stmtList := by simpa [isNode, Tree.kind, ElementKind.isNode] using hkind
      rw [hsame hkind (Nat.le_antisymm hfrom hstart)] at hnot
      cases hnot

/-- A declaration in one of the trees is one in all of them. -/
theorem mem_declarationsOfAll {cs : List Tree} (hc : c ∈ cs) {around : Option NodeKey}
    {x : NodeKey × Option NodeKey} (hx : x ∈ c.declarations around) :
    x ∈ declarationsOfAll around cs := by
  induction cs with
  | nil => cases hc
  | cons d cs ih =>
    rw [declarationsOfAll, List.mem_append]
    rcases List.mem_cons.1 hc with rfl | hc
    · exact .inl hx
    · exact .inr (ih hc)

/-- What a child declares, its parent declares. -/
theorem mem_declarations_of_child (hc : c ∈ t.children) (hkind : t.isNode (· == .varDecl) = false)
    {around : Option NodeKey} {x : NodeKey × Option NodeKey}
    (hx : x ∈ c.declarations (if t.isNode NodeKind.opensScope then t.key? else around)) :
    x ∈ t.declarations around := by
  cases t with
  | leaf => cases hc
  | node kind span cs =>
    have hne : kind ≠ .varDecl := by simpa [isNode, Tree.kind, ElementKind.isNode] using hkind
    rw [declarations, if_neg hne]
    exact mem_declarationsOfAll hc hx

end Tree

namespace Ground

variable {R : Ground} {t : Tree} {ts us : List Tree} {key : NodeKey}

/-- The ground of some trees is within the ground of more. -/
theorem within_of_subset (declares : Bool) (h : ts ⊆ us) : (of ts).Within declares (of us) where
  opens _ _ := fun ⟨t, ht, hn⟩ => ⟨t, h ht, hn⟩
  spans r hr := by
    obtain ⟨t, ht, rfl⟩ := List.mem_map.1 hr
    exact ⟨t.span, List.mem_map_of_mem (h ht), Nat.le_refl _, Nat.le_refl _⟩
  inner _ _ := fun ⟨t, ht, hd⟩ => ⟨t, h ht, hd⟩
  outer _ _ := fun ⟨t, ht, hd⟩ => ⟨t, h ht, hd⟩

/-- Trees that stand in front of others, or behind them, are apart from them. -/
theorem apart_of (h : ∀ t ∈ ts, ∀ u ∈ us, t.span.stop ≤ u.span.start ∨ u.span.stop ≤ t.span.start) :
    (of ts).Apart (of us) := by
  rintro n - ⟨t, ht, hn⟩ ⟨u, hu, hn'⟩
  rcases h t ht u hu with hle | hle
  · exact hn.not_of_le hle hn'
  · exact hn'.not_of_le hle hn

/-- Trees in front of others are so as grounds. -/
theorem before_of (h : ∀ t ∈ ts, ∀ u ∈ us, t.span.stop ≤ u.span.start) : (of ts).Before (of us) := by
  intro r hr s hs
  obtain ⟨t, ht, rfl⟩ := List.mem_map.1 hr
  obtain ⟨u, hu, rfl⟩ := List.mem_map.1 hs
  exact h t ht u hu

/-- The ground of children is part of that of their parent. -/
theorem within_parent (ht : t.Tiled) (hts : ∀ c ∈ ts, c ∈ t.children)
    (hlist : ∀ c ∈ ts, c.isNode (· == .stmtList) = true →
      t.span.start < c.span.start ∨ t.isNode (· == .stmtList) = true)
    (hkind : t.isNode (· == .varDecl) = false)
    (hd : d = true → t.isNode NodeKind.opensScope = false) : (of ts).Within d (of [t]) where
  opens n _ := by
    rintro ⟨c, hc, hn⟩
    exact ⟨t, List.mem_singleton_self t, hn.of_child ht (hts c hc) (hlist c hc)⟩
  spans r hr := by
    obtain ⟨c, hc, rfl⟩ := List.mem_map.1 hr
    obtain ⟨hstart, hstop⟩ := ht.covers_child (hts c hc)
    exact ⟨t.span, List.mem_singleton_self _, hstart, hstop⟩
  inner decl node := by
    rintro ⟨c, hc, hdecl⟩
    exact ⟨t, List.mem_singleton_self t, fun around =>
      Tree.mem_declarations_of_child (hts c hc) hkind (hdecl _)⟩
  outer decl hdeclares := by
    rintro ⟨c, hc, hdecl⟩
    refine ⟨t, List.mem_singleton_self t, fun around => ?_⟩
    refine Tree.mem_declarations_of_child (hts c hc) hkind ?_
    rw [hd hdeclares]
    exact hdecl around

/-- The ground of children inside their parent is part of its ground, if the parent opens
a scope. -/
theorem within_parent_inside (hR : R.Within true (of ts)) (ht : t.Tiled) (hkey : t.key? = some key)
    (hts : ∀ c ∈ ts, c ∈ t.children)
    (hlist : ∀ c ∈ ts, c.isNode (· == .stmtList) = true →
      t.span.start < c.span.start ∨ t.isNode (· == .stmtList) = true)
    (hkind : t.isNode (· == .varDecl) = false) (hopens : t.isNode NodeKind.opensScope = true)
    (hscript : key.kind ≠ .script) : (R.inside key).Within d (of [t]) where
  opens n hproper hn := by
    -- A scope on this ground is the one of the tree or one inside of it.
    rcases hn with rfl | hn
    · refine ⟨t, List.mem_singleton_self t, ?_⟩
      cases t with
      | leaf => cases hkey
      | node kind span cs =>
        rw [← Option.some.inj hkey] at hproper hscript ⊢
        exact ⟨Nat.le_refl _, hproper, hscript, fun h _ => beq_iff_eq.2 h⟩
    · obtain ⟨c, hc, hn⟩ := hR.opens n hproper hn
      exact ⟨t, List.mem_singleton_self t, hn.of_child ht (hts c hc) (hlist c hc)⟩
  spans r hr := by
    obtain ⟨s, hs, hstart, hstop⟩ := hR.spans r hr
    obtain ⟨c, hc, rfl⟩ := List.mem_map.1 hs
    obtain ⟨hfrom, huntil⟩ := ht.covers_child (hts c hc)
    exact ⟨t.span, List.mem_singleton_self _, hfrom.trans hstart, hstop.trans huntil⟩
  inner decl node := by
    rintro (hinner | ⟨houter, rfl⟩)
    · obtain ⟨c, hc, hdecl⟩ := hR.inner decl node hinner
      exact ⟨t, List.mem_singleton_self t, fun around =>
        Tree.mem_declarations_of_child (hts c hc) hkind (hdecl _)⟩
    · obtain ⟨c, hc, hdecl⟩ := hR.outer decl rfl houter
      refine ⟨t, List.mem_singleton_self t, fun around => ?_⟩
      refine Tree.mem_declarations_of_child (hts c hc) hkind ?_
      rw [hopens, if_pos rfl, hkey]
      exact hdecl _
  outer _ _ := False.elim

end Ground

namespace Walks

/-- A declaration in its scope. -/
theorem declare {t : Tree} (ht : t.Tiled) (hdecl : t.isNode (· == .varDecl) = true) :
    Walks sc true (.of [t]) (Lower.declare sc t) fun _ _ _ => False := by
  intro g log hready
  rcases Lower.after_declare sc t g with hafter | ⟨symbol, hdeclares, hafter⟩
  · rw [hafter]
    exact ⟨log, .refl hready.logged, nofun⟩
  · have hkey := hdeclares.key
    obtain ⟨s, hs⟩ := ScopeTree.exists_scope_of_lt hready.scope
    have hspan := Tree.span_of_key? hkey
    have hself : sc ∈ g.scopes.ancestors sc := by
      rw [ScopeTree.ancestors_eq hready.logged.ranked hs]
      exact List.mem_cons_self
    -- All that was declared in this scope before stands in front, so the log stays ordered.
    have hlogged := hready.logged.declare hs (hdeclares.start_lt_stop ht) fun e he hhome => by
      rw [← hspan]
      exact hready.clear he (hhome ▸ hself) _ (by simp [Ground.of])
    rw [hafter]
    refine ⟨log ++ [⟨sc, s.node, symbol⟩], ⟨hlogged, ⟨ScopeTree.extends_declare _ _ _,
      List.prefix_append _ _, id⟩, fun {id r} hr hid => ?_, fun {i e} he hi => ?_⟩,
      fun _ _ _ _ _ _ _ hu => hu.elim⟩
    · have hlt := ScopeTree.lt_size_of_scope? hr
      rw [ScopeTree.size_declare] at hlt
      exact absurd hlt (Nat.not_lt_of_le hid)
    · rw [List.getElem?_append_right hi, List.getElem?_singleton] at he
      split at he
      · rw [← Option.some.inj he]
        refine .inr ⟨rfl, rfl, ⟨t.span, by simp [Ground.of], by rw [hspan], by rw [hspan]⟩, t, by simp,
          fun around => ?_⟩
        cases t with
        | leaf => cases hkey
        | node kind span cs =>
          have hkind : kind = .varDecl := by simpa [Tree.isNode, Tree.kind, ElementKind.isNode] using hdecl
          rw [Tree.declarations, if_pos hkind, ← Option.some.inj hkey]
          exact List.mem_singleton_self _
      · cases he

/-- A value, and then the declaration it is given to: in the value the symbol is pending. -/
theorem declaring {m : Lower (Option Expr)} {c : Tree} {span : Span}
    (hm : Walks sc false R m fun value pending u => u ∈ Expr.usesIn sc pending value)
    (hc : c.Tiled) (hdecl : c.isNode (· == .varDecl) = true) (hapart : R.Apart (.of [c])) :
    Walks sc true (R ++ .of [c]) (m >>= fun value => Lower.declare sc c >>= fun symbol =>
        Pure.pure (Stmt.mk (.varDecl symbol value) span)) fun s pending u => u ∈ s.uses sc pending := by
  intro g log hready
  obtain ⟨log', hreaches, hbound⟩ := hm g log (hready.mono (Ground.within_append_left false R _))
  have hfirst : Reaches sc true (R ++ .of [c]) g log (m.after g).2 log' :=
    hreaches.mono (Ground.within_append_left false R (.of [c])) fun _ => rfl
  cases hanswer : m.after g with
  | mk answer g' =>
    rw [hanswer] at hreaches hbound hfirst
    cases answer with
    | none =>
      rw [Lower.after_bind_none hanswer]
      exact ⟨log', hfirst, nofun⟩
    | some value =>
      rw [Lower.after_bind_some hanswer]
      have hready' := hreaches.ready (hready.mono (Ground.within_append_right true R (.of [c]))) hapart nofun
      obtain ⟨log'', hreaches', -⟩ := declare hc hdecl g' log' hready'
      have hboth := hfirst.trans (hreaches'.mono (Ground.within_append_right true R (.of [c])) fun _ => rfl)
      rcases Lower.after_declare sc c g' with hafter | ⟨symbol, -, hafter⟩
      · rw [hafter] at hboth
        rw [Lower.after_bind_none hafter]
        exact ⟨log'', hboth, nofun⟩
      · rw [hafter] at hboth hreaches'
        rw [Lower.after_bind_some hafter]
        refine ⟨log'', hboth, fun s hs pending gF logF hlater u hu => ?_⟩
        rw [← Option.some.inj hs, Stmt.uses, StmtForm.uses] at hu
        refine hbound value rfl _ gF logF ?_ u hu
        -- Behind the value there is the symbol, which is pending, and what comes later.
        have hsize : log''.length = log'.length + 1 := by
          rw [← hreaches'.logged.size_symbols, ← hready'.logged.size_symbols]
          simp [ScopeTree.declare, ScopeTree.modifyScope]
        refine ⟨hlater.logged, hreaches'.grows.trans hlater.grows, fun {i e} he hi hhome => ?_,
          fun {x} hx => ?_⟩
        · rcases Nat.eq_or_lt_of_le hi with heq | hlt
          · refine .inr ?_
            rw [hready'.logged.size_symbols, heq]
            exact List.mem_cons_self
          · refine (hlater.behind he (by omega) (hhome.trans_le hreaches'.grows.scopes.size_le)).imp
              (fun h r hr => h r (List.mem_append_left _ hr)) (List.mem_cons_of_mem _)
        · rcases List.mem_cons.1 hx with rfl | hx
          · exact hready'.logged.size_symbols.ge
          · exact hreaches'.grows.length_le.trans (hlater.pending hx)

/-! ## Lists -/

variable {t : Tree} {as : List t.Child} {f : t.Child → Lower β} {V : β → List SymbolId → Use → Prop}

/-- Steps over trees in the order of the text, some of which may fail. -/
theorem each (hf : ∀ a ∈ as, Walks sc d (.of [a.val]) (f a) V)
    (horder : as.Pairwise fun a b => a.val.span.stop ≤ b.val.span.start) :
    Walks sc d (.of (as.map Subtype.val)) (as.filterMapM fun a => Lower.attempt (f a))
      fun bs pending u => ∃ b ∈ bs, V b pending u := by
  induction as with
  | nil =>
    rw [List.filterMapM_nil]
    exact pure fun pending u ⟨b, hb, _⟩ => nomatch hb
  | cons a as ih =>
    obtain ⟨hfirst, hrest⟩ := List.pairwise_cons.1 horder
    have ih := ih (fun b hb => hf b (List.mem_cons_of_mem _ hb)) hrest
    -- What the first statement declares stands in front of the others.
    have hordered : ∀ c ∈ [a.val], ∀ c' ∈ as.map Subtype.val, c.span.stop ≤ c'.span.start := by
      intro c hc c' hc'
      obtain ⟨b, hb, rfl⟩ := List.mem_map.1 hc'
      rw [List.mem_singleton.1 hc]
      exact hfirst b hb
    rw [List.filterMapM_cons]
    refine (sequence (hf a List.mem_cons_self).attempt (fun o => ?_)
      (Ground.apart_of fun c hc c' hc' => .inl (hordered c hc c' hc')) (Ground.before_of hordered)).mono
      (.append (Ground.within_of_subset _ (by simp)) (Ground.within_of_subset _ (by simp))) id
    cases o with
    | none => exact ih.weaken fun bs pending u hu => .inl hu.1
    | some b =>
      -- A use that is not in the first statement is in one of the others.
      refine returning ih fun bs pending u hu => ?_
      obtain ⟨⟨b', hb', hu⟩, hnot⟩ := hu
      rcases List.mem_cons.1 hb' with rfl | hb'
      · exact absurd ⟨_, rfl, hu⟩ hnot
      · exact .inl ⟨b', hb', hu⟩

/-- Steps over trees in the order of the text, none of which declares anything. -/
theorem all (hf : ∀ a ∈ as, Walks sc false (.of [a.val]) (f a) V)
    (horder : as.Pairwise fun a b => a.val.span.stop ≤ b.val.span.start) :
    Walks sc false (.of (as.map Subtype.val)) (as.mapM f) fun bs pending u => ∃ b ∈ bs, V b pending u := by
  induction as with
  | nil =>
    rw [List.mapM_nil]
    exact pure fun pending u ⟨b, hb, _⟩ => nomatch hb
  | cons a as ih =>
    obtain ⟨hfirst, hrest⟩ := List.pairwise_cons.1 horder
    have ih := ih (fun b hb => hf b (List.mem_cons_of_mem _ hb)) hrest
    rw [List.mapM_cons]
    -- No expression declares a name in this scope, so that the parts need no order.
    refine (chain (S := .of (as.map Subtype.val)) (hf a List.mem_cons_self) (fun b => ?_)
      (Ground.apart_of fun c hc c' hc' => .inl ?_)).mono
      (.append (Ground.within_of_subset _ (by simp)) (Ground.within_of_subset _ (by simp))) id
    · refine returning ih fun bs pending u hu => ?_
      obtain ⟨⟨b', hb', hu⟩, hnot⟩ := hu
      rcases List.mem_cons.1 hb' with rfl | hb'
      · exact absurd hu hnot
      · exact .inl ⟨b', hb', hu⟩
    · obtain ⟨b, hb, rfl⟩ := List.mem_map.1 hc'
      rw [List.mem_singleton.1 hc]
      exact hfirst b hb

end Walks

end ScriptSense
