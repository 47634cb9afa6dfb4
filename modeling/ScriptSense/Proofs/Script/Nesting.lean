/-
Scopes inside scopes, and the nodes that open them.

The walk opens a scope for a node while it is at work on the node that opens the scope
around. So the nodes of the scopes lie in the tree as the scopes do in each other
(`ScopeTree.Nested`), and whoever goes outwards from scope to scope goes outwards in the
text as well. What a name stands for is therefore declared in a scope whose node is
around the name.
-/
import ScriptSense.Proofs.Script.Keeping

set_option autoImplicit false

namespace ScriptSense

/-! ## Nested scopes -/

namespace ScopeTree

/-- **The scopes lie in each other as their nodes do**, and the nodes are of the tree. -/
structure Nested (root : Tree) (t : ScopeTree) : Prop where
  placed {id : ScopeId} {s : Scope} : t.scope? id = some s →
    ∃ n, root.Holds n ∧ n.key? = some s.node
  around {id p : ScopeId} {s : Scope} : t.scope? id = some s → s.parent = some p →
    ∃ r, t.scope? p = some r ∧ r.node.span.covers s.node.span = true

namespace Nested

variable {root : Tree} {t : ScopeTree} {id p : ScopeId} {s r : Scope}

/-- The scopes around a scope are opened by nodes around its node. -/
theorem covers (h : t.Nested root) (ht : t.Ranked) (hs : t.scope? id = some s) {a : ScopeId}
    (ha : a ∈ t.ancestors id) (hr : t.scope? a = some r) : r.node.span.covers s.node.span = true := by
  -- Induction on the number of the scope: its parent has a smaller one.
  induction hindex : id.index using Nat.strong_induction_on generalizing id s with
  | _ index ih =>
    rw [ancestors_eq ht hs] at ha
    rcases List.mem_cons.1 ha with rfl | ha
    · rw [Option.some.inj (hr.symm.trans hs)]
      exact Span.covers_refl _
    · cases hp : s.parent with
      | none =>
        rw [hp] at ha
        cases ha
      | some p =>
        rw [hp] at ha
        obtain ⟨q, hq, hcovers⟩ := h.around hs hp
        have hlt : p.index < index := hindex ▸ ht.parent hs hp
        exact Span.covers_trans (ih p.index hlt hq ha rfl) hcovers

theorem ofRoot (span : Span) (cs : List Tree) :
    (ScopeTree.ofRoot ⟨.script, span⟩).Nested (.node .script span cs) where
  placed hs := by
    obtain ⟨-, rfl⟩ := eq_of_scope?_ofRoot hs
    exact ⟨_, .self _, rfl⟩
  around hs hp := by
    obtain ⟨-, rfl⟩ := eq_of_scope?_ofRoot hs
    cases hp

/-- A scope is opened for a node inside the node of the scope around it. -/
theorem openScope (h : t.Nested root) (hp : t.scope? p = some r) (kind : ScopeKind) {n : Tree}
    {node : NodeKey} (hn : root.Holds n) (hkey : n.key? = some node)
    (hcovers : r.node.span.covers node.span = true) : (t.openScope p kind node).2.Nested root := by
  have hlt := lt_size_of_scope? hp
  have hextends := extends_openScope hlt kind node
  refine ⟨fun {i s} hs => ?_, fun {i q s} hs hq => ?_⟩
  · rcases node_of_openScope hlt hs with ⟨-, hnode⟩ | ⟨s', hs', hnode⟩
    · exact ⟨n, hn, by rw [hkey, hnode]⟩
    · rw [hnode]
      exact h.placed hs'
  · rw [scope?_openScope hlt] at hs
    split at hs
    -- The new scope lies in the one it was opened in, by assumption.
    · rw [← Option.some.inj hs] at hq ⊢
      obtain rfl : p = q := Option.some.inj hq
      obtain ⟨r', hr', -, hnode⟩ := hextends.scope hp
      exact ⟨r', hr', by rwa [hnode]⟩
    · obtain ⟨s', hs', rfl⟩ := Option.map_eq_some_iff.1 hs
      -- Another child changes neither the parent nor the node.
      have hsame : (if p = i then { s' with children := s'.children ++ [⟨t.scopes.size⟩] } else s').parent
          = s'.parent ∧ (if p = i then { s' with children := s'.children ++ [⟨t.scopes.size⟩] }
            else s').node = s'.node := by
        split <;> exact ⟨rfl, rfl⟩
      rw [hsame.1] at hq
      obtain ⟨q', hq', hin⟩ := h.around hs' hq
      obtain ⟨r', hr', -, hnode⟩ := hextends.scope hq'
      exact ⟨r', hr', by rwa [hnode, hsame.2]⟩

theorem declare (h : t.Nested root) (scope : ScopeId) (symbol : Symbol) :
    (t.declare scope symbol).2.Nested root := by
  -- Declaring changes the symbols only.
  have hcases : ∀ {i : ScopeId} {s : Scope}, (t.declare scope symbol).2.scope? i = some s →
      ∃ r, t.scope? i = some r ∧ s.node = r.node ∧ s.parent = r.parent := by
    intro i s hs
    rw [scope?_declare] at hs
    obtain ⟨r, hr, rfl⟩ := Option.map_eq_some_iff.1 hs
    refine ⟨r, hr, ?_⟩
    split <;> exact ⟨rfl, rfl⟩
  refine ⟨fun hs => ?_, fun hs hq => ?_⟩
  · obtain ⟨r, hr, hnode, -⟩ := hcases hs
    rw [hnode]
    exact h.placed hr
  · obtain ⟨r, hr, hnode, hparent⟩ := hcases hs
    obtain ⟨q, hq', hcovers⟩ := h.around hr (hparent.symm.trans hq)
    obtain ⟨q', hq'', -, hnode'⟩ := (extends_declare t scope symbol).scope hq'
    exact ⟨q', hq'', by rwa [hnode', hnode]⟩

end Nested

end ScopeTree

/-! ## Nested scopes are kept -/

/-- **The walk keeps the scopes nested**: where it is at work, the node of its scope is
around. -/
theorem keeping_nested {root : Tree} (ht : root.Tiled) :
    Keeping root (ScopeTree.Nested root) fun s key => key.span.covers s.item.span = true where
  through hs _ hc hkey :=
    Span.covers_trans hkey (Span.covers_iff.2 ((hs.holds.tiled ht).covers_child hc))
  collection {t c} _ _ hs _ _ hkey :=
    Span.covers_trans hkey (Span.covers_iff.2 ((hs.holds.tiled ht).covers_child c.property))
  inside hs _ hkey hc _ := by
    rw [← Tree.span_of_key? hkey]
    exact Span.covers_iff.2 ((hs.holds.tiled ht).covers_child hc)
  opened kind hs hnested hr hkey hnode := by
    rw [Tree.span_of_key? hnode] at hkey
    exact hnested.openScope hr kind hs.holds hnode hkey
  declared _ hnested _ _ _ _ := hnested.declare _ _

/-- **In a script the scopes lie in each other as their nodes do.** -/
theorem nested_ofTree {span : Span} {cs : List Tree} (ht : (Tree.node .script span cs).Tiled)
    {script : Script} (h : Script.ofTree? (.node .script span cs) = some script) :
    script.scopes.Nested (.node .script span cs) :=
  (keeping_nested ht).script (.ofRoot span cs) h

end ScriptSense
