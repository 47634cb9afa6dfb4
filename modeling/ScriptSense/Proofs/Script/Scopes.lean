/-
Scopes inside scopes.

Nothing forces a scope to be opened inside one that exists, but that is how they are
opened: numbers are places, and the scope around a scope has a smaller number
(`ScopeTree.Ranked`). Then the walk outwards ends by itself and does not depend on the
number of scopes, so what is around a scope stays the same for as long as scopes are
only added (`ScopeTree.Extends`).
-/
import Mathlib.Data.List.Find
import ScriptSense.Script.Scope

set_option autoImplicit false

namespace ScriptSense.ScopeTree

variable {t t' : ScopeTree} {id a p : ScopeId} {s r : Scope}

/-- Scopes are numbered by their place, each inside one of a smaller number. -/
structure Ranked (t : ScopeTree) : Prop where
  id {id : ScopeId} {s : Scope} : t.scope? id = some s → s.id = id
  parent {id p : ScopeId} {s : Scope} : t.scope? id = some s → s.parent = some p → p.index < id.index

/-- Scopes and symbols are only added, and scopes stay where they are. -/
structure Extends (t t' : ScopeTree) : Prop where
  scope {id : ScopeId} {s : Scope} : t.scope? id = some s →
    ∃ s', t'.scope? id = some s' ∧ s'.parent = s.parent ∧ s'.node = s.node
  symbols : t.symbols.toList <+: t'.symbols.toList

/-- There is a scope under every number below the size. -/
theorem isSome_scope? : (t.scope? id).isSome ↔ id.index < t.scopes.size := by
  simp [scope?]

/-- A scope that is there has a number below the size. -/
theorem lt_size_of_scope? (h : t.scope? id = some s) : id.index < t.scopes.size :=
  isSome_scope?.1 (by rw [h]; rfl)

/-- Under a number below the size there is a scope. -/
theorem exists_scope_of_lt (h : id.index < t.scopes.size) : ∃ s, t.scope? id = some s :=
  Option.isSome_iff_exists.1 (isSome_scope?.2 h)

namespace Extends

/-- A tree extends itself. -/
theorem refl (t : ScopeTree) : t.Extends t := ⟨fun h => ⟨_, h, rfl, rfl⟩, List.prefix_rfl⟩

/-- What extends an extension extends the tree. -/
theorem trans {t'' : ScopeTree} (h : t.Extends t') (h' : t'.Extends t'') : t.Extends t'' where
  scope hs := by
    obtain ⟨s', hs', hparent, hnode⟩ := h.scope hs
    obtain ⟨s'', hs'', hparent', hnode'⟩ := h'.scope hs'
    exact ⟨s'', hs'', hparent'.trans hparent, hnode'.trans hnode⟩
  symbols := h.symbols.trans h'.symbols

/-- An extension has no fewer scopes. -/
theorem size_le (h : t.Extends t') : t.scopes.size ≤ t'.scopes.size := by
  refine Nat.le_of_not_lt fun hlt => ?_
  have hlt : (⟨t'.scopes.size⟩ : ScopeId).index < t.scopes.size := hlt
  obtain ⟨s, hs⟩ := exists_scope_of_lt hlt
  obtain ⟨s', hs', -⟩ := h.scope hs
  exact Nat.lt_irrefl _ (lt_size_of_scope? hs')

end Extends

/-! ## The walk outwards -/

/-- A scope that the walk meets is the one under its number. -/
theorem scope?_of_mem_walk (h : t.Ranked) {n : Nat} (hs : s ∈ t.walk n id) : t.scope? s.id = some s := by
  induction n generalizing id with
  | zero => cases hs
  | succ n ih =>
    unfold walk at hs
    split at hs
    · cases hs
    · next r hr =>
      split at hs
      · rw [List.mem_singleton.1 hs, h.id hr]
        exact hr
      · rcases List.mem_cons.1 hs with rfl | hs
        · rwa [h.id hr]
        · exact ih hs

/-- The walk begins with its scope and goes on with the parent. -/
theorem walk_succ (n : Nat) (hs : t.scope? id = some s) :
    t.walk (n + 1) id = s :: s.parent.elim [] (t.walk n) := by
  rw [walk, hs]
  dsimp only
  cases s.parent <;> rfl

/-- More steps than scopes that may be met change nothing. -/
theorem walk_eq (h : t.Ranked) {n : Nat} (hn : id.index < n) : t.walk n id = t.walk (id.index + 1) id := by
  induction hid : id.index using Nat.strong_induction_on generalizing id n with
  | _ index ih =>
    obtain ⟨n, rfl⟩ := Nat.exists_eq_succ_of_ne_zero (Nat.ne_of_gt (Nat.zero_lt_of_lt hn))
    cases hs : t.scope? id with
    | none => rw [walk, walk, hs]
    | some s =>
      rw [walk_succ n hs, walk_succ index hs]
      cases hparent : s.parent with
      | none => rfl
      | some p =>
        -- The parent has a smaller number, so the steps that are left are enough for it.
        have hlt : p.index < index := hid ▸ h.parent hs hparent
        exact congrArg (s :: ·) ((ih p.index hlt (by omega) rfl).trans (ih p.index hlt hlt rfl).symm)

/-- So does the whole chain, for parents have smaller numbers. -/
theorem chain_eq (h : t.Ranked) (hs : t.scope? id = some s) :
    t.chain id = s :: (s.parent.elim [] t.chain) := by
  have hsize := lt_size_of_scope? hs
  rw [chain, walk_eq h hsize, walk_succ _ hs]
  cases hparent : s.parent with
  | none => rfl
  | some p =>
    have hlt := h.parent hs hparent
    exact congrArg (s :: ·) ((walk_eq h hlt).trans (walk_eq h (hlt.trans hsize)).symm)

/-- So do the numbers along it. -/
theorem ancestors_eq (h : t.Ranked) (hs : t.scope? id = some s) :
    t.ancestors id = id :: (s.parent.elim [] t.ancestors) := by
  rw [ancestors, chain_eq h hs, List.map_cons, h.id hs]
  cases s.parent <;> rfl

/-- Under every number along the chain there is a scope. -/
theorem exists_scope_of_mem_ancestors (h : t.Ranked) (ha : a ∈ t.ancestors id) :
    ∃ s, t.scope? a = some s := by
  obtain ⟨s, hs, rfl⟩ := List.mem_map.1 ha
  exact ⟨s, scope?_of_mem_walk h hs⟩

/-- A scope is within the scopes along its chain. -/
theorem isWithin_iff : t.isWithin id a = true ↔ a ∈ t.ancestors id := List.contains_iff_mem

/-- From a scope that is missing no way leads outwards. -/
theorem lt_size_of_mem_ancestors (ha : a ∈ t.ancestors id) : id.index < t.scopes.size := by
  refine Classical.byContradiction fun hlt => ?_
  have hnone : t.scope? id = none := Option.not_isSome_iff_eq_none.1 (mt isSome_scope?.1 hlt)
  rw [ancestors, chain] at ha
  cases hsize : t.scopes.size with
  | zero => simp [hsize, walk] at ha
  | succ n => simp [hsize, walk, hnone] at ha

/-- A scope is on its own chain. -/
theorem mem_ancestors_self (h : t.Ranked) (hid : id.index < t.scopes.size) : id ∈ t.ancestors id := by
  obtain ⟨s, hs⟩ := exists_scope_of_lt hid
  rw [ancestors_eq h hs]
  exact List.mem_cons_self

/-- What is around a scope on the way outwards is on the way outwards. -/
theorem ancestors_suffix (h : t.Ranked) (ha : a ∈ t.ancestors id) :
    t.ancestors a <:+ t.ancestors id := by
  -- Induction on the number of the scope: what it leads through has smaller ones.
  induction hindex : id.index using Nat.strong_induction_on generalizing id with
  | _ index ih =>
    obtain ⟨s, hs⟩ := exists_scope_of_lt (lt_size_of_mem_ancestors ha)
    have hancestors := ancestors_eq h hs
    rw [hancestors] at ha
    rcases List.mem_cons.1 ha with rfl | ha
    · exact List.suffix_rfl
    · rw [hancestors]
      cases hp : s.parent with
      | none => rw [hp] at ha; cases ha
      | some p =>
        rw [hp] at ha
        exact (ih p.index (hindex ▸ h.parent hs hp) ha rfl).trans (List.suffix_cons _ _)

/-- No two scopes are on each other's way outwards. -/
theorem eq_of_mem_ancestors (h : t.Ranked) (ha : a ∈ t.ancestors id) (hid : id ∈ t.ancestors a) :
    a = id := by
  have hsame : t.ancestors a = t.ancestors id :=
    (ancestors_suffix h ha).eq_of_length_le (ancestors_suffix h hid).length_le
  obtain ⟨r, hr⟩ := exists_scope_of_lt (lt_size_of_mem_ancestors hid)
  obtain ⟨s, hs⟩ := exists_scope_of_lt (lt_size_of_mem_ancestors ha)
  rw [ancestors_eq h hr, ancestors_eq h hs] at hsame
  exact (List.cons.inj hsame).1

/-- What is around a scope stays. -/
theorem Extends.ancestors_eq (h : t.Extends t') (ht : t.Ranked) (ht' : t'.Ranked)
    (hid : id.index < t.scopes.size) : t'.ancestors id = t.ancestors id := by
  induction hindex : id.index using Nat.strong_induction_on generalizing id with
  | _ index ih =>
    obtain ⟨s, hs⟩ := exists_scope_of_lt hid
    obtain ⟨s', hs', hparent, -⟩ := h.scope hs
    rw [ScopeTree.ancestors_eq ht hs, ScopeTree.ancestors_eq ht' hs', hparent]
    cases hp : s.parent with
    | none => rfl
    | some p =>
      have hlt := ht.parent hs hp
      exact congrArg (id :: ·) (ih p.index (hindex ▸ hlt) (hlt.trans hid) rfl)

/-! ## Looking names up -/

/-- A name stands for the symbol of the innermost scope that has the name. -/
theorem resolve?_eq_some (h : t.Ranked) {name : String} {x : SymbolId}
    (hx : t.resolve? id name = some (a, x)) : ∃ inner outer s, t.ancestors id = inner ++ a :: outer
      ∧ t.scope? a = some s ∧ s.symbols.find? name = some x
      ∧ ∀ b ∈ inner, ∀ r, t.scope? b = some r → r.symbols.find? name = none := by
  obtain ⟨inner, s, outer, hchain, hfound, hinner⟩ := List.findSome?_eq_some_iff.1 hx
  obtain ⟨y, hy, hpair⟩ := Option.map_eq_some_iff.1 hfound
  obtain ⟨rfl, rfl⟩ := Prod.mk.inj hpair
  refine ⟨inner.map Scope.id, outer.map Scope.id, s, ?_, ?_, hy, ?_⟩
  · rw [ancestors, hchain, List.map_append, List.map_cons]
  · exact scope?_of_mem_walk h (by rw [← chain, hchain]; simp)
  · rintro b hb r hr
    obtain ⟨q, hq, rfl⟩ := List.mem_map.1 hb
    -- Each scope of the walk is the one of its number, so its names are those of the table.
    have hsame : t.scope? q.id = some q := scope?_of_mem_walk h (by rw [← chain, hchain]; simp [hq])
    obtain rfl : q = r := Option.some.inj (hsame.symm.trans hr)
    exact Option.map_eq_none_iff.1 (hinner q hq)

/-- A name that is not found is declared in no scope along the chain. -/
theorem resolve?_eq_none (h : t.Ranked) {name : String} (hnone : t.resolve? id name = none)
    (ha : a ∈ t.ancestors id) (hr : t.scope? a = some r) : r.symbols.find? name = none := by
  obtain ⟨q, hq, rfl⟩ := List.mem_map.1 ha
  obtain rfl : q = r := Option.some.inj ((scope?_of_mem_walk h hq).symm.trans hr)
  exact Option.map_eq_none_iff.1 (List.findSome?_eq_none_iff.1 hnone q hq)

/-! ## Adding scopes and symbols -/

/-- In the beginning there is the scope of the script. -/
theorem eq_of_scope?_ofRoot {node : NodeKey} (h : (ofRoot node).scope? id = some s) :
    id = .root ∧ s = ⟨.root, none, [], .script, node, .empty⟩ := by
  rw [scope?, ofRoot] at h
  obtain ⟨hlt, hs⟩ := Array.getElem?_eq_some_iff.1 h
  have hzero : id.index = 0 := by
    simp only [List.size_toArray, List.length_singleton] at hlt
    omega
  obtain rfl : id = .root := by cases id; exact congrArg ScopeId.mk hzero
  exact ⟨rfl, hs.symm⟩

/-- A tree of a single scope is ranked. -/
theorem ranked_ofRoot (node : NodeKey) : (ofRoot node).Ranked where
  id h := by
    obtain ⟨rfl, rfl⟩ := eq_of_scope?_ofRoot h
    rfl
  parent h hparent := by
    obtain ⟨rfl, rfl⟩ := eq_of_scope?_ofRoot h
    cases hparent

/-- A change of one scope leaves the others. -/
theorem scope?_modifyScope (t : ScopeTree) (id i : ScopeId) (f : Scope → Scope) :
    (t.modifyScope id f).scope? i = (t.scope? i).map fun s => if id = i then f s else s := by
  rw [scope?, modifyScope, Array.getElem?_modify]
  have hindex : id.index = i.index ↔ id = i := by cases id; cases i; simp
  by_cases h : id = i
  · simp [h, scope?]
  · simp [h, mt hindex.1 h, scope?]

/-- A scope that is added has the last number. -/
theorem scope?_push (scopes : Array Scope) (symbols : Array Symbol) (new : Scope) (i : ScopeId) :
    scope? ⟨scopes.push new, symbols⟩ i
      = if i.index = scopes.size then some new else scope? ⟨scopes, symbols⟩ i := by
  rw [scope?, Array.getElem?_push]
  rfl

/-- Opening a scope adds one. -/
theorem size_openScope (t : ScopeTree) (p : ScopeId) (kind : ScopeKind) (node : NodeKey) :
    (t.openScope p kind node).2.scopes.size = t.scopes.size + 1 := by
  simp [openScope, modifyScope]

/-- A scope is put behind the others, and then the one that it is in gets one child more. -/
theorem scope?_openScope_pushed (t : ScopeTree) (p : ScopeId) (kind : ScopeKind) (node : NodeKey)
    (i : ScopeId) : (t.openScope p kind node).2.scope? i
      = (if i.index = t.scopes.size then some ⟨⟨t.scopes.size⟩, some p, [], kind, node, .empty⟩
          else t.scope? i).map fun s =>
        if p = i then { s with children := s.children ++ [⟨t.scopes.size⟩] } else s := by
  rw [← scope?_push t.scopes t.symbols]
  exact scope?_modifyScope _ _ _ _

/-- The new scope, and those that were there with one child more. -/
theorem scope?_openScope (hp : p.index < t.scopes.size) (kind : ScopeKind) (node : NodeKey)
    (i : ScopeId) : (t.openScope p kind node).2.scope? i
      = if i.index = t.scopes.size then some ⟨i, some p, [], kind, node, .empty⟩
        else (t.scope? i).map fun s =>
          if p = i then { s with children := s.children ++ [⟨t.scopes.size⟩] } else s := by
  rw [scope?_openScope_pushed]
  by_cases hi : i.index = t.scopes.size
  · have hne : p ≠ i := fun h => by rw [h, hi] at hp; exact Nat.lt_irrefl _ hp
    have heq : (⟨t.scopes.size⟩ : ScopeId) = i := by rw [← hi]
    rw [if_pos hi, if_pos hi, Option.map_some, if_neg hne, heq]
  · rw [if_neg hi, if_neg hi]

/-- The node of a scope is the new one or that of a scope that was there. -/
theorem node_of_openScope (hp : p.index < t.scopes.size) {kind : ScopeKind} {node : NodeKey}
    (hs : (t.openScope p kind node).2.scope? id = some s) : (id = ⟨t.scopes.size⟩ ∧ s.node = node)
      ∨ ∃ r, t.scope? id = some r ∧ s.node = r.node := by
  rw [scope?_openScope hp] at hs
  split at hs
  · next hid =>
    rw [← Option.some.inj hs]
    exact .inl ⟨by cases id; exact congrArg ScopeId.mk hid, rfl⟩
  · obtain ⟨r, hr, rfl⟩ := Option.map_eq_some_iff.1 hs
    refine .inr ⟨r, hr, ?_⟩
    split <;> rfl

/-- Opening a scope extends the tree. -/
theorem extends_openScope (hp : p.index < t.scopes.size) (kind : ScopeKind) (node : NodeKey) :
    t.Extends (t.openScope p kind node).2 where
  scope {i s} hs := by
    have hlt := lt_size_of_scope? hs
    rw [scope?_openScope hp, if_neg (Nat.ne_of_lt hlt), hs]
    refine ⟨_, rfl, ?_⟩
    split <;> exact ⟨rfl, rfl⟩
  symbols := List.prefix_rfl

/-- A scope that is opened inside of another one has a larger number. -/
theorem Ranked.openScope (h : t.Ranked) (hp : p.index < t.scopes.size) (kind : ScopeKind)
    (node : NodeKey) : (t.openScope p kind node).2.Ranked := by
  -- A scope of the new tree is the one that was opened, or was there with the same parent.
  have hcases : ∀ {i : ScopeId} {s : Scope}, (t.openScope p kind node).2.scope? i = some s →
      (i.index = t.scopes.size ∧ s.id = i ∧ s.parent = some p)
        ∨ ∃ r, t.scope? i = some r ∧ s.id = r.id ∧ s.parent = r.parent := by
    intro i s hs
    rw [scope?_openScope hp] at hs
    split at hs
    · next hi =>
      obtain rfl := Option.some.inj hs
      exact .inl ⟨hi, rfl, rfl⟩
    · obtain ⟨r, hr, rfl⟩ := Option.map_eq_some_iff.1 hs
      refine .inr ⟨r, hr, ?_⟩
      split <;> exact ⟨rfl, rfl⟩
  refine ⟨fun hs => ?_, fun hs hparent => ?_⟩
  · rcases hcases hs with ⟨-, hid, -⟩ | ⟨r, hr, hid, -⟩
    · exact hid
    · exact hid.trans (h.id hr)
  · rcases hcases hs with ⟨hi, -, hp'⟩ | ⟨r, hr, -, hp'⟩
    · obtain rfl := Option.some.inj (hp'.symm.trans hparent)
      omega
    · exact h.parent hr (hp'.symm.trans hparent)

/-- The symbol is entered in the table of its scope. -/
theorem scope?_declare (t : ScopeTree) (id : ScopeId) (symbol : Symbol) (i : ScopeId) :
    (t.declare id symbol).2.scope? i = (t.scope? i).map fun s =>
      if id = i then { s with symbols := s.symbols.insert symbol.name ⟨t.symbols.size⟩ } else s :=
  scope?_modifyScope _ _ _ _

/-- Declaring a symbol adds no scope. -/
theorem size_declare (t : ScopeTree) (id : ScopeId) (symbol : Symbol) :
    (t.declare id symbol).2.scopes.size = t.scopes.size := by
  simp [declare, modifyScope]

/-- Declaring a symbol adds it behind the others. -/
theorem toList_symbols_declare (t : ScopeTree) (id : ScopeId) (symbol : Symbol) :
    (t.declare id symbol).2.symbols.toList = t.symbols.toList ++ [symbol] := by
  simp [declare, modifyScope]

/-- Symbols stay where they are. -/
theorem Extends.symbol? (h : t.Extends t') {x : SymbolId} {symbol : Symbol}
    (hx : t.symbol? x = some symbol) : t'.symbol? x = some symbol := by
  obtain ⟨more, hmore⟩ := h.symbols
  rw [ScopeTree.symbol?, ← Array.getElem?_toList] at hx ⊢
  rw [← hmore, List.getElem?_append_left (List.getElem?_eq_some_iff.1 hx).1, hx]

/-- The symbol that was declared is found under its number. -/
theorem symbol?_declare (t : ScopeTree) (id : ScopeId) (symbol : Symbol) :
    (t.declare id symbol).2.symbol? ⟨t.symbols.size⟩ = some symbol := by
  rw [ScopeTree.symbol?, ← Array.getElem?_toList, toList_symbols_declare, ← Array.length_toList]
  exact List.getElem?_concat_length

/-- Declaring a symbol extends the tree. -/
theorem extends_declare (t : ScopeTree) (id : ScopeId) (symbol : Symbol) :
    t.Extends (t.declare id symbol).2 where
  scope {i s} hs := by
    rw [scope?_declare, hs]
    refine ⟨_, rfl, ?_⟩
    split <;> exact ⟨rfl, rfl⟩
  symbols := by
    rw [toList_symbols_declare]
    exact List.prefix_append _ _

/-- The chain of the new scope begins with it and goes on with that of its parent. -/
theorem ancestors_openScope (h : t.Ranked) (hp : p.index < t.scopes.size) (kind : ScopeKind)
    (node : NodeKey) :
    (t.openScope p kind node).2.ancestors ⟨t.scopes.size⟩ = ⟨t.scopes.size⟩ :: t.ancestors p := by
  have hself := scope?_openScope hp kind node ⟨t.scopes.size⟩
  rw [if_pos rfl] at hself
  rw [ancestors_eq (h.openScope hp kind node) hself, Option.elim_some,
    (extends_openScope hp kind node).ancestors_eq h (h.openScope hp kind node) hp]

/-- Declaring a symbol leaves the order of the scopes. -/
theorem Ranked.declare (h : t.Ranked) (id : ScopeId) (symbol : Symbol) :
    (t.declare id symbol).2.Ranked := by
  -- Declaring changes the symbols only, neither the numbers nor the parents.
  have hcases : ∀ {i : ScopeId} {s : Scope}, (t.declare id symbol).2.scope? i = some s →
      ∃ r, t.scope? i = some r ∧ s.id = r.id ∧ s.parent = r.parent := by
    intro i s hs
    rw [scope?_declare] at hs
    obtain ⟨r, hr, rfl⟩ := Option.map_eq_some_iff.1 hs
    refine ⟨r, hr, ?_⟩
    split <;> exact ⟨rfl, rfl⟩
  refine ⟨fun hs => ?_, fun hs hparent => ?_⟩
  · obtain ⟨r, hr, hid, -⟩ := hcases hs
    exact hid.trans (h.id hr)
  · obtain ⟨r, hr, -, hp'⟩ := hcases hs
    exact h.parent hr (hp'.symm.trans hparent)

end ScriptSense.ScopeTree
