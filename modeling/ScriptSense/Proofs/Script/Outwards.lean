/-
Where the walk outwards from a scope ends, whatever scopes the calls have named.

A scope may be opened inside any other, also inside one that is not there. So the way
outwards (`Leads`) is read off the history of the calls, with no bound on its length, and
there are three things that it can do: it reaches the scope of the script, it comes to a
scope that is named and not there and stops in front of it, or it runs in a circle and has
no end (`Circles`). There is a way with an end exactly if there is no circle
(`exists_leads_iff`): a way that went on for longer than there are scopes would meet one of
them twice.

The tree walks for as many steps as there are scopes. That is enough for every way that has
an end, since no scope stands on it twice (`Leads.nodup`), so the walk and the three lookups
that go along it see the whole way (`Ends`). In a circle any number of steps is used up, and
more of them would be too (`Linked.length_walk`). If scopes are only opened inside older ones, as
the reader of a script does it, every way ends in the scope of the script.
-/
import Mathlib.Data.List.Induction
import Mathlib.Data.List.Perm.Subperm
import Mathlib.Logic.Relation
import ScriptSense.Proofs.Script.Lookup

set_option autoImplicit false

namespace ScriptSense

namespace ScopeHistory

variable {history : List ScopeChange} {id a b p : ScopeId} {ids ids' : List ScopeId}

/-! ## Ways -/

/-- The scope is there: it is the script's own, or it has been opened. -/
def Present (history : List ScopeChange) (id : ScopeId) : Prop :=
  id.index ≤ (openings history).length

instance (history : List ScopeChange) (id : ScopeId) : Decidable (Present history id) :=
  inferInstanceAs (Decidable (id.index ≤ _))

/-- The scope has been opened inside the other one, which need not be there. -/
def Inside (history : List ScopeChange) (id p : ScopeId) : Prop := around? history id = some p

/-- **The way outwards** from a scope: it and the scopes around it, for as long as they are
there. A way has an end. -/
inductive Leads (history : List ScopeChange) : ScopeId → List ScopeId → Prop
  | root : Leads history .root [.root]
  | stray {id p : ScopeId} : Inside history id p → ¬ Present history p → Leads history id [id]
  | step {id p : ScopeId} {ids : List ScopeId} : Inside history id p → Leads history p ids →
    Leads history id (id :: ids)

/-- From the scope outwards one comes to a scope that is around itself. -/
def Circles (history : List ScopeChange) (id : ScopeId) : Prop :=
  ∃ a, Relation.ReflTransGen (Inside history) id a ∧ Relation.TransGen (Inside history) a a

/-- Every scope is opened inside an older one. -/
def Older (history : List ScopeChange) : Prop :=
  ∀ id p, Inside history id p → p.index < id.index

/-- The script's own scope is inside no other. -/
theorem not_inside_root : ¬ Inside history .root p := by
  intro h
  rw [Inside, around?] at h
  cases h

theorem Inside.present (h : Inside history id p) : Present history id := by
  rw [Inside, around?] at h
  split at h
  · cases h
  · next n hn =>
    have hlt := (List.getElem?_eq_some_iff.1 h).1
    rw [Present]
    omega

theorem Inside.unique (h : Inside history id a) (h' : Inside history id b) : a = b :=
  Option.some.inj (Eq.trans (Eq.symm h) h')

/-- A scope that is there is the script's own or inside another. -/
theorem Present.cases (h : Present history id) : id = .root ∨ ∃ p, Inside history id p := by
  by_cases hzero : id.index = 0
  · left
    cases id
    exact congrArg ScopeId.mk hzero
  · right
    obtain ⟨n, hn⟩ := Nat.exists_eq_succ_of_ne_zero hzero
    have hlt : n < (openings history).length := by
      rw [Present] at h
      omega
    refine ⟨(openings history)[n], ?_⟩
    rw [Inside, around?, hn]
    exact List.getElem?_eq_getElem hlt

namespace Leads

theorem present (h : Leads history id ids) : Present history id := by
  cases h with
  | root => exact Nat.zero_le _
  | stray hinside _ => exact hinside.present
  | step hinside _ => exact hinside.present

/-- A way goes on from the scope around its first one. -/
theorem next (h : Leads history id ids) (hinside : Inside history id p) (hp : Present history p) :
    ∃ rest, ids = id :: rest ∧ Leads history p rest := by
  cases h with
  | root => exact absurd hinside not_inside_root
  | stray hinside' hnot => exact absurd (hinside.unique hinside' ▸ hp) hnot
  | step hinside' hrest => exact ⟨_, rfl, hinside'.unique hinside ▸ hrest⟩

/-- From a scope there is one way. -/
theorem unique (h : Leads history id ids) (h' : Leads history id ids') : ids = ids' := by
  induction h generalizing ids' with
  | root =>
    cases h' with
    | root => rfl
    | stray hinside _ => exact absurd hinside not_inside_root
    | step hinside _ => exact absurd hinside not_inside_root
  | stray hinside hnot =>
    cases h' with
    | root => exact absurd hinside not_inside_root
    | stray _ _ => rfl
    | step hinside' hrest => exact absurd (hinside'.unique hinside ▸ hrest.present) hnot
  -- The next scope is there, so the other way out steps to it as well.
  | step hinside hrest ih =>
    obtain ⟨rest, rfl, hrest'⟩ := h'.next hinside hrest.present
    rw [ih hrest']

/-- From every scope on a way, the rest of it is the way. -/
theorem of_mem (h : Leads history id ids) (ha : a ∈ ids) :
    ∃ rest, rest <:+ ids ∧ Leads history a rest := by
  induction h with
  | root =>
    rw [List.mem_singleton.1 ha]
    exact ⟨_, List.suffix_rfl, .root⟩
  | stray hinside hnot =>
    rw [List.mem_singleton.1 ha]
    exact ⟨_, List.suffix_rfl, .stray hinside hnot⟩
  | step hinside hrest ih =>
    rcases List.mem_cons.1 ha with rfl | ha
    · exact ⟨_, List.suffix_rfl, .step hinside hrest⟩
    · obtain ⟨rest, hsuffix, hway⟩ := ih ha
      exact ⟨rest, hsuffix.trans (List.suffix_cons _ _), hway⟩

/-- **No scope stands on a way twice.** Its way would be a part of itself. -/
theorem nodup (h : Leads history id ids) : ids.Nodup := by
  induction h with
  | root => exact List.nodup_singleton _
  | stray _ _ => exact List.nodup_singleton _
  | @step id p ids hinside hrest ih =>
    refine List.nodup_cons.2 ⟨fun hmem => ?_, ih⟩
    obtain ⟨rest, hsuffix, hway⟩ := hrest.of_mem hmem
    have hsame : rest = id :: ids := hway.unique (.step hinside hrest)
    have hlength := hsuffix.length_le
    rw [hsame, List.length_cons] at hlength
    omega

theorem present_of_mem (h : Leads history id ids) (ha : a ∈ ids) : Present history a := by
  obtain ⟨rest, -, hway⟩ := h.of_mem ha
  exact hway.present

/-- The way ends in the scope of the script, or in front of one that is not there. -/
theorem last (h : Leads history id ids) : ∃ last, ids.getLast? = some last
    ∧ (last = .root ∨ ∃ p, Inside history last p ∧ ¬ Present history p) := by
  induction h with
  | root => exact ⟨_, rfl, .inl rfl⟩
  | stray hinside hnot => exact ⟨_, rfl, .inr ⟨_, hinside, hnot⟩⟩
  | step hinside hrest ih =>
    obtain ⟨last, hlast, hend⟩ := ih
    refine ⟨last, ?_, hend⟩
    rw [List.getLast?_cons, hlast]
    rfl

end Leads

/-! ## Ways with an end -/

/-- Scopes that are there and of which none is named twice are at most as many as there are. -/
theorem length_le_of_nodup (hnodup : ids.Nodup) (hpresent : ∀ a ∈ ids, Present history a) :
    ids.length ≤ (openings history).length + 1 := by
  have hinj : Function.Injective ScopeId.index := by
    intro x y hxy
    cases x
    cases y
    exact congrArg ScopeId.mk hxy
  have hsub : ids.map ScopeId.index ⊆ List.range ((openings history).length + 1) := by
    intro n hn
    obtain ⟨x, hx, rfl⟩ := List.mem_map.1 hn
    exact List.mem_range.2 (Nat.lt_succ_of_le (hpresent x hx))
  have hle := (List.subperm_of_subset (hnodup.map hinj) hsub).length_le
  rwa [List.length_map, List.length_range] at hle

/-- A scope around one with a way has a shorter way. -/
theorem Leads.shorter (h : Leads history a ids) (hab : Relation.TransGen (Inside history) a b)
    (hb : Present history b) : ∃ rest, Leads history b rest ∧ rest.length < ids.length := by
  induction hab with
  | single hinside =>
    obtain ⟨rest, rfl, hrest⟩ := h.next hinside hb
    exact ⟨rest, hrest, Nat.lt_succ_self _⟩
  | tail _ hinside ih =>
    obtain ⟨mid, hmid, hlt⟩ := ih hinside.present
    obtain ⟨rest, rfl, hrest⟩ := hmid.next hinside hb
    refine ⟨rest, hrest, ?_⟩
    rw [List.length_cons] at hlt
    omega

/-- Where no circle is come into, there is a way with an end. `path` is where one has come
from. It can not grow for ever: the scope that one goes on to is none of those on it. -/
theorem exists_leads_from (steps : Nat) (path : List ScopeId)
    (hfree : ∀ a, Relation.ReflTransGen (Inside history) id a → ¬ Relation.TransGen (Inside history) a a)
    (hnodup : (id :: path).Nodup) (hpresent : ∀ a ∈ id :: path, Present history a)
    (hpath : ∀ a ∈ path, Relation.TransGen (Inside history) a id)
    (hsteps : (openings history).length + 1 ≤ path.length + steps) : ∃ ids, Leads history id ids := by
  induction steps generalizing id path with
  | zero =>
    -- A way through distinct scopes is no longer than there are scopes.
    have hle := length_le_of_nodup hnodup hpresent
    rw [List.length_cons] at hle
    omega
  | succ steps ih =>
    rcases (hpresent id List.mem_cons_self).cases with rfl | ⟨p, hinside⟩
    · exact ⟨_, .root⟩
    · by_cases hp : Present history p
      · have hout : ∀ a ∈ id :: path, Relation.TransGen (Inside history) a p := by
          intro a ha
          rcases List.mem_cons.1 ha with rfl | ha
          · exact .single hinside
          · exact (hpath a ha).tail hinside
        -- A scope met a second time would lie inside of itself.
        have hnew : p ∉ id :: path := fun hmem => hfree p (.single hinside) (hout p hmem)
        have hlength : (openings history).length + 1 ≤ (id :: path).length + steps := by
          rw [List.length_cons]
          omega
        obtain ⟨ids, hids⟩ := ih (id :: path) (fun a ha => hfree a (.head hinside ha))
          (List.nodup_cons.2 ⟨hnew, hnodup⟩) (List.forall_mem_cons.2 ⟨hp, hpresent⟩) hout hlength
        exact ⟨_, .step hinside hids⟩
      · exact ⟨_, .stray hinside hp⟩

/-- **From a scope there is a way with an end exactly if one does not come into a circle.** -/
theorem exists_leads_iff (hid : Present history id) :
    (∃ ids, Leads history id ids) ↔ ¬ Circles history id := by
  constructor
  · rintro ⟨ids, hway⟩ ⟨a, hida, haa⟩
    have ha : Present history a := by
      obtain ⟨b, hab, -⟩ := Relation.TransGen.head'_iff.1 haa
      exact Inside.present hab
    obtain ⟨rest, hrest⟩ : ∃ rest, Leads history a rest := by
      rcases Relation.reflTransGen_iff_eq_or_transGen.1 hida with rfl | hida
      · exact ⟨ids, hway⟩
      · obtain ⟨rest, hrest, -⟩ := hway.shorter hida ha
        exact ⟨rest, hrest⟩
    obtain ⟨again, hagain, hlt⟩ := hrest.shorter haa ha
    rw [hagain.unique hrest] at hlt
    exact Nat.lt_irrefl _ hlt
  · intro hfree
    exact exists_leads_from ((openings history).length + 1) [] (fun a ha haa => hfree ⟨a, ha, haa⟩)
      (List.nodup_singleton id) (by simpa using hid) (by simp) (by simp)

/-- Who comes into a circle goes on from every scope, and still comes into it. -/
theorem Circles.next (h : Circles history id) : ∃ p, Inside history id p ∧ Circles history p := by
  obtain ⟨a, hida, haa⟩ := h
  rcases Relation.ReflTransGen.cases_head hida with rfl | ⟨p, hinside, hpa⟩
  · obtain ⟨p, hinside, hpid⟩ := Relation.TransGen.head'_iff.1 haa
    exact ⟨p, hinside, id, hpid, haa⟩
  · exact ⟨p, hinside, a, hpa, haa⟩

/-- If scopes are opened inside older ones, no way leads into a circle. -/
theorem Older.not_circles (h : Older history) : ¬ Circles history id := by
  rintro ⟨a, -, haa⟩
  have hlt : ∀ {x y}, Relation.TransGen (Inside history) x y → y.index < x.index := by
    intro x y hxy
    induction hxy with
    | single hinside => exact h _ _ hinside
    | tail _ hinside ih => exact (h _ _ hinside).trans ih
  exact Nat.lt_irrefl _ (hlt haa)

/-- Then no scope is missing, and every way ends in the scope of the script. -/
theorem Older.last (h : Older history) (hway : Leads history id ids) : ids.getLast? = some .root := by
  obtain ⟨last, hlast, rfl | ⟨p, hinside, hnot⟩⟩ := hway.last
  · exact hlast
  · have hlt := h _ _ hinside
    have hthere := hinside.present
    rw [Present] at hnot hthere
    omega

/-! ## The walk of the tree -/

/-- **The tree has the scopes that its history says**, each inside the one that was named. -/
structure Linked (history : List ScopeChange) (t : ScopeTree) : Prop where
  size : t.scopes.size = (openings history).length + 1
  scope {id : ScopeId} {s : Scope} : t.scope? id = some s →
    s.id = id ∧ s.parent = around? history id

/-- A scope that is opened is inside the one that is named, and the others stay inside theirs. -/
theorem links_openScope (t : ScopeTree) (p : ScopeId) (kind : ScopeKind) (node : NodeKey) {s : Scope}
    (hs : (t.openScope p kind node).2.scope? id = some s) :
    (id.index = t.scopes.size ∧ s.id = id ∧ s.parent = some p)
      ∨ ∃ r, t.scope? id = some r ∧ s.id = r.id ∧ s.parent = r.parent := by
  rw [ScopeTree.scope?_openScope_pushed] at hs
  obtain ⟨r, hr, rfl⟩ := Option.map_eq_some_iff.1 hs
  have hsame : ∀ more, (if p = id then { r with children := more } else r).id = r.id
      ∧ (if p = id then { r with children := more } else r).parent = r.parent := by
    intro more
    split <;> exact ⟨rfl, rfl⟩
  rw [(hsame _).1, (hsame _).2]
  split at hr
  · next hid =>
    left
    rw [← Option.some.inj hr, ← hid]
    exact ⟨rfl, rfl, rfl⟩
  · exact .inr ⟨r, hr, rfl, rfl⟩

namespace Linked

variable {t : ScopeTree}

theorem ofRoot (node : NodeKey) : Linked [] (.ofRoot node) where
  size := rfl
  scope hs := by
    obtain ⟨rfl, rfl⟩ := ScopeTree.eq_of_scope?_ofRoot hs
    exact ⟨rfl, rfl⟩

theorem openScope (h : Linked history t) (p : ScopeId) (kind : ScopeKind) (node : NodeKey) :
    Linked (history ++ [.opens p kind node]) (t.openScope p kind node).2 where
  size := by
    rw [ScopeTree.size_openScope, h.size, openings_opens, List.length_append]
    rfl
  scope hs := by
    have hsize := h.size
    rcases links_openScope t p kind node hs with ⟨hnew, hid, hparent⟩ | ⟨r, hr, hid, hparent⟩
    · refine ⟨hid, ?_⟩
      rw [hparent, around?_opens_self kind node (by omega)]
    · have hlt := ScopeTree.lt_size_of_scope? hr
      obtain ⟨hrid, hrparent⟩ := h.scope hr
      refine ⟨hid.trans hrid, ?_⟩
      rw [hparent, hrparent, around?_opens_of_le kind node (by omega)]

theorem declare (h : Linked history t) (scope : ScopeId) (symbol : Symbol) :
    Linked (history ++ [.declares scope symbol]) (t.declare scope symbol).2 where
  size := by rw [ScopeTree.size_declare, h.size, openings_declares]
  scope {id s} hs := by
    rw [ScopeTree.scope?_declare] at hs
    obtain ⟨r, hr, rfl⟩ := Option.map_eq_some_iff.1 hs
    obtain ⟨hid, hparent⟩ := h.scope hr
    rw [around?_declares]
    split <;> exact ⟨hid, hparent⟩

/-- **A tree is linked as its history says**, whatever scopes the calls have named. -/
theorem build (node : NodeKey) (history : List ScopeChange) :
    Linked history (.build node history) := by
  induction history using List.reverseRecOn with
  | nil => exact ofRoot node
  | append_singleton history change ih =>
    rw [ScopeTree.build, List.foldl_concat, ← ScopeTree.build]
    cases change with
    | opens p kind node' => exact ih.openScope p kind node'
    | declares scope symbol => exact ih.declare scope symbol

theorem isSome_scope? (h : Linked history t) : (t.scope? id).isSome ↔ Present history id := by
  rw [ScopeTree.isSome_scope?, h.size, Present, Nat.lt_succ_iff]

/-- In as many steps as there are scopes on a way, the walk meets all of them. -/
theorem walk_eq (h : Linked history t) (hway : Leads history id ids) {steps : Nat}
    (hsteps : ids.length ≤ steps) : t.walk steps id = ids.filterMap t.scope? := by
  induction hway generalizing steps with
  | root =>
    obtain ⟨steps, rfl⟩ := Nat.exists_eq_add_of_le' hsteps
    have hroot : Present history .root := Nat.zero_le _
    obtain ⟨s, hs⟩ := Option.isSome_iff_exists.1 (h.isSome_scope?.2 hroot)
    have hnone : s.parent = none := (h.scope hs).2
    rw [List.length_singleton, ScopeTree.walk_succ steps hs, hnone]
    simp [hs]
  | @stray id p hinside hnot =>
    obtain ⟨steps, rfl⟩ := Nat.exists_eq_add_of_le' hsteps
    obtain ⟨s, hs⟩ := Option.isSome_iff_exists.1 (h.isSome_scope?.2 hinside.present)
    have hparent : s.parent = some p := (h.scope hs).2.trans hinside
    -- The walk stops in front of a scope that was never opened.
    have hmissing : t.scope? p = none := Option.not_isSome_iff_eq_none.1 (mt h.isSome_scope?.1 hnot)
    have hwalk : t.walk steps p = [] := by
      cases steps <;> simp [ScopeTree.walk, hmissing]
    rw [List.length_singleton, ScopeTree.walk_succ steps hs, hparent, Option.elim_some, hwalk]
    simp [hs]
  | @step id p ids hinside hrest ih =>
    rw [List.length_cons] at hsteps
    obtain ⟨steps, rfl⟩ := Nat.exists_eq_add_of_le' (Nat.le_of_add_left_le hsteps)
    obtain ⟨s, hs⟩ := Option.isSome_iff_exists.1 (h.isSome_scope?.2 hinside.present)
    have hparent : s.parent = some p := (h.scope hs).2.trans hinside
    rw [ScopeTree.walk_succ steps hs, hparent, Option.elim_some, ih (by omega), List.filterMap_cons, hs]

/-- **In a circle the walk uses up all the steps it is given.** -/
theorem length_walk (h : Linked history t) (hcircles : Circles history id) (steps : Nat) :
    (t.walk steps id).length = steps := by
  induction steps generalizing id with
  | zero => rfl
  | succ steps ih =>
    obtain ⟨p, hinside, hp⟩ := hcircles.next
    obtain ⟨s, hs⟩ := Option.isSome_iff_exists.1 (h.isSome_scope?.2 hinside.present)
    have hparent : s.parent = some p := (h.scope hs).2.trans hinside
    rw [ScopeTree.walk_succ steps hs, hparent, Option.elim_some, List.length_cons, ih hp]

end Linked

/-! ## The whole walk -/

/-- **The walk outwards from a scope comes to an end**, and so do the lookups that go along
it. -/
structure Ends (history : List ScopeChange) (t : ScopeTree) (id : ScopeId) (ids : List ScopeId) :
    Prop where
  /-- The scopes met are those of the way that the history knows. -/
  leads : Leads history id ids
  ancestors : t.ancestors id = ids
  /-- None of them is met twice. -/
  nodup : ids.Nodup
  /-- The last one is the script's own, or inside one that is not there. -/
  last : ∃ last, ids.getLast? = some last
    ∧ (last = .root ∨ ∃ p, Inside history last p ∧ t.scope? p = none)
  /-- More steps would not lead any further. -/
  enough : ∀ steps, t.scopes.size ≤ steps → t.walk steps id = t.chain id
  /-- A name is looked up in one of them after the other. -/
  resolved : ∀ name, t.resolve? id name
    = ids.findSome? fun a => (t.scope? a).bind fun s => (s.symbols.find? name).map (Prod.mk a)
  /-- The symbols to be seen are those of one after the other. -/
  seen : t.visible id = ScopeTree.unshadowed [] ((ids.filterMap t.scope?).flatMap (·.symbols.entries))
  /-- The scope lies within each of them. -/
  within : ∀ outer, t.isWithin id outer = true ↔ outer ∈ ids

/-- A way that the history knows is the one that the tree walks. -/
theorem Linked.ends {t : ScopeTree} (h : Linked history t) (hway : Leads history id ids) :
    Ends history t id ids := by
  -- No scope is met twice, so the walk has steps enough to reach the end of the way.
  have hlength : ids.length ≤ t.scopes.size := by
    rw [h.size]
    exact length_le_of_nodup hway.nodup fun a ha => hway.present_of_mem ha
  have hchain : t.chain id = ids.filterMap t.scope? := h.walk_eq hway hlength
  have hscope : ∀ a ∈ ids, ∃ s, t.scope? a = some s ∧ s.id = a := by
    intro a ha
    obtain ⟨s, hs⟩ := Option.isSome_iff_exists.1 (h.isSome_scope?.2 (hway.present_of_mem ha))
    exact ⟨s, hs, (h.scope hs).1⟩
  have hancestors : t.ancestors id = ids := by
    rw [ScopeTree.ancestors, hchain, List.map_filterMap]
    refine (List.filterMap_congr fun a ha => ?_).trans List.filterMap_some
    obtain ⟨s, hs, hid⟩ := hscope a ha
    rw [hs, Option.map_some, hid]
  refine ⟨hway, hancestors, hway.nodup, ?_, fun steps hsteps => ?_, fun name => ?_, ?_, fun outer => ?_⟩
  · obtain ⟨last, hlast, hend⟩ := hway.last
    refine ⟨last, hlast, hend.imp_right ?_⟩
    rintro ⟨p, hinside, hnot⟩
    exact ⟨p, hinside, Option.not_isSome_iff_eq_none.1 (mt h.isSome_scope?.1 hnot)⟩
  · rw [hchain, h.walk_eq hway (hlength.trans hsteps)]
  · rw [ScopeTree.resolve?, hchain, ← List.head?_filterMap, ← List.head?_filterMap,
      List.filterMap_filterMap]
    refine congrArg List.head? (List.filterMap_congr fun a ha => ?_)
    obtain ⟨s, hs, hid⟩ := hscope a ha
    rw [hs, Option.bind_some, Option.bind_some, hid]
  · rw [ScopeTree.visible, hchain]
  · rw [ScopeTree.isWithin_iff, hancestors]

/-- **The walk outwards ends from every scope from which one does not come into a circle**,
after any calls with any scopes: in the scope of the script, or in front of a scope that is
not there. If every scope is opened inside an older one, that is so for all of them, and
all walks end in the scope of the script. -/
theorem walks_outwards_end (node : NodeKey) (history : List ScopeChange) :
    let t := ScopeTree.build node history
    (∀ id, id.index < t.scopes.size → ¬ Circles history id → ∃ ids, Ends history t id ids)
      ∧ (Older history → ∀ id, id.index < t.scopes.size →
          ∃ ids, Ends history t id ids ∧ ids.getLast? = some .root) := by
  intro t
  have hlinked : Linked history t := Linked.build node history
  have hthere : ∀ id, id.index < t.scopes.size → Present history id := by
    intro id hid
    exact hlinked.isSome_scope?.1 (ScopeTree.isSome_scope?.2 hid)
  refine ⟨fun id hid hfree => ?_, fun holder id hid => ?_⟩
  · obtain ⟨ids, hway⟩ := (exists_leads_iff (hthere id hid)).2 hfree
    exact ⟨ids, hlinked.ends hway⟩
  · obtain ⟨ids, hway⟩ := (exists_leads_iff (hthere id hid)).2 holder.not_circles
    -- A scope opened inside of an older one leads to the root, as each step outwards is to an
    -- older one.
    exact ⟨ids, hlinked.ends hway, holder.last hway⟩

/-- A scope inside one that is opened only after it, that one inside the script's own, and a
scope inside one that is not there: the first walk goes over the later scope to that of the
script, and the last one is over at once. And a scope inside an older one. -/
theorem walks_outwards_end_at_stray :
    let history : List ScopeChange :=
      [.opens ⟨2⟩ .block default, .opens .root .block default, .opens ⟨7⟩ .block default]
    let nested : List ScopeChange := [.opens .root .block default, .opens ⟨1⟩ .block default]
    let t := ScopeTree.build default history
    let t' := ScopeTree.build default nested
    (¬ Circles history ⟨1⟩ ∧ ¬ Circles history ⟨3⟩
        ∧ (∃ ids, Ends history t ⟨1⟩ ids) ∧ (∃ ids, Ends history t ⟨3⟩ ids)
        ∧ t.ancestors ⟨1⟩ = [⟨1⟩, ⟨2⟩, .root] ∧ t.ancestors ⟨3⟩ = [⟨3⟩])
      ∧ Older nested ∧ (∃ ids, Ends nested t' ⟨2⟩ ids ∧ ids.getLast? = some .root)
      ∧ t'.ancestors ⟨2⟩ = [⟨2⟩, ⟨1⟩, .root] := by
  intro history nested t t'
  have hway : Leads history ⟨1⟩ [⟨1⟩, ⟨2⟩, .root] := .step rfl (.step rfl .root)
  have hstray : Leads history ⟨3⟩ [⟨3⟩] := .stray (p := ⟨7⟩) rfl (by decide)
  have hfree : ¬ Circles history ⟨1⟩ := (exists_leads_iff (by decide)).1 ⟨_, hway⟩
  have hfree' : ¬ Circles history ⟨3⟩ := (exists_leads_iff (by decide)).1 ⟨_, hstray⟩
  have hends := (walks_outwards_end default history).1
  have holder : Older nested := by
    rintro ⟨_ | _ | _ | n⟩ p hinside <;> cases hinside <;> decide
  exact ⟨⟨hfree, hfree', hends ⟨1⟩ (by decide) hfree, hends ⟨3⟩ (by decide) hfree', by decide, by decide⟩,
    holder, (walks_outwards_end default nested).2 holder ⟨2⟩ (by decide), by decide⟩

/-- The walk from a scope inside one that is not there does not come to the scope of the
script, and the walk from a scope inside itself does not end. -/
theorem not_every_walk_reaches_root :
    let t := ScopeTree.build default [.opens ⟨5⟩ .block default]
    let t' := ScopeTree.build default [.opens ⟨1⟩ .block default]
    ((⟨1⟩ : ScopeId).index < t.scopes.size ∧ t.ancestors ⟨1⟩ = [⟨1⟩]
        ∧ (t.ancestors ⟨1⟩).getLast? ≠ some .root)
      ∧ (⟨1⟩ : ScopeId).index < t'.scopes.size ∧ ∀ steps, (t'.walk steps ⟨1⟩).length = steps := by
  intro t t'
  have halone : t.ancestors ⟨1⟩ = [⟨1⟩] := by decide
  have hcircles : Circles [.opens ⟨1⟩ .block default] ⟨1⟩ := ⟨⟨1⟩, .refl, .single rfl⟩
  refine ⟨⟨by decide, halone, ?_⟩, by decide, (Linked.build default _).length_walk hcircles⟩
  rw [halone]
  decide

end ScopeHistory
end ScriptSense
