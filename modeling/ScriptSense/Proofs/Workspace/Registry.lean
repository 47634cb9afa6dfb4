/-
What a registry shows after an entry is made or taken out.

The entries of a registry are told apart by their numbers as well as by their
keys, so both lookups find the one entry there is. From that follow the two
directions of one correspondence, `id?_eq_some`, and the two laws that say how
`put` and `erase` change it.
-/
import Mathlib.Data.List.Nodup
import ScriptSense.Workspace.Registry

set_option autoImplicit false

namespace ScriptSense

universe u

/-- In a list whose members are told apart by `label`, a search by label finds
the one member that has it. -/
theorem find?_label {α : Type u} {κ : Type} [DecidableEq κ] {label : α → κ} {xs : List α}
    (hnodup : (xs.map label).Nodup) {k : κ} {x : α} :
    xs.find? (fun y => label y == k) = some x ↔ x ∈ xs ∧ label x = k := by
  constructor
  · intro h
    have hlabel := List.find?_some h
    exact ⟨List.mem_of_find?_eq_some h, by simpa using hlabel⟩
  · rintro ⟨hx, rfl⟩
    cases hfound : xs.find? (fun y => label y == label x) with
    | none =>
      have hnone := List.find?_eq_none.1 hfound x hx
      simp at hnone
    -- What is found bears the label as well, and no two elements do.
    | some y =>
      have hy : y ∈ xs := List.mem_of_find?_eq_some hfound
      have hlabel := List.find?_some hfound
      rw [List.inj_on_of_nodup_map hnodup hy hx (by simpa using hlabel)]

namespace Registry

variable {α : Type u} (r : Registry α)

/-! ## The two lookups -/

/-- No number is given twice. -/
theorem nodup_ids : (r.entries.map (·.id)).Nodup := by
  have hindex : (r.entries.map (·.id.index)).Nodup := r.ascending.imp Nat.ne_of_lt
  exact List.Nodup.of_map FileId.index (by rwa [List.map_map])

/-- Entries with one number are one entry. -/
theorem eq_of_id {e f : Registered α} (he : e ∈ r.entries) (hf : f ∈ r.entries)
    (h : e.id = f.id) : e = f :=
  List.inj_on_of_nodup_map r.nodup_ids he hf h

/-- Entries with one key are one entry. -/
theorem eq_of_key {e f : Registered α} (he : e ∈ r.entries) (hf : f ∈ r.entries)
    (h : e.key = f.key) : e = f :=
  List.inj_on_of_nodup_map r.distinct he hf h

theorem entry?_eq_some {id : FileId} {e : Registered α} :
    r.entry? id = some e ↔ e ∈ r.entries ∧ e.id = id :=
  find?_label r.nodup_ids

theorem find?_eq_some {key : SourceKey} {e : Registered α} :
    r.find? key = some e ↔ e ∈ r.entries ∧ e.key = key :=
  find?_label r.distinct

/-- **Keys and numbers correspond**: a key has a number exactly if the entry with
that number has the key. -/
theorem id?_eq_some {key : SourceKey} {id : FileId} :
    r.id? key = some id ↔ (r.entry? id).map Registered.key = some key := by
  simp only [id?, Option.map_eq_some_iff, find?_eq_some, entry?_eq_some]
  constructor
  · rintro ⟨e, ⟨he, hkey⟩, hid⟩
    exact ⟨e, ⟨he, hid⟩, hkey⟩
  · rintro ⟨e, ⟨he, hid⟩, hkey⟩
    exact ⟨e, ⟨he, hkey⟩, hid⟩

/-- A number in use is below the next one. -/
theorem index_lt {id : FileId} {e : Registered α} (h : r.entry? id = some e) :
    id.index < r.next := by
  have he := r.entry?_eq_some.1 h
  rw [← he.2]
  exact r.fresh e he.1

/-- A key that has no number would get the next one. -/
theorem idFor_cases (key : SourceKey) :
    r.id? key = some (r.idFor key) ∨ (r.id? key = none ∧ r.idFor key = ⟨r.next⟩) := by
  cases h : r.id? key with
  | none => exact .inr ⟨rfl, by rw [idFor, h]; rfl⟩
  | some id => exact .inl (by rw [idFor, h]; rfl)

theorem mem_keys {key : SourceKey} :
    key ∈ r.entries.map (·.key) ↔ ∃ id, r.id? key = some id := by
  simp only [id?, Option.map_eq_some_iff, find?_eq_some, List.mem_map]
  constructor
  · rintro ⟨e, he, hkey⟩
    exact ⟨e.id, e, ⟨he, hkey⟩, rfl⟩
  · rintro ⟨id, e, ⟨he, hkey⟩, -⟩
    exact ⟨e, he, hkey⟩

/-! ## Putting and erasing -/

theorem entry?_replace {key : SourceKey} (value : α) {own : FileId} (hown : r.id? key = some own)
    (id : FileId) :
    Registry.entry? (r.replace key value) id
      = if id = own then some ⟨own, key, value⟩ else r.entry? id := by
  obtain ⟨old, hold, hkey⟩ := Option.map_eq_some_iff.1 (r.id?_eq_some.1 hown)
  have hmem := r.entry?_eq_some.1 hold
  -- Key and number belong to each other, so exactly one entry is changed.
  have hchange : ∀ e ∈ r.entries, (e.key = key ↔ e.id = own) := by
    intro e he
    constructor
    · intro h
      rw [r.eq_of_key he hmem.1 (h.trans hkey.symm), hmem.2]
    · intro h
      rw [r.eq_of_id he hmem.1 (h.trans hmem.2.symm), hkey]
  split
  · next h =>
    subst h
    refine (entry?_eq_some _).2 ⟨List.mem_map.2 ⟨old, hmem.1, ?_⟩, rfl⟩
    simp [hkey, hmem.2]
  · next h =>
    have hsame : ∀ e ∈ r.entries, e.id = id → (if e.key = key then { e with value } else e) = e := by
      intro e he hid
      rw [if_neg]
      intro hkey
      exact h (hid.symm.trans ((hchange e he).1 hkey))
    apply Option.ext
    intro e
    rw [entry?_eq_some, entry?_eq_some]
    constructor
    · rintro ⟨he, hid⟩
      obtain ⟨f, hf, rfl⟩ := List.mem_map.1 he
      have hfid : f.id = id := by
        rw [← hid]
        split <;> rfl
      rw [hsame f hf hfid]
      exact ⟨hf, hfid⟩
    · rintro ⟨he, hid⟩
      exact ⟨List.mem_map.2 ⟨e, he, hsame e he hid⟩, hid⟩

theorem entry?_push {key : SourceKey} (value : α) (h : key ∉ r.entries.map (·.key)) (id : FileId) :
    Registry.entry? (r.push key value h) id
      = if id = ⟨r.next⟩ then some ⟨⟨r.next⟩, key, value⟩ else r.entry? id := by
  split
  · next hid =>
    rw [entry?_eq_some]
    exact ⟨by simp [push], hid.symm⟩
  · next hid =>
    have hlast : ((⟨r.next⟩ : FileId) == id) = false := by simpa using Ne.symm hid
    simp [ entry?, push, List.find?_append, hlast]

/-- **After `put`** the number of the key has the value and every other number
what it had. -/
theorem entry?_put (key : SourceKey) (value : α) (id : FileId) :
    Registry.entry? (r.put key value) id
      = if id = r.idFor key then some ⟨r.idFor key, key, value⟩ else r.entry? id := by
  rw [put]
  rcases r.idFor_cases key with hknown | ⟨hnew, hid⟩
  · rw [dif_pos (r.mem_keys.2 ⟨_, hknown⟩)]
    exact r.entry?_replace value hknown id
  · have hfree : key ∉ r.entries.map (·.key) := by
      rw [mem_keys, hnew]
      rintro ⟨own, h⟩
      cases h
    rw [dif_neg hfree, entry?_push, hid]

/-- **After `erase`** the number of the key has nothing and every other number
what it had. -/
theorem entry?_erase (key : SourceKey) (id : FileId) :
    Registry.entry? (r.erase key) id = if r.id? key = some id then none else r.entry? id := by
  apply Option.ext
  intro e
  have hkept : e ∈ (r.erase key).entries ↔ e ∈ r.entries ∧ e.key ≠ key := by
    simp [erase]
  rw [entry?_eq_some, hkept]
  split
  -- The key belongs to this number, so its entry is the one that is gone.
  · next h =>
    obtain ⟨own, hown, hkey⟩ := Option.map_eq_some_iff.1 (r.id?_eq_some.1 h)
    have hmem := r.entry?_eq_some.1 hown
    constructor
    · rintro ⟨⟨he, hne⟩, hid⟩
      rw [r.eq_of_id he hmem.1 (hid.trans hmem.2.symm)] at hne
      exact absurd hkey hne
    · intro h
      cases h
  · next h =>
    rw [entry?_eq_some]
    constructor
    · rintro ⟨⟨he, -⟩, hid⟩
      exact ⟨he, hid⟩
    · rintro ⟨he, hid⟩
      refine ⟨⟨he, ?_⟩, hid⟩
      intro hkey
      have hentry : r.entry? id = some e := r.entry?_eq_some.2 ⟨he, hid⟩
      exact h (r.id?_eq_some.2 (by rw [hentry, ← hkey]; rfl))

/-- The numbers given so far are never given back. -/
theorem next_le_put (key : SourceKey) (value : α) : r.next ≤ (r.put key value).next := by
  rw [put]
  split
  · exact Nat.le_refl _
  · exact Nat.le_succ _

end Registry

end ScriptSense
