/-
Tables of named things: keyed by folded name, listed in the order in which the
names were first entered.

Every table of the library is of this kind: the symbols of a scope, the
functions and forms of a catalog, the names a script takes from outside, the
global names of a workspace. Entering a name again replaces what it stands for
and keeps its place, so the order shows when a name was first met and the value
what was said of it last.

Keys are distinct and folded by construction. That is what the proof fields below
say, and it is why a lookup may stop at the first entry it finds and why no entry
is hidden from the lookups.
-/
import ScriptSense.Text.Casing

set_option autoImplicit false

namespace ScriptSense

universe u v

/-! ## Lists of keyed entries -/

namespace Entries

variable {α : Type u} {β : Type v}

/-- The keys, in order. -/
def keys (entries : List (String × α)) : List String := entries.map Prod.fst

/-- Enters a value under a key: in place if the key is known, else at the end. -/
def put (key : String) (value : α) : List (String × α) → List (String × α)
  | [] => [(key, value)]
  | (k, w) :: rest => if k = key then (key, value) :: rest else (k, w) :: put key value rest

theorem keys_put (key : String) (value : α) (entries : List (String × α)) :
    keys (put key value entries)
      = if key ∈ keys entries then keys entries else keys entries ++ [key] := by
  induction entries with
  | nil => simp [put, keys]
  | cons entry rest ih =>
    obtain ⟨k, w⟩ := entry
    simp only [keys] at ih
    by_cases h : k = key
    · simp [put, keys, h]
    · have h' : ¬ key = k := fun e => h e.symm
      by_cases hm : key ∈ rest.map Prod.fst <;> simp_all [put, keys]

theorem nodup_keys_put (key : String) (value : α) (entries : List (String × α))
    (h : (keys entries).Nodup) : (keys (put key value entries)).Nodup := by
  rw [keys_put]
  split
  · exact h
  · next hm =>
    rw [List.nodup_append]
    refine ⟨h, by simp, ?_⟩
    intro a ha b hb
    simp only [List.mem_singleton] at hb
    exact fun e => hm (hb ▸ e ▸ ha)

theorem mem_keys_put {key other : String} {value : α} {entries : List (String × α)} :
    other ∈ keys (put key value entries) ↔ other = key ∨ other ∈ keys entries := by
  rw [keys_put]
  split
  · next hm => exact ⟨.inr, fun h => h.elim (fun e => e ▸ hm) id⟩
  · rw [List.mem_append, List.mem_singleton, or_comm]

theorem mem_of_mem_put {key : String} {value : α} {entries : List (String × α)} {entry : String × α}
    (h : entry ∈ put key value entries) : entry = (key, value) ∨ entry ∈ entries := by
  induction entries with
  | nil => exact .inl (List.mem_singleton.1 h)
  | cons first rest ih =>
    obtain ⟨k, w⟩ := first
    unfold put at h
    split at h
    · exact (List.mem_cons.1 h).imp_right (List.mem_cons_of_mem _)
    · rcases List.mem_cons.1 h with rfl | h
      · exact .inr List.mem_cons_self
      · exact (ih h).imp_right (List.mem_cons_of_mem _)

/-- The value under a key. -/
def get? (key : String) : List (String × α) → Option α
  | [] => none
  | (k, w) :: rest => if k = key then some w else get? key rest

theorem get?_put_self (key : String) (value : α) (entries : List (String × α)) :
    get? key (put key value entries) = some value := by
  induction entries with
  | nil => simp [put, get?]
  | cons entry rest ih =>
    obtain ⟨k, w⟩ := entry
    by_cases h : k = key <;> simp [put, get?, h, ih]

theorem get?_put_of_ne {key other : String} (h : other ≠ key) (value : α)
    (entries : List (String × α)) :
    get? other (put key value entries) = get? other entries := by
  induction entries with
  | nil => simp [put, get?, Ne.symm h]
  | cons entry rest ih =>
    obtain ⟨k, w⟩ := entry
    by_cases hk : k = key
    · simp [put, get?, hk, Ne.symm h]
    · simp [put, get?, hk, ih]

theorem get?_eq_none {key : String} {entries : List (String × α)} :
    get? key entries = none ↔ key ∉ keys entries := by
  induction entries with
  | nil => simp [get?, keys]
  | cons entry rest ih =>
    obtain ⟨k, w⟩ := entry
    simp only [keys] at ih
    by_cases h : k = key
    · simp [get?, keys, h]
    · simp [get?, keys, h, ih, Ne.symm h]

theorem get?_append (key : String) (entries more : List (String × α)) :
    get? key (entries ++ more) = (get? key entries).or (get? key more) := by
  induction entries with
  | nil => rfl
  | cons entry rest ih =>
    obtain ⟨k, w⟩ := entry
    by_cases hk : k = key <;> simp [get?, hk, ih]

theorem mem_of_get? {key : String} {value : α} {entries : List (String × α)}
    (h : get? key entries = some value) : (key, value) ∈ entries := by
  induction entries with
  | nil => cases h
  | cons entry rest ih =>
    obtain ⟨k, w⟩ := entry
    rw [get?] at h
    split at h
    · next hk =>
      rw [hk, Option.some.inj h]
      exact List.mem_cons_self
    · exact List.mem_cons_of_mem _ (ih h)

theorem get?_of_mem {key : String} {value : α} {entries : List (String × α)}
    (hnodup : (keys entries).Nodup) (h : (key, value) ∈ entries) : get? key entries = some value := by
  induction entries with
  | nil => cases h
  | cons entry rest ih =>
    obtain ⟨k, w⟩ := entry
    have hrest : k ∉ keys rest ∧ (keys rest).Nodup := List.nodup_cons.1 hnodup
    rcases List.mem_cons.1 h with heq | h
    · obtain ⟨rfl, rfl⟩ := Prod.mk.inj heq
      simp [get?]
    · have hne : k ≠ key := fun e => hrest.1 (e ▸ List.mem_map_of_mem h)
      rw [get?, if_neg hne, ih hrest.2 h]

theorem get?_filter (key other : String) (entries : List (String × α)) :
    get? other (entries.filter (fun entry => entry.1 != key))
      = if other = key then none else get? other entries := by
  induction entries with
  | nil => simp [get?]
  | cons entry rest ih =>
    obtain ⟨k, w⟩ := entry
    by_cases hk : k = key
    · subst hk
      rw [List.filter_cons_of_neg (by simp), ih]
      by_cases ho : other = k
      · simp [ho]
      · simp [get?, ho, Ne.symm ho]
    · rw [List.filter_cons_of_pos (by simpa using hk)]
      by_cases ho : k = other
      · subst ho
        simp [get?, hk]
      · simp [get?, ho, ih]

/-- Keeps the entries to which `f` gives a value, with that value. -/
def select (f : α → Option β) (entries : List (String × α)) : List (String × β) :=
  entries.filterMap fun entry => (f entry.2).map (Prod.mk entry.1)

theorem keys_select_sublist (f : α → Option β) (entries : List (String × α)) :
    (keys (select f entries)).Sublist (keys entries) := by
  induction entries with
  | nil => simp [select, keys]
  | cons entry rest ih =>
    obtain ⟨k, w⟩ := entry
    cases h : f w with
    | none => simpa [select, keys, h] using ih.trans (List.sublist_cons_self k _)
    | some b => simpa [select, keys, h] using ih.cons_cons k

theorem get?_select (f : α → Option β) (key : String) {entries : List (String × α)}
    (hnodup : (keys entries).Nodup) :
    get? key (select f entries) = (get? key entries).bind f := by
  induction entries with
  | nil => simp [select, get?]
  | cons entry rest ih =>
    obtain ⟨k, w⟩ := entry
    have hrest : k ∉ keys rest ∧ (keys rest).Nodup := List.nodup_cons.1 hnodup
    have hstep : select f ((k, w) :: rest)
        = ((f w).map (Prod.mk k)).toList ++ select f rest := by
      cases hf : f w <;> simp [select, hf]
    rw [hstep]
    by_cases hk : k = key
    · subst hk
      cases hf : f w with
      | none =>
        have hgone : get? k (select f rest) = none :=
          get?_eq_none.2 fun h => hrest.1 ((keys_select_sublist f rest).subset h)
        simp [get?, hf, hgone]
      | some b => simp [get?, hf]
    · cases hf : f w <;> simp [get?, hk, ih hrest.2]

end Entries

/-! ## The table -/

/-- A table keyed by folded name, in the order of first entry. -/
structure NameMap (α : Type u) where
  /-- The entries, each under its folded name. -/
  entries : List (String × α)
  /-- No folded name has two entries. -/
  nodup : (Entries.keys entries).Nodup
  /-- Every key is a folded name. -/
  folded : ∀ key ∈ Entries.keys entries, foldCase key = key

namespace NameMap

variable {α : Type u} {β : Type v}

/-- The table without entries. -/
def empty : NameMap α := ⟨[], List.nodup_nil, by simp [Entries.keys]⟩

instance : Inhabited (NameMap α) := ⟨empty⟩

instance [DecidableEq α] : DecidableEq (NameMap α) := fun a b =>
  decidable_of_iff (a.entries = b.entries) (by cases a; cases b; simp)

/-- Enters a value under a name, in place of what the name stood for. -/
def insert (m : NameMap α) (name : String) (value : α) : NameMap α :=
  ⟨Entries.put (foldCase name) value m.entries, Entries.nodup_keys_put _ _ _ m.nodup,
    fun key hkey => (Entries.mem_keys_put.1 hkey).elim
      (fun h => by rw [h, foldCase_foldCase]) (m.folded key)⟩

/-- What a name stands for. -/
def find? (m : NameMap α) (name : String) : Option α := Entries.get? (foldCase name) m.entries

/-- The name is in the table. -/
def contains (m : NameMap α) (name : String) : Bool := (m.find? name).isSome

/-- Enters a value under a name that stands for nothing yet. -/
def insertNew (m : NameMap α) (name : String) (value : α) : NameMap α :=
  if m.contains name then m else m.insert name value

/-- Keeps the entries to which `f` gives a value, with that value. -/
def select (m : NameMap α) (f : α → Option β) : NameMap β :=
  ⟨Entries.select f m.entries, (Entries.keys_select_sublist f m.entries).nodup m.nodup,
    fun key hkey => m.folded key ((Entries.keys_select_sublist f m.entries).subset hkey)⟩

/-- The table without a name. -/
def erase (m : NameMap α) (name : String) : NameMap α :=
  ⟨m.entries.filter (fun entry => entry.1 != foldCase name),
    (List.Sublist.map Prod.fst List.filter_sublist).nodup m.nodup,
    fun key hkey => m.folded key ((List.Sublist.map Prod.fst List.filter_sublist).subset hkey)⟩

/-- The values, in the order of first entry. -/
def values (m : NameMap α) : List α := m.entries.map Prod.snd

/-- The folded names, in the order of first entry. -/
def keys (m : NameMap α) : List String := Entries.keys m.entries

/-- The number of names. -/
def size (m : NameMap α) : Nat := m.entries.length

/-- No name is in the table. -/
def isEmpty (m : NameMap α) : Bool := m.entries.isEmpty

/-! ## Lookup through the operations -/

@[simp] theorem find?_empty (name : String) : (empty : NameMap α).find? name = none := rfl

/-- A lookup sees the last value entered under the folded name and is blind to
all other entries. -/
theorem find?_insert (m : NameMap α) (name other : String) (value : α) :
    (m.insert name value).find? other
      = if foldCase other = foldCase name then some value else m.find? other := by
  split
  · next h => simp only [find?, insert, h, Entries.get?_put_self]
  · next h => exact Entries.get?_put_of_ne h value m.entries

/-- A lookup is blind to the case of the name. -/
theorem find?_congr (m : NameMap α) {name other : String} (h : foldCase name = foldCase other) :
    m.find? name = m.find? other := by
  rw [find?, find?, h]

theorem find?_insertNew (m : NameMap α) (name other : String) (value : α) :
    (m.insertNew name value).find? other
      = if foldCase other = foldCase name then some ((m.find? name).getD value)
        else m.find? other := by
  rw [insertNew, contains]
  cases hname : m.find? name with
  | none => simp [find?_insert]
  | some known =>
    by_cases h : foldCase other = foldCase name
    · simp [h, find?_congr m h, hname]
    · simp [h]

theorem find?_erase (m : NameMap α) (name other : String) :
    (m.erase name).find? other
      = if foldCase other = foldCase name then none else m.find? other :=
  Entries.get?_filter (foldCase name) (foldCase other) m.entries

/-- A selection shows of each entry what `f` makes of it. -/
theorem find?_select (m : NameMap α) (f : α → Option β) (name : String) :
    (m.select f).find? name = (m.find? name).bind f :=
  Entries.get?_select f (foldCase name) m.nodup

/-- The entries are what is found, each listed under its folded name. -/
theorem mem_entries_iff (m : NameMap α) {key : String} {value : α} :
    (key, value) ∈ m.entries ↔ foldCase key = key ∧ m.find? key = some value := by
  constructor
  · intro h
    have hkey := m.folded key (List.mem_map_of_mem h)
    exact ⟨hkey, by rw [find?, hkey]; exact Entries.get?_of_mem m.nodup h⟩
  · rintro ⟨hkey, hfind⟩
    rw [find?, hkey] at hfind
    exact Entries.mem_of_get? hfind

/-- A table in which no name is found has no entries. -/
theorem eq_empty_of_find? (m : NameMap α) (h : ∀ name, m.find? name = none) : m = empty := by
  obtain ⟨entries, nodup, folded⟩ := m
  cases entries with
  | nil => rfl
  | cons entry rest =>
    have hkey : foldCase entry.1 = entry.1 := folded entry.1 (by simp [Entries.keys])
    have hfound : Entries.get? (foldCase entry.1) (entry :: rest) = none := h entry.1
    simp [hkey, Entries.get?] at hfound

end NameMap

end ScriptSense
