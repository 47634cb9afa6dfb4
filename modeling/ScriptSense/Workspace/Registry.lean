/-
Things with a key and a number.

Whoever enters a key for the first time gets the next number, and a number once
given never comes back, not even after its key is erased. Keys and numbers
correspond one to one. All three facts are part of the type: entries stand in
the order of their numbers, numbers are below the next one, keys are distinct.
-/
import ScriptSense.Workspace.FileId
import ScriptSense.Workspace.SourceKey

set_option autoImplicit false

namespace ScriptSense

universe u

/-- A thing with its key and its number. -/
structure Registered (α : Type u) where
  /-- The number. -/
  id : FileId
  /-- The key. -/
  key : SourceKey
  /-- The thing. -/
  value : α

/-- Things by key and by number. -/
structure Registry (α : Type u) where
  /-- The number that is given next. -/
  next : Nat
  /-- What is entered, in the order of the numbers. -/
  entries : List (Registered α)
  /-- The numbers ascend. -/
  ascending : (entries.map (·.id.index)).Pairwise (· < ·)
  /-- The next number is a new one. -/
  fresh : ∀ e ∈ entries, e.id.index < next
  /-- No key is entered twice. -/
  distinct : (entries.map (·.key)).Nodup

namespace Registry

variable {α : Type u}

/-- The registry in which nothing is entered. -/
def empty : Registry α := ⟨0, [], .nil, by simp, .nil⟩

instance : Inhabited (Registry α) := ⟨empty⟩

/-- The entry with a key. -/
def find? (r : Registry α) (key : SourceKey) : Option (Registered α) :=
  r.entries.find? (·.key == key)

/-- The entry with a number. -/
def entry? (r : Registry α) (id : FileId) : Option (Registered α) :=
  r.entries.find? (·.id == id)

/-- The number of a key. -/
def id? (r : Registry α) (key : SourceKey) : Option FileId := (r.find? key).map (·.id)

/-- The number that a key has or would get. -/
def idFor (r : Registry α) (key : SourceKey) : FileId := (r.id? key).getD ⟨r.next⟩

/-- The number of entries. -/
def size (r : Registry α) : Nat := r.entries.length

/-- Nothing is entered. -/
def isEmpty (r : Registry α) : Bool := r.entries.isEmpty

/-- Gives another value to the entry with a key. -/
def replace (r : Registry α) (key : SourceKey) (value : α) : Registry α :=
  let change := fun e : Registered α => if e.key = key then { e with value } else e
  have hid : (·.id.index) ∘ change = fun e : Registered α => e.id.index := by
    funext e; simp only [change, Function.comp]; split <;> rfl
  have hkey : (·.key) ∘ change = fun e : Registered α => e.key := by
    funext e; simp only [change, Function.comp]; split <;> rfl
  { r with
    entries := r.entries.map change
    ascending := by rw [List.map_map, hid]; exact r.ascending
    fresh := by
      intro e he
      obtain ⟨d, hd, rfl⟩ := List.mem_map.1 he
      have := r.fresh d hd
      simp only [change]; split <;> exact this
    distinct := by rw [List.map_map, hkey]; exact r.distinct }

/-- Enters a key that is not there yet. -/
def push (r : Registry α) (key : SourceKey) (value : α)
    (h : key ∉ r.entries.map (·.key)) : Registry α where
  next := r.next + 1
  entries := r.entries ++ [⟨⟨r.next⟩, key, value⟩]
  ascending := by
    rw [List.map_append, List.pairwise_append]
    refine ⟨r.ascending, by simp, ?_⟩
    intro a ha b hb
    obtain ⟨e, he, rfl⟩ := List.mem_map.1 ha
    simp only [List.map_cons, List.map_nil, List.mem_singleton] at hb
    exact hb ▸ r.fresh e he
  fresh := by
    intro e he
    rcases List.mem_append.1 he with he | he
    · exact Nat.lt_succ_of_lt (r.fresh e he)
    · simp only [List.mem_singleton] at he
      exact he ▸ Nat.lt_succ_self _
  distinct := by
    rw [List.map_append, List.nodup_append]
    refine ⟨r.distinct, by simp, ?_⟩
    intro a ha b hb
    simp only [List.map_cons, List.map_nil, List.mem_singleton] at hb
    exact fun e => h (hb ▸ e ▸ ha)

/-- **Enters a value under a key**: for the number that the key has, or for a new
one. -/
def put (r : Registry α) (key : SourceKey) (value : α) : Registry α :=
  if h : key ∈ r.entries.map (·.key) then r.replace key value else r.push key value h

/-- The registry without a key. -/
def erase (r : Registry α) (key : SourceKey) : Registry α where
  next := r.next
  entries := r.entries.filter (·.key != key)
  ascending := r.ascending.sublist (List.filter_sublist.map _)
  fresh := fun e he => r.fresh e (List.mem_filter.1 he).1
  distinct := (List.filter_sublist.map _).nodup r.distinct

end Registry

end ScriptSense
