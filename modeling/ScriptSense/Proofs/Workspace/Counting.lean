/-
**The table of global names counts exactly**, whatever calls come in whatever order.

The table is measured by the calls alone. From them `Uses` reads which files use a
name: those that have entered it since they were last retracted. `owner?` reads who
owns it: the first script to claim it, until that script is retracted. Neither looks
at the table, and what each entry says follows from the two and the catalog.

That is one invariant, `records_run`, carried over the calls by the facts about one
entry. What a retraction leaves does not depend on the run at all: it is decided entry
by entry, so the count of what goes is a count of entries, and two files may leave in
either order.
-/
import Mathlib.Data.List.Sort
import Mathlib.Data.Set.Card
import ScriptSense.Proofs.Workspace.Globals

set_option autoImplicit false

namespace ScriptSense

/-! ## Two files leave -/

namespace FileSet

/-- Sets with the same files are the same set. -/
theorem ext_contains {s t : FileSet} (h : ∀ file, s.contains file = t.contains file) : s = t := by
  have hmem : ∀ file, file ∈ s.ids ↔ file ∈ t.ids := by
    intro file
    have hfile := h file
    rwa [Bool.eq_iff_iff, contains, contains, List.contains_iff_mem, List.contains_iff_mem] at hfile
  have hnodup : ∀ u : FileSet, u.ids.Nodup := by
    intro u
    refine u.ascending.imp ?_
    rintro a b hlt rfl
    exact Nat.lt_irrefl _ hlt
  -- An ascending list is determined by its members.
  have hids : s.ids = t.ids :=
    ((List.perm_ext_iff_of_nodup (hnodup s) (hnodup t)).2 hmem).eq_of_pairwise
      (fun a b _ _ hab hba => absurd hab (Nat.lt_asymm hba)) s.ascending t.ascending
  cases s
  cases t
  cases hids
  rfl

theorem erase_comm (s : FileSet) (file other : FileId) :
    (s.erase file).erase other = (s.erase other).erase file := by
  apply ext_contains
  intro f
  rw [contains_erase, contains_erase, contains_erase, contains_erase, Bool.and_left_comm]

/-- What is empty is empty without a file. -/
theorem isEmpty_erase {s : FileSet} (h : s.isEmpty = true) (file : FileId) :
    (s.erase file).isEmpty = true := by
  have hids : s.ids = [] := List.isEmpty_iff.1 h
  simp [isEmpty, erase, hids]

end FileSet

namespace GlobalEntry

/-- The entry without a use by a file. -/
def without (e : GlobalEntry) (file : FileId) : GlobalEntry :=
  { e with files := e.files.erase file }

/-- The entry once nobody owns it. -/
def orphaned (e : GlobalEntry) : GlobalEntry := { ofUse e.name with files := e.files }

variable {e : GlobalEntry} {file other : FileId}

theorem without_comm (e : GlobalEntry) (file other : FileId) :
    (e.without file).without other = (e.without other).without file := by
  simp only [without, e.files.erase_comm file other]

/-- An entry that only uses keep may be asked for them before another file goes or only
afterwards. -/
theorem whileUsed_retract (h : e.origin = .implicit) (file : FileId) :
    e.whileUsed.bind (·.retract file) = (e.without file).whileUsed := by
  rw [whileUsed]
  split
  · next hempty =>
    rw [whileUsed, without, if_pos (FileSet.isEmpty_erase hempty file), Option.bind_none]
  · exact retract_implicit h file

theorem retract_of_owner (h : e.origin = .script file) :
    e.retract file = (e.orphaned.without file).whileUsed := by
  rw [retract_script h, if_pos rfl]
  rfl

theorem retract_of_ne {owner : FileId} (h : e.origin = .script owner) (hne : owner ≠ file) :
    e.retract file = some (e.without file) := by
  rw [retract_script h, if_neg hne]
  rfl

/-- The script that owns an entry and another file go in either order: if the owner goes
last it leaves what it would have left first, less the other's use. -/
theorem retract_owner_comm (h : e.origin = .script file) (hne : file ≠ other) :
    (e.retract file).bind (·.retract other) = (e.retract other).bind (·.retract file) := by
  have hlast : (e.without other).origin = .script file := h
  calc (e.retract file).bind (·.retract other)
      = ((e.orphaned.without file).without other).whileUsed := by
        rw [retract_of_owner h, whileUsed_retract rfl]
    _ = ((e.orphaned.without other).without file).whileUsed := by rw [without_comm]
    _ = (e.retract other).bind (·.retract file) := by
        rw [retract_of_ne h hne, Option.bind_some, retract_of_owner hlast]
        rfl

/-- **Two files go from an entry** in either order. -/
theorem retract_comm (e : GlobalEntry) (file other : FileId) :
    (e.retract file).bind (·.retract other) = (e.retract other).bind (·.retract file) := by
  -- Where each of the two only takes its own use away, the order can not matter.
  have hkept : (∀ d : GlobalEntry, d.origin = e.origin → ∀ f, f = file ∨ f = other →
      d.retract f = some (d.without f)) →
      (e.retract file).bind (·.retract other) = (e.retract other).bind (·.retract file) := by
    intro h
    rw [h e rfl file (.inl rfl), h e rfl other (.inr rfl), Option.bind_some, Option.bind_some,
      h (e.without file) rfl other (.inr rfl), h (e.without other) rfl file (.inl rfl), without_comm]
  cases horigin : e.origin with
  | builtin | form =>
    refine hkept fun d hd f _ => retract_builtin ?_ f
    rw [isBuiltin, hd, horigin]
    rfl
  | implicit =>
    rw [retract_implicit horigin, retract_implicit horigin]
    have hfirst : (e.without file).origin = .implicit := horigin
    have hsecond : (e.without other).origin = .implicit := horigin
    calc (e.without file).whileUsed.bind (·.retract other)
        = ((e.without file).without other).whileUsed := whileUsed_retract hfirst other
      _ = ((e.without other).without file).whileUsed := by rw [without_comm]
      _ = (e.without other).whileUsed.bind (·.retract file) :=
          (whileUsed_retract hsecond file).symm
  | script owner =>
    by_cases hsame : file = other
    · rw [hsame]
    · by_cases hfile : owner = file
      · subst hfile
        exact retract_owner_comm horigin hsame
      · by_cases hother : owner = other
        · subst hother
          exact (retract_owner_comm horigin (Ne.symm hsame)).symm
        · refine hkept fun d hd f hf => retract_of_ne (hd.trans horigin) ?_
          rcases hf with rfl | rfl
          · exact hfile
          · exact hother

/-- What is left of an entry without a file neither is the file's nor lists it. -/
theorem of_retract {e' : GlobalEntry} (h : e.retract file = some e') :
    e'.origin ≠ .script file ∧ e'.files = e.files.erase file := by
  -- An owner loses the entry to an implicit one. All others only lose the file.
  cases horigin : e.origin with
  | builtin | form =>
    rw [retract_builtin (by rw [isBuiltin, horigin]; rfl)] at h
    cases h
    exact ⟨by rw [horigin]; exact GlobalOrigin.noConfusion, rfl⟩
  | implicit =>
    rw [retract_implicit horigin] at h
    rw [eq_of_whileUsed h]
    exact ⟨by rw [horigin]; exact GlobalOrigin.noConfusion, rfl⟩
  | script owner =>
    rw [retract_script horigin] at h
    split at h
    · rw [eq_of_whileUsed h]
      exact ⟨GlobalOrigin.noConfusion, rfl⟩
    · next hne =>
      cases h
      exact ⟨fun hsame => hne (GlobalOrigin.script.inj (horigin.symm.trans hsame)), rfl⟩

end GlobalEntry

/-! ## Tables -/

namespace NameMap

variable {α : Type}

/-- Selecting twice is selecting once. -/
theorem select_select {β γ : Type} (m : NameMap α) (f : α → Option β) (g : β → Option γ) :
    (m.select f).select g = m.select fun a => (f a).bind g := by
  have hentries : Entries.select g (Entries.select f m.entries)
      = Entries.select (fun a => (f a).bind g) m.entries := by
    simp only [Entries.select, List.filterMap_filterMap]
    congr 1
    funext entry
    cases f entry.2 <;> rfl
  simp only [select, hentries]

/-- The keys of the entries that a selection drops. -/
def dropped {β : Type} (m : NameMap α) (f : α → Option β) : List String :=
  (m.entries.filter fun entry => !(f entry.2).isSome).map Prod.fst

theorem mem_dropped {β : Type} (m : NameMap α) (f : α → Option β) {name : String} :
    name ∈ m.dropped f ↔
      foldCase name = name ∧ (∃ a, m.find? name = some a) ∧ (m.select f).find? name = none := by
  simp only [dropped, find?_select, List.mem_map, List.mem_filter, Bool.not_eq_true',
    Option.isSome_eq_false_iff, Option.isNone_iff_eq_none]
  constructor
  · rintro ⟨⟨key, a⟩, ⟨hmem, hgone⟩, rfl⟩
    obtain ⟨hkey, ha⟩ := m.mem_entries_iff.1 hmem
    exact ⟨hkey, ⟨a, ha⟩, by rw [ha]; exact hgone⟩
  · rintro ⟨hname, ⟨a, ha⟩, hgone⟩
    rw [ha, Option.bind_some] at hgone
    exact ⟨(name, a), ⟨m.mem_entries_iff.2 ⟨hname, ha⟩, hgone⟩, rfl⟩

theorem nodup_dropped {β : Type} (m : NameMap α) (f : α → Option β) : (m.dropped f).Nodup :=
  (List.filter_sublist.map Prod.fst).nodup m.nodup

/-- An entry is selected or dropped. -/
theorem length_dropped {β : Type} (m : NameMap α) (f : α → Option β) :
    (m.select f).size + (m.dropped f).length = m.size := by
  have hkept : (m.select f).size = m.entries.countP fun entry => (f entry.2).isSome := by
    simp [size, select, Entries.select, List.length_filterMap_eq_countP]
  have hsplit := List.length_eq_countP_add_countP (fun entry : String × α => (f entry.2).isSome)
    (l := m.entries)
  simp only [Bool.not_eq_true, Bool.decide_eq_false] at hsplit
  rw [hkept, dropped, List.length_map, ← List.countP_eq_length_filter, size, hsplit]

/-- What a selection drops are the names that are found before and not afterwards. -/
theorem ncard_dropped {β : Type} (m : NameMap α) (f : α → Option β) :
    {name | foldCase name = name ∧ (∃ a, m.find? name = some a) ∧
        (m.select f).find? name = none}.ncard = m.size - (m.select f).size := by
  have hset : {name | foldCase name = name ∧ (∃ a, m.find? name = some a) ∧
      (m.select f).find? name = none} = ↑(m.dropped f).toFinset := by
    ext name
    rw [List.coe_toFinset, Set.mem_ofPred_eq, Set.mem_ofPred_eq, mem_dropped]
  rw [hset, Set.ncard_coe_finset, List.toFinset_card_of_nodup (m.nodup_dropped f),
    ← m.length_dropped f, Nat.add_sub_cancel_left]

end NameMap

/-! ## Calls -/

namespace Globals

/-- A call that changes the table. -/
inductive Call where
  /-- A file declares a script name. -/
  | define (name : String) (file : FileId)
  /-- A file uses a name. -/
  | reference (name : String) (file : FileId)
  /-- A file goes. -/
  | retract (file : FileId)
deriving DecidableEq

/-- The table after a call. -/
def after (g : Globals) : Call → Globals
  | .define name file => g.define name file
  | .reference name file => g.reference name file
  | .retract file => g.retract file

/-- The table of a catalog after a sequence of calls. -/
def run (c : Catalog) (calls : List Call) : Globals := calls.foldl after (.ofCatalog c)

/-- The file has entered the name since it was last retracted. -/
def Uses (calls : List Call) (name : String) (file : FileId) : Prop :=
  ∃ before written later, calls = before ++ .reference written file :: later ∧
    sameName name written = true ∧ .retract file ∉ later

/-- The owner of a name after a call. A name that has an owner keeps it until the owner
goes. -/
def ownerAfter (name : String) (owner : Option FileId) : Call → Option FileId
  | .define written file => if sameName name written then owner.or (some file) else owner
  | .reference _ _ => owner
  | .retract file => if owner = some file then none else owner

/-- The script that owns a name, as the calls have it. -/
def owner? (calls : List Call) (name : String) : Option FileId :=
  calls.foldl (ownerAfter name) none

/-- The folded names that are in the first table and not in the second. -/
def gone (g g' : Globals) : Set String :=
  {name | foldCase name = name ∧ (∃ e, g.find? name = some e) ∧ g'.find? name = none}

theorem run_concat (c : Catalog) (calls : List Call) (call : Call) :
    run c (calls ++ [call]) = (run c calls).after call := by
  rw [run, run, List.foldl_append]
  rfl

theorem owner?_concat (calls : List Call) (call : Call) (name : String) :
    owner? (calls ++ [call]) name = ownerAfter name (owner? calls name) call := by
  rw [owner?, owner?, List.foldl_append]
  rfl

/-- After one call more a file uses what that call enters, and what it used before
unless it goes. -/
theorem uses_concat (calls : List Call) (call : Call) (name : String) (file : FileId) :
    Uses (calls ++ [call]) name file ↔
      (∃ written, call = .reference written file ∧ sameName name written = true) ∨
        (call ≠ .retract file ∧ Uses calls name file) := by
  constructor
  · rintro ⟨before, written, later, hcalls, hsame, hlater⟩
    -- The use is the last call, or the last call comes behind it and takes nothing back.
    rcases later.eq_nil_or_concat with rfl | ⟨rest, last, rfl⟩
    · obtain ⟨-, hlast⟩ := List.append_inj' hcalls rfl
      exact .inl ⟨written, List.singleton_inj.1 hlast, hsame⟩
    · rw [List.concat_eq_append] at hcalls hlater
      rw [← List.cons_append, ← List.append_assoc] at hcalls
      obtain ⟨hrest, hlast⟩ := List.append_inj' hcalls rfl
      rw [List.singleton_inj.1 hlast]
      rw [List.mem_append, List.mem_singleton, not_or] at hlater
      exact .inr ⟨Ne.symm hlater.2, before, written, rest, hrest, hsame, hlater.1⟩
  · rintro (⟨written, rfl, hsame⟩ | ⟨hcall, before, written, later, rfl, hsame, hlater⟩)
    · exact ⟨calls, written, [], rfl, hsame, List.not_mem_nil⟩
    · refine ⟨before, written, later ++ [call], by simp, hsame, ?_⟩
      rw [List.mem_append, List.mem_singleton, not_or]
      exact ⟨hlater, Ne.symm hcall⟩

end Globals

/-! ## The invariant -/

/-- A script that asks for a name that has an owner changes nothing. -/
theorem GlobalEntry.records_refuse {known : Option GlobalEntry} {owner : FileId}
    {uses : FileId → Prop} {e? : Option GlobalEntry} (h : Records known (some owner) uses e?)
    (hknown : ∀ k, known = some k → k.isBuiltin = true) (name : String) (file : FileId) :
    Records known (some owner) uses (some (e?.elim (.ofScript name file) (·.claim name file))) := by
  cases e? with
  | none => cases h.2.1
  | some e =>
    -- A name with an owner is not an implicit entry, so claiming it changes nothing.
    have hkept : e.origin ≠ .implicit := by
      cases hk : known with
      | none =>
        rw [h.origin hk]
        exact GlobalOrigin.noConfusion
      | some k =>
        have hbuiltin := hknown k hk
        intro himplicit
        rw [h.unchanged k hk] at himplicit
        simp only at himplicit
        simp [isBuiltin, himplicit] at hbuiltin
    rw [Option.elim_some, claim, if_neg hkept]
    exact h

namespace Globals

variable {c : Catalog} {calls : List Call} {name : String}

/-- **After any calls every name stands for what the calls and the catalog say.** -/
theorem records_run (c : Catalog) (calls : List Call) (name : String) :
    GlobalEntry.Records ((ofCatalog c).find? name) (owner? calls name) (Uses calls name)
      ((run c calls).find? name) := by
  induction calls using List.reverseRecOn with
  | nil =>
    refine (right_ofCatalog c name).congr fun file => ?_
    simp [Mentions, Uses]
  | append_singleton calls call ih =>
    rw [run_concat, owner?_concat]
    cases call with
    | define written file =>
      -- Defining a name is no use of it.
      have huses : ∀ f, Uses calls name f ↔ Uses (calls ++ [.define written file]) name f := by
        simp [uses_concat]
      rw [after, find?_define, ownerAfter]
      by_cases hsame : sameName name written = true
      · rw [if_pos hsame, if_pos ((sameName_iff _ _).1 hsame),
          ← find?_congr _ ((sameName_iff _ _).1 hsame)]
        cases howner : owner? calls name with
        | none =>
          rw [howner] at ih
          exact GlobalEntry.records_define (ih.congr huses) written (isBuiltin_ofCatalog name) file
        -- The name has an owner already, who keeps it.
        | some owner =>
          rw [howner] at ih
          exact GlobalEntry.records_refuse (ih.congr huses) (isBuiltin_ofCatalog name) written file
      · rw [if_neg hsame, if_neg (fun h => hsame ((sameName_iff _ _).2 h))]
        exact ih.congr huses
    | reference written file =>
      rw [after, find?_reference, ownerAfter]
      by_cases hsame : sameName name written = true
      · rw [if_pos ((sameName_iff _ _).1 hsame), ← find?_congr _ ((sameName_iff _ _).1 hsame)]
        refine (GlobalEntry.records_use ih written file).congr fun f => ?_
        simp [uses_concat, hsame, @eq_comm _ f]
      · rw [if_neg (fun h => hsame ((sameName_iff _ _).2 h))]
        refine ih.congr fun f => ?_
        simp [uses_concat, hsame]
    | retract file =>
      rw [after, find?_retract, ownerAfter]
      refine (GlobalEntry.records_retract ih (isBuiltin_ofCatalog name) file).congr fun f => ?_
      simp [uses_concat, @eq_comm _ f]

/-! ## What the calls answer -/

/-- A script is granted a name exactly if it owns the name afterwards. -/
theorem grants_eq (g : Globals) (name : String) (file : FileId) :
    g.grants name file = (g.define name file).isOwned name file := by
  rw [grants, isOwned, find?_define, if_pos rfl]
  cases g.find? name with
  | none => simp [GlobalEntry.ofScript]
  | some e =>
    obtain ⟨shown, kind, ty, origin, files⟩ := e
    cases origin <;> simp [GlobalEntry.claim, GlobalEntry.ofScript]

theorem collected_eq (g : Globals) (file : FileId) :
    g.collected file = (g.gone (g.retract file)).ncard :=
  (g.table.ncard_dropped _).symm

/-- Once a file is retracted no entry is the file's, and none lists it. -/
theorem of_find?_retract {g : Globals} {file : FileId} {name : String} {e : GlobalEntry}
    (h : (g.retract file).find? name = some e) :
    e.origin ≠ .script file ∧ e.files.contains file = false := by
  rw [find?_retract] at h
  obtain ⟨before, -, hleft⟩ := Option.bind_eq_some_iff.1 h
  obtain ⟨horigin, hfiles⟩ := GlobalEntry.of_retract hleft
  refine ⟨horigin, ?_⟩
  rw [hfiles, FileSet.contains_erase, bne_self_eq_false, Bool.false_and]

/-- **Files leave in either order.** -/
theorem retract_retract_comm (g : Globals) (file other : FileId) :
    (g.retract file).retract other = (g.retract other).retract file := by
  simp only [retract, NameMap.select_select, GlobalEntry.retract_comm]

/-! ## Runs -/

/-- What a table says after some calls on the table of a catalog. -/
structure Counted (c : Catalog) (calls : List Call) (g : Globals) : Prop where
  /-- The files of a name are those that have entered it since they were last retracted. -/
  files : ∀ name file,
    (∃ e, g.find? name = some e ∧ e.files.contains file = true) ↔ Uses calls name file
  /-- There is an entry exactly for what the catalog has, a script owns or a file uses. -/
  kept : ∀ name, (∃ e, g.find? name = some e) ↔
    (∃ o, c.origin? name = some o) ∨ (∃ file, owner? calls name = some file) ∨
      ∃ file, Uses calls name file
  /-- Its origin is the catalog's, else its owner, else there is none. -/
  origin : ∀ name e, g.find? name = some e →
    e.origin = (c.origin? name).getD (((owner? calls name).map .script).getD .implicit)
  /-- An entry of the catalog keeps all but its files. -/
  catalog : ∀ name k, (ofCatalog c).find? name = some k →
    ∃ e, g.find? name = some e ∧ e.name = k.name ∧ e.kind = k.kind ∧ e.ty = k.ty ∧
      e.origin = k.origin
  /-- A script is granted a name exactly if it owns the name afterwards. -/
  granted : ∀ name file, g.grants name file = true ↔
    ∃ e, (g.define name file).find? name = some e ∧ e.origin = .script file
  /-- Nothing of a file is left once it is retracted. -/
  cleared : ∀ file name e, (g.retract file).find? name = some e →
    e.origin ≠ .script file ∧ e.files.contains file = false
  /-- The answer to a retraction is the number of names that go. -/
  collected : ∀ file, g.collected file = (g.gone (g.retract file)).ncard
  /-- Files leave in either order. -/
  commute : ∀ file other, (g.retract file).retract other = (g.retract other).retract file

/-- **The table counts exactly** after every sequence of calls. -/
theorem run_counted (c : Catalog) (calls : List Call) : Counted c calls (run c calls) := by
  have hcatalog : ∀ name, ((ofCatalog c).find? name).map GlobalEntry.origin = c.origin? name :=
    fun name => (find?_ofCatalog c name).1
  -- All of it is read off the record of the run, but for what holds of every table.
  refine
    { files := fun name file => ?_
      kept := fun name => ?_
      origin := fun name e he => ?_
      catalog := fun name k hk => ?_
      granted := fun name file => ?_
      cleared := fun file name e => of_find?_retract
      collected := (run c calls).collected_eq
      commute := (run c calls).retract_retract_comm }
  · have hrecords := records_run c calls name
    cases he : (run c calls).find? name with
    | none =>
      rw [he] at hrecords
      simpa using hrecords.2.2 file
    | some e =>
      rw [he] at hrecords
      simpa using hrecords.files file
  · rw [← hcatalog]
    exact (records_run c calls name).exists_iff
  · have hrecords := records_run c calls name
    rw [he] at hrecords
    rw [← hcatalog]
    exact GlobalEntry.Right.origin_eq hrecords
  · have hrecords := records_run c calls name
    cases he : (run c calls).find? name with
    | none =>
      rw [he, hk] at hrecords
      cases hrecords.1
    | some e =>
      rw [he] at hrecords
      have hsame := hrecords.unchanged k hk
      exact ⟨e, rfl, by rw [hsame], by rw [hsame], by rw [hsame], by rw [hsame]⟩
  -- A definition is granted exactly where the name is owned by the file.
  · rw [grants_eq, isOwned, Option.any_eq_true]
    simp

end Globals

end ScriptSense
