/-
What the table of global names records.

`Records` says it for one name: which entry stands for it, given the entry that
the catalog has, the owner of the script name and the files that use the name.
Every operation of the table is then one lemma about an entry, `records_retract`,
`records_define` and `records_use`, and one about the table that follows from it
name by name.

The catalog's part of an entry is never changed: `unchanged` keeps all of it but the
files. That is why the origin of a name of the catalog needs no argument here.
-/
import Mathlib.Logic.Function.Basic
import ScriptSense.Workspace.Globals

set_option autoImplicit false

namespace ScriptSense

/-! ## The names of a catalog -/

/-- Where the catalog has a name from. A function comes before a form. -/
def Catalog.origin? (c : Catalog) (name : String) : Option GlobalOrigin :=
  if c.functions.values.any (fun f => sameName name f.name) then some .builtin
  else if c.forms.values.any (fun f => sameName name f.name) then some .form
  else none

namespace Globals

/-- What is found once a list of named things is entered: the last one with the
name, or what the table had. -/
theorem find?_entered {α β : Type} (label : β → String) (value : β → α) (name : String)
    (things : List β) (m : NameMap α) :
    (∃ b ∈ things, sameName name (label b) ∧
        (things.foldl (fun m b => m.insert (label b) (value b)) m).find? name = some (value b)) ∨
      ((∀ b ∈ things, sameName name (label b) = false) ∧
        (things.foldl (fun m b => m.insert (label b) (value b)) m).find? name = m.find? name) := by
  induction things generalizing m with
  | nil => exact .inr ⟨by simp, rfl⟩
  | cons b bs ih =>
    rw [List.foldl_cons]
    -- Either a later thing bears the name, or the first one decides.
    rcases ih (m.insert (label b) (value b)) with ⟨d, hd, hsame, hfound⟩ | ⟨hnone, hfound⟩
    · exact .inl ⟨d, List.mem_cons_of_mem b hd, hsame, hfound⟩
    · rw [NameMap.find?_insert] at hfound
      by_cases hb : sameName name (label b) = true
      · rw [if_pos ((sameName_iff _ _).1 hb)] at hfound
        exact .inl ⟨b, List.mem_cons_self, hb, hfound⟩
      · rw [if_neg (fun h => hb ((sameName_iff _ _).2 h))] at hfound
        refine .inr ⟨?_, hfound⟩
        intro d hd
        rcases List.mem_cons.1 hd with rfl | hd
        · simpa using hb
        · exact hnone d hd

/-- **The names of a catalog** are those of its functions and forms, each with
the origin that the catalog gives it and used by no file. -/
theorem find?_ofCatalog (c : Catalog) (name : String) :
    ((ofCatalog c).find? name).map GlobalEntry.origin = c.origin? name ∧
      ∀ e, (ofCatalog c).find? name = some e → e.files = .empty := by
  -- The functions are entered over the forms, so that a function takes the name from a form.
  rcases find?_entered FunctionEntry.name GlobalEntry.ofFunction name c.functions.values
      (c.forms.values.foldl (fun m f => m.insert f.name (.ofForm f)) .empty) with
    ⟨f, hf, hsame, hfound⟩ | ⟨hfree, hfound⟩
  · have hany : c.functions.values.any (fun f => sameName name f.name) = true :=
      List.any_eq_true.2 ⟨f, hf, hsame⟩
    have hentry : (ofCatalog c).find? name = some (.ofFunction f) := hfound
    rw [hentry, Catalog.origin?, if_pos hany]
    exact ⟨rfl, fun e he => by cases he; rfl⟩
  · have hany : ¬ c.functions.values.any (fun f => sameName name f.name) = true := by
      simpa using hfree
    rcases find?_entered FormEntry.name GlobalEntry.ofForm name c.forms.values .empty with
      ⟨f, hf, hsame, hform⟩ | ⟨hnone, hform⟩
    · have hforms : c.forms.values.any (fun f => sameName name f.name) = true :=
        List.any_eq_true.2 ⟨f, hf, hsame⟩
      have hentry : (ofCatalog c).find? name = some (.ofForm f) := hfound.trans hform
      rw [hentry, Catalog.origin?, if_neg hany, if_pos hforms]
      exact ⟨rfl, fun e he => by cases he; rfl⟩
    · have hforms : ¬ c.forms.values.any (fun f => sameName name f.name) = true := by
        simpa using hnone
      have hentry : (ofCatalog c).find? name = none := hfound.trans hform
      rw [hentry, Catalog.origin?, if_neg hany, if_neg hforms]
      exact ⟨rfl, fun e he => by cases he⟩

end Globals

/-! ## One entry -/

namespace GlobalEntry

/-- The entry is the right one, given the catalog's entry, the owner of the
script name and the files that use the name. -/
structure Right (known : Option GlobalEntry) (owner : Option FileId) (uses : FileId → Prop)
    (e : GlobalEntry) : Prop where
  /-- Something keeps the entry. -/
  kept : known ≠ none ∨ owner ≠ none ∨ ∃ id, uses id
  /-- All but the files is as in the catalog. -/
  unchanged : ∀ k, known = some k → e = { k with files := e.files }
  /-- A name that the catalog has not is its owner's, if it has one. -/
  origin : known = none → e.origin = (owner.map GlobalOrigin.script).getD .implicit
  /-- The files are those that use the name. -/
  files : ∀ id, e.files.contains id = true ↔ uses id

/-- What stands for a name is right: an entry if there is a reason for one. -/
def Records (known : Option GlobalEntry) (owner : Option FileId) (uses : FileId → Prop) :
    Option GlobalEntry → Prop
  | none => known = none ∧ owner = none ∧ ∀ id, ¬ uses id
  | some e => e.Right known owner uses

variable {known : Option GlobalEntry} {owner : Option FileId} {uses : FileId → Prop}

/-- The uses matter only up to equivalence. -/
theorem Records.congr {e? : Option GlobalEntry} {uses' : FileId → Prop}
    (h : Records known owner uses e?) (huses : ∀ id, uses id ↔ uses' id) :
    Records known owner uses' e? := by
  have heq : uses = uses' := funext fun id => propext (huses id)
  rwa [← heq]

/-- There is an entry exactly if there is a reason for one. -/
theorem Records.exists_iff {e? : Option GlobalEntry} (h : Records known owner uses e?) :
    (∃ e, e? = some e) ↔ (∃ o, known.map GlobalEntry.origin = some o) ∨ (∃ id, owner = some id) ∨
      ∃ id, uses id := by
  cases e? with
  | none =>
    obtain ⟨hknown, howner, huses⟩ := h
    simp [hknown, howner, huses]
  | some e =>
    refine ⟨fun _ => ?_, fun _ => ⟨e, rfl⟩⟩
    rcases h.kept with hknown | howner | huse
    · obtain ⟨k, hk⟩ := Option.ne_none_iff_exists'.1 hknown
      exact .inl ⟨k.origin, by rw [hk, Option.map_some]⟩
    · exact .inr (.inl (Option.ne_none_iff_exists'.1 howner))
    · exact .inr (.inr huse)

/-- The origin of an entry is the catalog's, else its owner, else there is none. -/
theorem Right.origin_eq {e : GlobalEntry} (h : e.Right known owner uses) :
    e.origin = (known.map GlobalEntry.origin).getD ((owner.map .script).getD .implicit) := by
  cases hk : known with
  | none => exact h.origin hk
  | some k =>
    rw [h.unchanged k hk]
    rfl

/-- An entry that is kept for its uses is not changed. -/
theorem eq_of_whileUsed {e e' : GlobalEntry} (h : e.whileUsed = some e') : e' = e := by
  rw [whileUsed] at h
  split at h
  · cases h
  · exact (Option.some.inj h).symm

/-- An entry that only uses keep is there as long as there is one. -/
theorem records_whileUsed {e : GlobalEntry} (horigin : e.origin = .implicit)
    (hfiles : ∀ id, e.files.contains id = true ↔ uses id) :
    Records none none uses e.whileUsed := by
  rw [whileUsed]
  split
  -- No file is left that uses the name, so nothing is recorded.
  · next hempty =>
    refine ⟨rfl, rfl, fun id hid => ?_⟩
    have hmem := (hfiles id).2 hid
    rw [FileSet.isEmpty, List.isEmpty_iff] at hempty
    simp [FileSet.contains, hempty] at hmem
  · next hused =>
    have huse : ∃ id, uses id := by
      cases hids : e.files.ids with
      | nil => simp [FileSet.isEmpty, hids] at hused
      | cons id ids => exact ⟨id, (hfiles id).1 (by simp [FileSet.contains, hids])⟩
    exact
      { kept := .inr (.inr huse)
        unchanged := fun k hk => by cases hk
        origin := fun _ => horigin
        files := hfiles }

theorem retract_builtin {e : GlobalEntry} (h : e.isBuiltin = true) (id : FileId) :
    e.retract id = some { e with files := e.files.erase id } := by
  obtain ⟨name, kind, ty, origin, files⟩ := e
  cases origin <;> first | rfl | cases h

theorem retract_implicit {e : GlobalEntry} (h : e.origin = .implicit) (id : FileId) :
    e.retract id = whileUsed { e with files := e.files.erase id } := by
  obtain ⟨name, kind, ty, origin, files⟩ := e
  subst h
  rfl

theorem retract_script {e : GlobalEntry} {own : FileId} (h : e.origin = .script own)
    (id : FileId) :
    e.retract id
      = if own = id then whileUsed { ofUse e.name with files := e.files.erase id }
        else some { e with files := e.files.erase id } := by
  obtain ⟨name, kind, ty, origin, files⟩ := e
  subst h
  rfl

/-- **A file is retracted** from an entry: what it used it uses no more, and what
it owned nobody owns. -/
theorem records_retract {e? : Option GlobalEntry} (h : Records known owner uses e?)
    (hknown : ∀ k, known = some k → k.isBuiltin = true) (id : FileId) :
    Records known (if owner = some id then none else owner) (fun f => f ≠ id ∧ uses f)
      (e?.bind (·.retract id)) := by
  cases e? with
  | none =>
    obtain ⟨hk, ho, hu⟩ := h
    refine ⟨hk, by simp [ho], fun f hf => hu f hf.2⟩
  | some e =>
    have hfiles : ∀ f, (e.files.erase id).contains f = true ↔ f ≠ id ∧ uses f := by
      intro f
      simp [FileSet.contains_erase, ← h.files f]
    rw [Option.bind_some]
    cases hk : known with
    -- An entry of the catalog only loses the file among its uses.
    | some k =>
      have he := h.unchanged k hk
      have hbuiltin : e.isBuiltin = true := by
        rw [he]
        exact hknown k hk
      rw [retract_builtin hbuiltin]
      exact
        { kept := .inl (by simp)
          unchanged := by
            intro k' hk'
            cases hk'
            rw [he]
          origin := fun h => by cases h
          files := hfiles }
    | none =>
      have horigin := h.origin hk
      cases ho : owner with
      | none =>
        -- Without an owner the entry stays for as long as a file uses the name.
        have himplicit : e.origin = .implicit := by simpa [ho] using horigin
        rw [retract_implicit himplicit]
        exact records_whileUsed himplicit hfiles
      | some own =>
        have hscript : e.origin = .script own := by simpa [ho] using horigin
        rw [retract_script hscript]
        by_cases hown : own = id
        -- The owner has left, so the entry becomes an implicit one.
        · rw [if_pos hown, if_pos (congrArg some hown)]
          exact records_whileUsed rfl hfiles
        · rw [if_neg hown, if_neg (fun heq => hown (Option.some.inj heq))]
          exact
            { kept := .inr (.inl (by simp))
              unchanged := fun k hk => by cases hk
              origin := fun _ => hscript
              files := hfiles }

/-- **A script claims a name** that nobody owns. -/
theorem records_define {e? : Option GlobalEntry} (h : Records known none uses e?) (name : String)
    (hknown : ∀ k, known = some k → k.isBuiltin = true) (id : FileId) :
    Records known (some id) uses (some (e?.elim (.ofScript name id) (·.claim name id))) := by
  cases e? with
  | none =>
    obtain ⟨hk, -, hu⟩ := h
    exact
      { kept := .inr (.inl (by simp))
        unchanged := fun k h => by rw [hk] at h; cases h
        origin := fun _ => rfl
        files := fun f => by simp [ofScript, FileSet.contains, FileSet.empty, hu f] }
  | some e =>
    cases hk : known with
    | none =>
      have himplicit : e.origin = .implicit := h.origin hk
      exact
        { kept := .inr (.inl (by simp))
          unchanged := fun k h => by cases h
          origin := fun _ => by simp [claim, himplicit, ofScript]
          files := by simpa [claim, himplicit] using h.files }
    | some k =>
      have he := h.unchanged k hk
      have hbuiltin := hknown k hk
      -- A script does not take the name from the catalog.
      have hclaim : e.claim name id = e := by
        rw [claim, if_neg]
        intro himplicit
        rw [he] at himplicit
        simp only at himplicit
        simp [isBuiltin, himplicit] at hbuiltin
      rw [Option.elim_some, hclaim]
      exact
        { kept := .inl (by simp)
          unchanged := fun k' hk' => h.unchanged k' (hk.trans hk')
          origin := fun h => by cases h
          files := h.files }

/-- **A file uses a name.** -/
theorem records_use {e? : Option GlobalEntry} (h : Records known owner uses e?) (name : String)
    (id : FileId) :
    Records known owner (fun f => f = id ∨ uses f) (some ((e?.getD (.ofUse name)).use id)) := by
  cases e? with
  -- The name was neither known nor owned, so the new entry is an implicit one.
  | none =>
    obtain ⟨hk, ho, hu⟩ := h
    exact
      { kept := .inr (.inr ⟨id, .inl rfl⟩)
        unchanged := fun k h => by rw [hk] at h; cases h
        origin := fun _ => by rw [ho]; rfl
        files := fun f => by
          have hempty : FileSet.empty.contains f = false := rfl
          simp [use, ofUse, FileSet.contains_insert, hu f, hempty] }
  | some e =>
    exact
      { kept := .inr (.inr ⟨id, .inl rfl⟩)
        unchanged := fun k hk => by
          have he := h.unchanged k hk
          simp only [Option.getD_some, use]
          rw [he]
        origin := h.origin
        files := fun f => by simp [use, FileSet.contains_insert, ← h.files f] }

end GlobalEntry

/-! ## The table -/

/-- The name is among the names, up to case. -/
def Mentions (names : List String) (name : String) : Prop := ∃ n ∈ names, sameName name n = true

namespace Globals

/-- **The table is right** for every name, given the catalog, the owners of the
script names and the names that each file uses. -/
def Right (c : Catalog) (owners : NameMap FileId) (used : FileId → List String) (g : Globals) :
    Prop :=
  ∀ name, GlobalEntry.Records ((ofCatalog c).find? name) (owners.find? name)
    (fun id => Mentions (used id) name) (g.find? name)

variable {c : Catalog} {owners : NameMap FileId} {used : FileId → List String} {g : Globals}

/-- A lookup is blind to the case of the name. -/
theorem find?_congr (g : Globals) {name other : String} (h : foldCase name = foldCase other) :
    g.find? name = g.find? other := g.table.find?_congr h

theorem find?_define (g : Globals) (name : String) (file : FileId) (other : String) :
    (g.define name file).find? other
      = if foldCase other = foldCase name then
          some ((g.find? name).elim (.ofScript name file) (·.claim name file))
        else g.find? other := by
  rw [Globals.define]
  cases g.find? name <;> exact NameMap.find?_insert _ _ _ _

theorem find?_reference (g : Globals) (name : String) (file : FileId) (other : String) :
    (g.reference name file).find? other
      = if foldCase other = foldCase name then some (((g.find? name).getD (.ofUse name)).use file)
        else g.find? other :=
  NameMap.find?_insert _ _ _ _

theorem find?_retract (g : Globals) (file : FileId) (name : String) :
    (g.retract file).find? name = (g.find? name).bind (·.retract file) :=
  NameMap.find?_select g.table _ name

/-- An entry of the catalog is no file's to change. -/
theorem isBuiltin_ofCatalog (name : String) (k : GlobalEntry)
    (h : (ofCatalog c).find? name = some k) : k.isBuiltin = true := by
  have horigin := (find?_ofCatalog c name).1
  rw [h, Option.map_some, Catalog.origin?] at horigin
  split at horigin
  · simp [GlobalEntry.isBuiltin, Option.some.inj horigin]
  · split at horigin
    · simp [GlobalEntry.isBuiltin, Option.some.inj horigin]
    · cases horigin

theorem right_ofCatalog (c : Catalog) : Right c .empty (fun _ => []) (ofCatalog c) := by
  intro name
  have hused : ∀ id : FileId, ¬ Mentions [] name := by simp [Mentions]
  cases h : (ofCatalog c).find? name with
  | none => exact ⟨rfl, rfl, hused⟩
  | some k =>
    have hfiles := (find?_ofCatalog c name).2 k h
    exact
      { kept := .inl (by simp)
        unchanged := fun k' hk' => by cases hk'; rfl
        origin := fun h => by cases h
        files := fun id => by simp [hfiles, FileSet.contains, FileSet.empty, hused id] }

theorem Right.retract (h : Right c owners used g) (id : FileId) {owners' : NameMap FileId}
    (howners : ∀ name, owners'.find? name
      = if owners.find? name = some id then none else owners.find? name) :
    Right c owners' (Function.update used id []) (g.retract id) := by
  intro name
  rw [howners, find?_retract]
  refine (GlobalEntry.records_retract (h name) (isBuiltin_ofCatalog name) id).congr fun f => ?_
  by_cases hf : f = id
  · subst hf
    simp [Mentions]
  · simp [hf]

theorem Right.define (h : Right c owners used g) {name : String} (hfree : owners.find? name = none)
    (id : FileId) : Right c (owners.insert name id) used (g.define name id) := by
  intro other
  rw [NameMap.find?_insert, find?_define]
  split
  · next hsame =>
    have hother := h other
    rw [owners.find?_congr hsame, hfree, g.find?_congr hsame] at hother
    exact GlobalEntry.records_define hother name (isBuiltin_ofCatalog other) id
  · exact h other

theorem Right.reference (h : Right c owners used g) (name : String) (id : FileId) :
    Right c owners (Function.update used id (used id ++ [name])) (g.reference name id) := by
  intro other
  rw [find?_reference]
  split
  · next hsame =>
    have hother := h other
    rw [g.find?_congr hsame] at hother
    refine (GlobalEntry.records_use hother name id).congr fun f => ?_
    -- Only this file has one name more in its list.
    by_cases hf : f = id
    · subst hf
      simp [Mentions, sameName_iff, hsame]
    · simp [hf]
  · next hother =>
    refine (h other).congr fun f => ?_
    by_cases hf : f = id
    · subst hf
      simp [Mentions, sameName_iff, hother]
    · simp [hf]

/-- Entering one name after the other is entering all of them. -/
theorem Right.references (h : Right c owners used g) (id : FileId) (names : List String) :
    Right c owners (Function.update used id (used id ++ names))
      (names.foldl (fun g name => g.reference name id) g) := by
  induction names generalizing used g with
  | nil => simpa using h
  | cons name names ih =>
    have hrest := ih (h.reference name id)
    simpa using hrest

end Globals

end ScriptSense
