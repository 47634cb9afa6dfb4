/-
What loading and closing a file does to the two tables that span all files.

A step of the database takes back what one file has brought in and then enters
something new. In between the tables are right for the other files only, and
while a file is loaded again under its old name that name may stand without an
owner although another file declares it. `Settled` says what holds at each of
these points: the files that count, the names each of them uses, and the names
that may lack an owner are its parameters.

The steps are then `Settled.drop` for a file that goes, `Settled.claim` for a
name that finds an owner, and their compositions `release_settled` and
`enter_settled`.
-/
import ScriptSense.Proofs.Workspace.Globals
import ScriptSense.Proofs.Workspace.Registry
import ScriptSense.Workspace.Database

set_option autoImplicit false

namespace ScriptSense

/-! ## The files that count -/

/-- Some files by number. -/
abbrev Shelf := FileId → Option SourceFile

/-- A file on the shelf declares the name. -/
def Shelf.Declares (shelf : Shelf) (id : FileId) (name : String) : Prop :=
  ∃ file, shelf id = some file ∧ file.declares name = true

/-- The names from outside that a file on the shelf uses. -/
def Shelf.external (shelf : Shelf) (id : FileId) : List String :=
  ((shelf id).map SourceFile.external).getD []

/-- A file declares its script name up to case, and no other name. -/
theorem SourceFile.declares_iff {file : SourceFile} {written : String}
    (h : file.scriptName? = some written) (name : String) :
    file.declares name = true ↔ foldCase name = foldCase written := by
  rw [SourceFile.declares, h, Option.any_some, sameName_iff]

theorem SourceFile.declares_congr (file : SourceFile) {name other : String}
    (h : foldCase name = foldCase other) : file.declares name = file.declares other := by
  have hsame : sameName name = sameName other := by
    funext written
    simp only [sameName, h]
  rw [declares, declares, hsame]

theorem SourceFile.declares_eq_false {file : SourceFile} (h : file.scriptName? = none)
    (name : String) : file.declares name = false := by
  rw [SourceFile.declares, h, Option.any_none]

namespace Shelf

variable {shelf : Shelf} {id other : FileId} {name : String}

theorem declares_remove :
    Declares (Function.update shelf id none) other name ↔ other ≠ id ∧ shelf.Declares other name := by
  by_cases h : other = id
  · subst h
    simp [Declares]
  · simp [Declares, h]

theorem declares_put {file : SourceFile} :
    Declares (Function.update shelf id (some file)) other name
      ↔ if other = id then file.declares name = true else shelf.Declares other name := by
  by_cases h : other = id
  · subst h
    simp [Declares]
  · simp [Declares, h]

theorem external_remove (shelf : Shelf) (id : FileId) :
    external (Function.update shelf id none) = Function.update shelf.external id [] := by
  funext other
  by_cases h : other = id
  · subst h
    simp [external]
  · simp [external, h]

theorem external_put (shelf : Shelf) (id : FileId) (file : SourceFile) :
    external (Function.update shelf id (some file))
      = Function.update shelf.external id file.external := by
  funext other
  by_cases h : other = id
  · subst h
    simp [external]
  · simp [external, h]

end Shelf

/-! ## Owners -/

/-- The owners are right for the files on the shelf: each declares its name, and
every name that is declared has one, those apart that may lack it. -/
structure OwnersRight (shelf : Shelf) (lacking : String → Prop) (owners : NameMap FileId) :
    Prop where
  declares : ∀ name id, owners.find? name = some id → shelf.Declares id name
  complete : ∀ name, owners.find? name = none → ¬ lacking name → ∀ id, ¬ shelf.Declares id name

namespace Database

/-- **Both tables are right** for the files on the shelf and the names that each
of them is known to use. -/
structure Settled (shelf : Shelf) (used : FileId → List String) (lacking : String → Prop)
    (d : Database) : Prop where
  owners : OwnersRight shelf lacking d.owners
  globals : Globals.Right d.catalog d.owners used d.globals

/-- Only the two tables differ. -/
structure SameFiles (d d' : Database) : Prop where
  sources : d'.sources = d.sources
  catalog : d'.catalog = d.catalog

theorem SameFiles.trans {d₁ d₂ d₃ : Database} (h₁ : SameFiles d₁ d₂) (h₂ : SameFiles d₂ d₃) :
    SameFiles d₁ d₃ :=
  ⟨h₂.sources.trans h₁.sources, h₂.catalog.trans h₁.catalog⟩

variable {shelf : Shelf} {used : FileId → List String} {lacking : String → Prop} {d : Database}

/-! ## A file goes -/

/-- No name is owned by a file that is not on the shelf. -/
theorem Settled.owner_ne (h : Settled shelf used lacking d) {id : FileId} (hid : shelf id = none)
    (name : String) : d.owner? name ≠ some id := by
  intro howner
  obtain ⟨file, hfile, -⟩ := h.owners.declares name id howner
  rw [hid] at hfile
  cases hfile

/-- Once a file is retracted and owns no name any more, the tables are right for
the other files. What it owned is without an owner. -/
theorem Settled.drop (h : Settled shelf shelf.external (fun _ => False) d) (id : FileId)
    {owners : NameMap FileId}
    (howners : ∀ name, owners.find? name
      = if d.owners.find? name = some id then none else d.owners.find? name) :
    Settled (Function.update shelf id none) (Shelf.external (Function.update shelf id none))
      (fun name => d.owners.find? name = some id)
      { d with owners := owners, globals := d.globals.retract id } := by
  refine ⟨⟨?_, ?_⟩, ?_⟩
  · intro name other howner
    simp only [howners] at howner
    split at howner
    · cases howner
    · next hne =>
      rw [Shelf.declares_remove]
      refine ⟨?_, h.owners.declares name other howner⟩
      intro heq
      exact hne (heq ▸ howner)
  -- Apart from the names it owned, the names without an owner are those that had none.
  · intro name hnone hkept other hdeclares
    have hfree : d.owners.find? name = none := by
      simpa only [howners, if_neg hkept] using hnone
    rw [Shelf.declares_remove] at hdeclares
    exact h.owners.complete name hfree (fun h => h) other hdeclares.2
  · rw [Shelf.external_remove]
    exact h.globals.retract id howners

/-! ## A name finds an owner -/

theorem claim_sameFiles (d : Database) (name : String) (id : FileId) :
    SameFiles d (d.claim name id) := by
  rw [claim]
  split <;> exact ⟨rfl, rfl⟩

/-- A file that declares a name may claim it. Afterwards the name has an owner. -/
theorem Settled.claim (h : Settled shelf used lacking d) (name : String) (id : FileId)
    (hdeclares : ∀ other, foldCase other = foldCase name → shelf.Declares id other)
    (hfree : d.owner? name ≠ some id) :
    Settled shelf used (fun other => lacking other ∧ foldCase other ≠ foldCase name)
      (d.claim name id) := by
  cases hname : d.owners.find? name with
  | some owner =>
    -- The name has an owner already, so nothing changes.
    have hkept : d.claim name id = d := by
      have hnew : d.owners.insertNew name id = d.owners := by
        simp [NameMap.insertNew, NameMap.contains, hname]
      have howner : ¬ d.owners.find? name = some id := hfree
      simp only [Database.claim, owner?, hnew, if_neg howner]
    rw [hkept]
    refine ⟨⟨h.owners.declares, ?_⟩, h.globals⟩
    intro other hnone hlacking
    refine h.owners.complete other hnone fun hlack => hlacking ⟨hlack, fun hsame => ?_⟩
    rw [d.owners.find?_congr hsame, hname] at hnone
    cases hnone
  | none =>
    -- The name is free, so the file owns it from now on and defines it.
    have hclaimed : d.claim name id
        = { d with owners := d.owners.insert name id, globals := d.globals.define name id } := by
      have hnew : d.owners.insertNew name id = d.owners.insert name id := by
        simp [NameMap.insertNew, NameMap.contains, hname]
      have hfound : (d.owners.insert name id).find? name = some id := by
        simp [NameMap.find?_insert]
      simp only [Database.claim, owner?, hnew, if_pos hfound]
    rw [hclaimed]
    refine ⟨⟨?_, ?_⟩, h.globals.define hname id⟩
    · intro other owner howner
      simp only [NameMap.find?_insert] at howner
      split at howner
      · next hsame =>
        cases howner
        exact hdeclares other hsame
      · exact h.owners.declares other owner howner
    · intro other hnone hlacking
      simp only [NameMap.find?_insert] at hnone
      split at hnone
      · cases hnone
      · next hother => exact h.owners.complete other hnone fun hlack => hlacking ⟨hlack, hother⟩

/-! ## Releasing -/

theorem file?_eq_some {d : Database} {id : FileId} {file : SourceFile} :
    d.file? id = some file ↔ ∃ e ∈ d.sources.entries, e.id = id ∧ e.value = file := by
  simp only [file?, Option.map_eq_some_iff, Registry.entry?_eq_some]
  constructor
  · rintro ⟨e, ⟨he, hid⟩, hvalue⟩
    exact ⟨e, he, hid, hvalue⟩
  · rintro ⟨e, he, hid, hvalue⟩
    exact ⟨e, ⟨he, hid⟩, hvalue⟩

/-- Without an heir no other open file declares the name. -/
theorem heir?_eq_none {name : String} {id : FileId} (h : d.heir? name id = none) :
    ∀ other, other ≠ id → ¬ Shelf.Declares d.file? other name := by
  rintro other hother ⟨file, hfile, hdeclares⟩
  obtain ⟨e, he, hid, rfl⟩ := file?_eq_some.1 hfile
  have hskip := List.findSome?_eq_none_iff.1 h e he
  rw [if_pos ⟨hid ▸ hother, hdeclares⟩, Option.map_eq_none_iff] at hskip
  rw [SourceFile.declares_eq_false hskip] at hdeclares
  cases hdeclares

/-- An heir is another open file, and the name is its own as it writes it. -/
theorem heir?_eq_some {name written : String} {id heir : FileId}
    (h : d.heir? name id = some (heir, written)) :
    heir ≠ id ∧ ∃ file, d.file? heir = some file ∧ file.scriptName? = some written
      ∧ foldCase name = foldCase written := by
  obtain ⟨e, he, hfound⟩ := List.exists_of_findSome?_eq_some h
  split at hfound
  · next hcond =>
    obtain ⟨own, hown, hpair⟩ := Option.map_eq_some_iff.1 hfound
    cases hpair
    refine ⟨hcond.1, e.value, file?_eq_some.2 ⟨e, he, rfl, rfl⟩, hown, ?_⟩
    exact (SourceFile.declares_iff hown name).1 hcond.2
  · cases hfound

theorem release_sameFiles (d : Database) (id : FileId) (handOver : Bool) :
    SameFiles d (d.release id handOver) := by
  rw [release]
  split
  · exact ⟨rfl, rfl⟩
  · next name _ =>
    split
    · rw [disown]
      split
      · exact ⟨rfl, rfl⟩
      -- The heir is granted the name, which touches neither the files nor the catalog.
      · next heir written _ =>
        have hclaim := claim_sameFiles
          { d with owners := d.owners.erase name, globals := d.globals.retract id } written heir
        exact ⟨hclaim.sources, hclaim.catalog⟩
    · exact ⟨rfl, rfl⟩

/-- **After a file is released** the tables are right for the other files. If the
name of the file was not handed over it may lack an owner. -/
theorem release_settled (h : Settled d.file? (Shelf.external d.file?) (fun _ => False) d)
    (id : FileId) (handOver : Bool) :
    Settled (Function.update d.file? id none)
      (Shelf.external (Function.update d.file? id none))
      (fun name => handOver = false ∧ Shelf.Declares d.file? id name)
      (d.release id handOver) := by
  -- A file owns no name but the one that it declares.
  have howns : ∀ name, d.owners.find? name = some id → Shelf.Declares d.file? id name :=
    fun name => h.owners.declares name id
  -- If it owns none, nothing but its uses is taken back.
  have hunowned : (∀ name, d.owners.find? name ≠ some id) →
      Settled (Function.update d.file? id none)
        (Shelf.external (Function.update d.file? id none))
        (fun name => handOver = false ∧ Shelf.Declares d.file? id name)
        { d with globals := d.globals.retract id } := by
    intro hnone
    have hsame : ∀ name, d.owners.find? name
        = if d.owners.find? name = some id then none else d.owners.find? name := by
      intro name
      rw [if_neg (hnone name)]
    have hdropped := h.drop id hsame
    refine ⟨⟨hdropped.owners.declares, ?_⟩, hdropped.globals⟩
    intro name hfree _
    exact hdropped.owners.complete name hfree (hnone name)
  rw [release]
  split
  · next hname =>
    apply hunowned
    intro name howner
    obtain ⟨file, hfile, hdeclares⟩ := howns name howner
    rw [hfile, Option.bind_some] at hname
    rw [SourceFile.declares_eq_false hname] at hdeclares
    cases hdeclares
  · next written hname =>
    obtain ⟨file, hfile, hwritten⟩ := Option.bind_eq_some_iff.1 hname
    have hdeclares : ∀ name, Shelf.Declares d.file? id name ↔ foldCase name = foldCase written := by
      intro name
      simp [Shelf.Declares, hfile, SourceFile.declares_iff hwritten]
    split
    · next howner =>
      have howner' : d.owners.find? written = some id := howner
      have herased : ∀ name, (d.owners.erase written).find? name
          = if d.owners.find? name = some id then none else d.owners.find? name := by
        intro name
        rw [NameMap.find?_erase]
        by_cases hsame : foldCase name = foldCase written
        · rw [if_pos hsame, d.owners.find?_congr hsame, howner', if_pos rfl]
        · rw [if_neg hsame, if_neg]
          intro hown
          exact hsame ((hdeclares name).1 (howns name hown))
      have hdropped := h.drop id herased
      rw [disown]
      split
      · next hheir =>
        refine ⟨⟨hdropped.owners.declares, ?_⟩, hdropped.globals⟩
        intro name hfree hkept
        by_cases hown : d.owners.find? name = some id
        · -- The name is the one that is free now: it must have been up for an heir.
          intro other hother
          rw [Shelf.declares_remove] at hother
          have hover : handOver = true := by
            cases handOver with
            | true => rfl
            | false => exact absurd ⟨rfl, howns name hown⟩ hkept
          rw [hover, if_pos rfl] at hheir
          have hsame : foldCase name = foldCase written := (hdeclares name).1 (howns name hown)
          obtain ⟨heir, hheirFile, hheirDeclares⟩ := hother.2
          refine heir?_eq_none hheir other hother.1 ⟨heir, hheirFile, ?_⟩
          rwa [heir.declares_congr hsame] at hheirDeclares
        · exact hdropped.owners.complete name hfree hown
      · next heir own hheir =>
        have hover : handOver = true := by
          cases handOver with
          | true => rfl
          | false => simp at hheir
        rw [hover, if_pos rfl] at hheir
        obtain ⟨hne, heirFile, hheirFile, hheirName, hsame⟩ := heir?_eq_some hheir
        have hclaimed := hdropped.claim own heir (fun other hother => by
            rw [Shelf.declares_remove]
            exact ⟨hne, heirFile, hheirFile, (SourceFile.declares_iff hheirName other).2 hother⟩)
          (fun howner => by
            have hgone : (d.owners.erase written).find? own = none := by
              rw [NameMap.find?_erase, if_pos hsame.symm]
            exact absurd (hgone.symm.trans howner) (by simp))
        refine ⟨⟨hclaimed.owners.declares, ?_⟩, hclaimed.globals⟩
        intro name hfree _
        refine hclaimed.owners.complete name hfree fun hlack => hlack.2 ?_
        exact ((hdeclares name).1 (howns name hlack.1)).trans hsame
    · next howner =>
      apply hunowned
      intro name hown
      have hsame : foldCase name = foldCase written := (hdeclares name).1 (howns name hown)
      exact howner ((d.owners.find?_congr hsame).symm.trans hown)

/-! ## Entering -/

theorem enter_sameFiles (d : Database) (id : FileId) (file : SourceFile) :
    SameFiles d (d.enter id file) := by
  rw [enter]
  split
  · exact ⟨rfl, rfl⟩
  · exact SameFiles.trans (claim_sameFiles _ _ _) ⟨rfl, rfl⟩

/-- **After a file is entered** the tables are right for it as well. The names
that lack an owner must be names that it declares. -/
theorem enter_settled (h : Settled shelf shelf.external lacking d) (id : FileId)
    (file : SourceFile) (hid : shelf id = none)
    (hlacking : ∀ name, lacking name → file.declares name = true) :
    Settled (Function.update shelf id (some file))
      (Shelf.external (Function.update shelf id (some file))) (fun _ => False)
      (d.enter id file) := by
  have hexternal : shelf.external id = [] := by rw [Shelf.external, hid]; rfl
  -- With the file on the shelf, the names that it declares lack an owner as well.
  have hshelved : Settled (Function.update shelf id (some file)) shelf.external
      (fun name => file.declares name = true) d := by
    refine ⟨⟨?_, ?_⟩, h.globals⟩
    · intro name other howner
      have hne : other ≠ id := fun heq => h.owner_ne hid name (heq ▸ howner)
      rw [Shelf.declares_put, if_neg hne]
      exact h.owners.declares name other howner
    · intro name hfree hnot other hdeclares
      rw [Shelf.declares_put] at hdeclares
      split at hdeclares
      · exact hnot hdeclares
      · exact h.owners.complete name hfree (fun hlack => hnot (hlacking name hlack)) other hdeclares
  -- Once the name is claimed none of them does.
  have hclaimed : Settled (Function.update shelf id (some file)) shelf.external (fun _ => False)
      (file.scriptName?.elim d (d.claim · id)) := by
    cases hname : file.scriptName? with
    | none =>
      refine ⟨⟨hshelved.owners.declares, ?_⟩, hshelved.globals⟩
      intro name hfree _
      refine hshelved.owners.complete name hfree ?_
      rw [SourceFile.declares_eq_false hname]
      exact Bool.false_ne_true
    | some written =>
      have hdeclares := SourceFile.declares_iff hname
      have hnamed := hshelved.claim written id
        (fun other hother => by
          rw [Shelf.declares_put, if_pos rfl]
          exact (hdeclares other).2 hother)
        (h.owner_ne hid written)
      refine ⟨⟨hnamed.owners.declares, ?_⟩, hnamed.globals⟩
      intro name hfree _
      exact hnamed.owners.complete name hfree fun hlack => hlack.2 ((hdeclares name).1 hlack.1)
  have henter : d.enter id file = { file.scriptName?.elim d (d.claim · id) with
      globals := file.external.foldl (fun g name => g.reference name id)
        (file.scriptName?.elim d (d.claim · id)).globals } := by
    rw [enter]
    cases file.scriptName? <;> rfl
  rw [henter]
  refine ⟨hclaimed.owners, ?_⟩
  have hreferences := hclaimed.globals.references id file.external
  rw [hexternal, List.nil_append] at hreferences
  rw [Shelf.external_put]
  exact hreferences

/-! ## Loading and closing -/

theorem shelve_catalog (d : Database) (key : SourceKey) (file : SourceFile) :
    (d.shelve key file).catalog = d.catalog :=
  ((release_sameFiles _ _ _).trans (enter_sameFiles _ _ _)).catalog

theorem shelve_sources (d : Database) (key : SourceKey) (file : SourceFile) :
    (d.shelve key file).sources = d.sources.put key file := by
  have hsame : SameFiles d ((d.release (d.sources.idFor key)
      (!(d.file? (d.sources.idFor key)).any (·.keepsName file))).enter
        (d.sources.idFor key) file) :=
    (release_sameFiles _ _ _).trans (enter_sameFiles _ _ _)
  simp only [shelve, hsame.sources]

/-- The file under the key is the new one and all others are as before. -/
theorem shelve_file? (d : Database) (key : SourceKey) (file : SourceFile) :
    (d.shelve key file).file? = Function.update d.file? (d.sources.idFor key) (some file) := by
  funext id
  rw [file?, shelve_sources, Registry.entry?_put]
  by_cases h : id = d.sources.idFor key
  · rw [if_pos h, h, Function.update_self]
    rfl
  · rw [if_neg h, Function.update_of_ne h]
    rfl

/-- **Shelving a file** keeps the tables right. -/
theorem shelve_settled (h : Settled d.file? (Shelf.external d.file?) (fun _ => False) d)
    (key : SourceKey) (file : SourceFile) :
    Settled (d.shelve key file).file? (Shelf.external (d.shelve key file).file?)
      (fun _ => False) (d.shelve key file) := by
  have hreleased := release_settled h (d.sources.idFor key)
    (!(d.file? (d.sources.idFor key)).any (·.keepsName file))
  -- The old text is released first, and the new one entered in its place.
  have hentered := enter_settled hreleased (d.sources.idFor key) file (Function.update_self ..) ?_
  · rw [shelve_file?]
    rw [Function.update_idem] at hentered
    exact ⟨hentered.owners, hentered.globals⟩
  · -- Only the name that the file keeps was not handed over.
    rintro name ⟨hkeeps, old, hold, hdeclares⟩
    rw [hold] at hkeeps
    simp only [Option.any_some, Bool.not_eq_false', SourceFile.keepsName, SourceFile.declares,
      Option.any_eq_true] at hkeeps hdeclares ⊢
    obtain ⟨new, hnew, before, hbefore, hsame⟩ := hkeeps
    obtain ⟨before', hbefore', hsame'⟩ := hdeclares
    rw [hbefore] at hbefore'
    cases hbefore'
    rw [sameName_iff] at hsame hsame'
    exact ⟨new, hnew, (sameName_iff _ _).2 (hsame'.trans hsame.symm)⟩

/-- **Closing a file** keeps the tables right. -/
theorem close_settled (h : Settled d.file? (Shelf.external d.file?) (fun _ => False) d)
    {id : FileId} {d' : Database} (hclose : d.closeFile? id = some d') :
    Settled d'.file? (Shelf.external d'.file?) (fun _ => False) d' ∧ d'.catalog = d.catalog ∧
      ∀ other, Registry.entry? d'.sources other = if other = id then none else d.sources.entry? other := by
  obtain ⟨key, hkey, rfl⟩ := Option.map_eq_some_iff.1 hclose
  have hsame := release_sameFiles d id true
  have hid : d.sources.id? key = some id := d.sources.id?_eq_some.2 hkey
  have hentry : ∀ other, Registry.entry? ((d.release id true).sources.erase key) other
      = if other = id then none else d.sources.entry? other := by
    intro other
    rw [hsame.sources, Registry.entry?_erase, hid]
    by_cases h : other = id
    · rw [if_pos h, if_pos (congrArg some h.symm)]
    · rw [if_neg h, if_neg (fun heq => h (Option.some.inj heq).symm)]
  refine ⟨?_, hsame.catalog, hentry⟩
  -- Erasing the key takes the file off the shelf.
  have hfile : file? { d.release id true with
      sources := (d.release id true).sources.erase key } = Function.update d.file? id none := by
    funext other
    rw [file?]
    simp only [hentry other]
    by_cases h : other = id
    · rw [if_pos h, h, Function.update_self]
      rfl
    · rw [if_neg h, Function.update_of_ne h]
      rfl
  -- The name is handed over before the key is erased, so nothing is lacking an owner.
  have hreleased := release_settled h id true
  rw [hfile]
  refine ⟨⟨hreleased.owners.declares, ?_⟩, hreleased.globals⟩
  intro name hfree _
  refine hreleased.owners.complete name hfree ?_
  rintro ⟨h, -⟩
  cases h

end Database

end ScriptSense
