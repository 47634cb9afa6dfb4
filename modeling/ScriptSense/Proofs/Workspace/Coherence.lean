/-
**The tables of a workspace stay in step** with the files that are open.

A session is any sequence of calls: files are opened, changed and closed, under
any keys and with any numbers and texts. Beside the database it keeps a `Desk`,
which holds what the calls say and nothing else: under each number the key and
the text that were last given. The desk knows nothing of the tables, so it is
what the tables are measured by.

`Coherent` is the measure at one moment. `Later` is the measure over time: it
says of two moments that no number has changed hands in between. Both are shown
of one call and then, by induction over the calls, of a whole session.
-/
import ScriptSense.Proofs.Workspace.Owners

set_option autoImplicit false

namespace ScriptSense

/-! ## Sessions -/

/-- A call that changes a workspace. -/
inductive Operation where
  /-- Opens a file, or gives another text to the one that is open. -/
  | open (key : SourceKey) (text : String)
  /-- Gives the file with a number another text. -/
  | change (id : FileId) (text : String)
  /-- Closes the file with a number. -/
  | close (id : FileId)
deriving DecidableEq

/-- The database after a call. A call that is refused leaves it as it is. -/
def Database.after (d : Database) : Operation → Database
  | .open key text => (d.openFile key text).2
  | .change id text => (d.changeFile? id text).getD d
  | .close id => (d.closeFile? id).getD d

/-- Under each number in use the key of the file and the text last given to it. -/
abbrev Desk := FileId → Option (SourceKey × String)

namespace Desk

/-- The desk after a call. Of the database it takes only the number with which
the call to open a file is answered. -/
def after (desk : Desk) (d : Database) : Operation → Desk
  | .open key text => Function.update desk (d.openFile key text).1 (some (key, text))
  | .change id text => Function.update desk id ((desk id).map fun file => (file.1, text))
  | .close id => Function.update desk id none

/-- What is read out of the texts on the desk. -/
def shelf (catalog : Catalog) (desk : Desk) : Shelf := fun id =>
  (desk id).map fun file => SourceFile.read catalog file.2

/-- The text under the number declares the script name. -/
def Declares (catalog : Catalog) (desk : Desk) (id : FileId) (name : String) : Prop :=
  (desk.shelf catalog).Declares id name

/-- The text under the number uses the name, and declares it nowhere. -/
def Uses (catalog : Catalog) (desk : Desk) (id : FileId) (name : String) : Prop :=
  Mentions ((desk.shelf catalog).external id) name

end Desk

/-- Database and desk after a sequence of calls. -/
def session (catalog : Catalog) (calls : List Operation) : Database × Desk :=
  calls.foldl (fun s call => (s.1.after call, s.2.after s.1 call)) (.ofCatalog catalog, fun _ => none)

theorem session_append (catalog : Catalog) (calls more : List Operation) :
    session catalog (calls ++ more)
      = more.foldl (fun s call => (s.1.after call, s.2.after s.1 call)) (session catalog calls) :=
  List.foldl_append

/-! ## What is to be kept -/

/-- **The four tables are in step** with what is on the desk. -/
structure Coherent (catalog : Catalog) (d : Database) (desk : Desk) : Prop where
  /-- The registry knows the keys on the desk, each by its number. -/
  numbered : ∀ key id, d.fileId? key = some id ↔ ∃ text, desk id = some (key, text)
  /-- The open files are those on the desk, under their keys and read as they are. -/
  opened : ∀ id, d.key? id = (desk id).map Prod.fst ∧ d.file? id = desk.shelf catalog id
  /-- A script name has an owner if some open file declares it. -/
  owned : ∀ name, (∃ id, d.owner? name = some id) ↔ ∃ id, desk.Declares catalog id name
  /-- The owner declares it. -/
  owner : ∀ name id, d.owner? name = some id → desk.Declares catalog id name
  /-- A name is global if the catalog has it, somebody owns it or uses it. -/
  global : ∀ name, (∃ e, d.globals.find? name = some e)
    ↔ (∃ o, catalog.origin? name = some o) ∨ (∃ id, d.owner? name = some id) ∨
      ∃ id, desk.Uses catalog id name
  /-- Its files are those that use it. -/
  users : ∀ name e, d.globals.find? name = some e →
    ∀ id, e.files.contains id = true ↔ desk.Uses catalog id name
  /-- Its origin is the catalog's, else its owner, else there is none. -/
  origin : ∀ name e, d.globals.find? name = some e →
    e.origin = (catalog.origin? name).getD (((d.owner? name).map .script).getD .implicit)

/-- The invariant of a session: the files are those on the desk and the tables
are right for them. -/
structure Kept (catalog : Catalog) (d : Database) (desk : Desk) : Prop where
  known : d.catalog = catalog
  entries : ∀ id, d.sources.entry? id
    = (desk id).map fun file => ⟨id, file.1, SourceFile.read catalog file.2⟩
  settled : d.Settled d.file? (Shelf.external d.file?) fun _ => False

namespace Kept

variable {catalog : Catalog} {d : Database} {desk : Desk}

theorem key?_eq (h : Kept catalog d desk) (id : FileId) : d.key? id = (desk id).map Prod.fst := by
  rw [Database.key?, h.entries, Option.map_map]
  rfl

theorem file?_eq (h : Kept catalog d desk) : d.file? = desk.shelf catalog := by
  funext id
  rw [Database.file?, h.entries, Desk.shelf, Option.map_map]
  rfl

theorem index_lt (h : Kept catalog d desk) {id : FileId} {file : SourceKey × String}
    (hfile : desk id = some file) : id.index < d.sources.next := by
  have hentry := h.entries id
  rw [hfile] at hentry
  exact d.sources.index_lt hentry

theorem id?_eq_some (h : Kept catalog d desk) (key : SourceKey) (id : FileId) :
    d.sources.id? key = some id ↔ ∃ text, desk id = some (key, text) := by
  rw [Registry.id?_eq_some, h.entries]
  cases desk id with
  | none => simp
  | some file => simp [Prod.ext_iff]

/-! ## One call -/

theorem start (catalog : Catalog) : Kept catalog (.ofCatalog catalog) fun _ => none := by
  have hshelf : (Database.ofCatalog catalog).file? = fun _ => none := rfl
  refine ⟨rfl, fun _ => rfl, ?_, ?_⟩
  · constructor
    · intro name id howner
      cases howner
    · rintro name - - id ⟨file, hfile, -⟩
      rw [hshelf] at hfile
      cases hfile
  · exact Globals.right_ofCatalog catalog

/-- A text is put under the number of its key. -/
theorem load (h : Kept catalog d desk) (key : SourceKey) (text : String) :
    Kept catalog (d.load key text) (Function.update desk (d.sources.idFor key) (some (key, text))) := by
  refine ⟨(d.shelve_catalog _ _).trans h.known, ?_, Database.shelve_settled h.settled _ _⟩
  intro id
  rw [Database.load, Database.shelve_sources, Registry.entry?_put, h.known]
  by_cases hid : id = d.sources.idFor key
  · rw [if_pos hid, hid, Function.update_self, Option.map_some]
  · rw [if_neg hid, Function.update_of_ne hid, h.entries]

theorem change (h : Kept catalog d desk) (id : FileId) (text : String) :
    Kept catalog (d.after (.change id text)) (desk.after d (.change id text)) := by
  simp only [Database.after, Desk.after, Database.changeFile?]
  rw [h.key?_eq]
  cases hfile : desk id with
  | none =>
    rw [Option.map_none, Option.map_none, Function.update_eq_self_iff.2 hfile.symm]
    exact h
  | some file =>
    -- The key of an open file still has its number, so changing is loading under the same key.
    have hknown : d.sources.idFor file.1 = id := by
      rw [Registry.idFor, (h.id?_eq_some file.1 id).2 ⟨file.2, hfile⟩]
      rfl
    have hloaded := h.load file.1 text
    rw [hknown] at hloaded
    exact hloaded

theorem close (h : Kept catalog d desk) (id : FileId) :
    Kept catalog (d.after (.close id)) (desk.after d (.close id)) := by
  simp only [Database.after, Desk.after]
  cases hclose : d.closeFile? id with
  -- A number that is not in use closes nothing.
  | none =>
    rw [Database.closeFile?, Option.map_eq_none_iff, h.key?_eq, Option.map_eq_none_iff] at hclose
    rw [Function.update_eq_self_iff.2 hclose.symm]
    exact h
  | some d' =>
    obtain ⟨hsettled, hcatalog, hentries⟩ := Database.close_settled h.settled hclose
    refine ⟨hcatalog.trans h.known, ?_, hsettled⟩
    intro other
    rw [Option.getD_some, hentries]
    by_cases hother : other = id
    · rw [if_pos hother, hother, Function.update_self, Option.map_none]
    · rw [if_neg hother, Function.update_of_ne hother, h.entries]

/-- **One call** keeps the invariant. -/
theorem after (h : Kept catalog d desk) (call : Operation) :
    Kept catalog (d.after call) (desk.after d call) := by
  cases call with
  | «open» key text => exact h.load key text
  | change id text => exact h.change id text
  | close id => exact h.close id

/-! ## What the invariant says -/

/-- **The invariant makes the tables coherent.** -/
theorem coherent (h : Kept catalog d desk) : Coherent catalog d desk := by
  have hfiles := h.file?_eq
  have howners := h.settled.owners
  have hglobals := h.settled.globals
  rw [hfiles] at howners hglobals
  rw [h.known] at hglobals
  refine ⟨h.id?_eq_some, fun id => ⟨h.key?_eq id, congrFun hfiles id⟩, ?_, howners.declares,
    ?_, ?_, ?_⟩
  · intro name
    constructor
    · rintro ⟨id, hid⟩
      exact ⟨id, howners.declares name id hid⟩
    · rintro ⟨id, hid⟩
      -- A name that some file declares is not left without an owner.
      cases hname : d.owner? name with
      | none => exact absurd hid (howners.complete name hname (fun h => h) id)
      | some owner => exact ⟨owner, rfl⟩
  · intro name
    rw [← (Globals.find?_ofCatalog catalog name).1]
    exact (hglobals name).exists_iff
  · intro name e he
    have hrecords := hglobals name
    rw [he] at hrecords
    exact hrecords.files
  · intro name e he
    have hrecords := hglobals name
    rw [he] at hrecords
    rw [← (Globals.find?_ofCatalog catalog name).1]
    exact GlobalEntry.Right.origin_eq hrecords

/-- With no file open the tables are those of the catalog. -/
theorem cleared (h : Kept catalog d desk) (hclear : ∀ id, desk id = none) :
    d.owners = .empty ∧ ∀ name, d.globals.find? name = (Globals.ofCatalog catalog).find? name := by
  have hcoherent := h.coherent
  -- The shelf is empty, so no file declares a name and no file uses one.
  have hshelf : ∀ id, desk.shelf catalog id = none := by
    intro id
    rw [Desk.shelf, hclear id]
    rfl
  have hfree : ∀ name, d.owners.find? name = none := by
    intro name
    cases hname : d.owners.find? name with
    | none => rfl
    | some id =>
      obtain ⟨file, hfile, -⟩ := hcoherent.owner name id hname
      rw [hshelf id] at hfile
      cases hfile
  have hunused : ∀ id name, ¬ desk.Uses catalog id name := by
    intro id name
    simp [Desk.Uses, Shelf.external, hshelf id, Mentions]
  refine ⟨NameMap.eq_empty_of_find? _ hfree, fun name => ?_⟩
  have hrecords := h.settled.globals name
  rw [h.known, hfree name] at hrecords
  cases he : d.globals.find? name with
  | none =>
    rw [he] at hrecords
    exact hrecords.1.symm
  | some e =>
    rw [he] at hrecords
    have hused : ∀ id, e.files.contains id = false := by
      intro id
      rw [Bool.eq_false_iff]
      intro hid
      exact hunused id name ((hcoherent.users name e he id).1 hid)
    have hempty : e.files = .empty := FileSet.eq_empty hused
    -- An entry is there for one of three reasons, and only the catalog is left of them.
    rcases hrecords.kept with hknown | howner | ⟨id, huse⟩
    · obtain ⟨k, hk⟩ := Option.ne_none_iff_exists'.1 hknown
      have hsame := hrecords.unchanged k hk
      rw [hempty, ← (Globals.find?_ofCatalog catalog name).2 k hk] at hsame
      rw [hk, hsame]
    · exact absurd rfl howner
    · exact absurd ((hrecords.files id).2 huse) (by rw [hused id]; exact Bool.false_ne_true)

end Kept

/-! ## Numbers over time -/

/-- No number has changed hands: every number that was given before stands for
what it stood for, or for nothing. -/
structure Later (s s' : Database × Desk) : Prop where
  next : s.1.sources.next ≤ s'.1.sources.next
  same : ∀ id file', id.index < s.1.sources.next → s'.2 id = some file' →
    ∃ file, s.2 id = some file ∧ file'.1 = file.1

namespace Later

theorem refl (s : Database × Desk) : Later s s :=
  ⟨Nat.le_refl _, fun _ file' _ h => ⟨file', h, rfl⟩⟩

theorem trans {s₁ s₂ s₃ : Database × Desk} (h₁ : Later s₁ s₂) (h₂ : Later s₂ s₃) : Later s₁ s₃ := by
  refine ⟨Nat.le_trans h₁.next h₂.next, ?_⟩
  intro id file₃ hid hfile₃
  obtain ⟨file₂, hfile₂, hkey₂⟩ := h₂.same id file₃ (Nat.lt_of_lt_of_le hid h₁.next) hfile₃
  obtain ⟨file₁, hfile₁, hkey₁⟩ := h₁.same id file₂ hid hfile₂
  exact ⟨file₁, hfile₁, hkey₂.trans hkey₁⟩

variable {catalog : Catalog} {d : Database} {desk : Desk}

/-- A text goes under the number of its key, or under one that is new. -/
theorem load (h : Kept catalog d desk) (key : SourceKey) (text : String) :
    Later (d, desk)
      (d.load key text, Function.update desk (d.sources.idFor key) (some (key, text))) := by
  refine ⟨?_, ?_⟩
  · simp only [Database.load, Database.shelve_sources]
    exact Registry.next_le_put _ _ _
  · intro id file' hid hfile'
    simp only at hfile'
    by_cases hown : id = d.sources.idFor key
    · subst hown
      rw [Function.update_self] at hfile'
      cases hfile'
      -- The key has its number already, or gets one that no file has had.
      rcases d.sources.idFor_cases key with hknown | ⟨-, hnew⟩
      · obtain ⟨before, hbefore⟩ := (h.id?_eq_some key _).1 hknown
        exact ⟨(key, before), hbefore, rfl⟩
      · rw [hnew] at hid
        exact absurd hid (Nat.lt_irrefl _)
    · rw [Function.update_of_ne hown] at hfile'
      exact ⟨file', hfile', rfl⟩

/-- **One call** leaves every number in its hands. -/
theorem after (h : Kept catalog d desk) (call : Operation) :
    Later (d, desk) (d.after call, desk.after d call) := by
  cases call with
  | «open» key text => exact load h key text
  | change id text =>
    simp only [Database.after, Desk.after, Database.changeFile?]
    rw [h.key?_eq]
    cases hfile : desk id with
    | none =>
      rw [Option.map_none, Option.map_none, Function.update_eq_self_iff.2 hfile.symm]
      exact refl _
    | some file =>
      have hknown : d.sources.idFor file.1 = id := by
        rw [Registry.idFor, (h.id?_eq_some file.1 id).2 ⟨file.2, hfile⟩]
        rfl
      have hloaded := load h file.1 text
      rw [hknown] at hloaded
      exact hloaded
  | close id =>
    have hnext : (d.after (.close id)).sources.next = d.sources.next := by
      simp only [Database.after]
      cases hclose : d.closeFile? id with
      | none => rfl
      | some d' =>
        obtain ⟨key, -, rfl⟩ := Option.map_eq_some_iff.1 hclose
        have hsources := (Database.release_sameFiles d id true).sources
        rw [Option.getD_some, ← hsources]
        rfl
    refine ⟨Nat.le_of_eq hnext.symm, ?_⟩
    intro other file' _ hfile'
    simp only [Desk.after] at hfile'
    by_cases hother : other = id
    · rw [hother, Function.update_self] at hfile'
      cases hfile'
    · rw [Function.update_of_ne hother] at hfile'
      exact ⟨file', hfile', rfl⟩

end Later

/-! ## Whole sessions -/

/-- From a moment that keeps the invariant every sequence of calls leads to one
that does, and no number changes hands on the way. -/
theorem kept_calls {catalog : Catalog} (calls : List Operation) (s : Database × Desk)
    (h : Kept catalog s.1 s.2) :
    let s' := calls.foldl (fun s call => (s.1.after call, s.2.after s.1 call)) s
    Kept catalog s'.1 s'.2 ∧ Later s s' := by
  induction calls generalizing s with
  | nil => exact ⟨h, Later.refl s⟩
  | cons call calls ih =>
    have hrest := ih (s.1.after call, s.2.after s.1 call) (h.after call)
    exact ⟨hrest.1, (Later.after h call).trans hrest.2⟩

theorem kept_session (catalog : Catalog) (calls : List Operation) :
    Kept catalog (session catalog calls).1 (session catalog calls).2 :=
  (kept_calls calls (.ofCatalog catalog, fun _ => none) (Kept.start catalog)).1

theorem later_session (catalog : Catalog) (calls more : List Operation) :
    Later (session catalog calls) (session catalog (calls ++ more)) := by
  rw [session_append]
  exact (kept_calls more _ (kept_session catalog calls)).2

/-- **Every session is coherent.** After any calls whatever the four tables are
in step with the open files; a number stands for one key for ever and, once its
file is closed, for nothing; and when all files are closed the tables hold what
the catalog put there. -/
theorem session_coherent (catalog : Catalog) (calls : List Operation) :
    Coherent catalog (session catalog calls).1 (session catalog calls).2 ∧
      (∀ more id file file', (session catalog calls).2 id = some file →
        (session catalog (calls ++ more)).2 id = some file' → file'.1 = file.1) ∧
      (∀ more later id file, (session catalog calls).2 id = some file →
        (session catalog (calls ++ more)).2 id = none →
        (session catalog (calls ++ more ++ later)).2 id = none) ∧
      ((∀ id, (session catalog calls).2 id = none) →
        (session catalog calls).1.owners = .empty ∧
        ∀ name, (session catalog calls).1.globals.find? name
          = (Globals.ofCatalog catalog).find? name) := by
  have hkept := kept_session catalog calls
  refine ⟨hkept.coherent, ?_, ?_, hkept.cleared⟩
  · intro more id file file' hfile hfile'
    have hlater := later_session catalog calls more
    obtain ⟨first, hfirst, hkey⟩ := hlater.same id file' (hkept.index_lt hfile) hfile'
    rw [hfile] at hfirst
    cases hfirst
    exact hkey
  · intro more later id file hfile hclosed
    have hid : id.index < (session catalog (calls ++ more)).1.sources.next :=
      Nat.lt_of_lt_of_le (hkept.index_lt hfile) (later_session catalog calls more).next
    cases hagain : (session catalog (calls ++ more ++ later)).2 id with
    | none => rfl
    | some file' =>
      obtain ⟨before, hbefore, -⟩ :=
        (later_session catalog (calls ++ more) later).same id file' hid hagain
      rw [hclosed] at hbefore
      cases hbefore

end ScriptSense
