/-
**A text given to a file once more changes nothing.**

A reload takes back all that the file has brought in and enters it again, so in between
names are without owners and entries are gone. That nothing of it is to be seen
afterwards has three reasons. The owners are those before because the file keeps its
name. Which entries there are, with what origin and which files, is fixed by the files
and the owners (`Right`, which holds before and afterwards). And what else an entry says
is fixed by its origin: that is `Shown`, an invariant of its own. The entry of a script
is the one that its owner's text makes, name and all; an entry that nobody declares is
the one that some use has made.

Which use that was is forgotten when the last file that has it goes, and so such an
entry may be shown in another case after a reload. All else comes back.
-/
import ScriptSense.Proofs.Workspace.Counting
import ScriptSense.Proofs.Workspace.Naming
import ScriptSense.Proofs.Workspace.Ownership

set_option autoImplicit false

namespace ScriptSense

universe u

/-! ## The registry -/

namespace Registry

variable {α : Type u}

theorem ext_entries {r s : Registry α} (hnext : r.next = s.next) (hentries : r.entries = s.entries) :
    r = s := by
  cases r
  cases s
  cases hnext
  cases hentries
  rfl

/-- What is entered already may be entered again. -/
theorem put_of_entry? {r : Registry α} {id : FileId} {key : SourceKey} {value : α}
    (h : r.entry? id = some ⟨id, key, value⟩) : r.put key value = r := by
  have hmem := (r.entry?_eq_some.1 h).1
  rw [put, dif_pos (List.mem_map.2 ⟨_, hmem, rfl⟩)]
  refine ext_entries rfl ?_
  refine (List.map_congr_left fun e he => ?_).trans (List.map_id r.entries)
  by_cases hkey : e.key = key
  · rw [if_pos hkey, r.eq_of_key he hmem hkey, id_eq]
  · rw [if_neg hkey, id_eq]

end Registry

/-! ## What an entry says -/

namespace GlobalEntry

variable {shelf : Shelf} {e e' : GlobalEntry}

/-- An entry that is not the catalog's says what its origin makes it say: that of a
script what the text of the owner makes, any other what a use makes. -/
def Shown (shelf : Shelf) (e : GlobalEntry) : Prop :=
  match e.origin with
  | .builtin | .form => True
  | .implicit => e.kind = .variable ∧ e.ty = .ambiguous
  | .script owner => (e.kind = .script ∧ e.ty = .reference) ∧
      ∃ file, shelf owner = some file ∧ file.scriptName? = some e.name

theorem shown_of_builtin (h : e.isBuiltin = true) : e.Shown shelf := by
  obtain ⟨name, kind, ty, origin, files⟩ := e
  cases origin with
  | builtin | form => trivial
  | script | implicit => cases h

/-- What is left of an entry without a file says the same, or what a use makes it say. -/
theorem Shown.retract (h : e.Shown shelf) {id : FileId} (hleft : e.retract id = some e') :
    e'.Shown (Function.update shelf id none) := by
  obtain ⟨name, kind, ty, origin, files⟩ := e
  cases origin with
  -- The entries of the catalog show nothing of a file.
  | builtin | form =>
    cases hleft
    trivial
  | implicit =>
    rw [retract_implicit rfl] at hleft
    rw [eq_of_whileUsed hleft]
    exact h
  | script owner =>
    by_cases howner : owner = id
    · subst howner
      -- What the owner leaves behind is an implicit entry.
      rw [retract_of_owner rfl] at hleft
      rw [eq_of_whileUsed hleft]
      exact ⟨rfl, rfl⟩
    · rw [retract_of_ne rfl howner] at hleft
      cases hleft
      obtain ⟨hkind, file, hfile, hname⟩ := h
      exact ⟨hkind, file, by rw [Function.update_of_ne howner]; exact hfile, hname⟩

/-- An entry that a script asks for is left, or it is the script's. -/
theorem Shown.claim (h : e.Shown shelf) {id : FileId} {file : SourceFile} {written : String}
    (hfile : shelf id = some file) (hwritten : file.scriptName? = some written) :
    (e.claim written id).Shown shelf := by
  rw [GlobalEntry.claim]
  split
  · exact ⟨⟨rfl, rfl⟩, file, hfile, hwritten⟩
  · exact h

/-- No entry is another when a file is put where none was. -/
theorem Shown.put {id : FileId} (h : e.Shown (Function.update shelf id none)) (file : SourceFile) :
    e.Shown (Function.update shelf id (some file)) := by
  obtain ⟨name, kind, ty, origin, files⟩ := e
  cases origin with
  | builtin | form | implicit => exact h
  | script owner =>
    obtain ⟨hkind, own, hown, hname⟩ := h
    have hne : owner ≠ id := by
      rintro rfl
      rw [Function.update_self] at hown
      cases hown
    rw [Function.update_of_ne hne] at hown
    exact ⟨hkind, own, by rw [Function.update_of_ne hne]; exact hown, hname⟩

end GlobalEntry

/-! ## The table -/

namespace Globals

/-- Every entry says what its origin makes it say. -/
def Shown (shelf : Shelf) (g : Globals) : Prop := ∀ name e, g.find? name = some e → e.Shown shelf

variable {shelf : Shelf} {g : Globals}

theorem shown_ofCatalog (c : Catalog) : (ofCatalog c).Shown shelf :=
  fun name e he => GlobalEntry.shown_of_builtin (isBuiltin_ofCatalog name e he)

theorem Shown.retract (h : g.Shown shelf) (id : FileId) :
    (g.retract id).Shown (Function.update shelf id none) := by
  intro name e' he'
  rw [find?_retract] at he'
  obtain ⟨e, he, hleft⟩ := Option.bind_eq_some_iff.1 he'
  exact (h name e he).retract hleft

theorem Shown.define (h : g.Shown shelf) {id : FileId} {file : SourceFile} {written : String}
    (hfile : shelf id = some file) (hwritten : file.scriptName? = some written) :
    (g.define written id).Shown shelf := by
  intro name e' he'
  rw [find?_define] at he'
  split at he'
  -- A new entry is shown as the file writes it, and an older one changes hands or stays.
  · cases he : g.find? written with
    | none =>
      rw [he] at he'
      cases he'
      exact ⟨⟨rfl, rfl⟩, file, hfile, hwritten⟩
    | some e =>
      rw [he] at he'
      cases he'
      exact (h written e he).claim hfile hwritten
  · exact h name e' he'

theorem Shown.reference (h : g.Shown shelf) (written : String) (id : FileId) :
    (g.reference written id).Shown shelf := by
  intro name e' he'
  rw [find?_reference] at he'
  split at he'
  -- A use shows nothing itself: it adds an implicit entry or a file to one that is there.
  · cases he : g.find? written with
    | none =>
      rw [he] at he'
      cases he'
      exact ⟨rfl, rfl⟩
    | some e =>
      rw [he] at he'
      cases he'
      exact h written e he
  · exact h name e' he'

theorem Shown.references (h : g.Shown shelf) (id : FileId) (names : List String) :
    (names.foldl (fun g name => g.reference name id) g).Shown shelf := by
  induction names generalizing g with
  | nil => exact h
  | cons name names ih => exact ih (h.reference name id)

theorem Shown.put {id : FileId} (h : g.Shown (Function.update shelf id none)) (file : SourceFile) :
    g.Shown (Function.update shelf id (some file)) :=
  fun name e he => (h name e he).put file

end Globals

/-! ## Sessions -/

namespace Database

variable {shelf : Shelf} {d : Database}

theorem shown_claim (h : d.globals.Shown shelf) {id : FileId} {file : SourceFile} {written : String}
    (hfile : shelf id = some file) (hwritten : file.scriptName? = some written) :
    (d.claim written id).globals.Shown shelf := by
  rw [claim]
  dsimp only
  split
  · exact h.define hfile hwritten
  · exact h

theorem shown_release (h : d.globals.Shown d.file?) (id : FileId) (handOver : Bool) :
    (d.release id handOver).globals.Shown (Function.update d.file? id none) := by
  have hwithout := h.retract id
  rw [release]
  split
  · exact hwithout
  · next name _ =>
    split
    · rw [disown]
      split
      · exact hwithout
      · next heir written hheir =>
        -- The heir is another file, so it is still there.
        have hfound : d.heir? name id = some (heir, written) := by
          split at hheir
          · exact hheir
          · cases hheir
        obtain ⟨hne, file, hfile, hwritten, -⟩ := heir?_eq_some hfound
        exact shown_claim hwithout ((Function.update_of_ne hne _ _).trans hfile) hwritten
    · exact hwithout

theorem shown_enter {id : FileId} (h : d.globals.Shown (Function.update shelf id none))
    (file : SourceFile) :
    (d.enter id file).globals.Shown (Function.update shelf id (some file)) := by
  refine Globals.Shown.references ?_ id file.external
  split
  · exact h.put file
  · next written hwritten =>
    exact shown_claim (h.put file) (Function.update_self ..) hwritten

theorem shown_shelve (h : d.globals.Shown d.file?) (key : SourceKey) (file : SourceFile) :
    (d.shelve key file).globals.Shown (d.shelve key file).file? := by
  rw [shelve_file?]
  exact shown_enter (shown_release h _ _) file

theorem shown_close (h : d.globals.Shown d.file?) {id : FileId} {d' : Database}
    (hrest : d.AtRest) (hclose : d.closeFile? id = some d') : d'.globals.Shown d'.file? := by
  rw [close_file? hrest hclose]
  obtain ⟨key, -, rfl⟩ := Option.map_eq_some_iff.1 hclose
  exact shown_release h id true

/-- **One call** keeps every entry saying what its origin makes it say. -/
theorem shown_after (h : d.globals.Shown d.file?) (hrest : d.AtRest) (call : Operation) :
    (d.after call).globals.Shown (d.after call).file? := by
  cases call with
  | «open» key text => exact shown_shelve h key _
  | change id text =>
    rw [after]
    cases hchange : d.changeFile? id text with
    -- A number that is not in use changes nothing.
    | none => exact h
    | some d' =>
      obtain ⟨key, -, rfl⟩ := Option.map_eq_some_iff.1 hchange
      exact shown_shelve h key _
  | close id =>
    rw [after]
    cases hclose : d.closeFile? id with
    | none => exact h
    | some d' => exact shown_close h hrest hclose

end Database

/-- **In every session every entry says what its origin makes it say.** -/
theorem shown_session (catalog : Catalog) (calls : List Operation) :
    (session catalog calls).1.globals.Shown (session catalog calls).1.file? := by
  induction calls using List.reverseRecOn with
  | nil => exact Globals.shown_ofCatalog catalog
  | append_singleton calls call ih =>
    rw [session_append]
    exact Database.shown_after ih (kept_session catalog calls).settled call

/-! ## Two databases that show the same -/

/-- The entries are one, but for the case in which a name is shown that nobody declares. -/
structure GlobalEntry.Alike (e e' : GlobalEntry) : Prop where
  kind : e'.kind = e.kind
  ty : e'.ty = e.ty
  origin : e'.origin = e.origin
  files : e'.files = e.files
  /-- The names agree up to case. -/
  same : sameName e.name e'.name = true
  /-- A name that somebody declares is shown as before. -/
  name : e.origin ≠ .implicit → e'.name = e.name

/-- **The databases show the same**: they have the same files under the same numbers and
keys, the same owners, and global names that are alike. -/
structure Database.Alike (d d' : Database) : Prop where
  catalog : d'.catalog = d.catalog
  sources : d'.sources = d.sources
  owners : ∀ name, d'.owner? name = d.owner? name
  globals : ∀ name, Option.Rel GlobalEntry.Alike (d.globals.find? name) (d'.globals.find? name)

namespace GlobalEntry

variable {known : Option GlobalEntry} {owner : Option FileId} {uses : FileId → Prop}
  {shelf : Shelf} {e e' : GlobalEntry}

theorem Right.files_eq (h : e.Right known owner uses) (h' : e'.Right known owner uses) :
    e'.files = e.files := by
  apply FileSet.ext_contains
  intro file
  rw [Bool.eq_iff_iff, h.files, h'.files]

/-- Two entries that are right for one name are alike. -/
theorem Right.alike (h : e.Right known owner uses) (h' : e'.Right known owner uses)
    (hshown : e.Shown shelf) (hshown' : e'.Shown shelf) (hsame : sameName e.name e'.name = true) :
    e.Alike e' := by
  have hfiles := h.files_eq h'
  cases hk : known with
  | some k =>
    have he' : e' = e := by
      rw [h'.unchanged k hk, hfiles, ← h.unchanged k hk]
    subst he'
    exact ⟨rfl, rfl, rfl, rfl, hsame, fun _ => rfl⟩
  | none =>
    have horigin : e'.origin = e.origin := (h'.origin hk).trans (h.origin hk).symm
    cases ho : owner with
    | none =>
      have himplicit : e.origin = .implicit := by
        rw [h.origin hk, ho]
        rfl
      simp only [Shown, horigin, himplicit] at hshown hshown'
      exact ⟨hshown'.1.trans hshown.1.symm, hshown'.2.trans hshown.2.symm, horigin, hfiles, hsame,
        fun hdeclared => absurd himplicit hdeclared⟩
    | some own =>
      have hscript : e.origin = .script own := by
        rw [h.origin hk, ho]
        rfl
      simp only [Shown, horigin, hscript] at hshown hshown'
      obtain ⟨⟨hkind, hty⟩, file, hfile, hname⟩ := hshown
      obtain ⟨⟨hkind', hty'⟩, file', hfile', hname'⟩ := hshown'
      -- Both names are the one that the text of the owner writes.
      obtain rfl : file = file' := Option.some.inj (hfile.symm.trans hfile')
      exact ⟨hkind'.trans hkind.symm, hty'.trans hty.symm, horigin, hfiles, hsame,
        fun _ => Option.some.inj (hname'.symm.trans hname)⟩

/-- What stands for a name in two tables that are right is alike. -/
theorem Records.alike {e? e?' : Option GlobalEntry} (h : Records known owner uses e?)
    (h' : Records known owner uses e?') (hshown : ∀ e, e? = some e → e.Shown shelf)
    (hshown' : ∀ e, e?' = some e → e.Shown shelf)
    (hsame : ∀ e e', e? = some e → e?' = some e' → sameName e.name e'.name = true) :
    Option.Rel Alike e? e?' := by
  -- With no reason for an entry on one side there is none on the other.
  have hnone : ∀ d : GlobalEntry, Records known owner uses none → ¬ d.Right known owner uses := by
    rintro d ⟨hknown, howner, huses⟩ hright
    rcases hright.kept with hkept | hkept | ⟨id, huse⟩
    · exact hkept hknown
    · exact hkept howner
    · exact huses id huse
  cases e? with
  | none =>
    cases e?' with
    | none => exact .none
    | some e' => exact absurd h' (hnone e' h)
  | some e =>
    cases e?' with
    | none => exact absurd h (hnone e h')
    | some e' =>
      exact .some (Right.alike h h' (hshown e rfl) (hshown' e' rfl) (hsame e e' rfl rfl))

end GlobalEntry

/-- **What is on the shelf already** may be put there again. -/
theorem Database.alike_shelve {d : Database} (hrest : d.AtRest) (hnamed : d.globals.Named)
    (hshown : d.globals.Shown d.file?) {id : FileId} {key : SourceKey} {file : SourceFile}
    (hentry : d.sources.entry? id = some ⟨id, key, file⟩) : d.Alike (d.shelve key file) := by
  have hfile : d.file? id = some file := by rw [file?, hentry, Option.map_some]
  have hid : d.sources.idFor key = id := idFor_of_key? (by rw [key?, hentry, Option.map_some])
  -- The key has its entry, and the file in it is the one that is put there again.
  have hsources : (d.shelve key file).sources = d.sources := by
    rw [shelve_sources, Registry.put_of_entry? hentry]
  have hfiles : (d.shelve key file).file? = d.file? := by
    rw [shelve_file?, hid, Function.update_eq_self_iff.2 hfile.symm]
  have howners : ∀ name, (d.shelve key file).owner? name = d.owner? name := by
    intro name
    rw [owner?_shelve hrest, hid]
    exact unchanged_of_sameName hrest hfile rfl name
  have hrest' := shelve_settled hrest key file
  have hnamed' := named_shelve hnamed key file
  have hshown' := shown_shelve hshown key file
  rw [hfiles] at hrest' hshown'
  refine ⟨shelve_catalog d key file, hsources, howners, fun name => ?_⟩
  -- Both tables record the same catalog, owners and uses, so that their entries agree.
  have hrecords := hrest.globals name
  have hrecords' := hrest'.globals name
  have howner : (d.shelve key file).owners.find? name = d.owners.find? name := howners name
  rw [shelve_catalog, howner] at hrecords'
  refine hrecords.alike hrecords' (hshown name) (hshown' name) fun e e' he he' => ?_
  have hname := (sameName_iff _ _).1 (hnamed name e he)
  have hname' := (sameName_iff _ _).1 (hnamed' name e' he')
  exact (sameName_iff _ _).2 (hname.symm.trans hname')

/-- **A text given to a file once more** changes nothing, but for the case in which names
are shown that nobody declares. -/
theorem reload_alike (catalog : Catalog) (calls : List Operation) {id : FileId} {file : SourceFile}
    (hfile : (session catalog calls).1.file? id = some file) :
    ∃ d', (session catalog calls).1.changeFile? id file.text = some d' ∧
      (session catalog calls).1.Alike d' := by
  have hkept := kept_session catalog calls
  obtain ⟨e, hentry, rfl⟩ := Option.map_eq_some_iff.1 hfile
  have hdesk := hkept.entries id
  rw [hentry] at hdesk
  obtain ⟨⟨key, text⟩, -, rfl⟩ := Option.map_eq_some_iff.1 hdesk.symm
  -- The text is read with the catalog of the session, as when it was opened.
  have hload : (session catalog calls).1.changeFile? id text
      = some ((session catalog calls).1.shelve key (.read catalog text)) := by
    rw [Database.changeFile?, Database.key?, hentry, Option.map_some, Option.map_some,
      Database.load, hkept.known]
  exact ⟨_, hload, Database.alike_shelve hkept.settled (named_session catalog calls)
    (shown_session catalog calls) hentry⟩

/-- A name is first used by a script that writes it in capitals. Once that script is
closed only the other one is left that uses the name. -/
def loneUse : List Operation :=
  [.open (.virtual "a") "scn T\nY\n", .open (.virtual "b") "scn U\ny\n",
    .close ⟨0⟩]

set_option maxRecDepth 4000 in
theorem reload_alike_at_loneUse : ∃ file d',
    (session .empty loneUse).1.file? ⟨1⟩ = some file ∧
      (session .empty loneUse).1.changeFile? ⟨1⟩ file.text = some d' ∧
      (session .empty loneUse).1.Alike d' ∧
      ((session .empty loneUse).1.globals.find? "y").map GlobalEntry.name = some "Y" ∧
      (d'.globals.find? "y").map GlobalEntry.name = some "y" := by
  -- The session is run once for all that is asked of it.
  have hrun : (fun d : Database => ((d.file? ⟨1⟩).map SourceFile.text,
      (d.globals.find? "y").map GlobalEntry.name,
      ((d.after (.change ⟨1⟩ "scn U\ny\n")).globals.find? "y").map GlobalEntry.name))
        (session .empty loneUse).1 = (some "scn U\ny\n", some "Y", some "y") := by
    decide +kernel
  simp only [Prod.mk.injEq] at hrun
  obtain ⟨htext, hbefore, hafter⟩ := hrun
  obtain ⟨file, hfile, htext⟩ := Option.map_eq_some_iff.1 htext
  obtain ⟨d', hreload, halike⟩ := reload_alike .empty loneUse hfile
  rw [← htext, Database.after, hreload, Option.getD_some] at hafter
  exact ⟨file, d', hfile, hreload, halike, hbefore, hafter⟩

end ScriptSense
