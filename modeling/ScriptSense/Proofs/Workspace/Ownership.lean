/-
**Script names stay with their owners**, and every other file that declares a name is
told so.

A call is about one file at most. `Operation.effect?` says which, and what that file is
afterwards; so a call can do three things to the names: the file keeps its name, it
gives up a name that it owns, or neither of the two. `owner?_shelve` and `owner?_close`
say who owns a name afterwards. Both turn on one fact about the tables of a session: a
file that owns a name declares it. So what a release takes away from a file that keeps
its name is just what the file claims again, and nobody can come in between.

An heir is searched in the order of the numbers, which is why it is the first.
-/
import ScriptSense.Proofs.Workspace.Coherence

set_option autoImplicit false

namespace ScriptSense

/-! ## Names of texts -/

namespace SourceFile

/-- The texts declare one name up to case, or both declare none. -/
def SameName (old new : SourceFile) : Prop :=
  old.scriptName?.map foldCase = new.scriptName?.map foldCase

theorem declares_iff_folded (file : SourceFile) (name : String) :
    file.declares name = true ↔ file.scriptName?.map foldCase = some (foldCase name) := by
  cases hname : file.scriptName? with
  | none => simp [declares_eq_false hname]
  | some written =>
    rw [declares_iff hname, Option.map_some, Option.some.injEq, eq_comm]

theorem SameName.declares {old new : SourceFile} (h : old.SameName new) (name : String) :
    old.declares name = new.declares name := by
  rw [Bool.eq_iff_iff, declares_iff_folded, declares_iff_folded, h]

/-- A text keeps a name if both declare it. -/
theorem keepsName_of_declares {old new : SourceFile} {name : String}
    (hold : old.declares name = true) (hnew : new.declares name = true) :
    old.keepsName new = true := by
  obtain ⟨written, hwritten, hsame⟩ := (Option.any_eq_true _ _).1 hnew
  rw [keepsName, hwritten, Option.any_some,
    old.declares_congr ((sameName_iff _ _).1 hsame).symm]
  exact hold

/-- A text that keeps its name declares what was declared before. -/
theorem declares_of_keepsName {old new : SourceFile} {name : String}
    (hkeeps : old.keepsName new = true) (hold : old.declares name = true) :
    new.declares name = true := by
  obtain ⟨written, hwritten, hboth⟩ := (Option.any_eq_true _ _).1 hkeeps
  rw [declares_iff_folded] at hold hboth
  rw [declares_iff hwritten]
  exact Option.some.inj (hold.symm.trans hboth)

end SourceFile

namespace Database

variable {d : Database}

/-- The open file declares the name, and none with a smaller number does. -/
def IsFirst (d : Database) (name : String) (id : FileId) : Prop :=
  Shelf.Declares d.file? id name ∧
    ∀ other, Shelf.Declares d.file? other name → id.index ≤ other.index

/-- The tables are right for the open files, and no name lacks an owner. -/
abbrev AtRest (d : Database) : Prop :=
  Settled d.file? (Shelf.external d.file?) (fun _ => False) d

/-! ## Heirs -/

/-- The numbers of the entries ascend. -/
theorem pairwise_entries (d : Database) :
    d.sources.entries.Pairwise fun e f => e.id.index < f.id.index :=
  List.pairwise_map.1 d.sources.ascending

/-- No other file that declares the name has a smaller number than the heir: it would
have been asked before. -/
theorem heir?_le {name written : String} {id heir other : FileId}
    (h : d.heir? name id = some (heir, written)) (hother : other ≠ id)
    (hdeclares : Shelf.Declares d.file? other name) : heir.index ≤ other.index := by
  obtain ⟨file, hfile, hnamed⟩ := hdeclares
  obtain ⟨f, hf, rfl, rfl⟩ := file?_eq_some.1 hfile
  obtain ⟨front, e, back, hentries, he, hfront⟩ := List.findSome?_eq_some_iff.1 h
  have hheir : heir = e.id := by
    split at he
    · obtain ⟨_, _, hpair⟩ := Option.map_eq_some_iff.1 he
      exact (congrArg Prod.fst hpair).symm
    · cases he
  have hordered := d.pairwise_entries
  rw [hentries] at hf hordered
  -- A file in front of the heir was refused, and one behind it has a larger number.
  rcases List.mem_append.1 hf with hf | hf
  · have hrefused := hfront f hf
    rw [if_pos ⟨hother, hnamed⟩, Option.map_eq_none_iff] at hrefused
    rw [SourceFile.declares_eq_false hrefused] at hnamed
    cases hnamed
  · rw [hheir]
    rcases List.mem_cons.1 hf with rfl | hf
    · exact Nat.le_refl _
    · have hback := List.pairwise_cons.1 (List.pairwise_append.1 hordered).2.1
      exact Nat.le_of_lt (hback.1 f hf)

/-- **The heir of a name** is the first of the other files that declare it. -/
theorem heir?_iff {name : String} {id heir : FileId} :
    (d.heir? name id).map Prod.fst = some heir ↔
      (heir ≠ id ∧ Shelf.Declares d.file? heir name) ∧
        ∀ other, other ≠ id ∧ Shelf.Declares d.file? other name → heir.index ≤ other.index := by
  have hfirst : ∀ own written, d.heir? name id = some (own, written) →
      (own ≠ id ∧ Shelf.Declares d.file? own name) ∧
        ∀ other, other ≠ id ∧ Shelf.Declares d.file? other name → own.index ≤ other.index := by
    intro own written hown
    obtain ⟨hne, file, hfile, hwritten, hsame⟩ := heir?_eq_some hown
    exact ⟨⟨hne, file, hfile, (SourceFile.declares_iff hwritten name).2 hsame⟩,
      fun other hother => heir?_le hown hother.1 hother.2⟩
  constructor
  · intro h
    obtain ⟨⟨own, written⟩, hown, rfl⟩ := Option.map_eq_some_iff.1 h
    exact hfirst own written hown
  · rintro ⟨⟨hne, hdeclares⟩, hleast⟩
    -- Of two least numbers each is below the other.
    cases hheir : d.heir? name id with
    | none => exact absurd hdeclares (heir?_eq_none hheir heir hne)
    | some found =>
      obtain ⟨own, written⟩ := found
      obtain ⟨hown, hownLeast⟩ := hfirst own written hheir
      have hindex : own.index = heir.index :=
        Nat.le_antisymm (hownLeast heir ⟨hne, hdeclares⟩) (hleast own hown)
      exact congrArg some (congrArg FileId.mk hindex)

/-- The heir of a name is blind to its case. -/
theorem heir?_congr (d : Database) {name other : String} (h : foldCase name = foldCase other)
    (id : FileId) : d.heir? name id = d.heir? other id := by
  have hdeclares : ∀ file : SourceFile, file.declares name = file.declares other :=
    fun file => file.declares_congr h
  simp only [heir?, hdeclares]

/-! ## Owners after each part of a call -/

theorem owner?_congr (d : Database) {name other : String} (h : foldCase name = foldCase other) :
    d.owner? name = d.owner? other := d.owners.find?_congr h

/-- A claim gives an owner to a name that has none. -/
theorem owner?_claim (d : Database) (name : String) (id : FileId) (other : String) :
    (d.claim name id).owner? other
      = if foldCase other = foldCase name then some ((d.owner? name).getD id) else d.owner? other := by
  have howners : (d.claim name id).owners = d.owners.insertNew name id := by
    rw [claim]
    dsimp only
    split <;> rfl
  rw [owner?, howners]
  exact NameMap.find?_insertNew _ _ _ _

theorem owner?_disown (d : Database) (name : String) (id : FileId) (handOver : Bool) (other : String) :
    (d.disown name id handOver).owner? other
      = if foldCase other = foldCase name then
          if handOver then (d.heir? name id).map Prod.fst else none
        else d.owner? other := by
  have herased : ∀ n, (d.owners.erase name).find? n
      = if foldCase n = foldCase name then none else d.owners.find? n := d.owners.find?_erase name
  rw [disown]
  cases handOver with
  | false => exact herased other
  | true =>
    rw [if_pos rfl]
    cases hheir : d.heir? name id with
    | none => exact herased other
    | some own =>
      obtain ⟨heir, written⟩ := own
      have hsame : foldCase name = foldCase written := (heir?_eq_some hheir).2.choose_spec.2.2
      -- The name was given up before it is claimed for the heir, so the claim succeeds.
      have hfree : (d.owners.erase name).find? written = none := by
        rw [herased, if_pos hsame.symm]
      refine (owner?_claim _ written heir other).trans ?_
      rw [hsame]
      split
      · rw [owner?, hfree]
        rfl
      · next hne =>
        rw [owner?, herased, hsame, if_neg hne]
        rfl

/-- **What a file owned** is its heir's once the file is released, or nobody's. -/
theorem owner?_release (h : d.AtRest) (id : FileId) (handOver : Bool) (name : String) :
    (d.release id handOver).owner? name
      = if d.owner? name = some id then
          if handOver then (d.heir? name id).map Prod.fst else none
        else d.owner? name := by
  rw [release]
  split
  · next hunnamed =>
    rw [if_neg]
    · rfl
    · intro howner
      obtain ⟨file, hfile, hdeclares⟩ := h.owners.declares name id howner
      rw [hfile, Option.bind_some] at hunnamed
      rw [SourceFile.declares_eq_false hunnamed] at hdeclares
      cases hdeclares
  · next written hname =>
    obtain ⟨file, hfile, hwritten⟩ := Option.bind_eq_some_iff.1 hname
    -- A file owns no name but the one it declares.
    have hown : ∀ n, d.owner? n = some id → foldCase n = foldCase written := by
      intro n howner
      obtain ⟨file', hfile', hdeclares⟩ := h.owners.declares n id howner
      rw [hfile] at hfile'
      cases hfile'
      exact (SourceFile.declares_iff hwritten n).1 hdeclares
    split
    · next howner =>
      refine (owner?_disown _ written id handOver name).trans ?_
      -- Only this name changes hands.
      by_cases hsame : foldCase name = foldCase written
      · rw [if_pos hsame, if_pos ((d.owner?_congr hsame).trans howner), d.heir?_congr hsame]
        rfl
      · rw [if_neg hsame, if_neg fun hname => hsame (hown name hname)]
        rfl
    · next howner =>
      rw [if_neg]
      · rfl
      · intro hname
        exact howner ((d.owner?_congr (hown name hname)).symm.trans hname)

theorem owner?_enter (d : Database) (id : FileId) (file : SourceFile) (name : String) :
    (d.enter id file).owner? name
      = if file.declares name then some ((d.owner? name).getD id) else d.owner? name := by
  cases hwritten : file.scriptName? with
  | none =>
    rw [SourceFile.declares_eq_false hwritten, enter, hwritten]
    rfl
  | some written =>
    have henter : (d.enter id file).owner? name = (d.claim written id).owner? name := by
      rw [enter, hwritten]
      rfl
    rw [henter, owner?_claim]
    -- A name that is entered is claimed, and a claim does not take it from another owner.
    by_cases hsame : foldCase name = foldCase written
    · rw [if_pos hsame, if_pos ((SourceFile.declares_iff hwritten name).2 hsame),
        d.owner?_congr hsame]
    · rw [if_neg hsame, if_neg fun h => hsame ((SourceFile.declares_iff hwritten name).1 h)]

/-! ## Owners after a call -/

/-- **A text goes under a key.** What the file owned and does not declare any more goes
to the heir; what it declares is its own if nobody had it. -/
theorem owner?_shelve (h : d.AtRest) (key : SourceKey) (file : SourceFile) (name : String) :
    (d.shelve key file).owner? name
      = if file.declares name then some ((d.owner? name).getD (d.sources.idFor key))
        else if d.owner? name = some (d.sources.idFor key) then
          (d.heir? name (d.sources.idFor key)).map Prod.fst
        else d.owner? name := by
  have hshelve : (d.shelve key file).owner? name
      = ((d.release (d.sources.idFor key) (!(d.file? (d.sources.idFor key)).any (·.keepsName file))).enter
          (d.sources.idFor key) file).owner? name := rfl
  rw [hshelve, owner?_enter, owner?_release h]
  by_cases howner : d.owner? name = some (d.sources.idFor key)
  · obtain ⟨old, hold, hdeclares⟩ := h.owners.declares name _ howner
    rw [if_pos howner, if_pos howner, hold, Option.any_some, howner]
    by_cases hnew : file.declares name = true
    · -- The file keeps the name: it lost it without an heir, and claims it again.
      rw [if_pos hnew, if_pos hnew, SourceFile.keepsName_of_declares hdeclares hnew]
      rfl
    · have hgiven : old.keepsName file = false := by
        rw [Bool.eq_false_iff]
        exact fun hkeeps => hnew (SourceFile.declares_of_keepsName hkeeps hdeclares)
      rw [if_neg hnew, if_neg hnew, hgiven]
      rfl
  · rw [if_neg howner, if_neg howner]

/-- A file that is given a text of the same name has nothing to gain and nothing to
lose: what it declares has an owner already, and what it owns it still declares. -/
theorem unchanged_of_sameName (h : d.AtRest) {id : FileId} {old new : SourceFile}
    (hold : d.file? id = some old) (hsame : old.SameName new) (name : String) :
    (if new.declares name then some ((d.owner? name).getD id)
      else if d.owner? name = some id then (d.heir? name id).map Prod.fst
      else d.owner? name) = d.owner? name := by
  rw [← hsame.declares]
  split
  · next hdeclares =>
    cases howner : d.owner? name with
    -- A name that is declared has an owner, whenever the database is at rest.
    | none => exact absurd ⟨old, hold, hdeclares⟩ (h.owners.complete name howner (fun h => h) id)
    | some owner => rfl
  · next hdeclares =>
    rw [if_neg]
    intro howner
    obtain ⟨file, hfile, hnamed⟩ := h.owners.declares name id howner
    rw [hold] at hfile
    cases hfile
    exact hdeclares hnamed

/-- A file that closes is gone and all others are as before. -/
theorem close_file? (h : d.AtRest) {id : FileId} {d' : Database} (hclose : d.closeFile? id = some d') :
    d'.file? = Function.update d.file? id none := by
  funext other
  rw [file?, (close_settled h hclose).2.2]
  by_cases hother : other = id
  · rw [if_pos hother, hother, Function.update_self, Option.map_none]
  · rw [if_neg hother, Function.update_of_ne hother]
    rfl

/-- **A file closes.** What it owned goes to the heir. -/
theorem owner?_close (h : d.AtRest) {id : FileId} {d' : Database} (hclose : d.closeFile? id = some d')
    (name : String) :
    d'.owner? name
      = if d.owner? name = some id then (d.heir? name id).map Prod.fst else d.owner? name := by
  obtain ⟨key, -, rfl⟩ := Option.map_eq_some_iff.1 hclose
  exact owner?_release h id true name

end Database

/-! ## What a call is about -/

/-- The file that a call is about, and what is read of it afterwards: nothing if it
closes. A call that is refused is about no file. -/
def Operation.effect? (d : Database) : Operation → Option (FileId × Option SourceFile)
  | .open key text => some ((d.openFile key text).1, some (.read d.catalog text))
  | .change id text => (d.key? id).map fun _ => (id, some (.read d.catalog text))
  | .close id => (d.key? id).map fun _ => (id, none)

namespace Database

/-- The call gives an open file a text that declares the name of the text before. -/
def KeepsName (d : Database) (call : Operation) : Prop :=
  ∃ id old new, call.effect? d = some (id, some new) ∧ d.file? id = some old ∧ old.SameName new

/-- The call closes the file, or gives it a text that does not declare the name. -/
def GivesUp (d : Database) (call : Operation) (id : FileId) (name : String) : Prop :=
  ∃ new, call.effect? d = some (id, new) ∧ ∀ file, new = some file → file.declares name = false

variable {d : Database}

/-- A refused call changes nothing. -/
theorem after_of_refused {call : Operation} (h : call.effect? d = none) : d.after call = d := by
  cases call with
  | «open» key text => cases h
  | change id text =>
    rw [Operation.effect?, Option.map_eq_none_iff] at h
    rw [after, changeFile?, h, Option.map_none, Option.getD_none]
  | close id =>
    rw [Operation.effect?, Option.map_eq_none_iff] at h
    rw [after, closeFile?, h, Option.map_none, Option.getD_none]

/-- The number of the key of an open file is the number of the file. -/
theorem idFor_of_key? {id : FileId} {key : SourceKey} (h : d.key? id = some key) :
    d.sources.idFor key = id := by
  rw [Registry.idFor, d.sources.id?_eq_some.2 h, Option.getD_some]

/-- **After a call** only the file that the call is about is another one. What it owned
and does not declare any more goes to the heir; what it declares is its own if nobody
had it. -/
theorem after_eq (h : d.AtRest) {call : Operation} {id : FileId} {new : Option SourceFile}
    (hcall : call.effect? d = some (id, new)) :
    (d.after call).file? = Function.update d.file? id new ∧
      ∀ name, (d.after call).owner? name
        = if new.any (·.declares name) then some ((d.owner? name).getD id)
          else if d.owner? name = some id then (d.heir? name id).map Prod.fst
          else d.owner? name := by
  -- Opening and changing put a file on the shelf, closing takes one off.
  cases call with
  | «open» key text =>
    cases hcall
    exact ⟨shelve_file? d key _, owner?_shelve h key _⟩
  | change id text =>
    obtain ⟨key, hkey, heq⟩ := Option.map_eq_some_iff.1 hcall
    cases heq
    have hid := idFor_of_key? hkey
    rw [after, changeFile?, hkey, Option.map_some, Option.getD_some]
    have hfiles := shelve_file? d key (.read d.catalog text)
    have howners := owner?_shelve h key (.read d.catalog text)
    rw [hid] at hfiles howners
    exact ⟨hfiles, howners⟩
  | close id =>
    obtain ⟨key, hkey, heq⟩ := Option.map_eq_some_iff.1 hcall
    cases heq
    have hclose : ∃ d', d.closeFile? id = some d' := by
      rw [closeFile?, hkey]
      exact ⟨_, rfl⟩
    obtain ⟨d', hclose⟩ := hclose
    rw [after, hclose, Option.getD_some]
    exact ⟨close_file? h hclose, owner?_close h hclose⟩

/-- The files that declare a name after a call that takes it from a file are the other
ones that did so before. -/
theorem declares_after (h : d.AtRest) {call : Operation} {id other : FileId} {name : String}
    (hgives : d.GivesUp call id name) :
    Shelf.Declares (d.after call).file? other name ↔
      other ≠ id ∧ Shelf.Declares d.file? other name := by
  obtain ⟨new, hcall, hnew⟩ := hgives
  rw [(after_eq h hcall).1]
  cases new with
  | none => exact Shelf.declares_remove
  | some file =>
    rw [Shelf.declares_put]
    by_cases hother : other = id
    · simp [hother, hnew file rfl]
    · simp [hother]

/-- **A name that is given up** goes to the first file that declares it. -/
theorem owner?_of_givesUp (h : d.AtRest) {call : Operation} {owner : FileId} {name : String}
    (howner : d.owner? name = some owner) (hgives : d.GivesUp call owner name) (id : FileId) :
    (d.after call).owner? name = some id ↔ (d.after call).IsFirst name id := by
  have hdeclares : ∀ other, Shelf.Declares (d.after call).file? other name ↔
      other ≠ owner ∧ Shelf.Declares d.file? other name := fun _ => declares_after h hgives
  obtain ⟨new, hcall, hnew⟩ := hgives
  have hundeclared : new.any (·.declares name) = false := by
    cases new with
    | none => rfl
    | some file => exact hnew file rfl
  rw [(after_eq h hcall).2, hundeclared, if_neg Bool.false_ne_true, if_pos howner, heir?_iff,
    IsFirst]
  simp only [hdeclares]

/-- **A name stays with its owner** unless the owner gives it up. -/
theorem owner?_of_not_givesUp (h : d.AtRest) {call : Operation} {owner : FileId} {name : String}
    (howner : d.owner? name = some owner) (hkept : ¬ d.GivesUp call owner name) :
    (d.after call).owner? name = some owner := by
  cases hcall : call.effect? d with
  | none => rw [after_of_refused hcall, howner]
  | some effect =>
    obtain ⟨id, new⟩ := effect
    rw [(after_eq h hcall).2, howner]
    split
    · rfl
    · next hundeclared =>
      -- A file that no longer declares the name would have given it up.
      rw [if_neg]
      rintro ⟨⟩
      refine hkept ⟨new, hcall, ?_⟩
      rintro file rfl
      simpa using hundeclared

/-- **A file that keeps its name** leaves every name with its owner. -/
theorem owner?_of_keepsName (h : d.AtRest) {call : Operation} (hkeeps : d.KeepsName call)
    (name : String) : (d.after call).owner? name = d.owner? name := by
  obtain ⟨id, old, new, hcall, hold, hsame⟩ := hkeeps
  rw [(after_eq h hcall).2, Option.any_some]
  exact unchanged_of_sameName h hold hsame name

/-! ## Reports of a taken name -/

/-- The open files that declare a name, in the order of their numbers. -/
def declarers (d : Database) (name : String) : List FileId :=
  d.fileIds.filter fun id => (d.file? id).any (·.declares name)

/-- The reports about a file that its name is taken. -/
def duplicates (d : Database) (id : FileId) : List Diagnostic :=
  (d.diagnostics id).filter (·.code == .duplicateScriptName)

theorem mem_fileIds {id : FileId} : id ∈ d.fileIds ↔ ∃ file, d.file? id = some file := by
  simp only [fileIds, List.mem_map, file?_eq_some]
  constructor
  · rintro ⟨e, he, hid⟩
    exact ⟨e.value, e, he, hid, rfl⟩
  · rintro ⟨-, e, he, hid, -⟩
    exact ⟨e, he, hid⟩

theorem mem_declarers {name : String} {id : FileId} :
    id ∈ d.declarers name ↔ Shelf.Declares d.file? id name := by
  rw [declarers, List.mem_filter, mem_fileIds, Option.any_eq_true]
  exact ⟨fun h => h.2, fun h => ⟨⟨h.choose, h.choose_spec.1⟩, h⟩⟩

theorem nodup_declarers (d : Database) (name : String) : (d.declarers name).Nodup :=
  d.sources.nodup_ids.filter _

/-- A file that declares a name is open under some key, and the name is that of its
script. -/
theorem script_of_declares {name : String} {id : FileId} (h : Shelf.Declares d.file? id name) :
    ∃ file script key, d.file? id = some file ∧ file.script = some script ∧
      d.key? id = some key ∧ foldCase name = foldCase script.name := by
  obtain ⟨file, hfile, hdeclares⟩ := h
  obtain ⟨e, hentry, rfl⟩ := Option.map_eq_some_iff.1 hfile
  obtain ⟨written, hwritten, hsame⟩ := (Option.any_eq_true _ _).1 hdeclares
  obtain ⟨script, hscript, rfl⟩ := Option.map_eq_some_iff.1 hwritten
  exact ⟨e.value, script, e.key, hfile, hscript, by rw [key?, hentry, Option.map_some],
    (sameName_iff _ _).1 hsame⟩

/-- The complaints about a text are no reports of a taken name. -/
theorem duplicates_eq {id : FileId} {file : SourceFile} {script : Script}
    (hfile : d.file? id = some file) (hscript : file.script = some script) :
    d.duplicates id
      = (((d.owner? script.name).filter (· != id)).map (d.duplicateName script)).toList := by
  have hcomplaints : ∀ c : Complaint, ((Diagnostic.ofComplaint c).code == .duplicateScriptName) = false := by
    intro c
    rw [Diagnostic.ofComplaint]
    cases c.severity <;> rfl
  rw [duplicates, diagnostics, hfile]
  simp only [List.filter_append, List.filter_map, hscript, Option.bind_some]
  rw [List.filter_eq_nil_iff.2 (by simp [hcomplaints]), List.map_nil, List.nil_append]
  cases (d.owner? script.name).filter (· != id) with
  | none => rfl
  | some owner => rfl

/-- The owner of a name gets no report. -/
theorem duplicates_owner {name : String} {owner : FileId} (howner : d.owner? name = some owner)
    (hdeclares : Shelf.Declares d.file? owner name) : d.duplicates owner = [] := by
  obtain ⟨file, script, -, hfile, hscript, -, hsame⟩ := script_of_declares hdeclares
  rw [duplicates_eq hfile hscript, ← d.owner?_congr hsame, howner]
  simp

/-- **Any other file that declares the name** gets one report, which stands at its name
and points to the name of the owner. -/
theorem duplicates_other {name : String} {owner id : FileId} (howner : d.owner? name = some owner)
    (hfirst : Shelf.Declares d.file? owner name) (hdeclares : Shelf.Declares d.file? id name)
    (hne : id ≠ owner) :
    ∃ report, d.duplicates id = [report] ∧
      (d.scriptOf? id).map Script.nameSpan = some report.span ∧
      (d.scriptOf? owner).map (fun first => [first.nameSpan])
        = some (report.related.map RelatedPlace.span) := by
  obtain ⟨file, script, -, hfile, hscript, -, hsame⟩ := script_of_declares hdeclares
  obtain ⟨first, firstScript, key, hfirstFile, hfirstScript, hkey, -⟩ := script_of_declares hfirst
  -- The owner of the name is another file, so it is the one that is reported.
  have hother : (some owner).filter (· != id) = some owner := by
    simp [hne.symm]
  refine ⟨d.duplicateName script owner, ?_, ?_, ?_⟩
  · rw [duplicates_eq hfile hscript, ← d.owner?_congr hsame, howner, hother]
    rfl
  · rw [scriptOf?, hfile, Option.bind_some, hscript]
    rfl
  · have hmeans : d.scriptOf? owner = some firstScript := by
      rw [scriptOf?, hfirstFile, Option.bind_some, hfirstScript]
    rw [duplicateName, hmeans, hkey]
    rfl

/-! ## Sessions -/

/-- What holds of the owners of script names at any moment of a session. -/
structure Custody (d : Database) : Prop where
  /-- An edit that keeps the name of the file changes no owner. -/
  kept : ∀ call, d.KeepsName call → ∀ name, (d.after call).owner? name = d.owner? name
  /-- A name stays with its owner unless the owner gives it up. -/
  stays : ∀ call name owner, d.owner? name = some owner → ¬ d.GivesUp call owner name →
    (d.after call).owner? name = some owner
  /-- A name that is given up goes to the first file that declares it, if there is one. -/
  passes : ∀ call name owner, d.owner? name = some owner → d.GivesUp call owner name →
    ∀ id, (d.after call).owner? name = some id ↔ (d.after call).IsFirst name id
  /-- A name that is declared has an owner among the files that declare it. -/
  owned : ∀ name, d.declarers name ≠ [] →
    ∃ owner ∈ d.declarers name, d.owner? name = some owner
  /-- All but the owner have a report, so there is one less than there are files. -/
  reported : ∀ name owner, d.owner? name = some owner →
    (d.declarers name).filter (d.duplicates · ≠ []) = (d.declarers name).erase owner ∧
      ((d.declarers name).filter (d.duplicates · ≠ [])).length + 1 = (d.declarers name).length
  /-- A report is the only one of its file, and it points to the name of the owner. -/
  related : ∀ name owner, d.owner? name = some owner → ∀ id ∈ d.declarers name, id ≠ owner →
    ∃ report, d.duplicates id = [report] ∧
      (d.scriptOf? id).map Script.nameSpan = some report.span ∧
      (d.scriptOf? owner).map (fun first => [first.nameSpan])
        = some (report.related.map RelatedPlace.span)

theorem AtRest.custody (h : d.AtRest) : d.Custody := by
  have hdeclares : ∀ name owner, d.owner? name = some owner → Shelf.Declares d.file? owner name :=
    h.owners.declares
  have hreported : ∀ name owner, d.owner? name = some owner →
      (d.declarers name).filter (d.duplicates · ≠ []) = (d.declarers name).erase owner := by
    intro name owner howner
    rw [(d.nodup_declarers name).erase_eq_filter]
    refine List.filter_congr fun id hid => ?_
    -- All files that declare the name are reported, except for the one that owns it.
    by_cases hne : id = owner
    · subst hne
      simp [duplicates_owner howner (hdeclares name id howner)]
    · obtain ⟨report, hreport, -⟩ :=
        duplicates_other howner (hdeclares name owner howner) (mem_declarers.1 hid) hne
      simp [hreport, hne]
  refine
    { kept := fun call => owner?_of_keepsName h
      stays := fun call name owner => owner?_of_not_givesUp h
      passes := fun call name owner => owner?_of_givesUp h
      owned := fun name hsome => ?_
      reported := fun name owner howner => ⟨hreported name owner howner, ?_⟩
      related := fun name owner howner id hid =>
        duplicates_other howner (hdeclares name owner howner) (mem_declarers.1 hid) }
  · obtain ⟨id, hid⟩ := List.exists_mem_of_ne_nil _ hsome
    cases howner : d.owner? name with
    | none =>
      exact absurd (mem_declarers.1 hid) (h.owners.complete name howner (fun h => h) id)
    | some owner => exact ⟨owner, mem_declarers.2 (hdeclares name owner howner), rfl⟩
  · have hmem : owner ∈ d.declarers name := mem_declarers.2 (hdeclares name owner howner)
    rw [hreported name owner howner, List.length_erase_of_mem hmem]
    exact Nat.sub_add_cancel (List.length_pos_of_mem hmem)

end Database

/-- **Names stay with their owners** at every moment of every session, and exactly the
other files that declare them are told. -/
theorem session_custody (catalog : Catalog) (calls : List Operation) :
    (session catalog calls).1.Custody :=
  Database.AtRest.custody (kept_session catalog calls).settled

end ScriptSense
