/-
Global names are listed under the names they show.

An entry is found by the folded name and carries a name of its own, which is the one
that some file or the catalog writes. The two agree up to case, and no write breaks
that: a write enters an entry under the entry's own name, or changes one that is there
and leaves its name alone. A search for an entry's name therefore finds what was found
under the name that it was asked for.
-/
import ScriptSense.Proofs.Workspace.Coherence

set_option autoImplicit false

namespace ScriptSense

namespace GlobalEntry

/-- What is left of an entry keeps the name. -/
theorem name_of_retract {e e' : GlobalEntry} {id : FileId} (h : e.retract id = some e') :
    e'.name = e.name := by
  rw [retract] at h
  split at h
  · rw [← Option.some.inj h]
  · rw [← Option.some.inj h]
  · rw [eq_of_whileUsed h]
  · split at h
    · rw [eq_of_whileUsed h]
      rfl
    · rw [← Option.some.inj h]

end GlobalEntry

/-! ## The table -/

namespace Globals

/-- **Every entry is found under its own name**, up to case. -/
def Named (g : Globals) : Prop := ∀ name e, g.find? name = some e → sameName name e.name = true

variable {g : Globals}

theorem named_ofCatalog (c : Catalog) : (ofCatalog c).Named := by
  intro name e he
  rcases find?_entered FunctionEntry.name GlobalEntry.ofFunction name c.functions.values
      (c.forms.values.foldl (fun m f => m.insert f.name (.ofForm f)) .empty) with
    ⟨f, -, hsame, hfound⟩ | ⟨-, hfound⟩
  · rw [← Option.some.inj (hfound.symm.trans he)]
    exact hsame
  · rcases find?_entered FormEntry.name GlobalEntry.ofForm name c.forms.values .empty with
      ⟨f, -, hsame, hform⟩ | ⟨-, hform⟩
    · rw [← Option.some.inj ((hfound.trans hform).symm.trans he)]
      exact hsame
    · cases (hfound.trans hform).symm.trans he

/-- Writing an entry under its own name keeps the table named. -/
theorem Named.insert (h : g.Named) {name : String} {e : GlobalEntry} (hname : sameName name e.name = true) :
    Named ⟨g.table.insert name e⟩ := by
  intro other e' he'
  have hentry := (NameMap.find?_insert g.table name other e).symm.trans he'
  split at hentry
  · next hsame =>
    rw [← Option.some.inj hentry, sameName_iff, hsame, (sameName_iff _ _).1 hname]
  · exact h other e' hentry

theorem Named.define (h : g.Named) (name : String) (id : FileId) : (g.define name id).Named := by
  have hself : sameName name name = true := (sameName_iff _ _).2 rfl
  rw [Globals.define]
  split
  · exact h.insert hself
  · next e he =>
    refine h.insert ?_
    rw [GlobalEntry.claim]
    split
    · exact hself
    · exact h name e he

theorem Named.reference (h : g.Named) (name : String) (id : FileId) : (g.reference name id).Named := by
  rw [Globals.reference]
  refine h.insert ?_
  cases he : g.find? name with
  | none => exact (sameName_iff _ _).2 rfl
  | some e => exact h name e he

theorem Named.references (h : g.Named) (id : FileId) (names : List String) :
    (names.foldl (fun g name => g.reference name id) g).Named := by
  induction names generalizing g with
  | nil => exact h
  | cons name names ih => exact ih (h.reference name id)

theorem Named.retract (h : g.Named) (id : FileId) : (g.retract id).Named := by
  intro name e' he'
  rw [find?_retract] at he'
  obtain ⟨e, he, hretract⟩ := Option.bind_eq_some_iff.1 he'
  rw [GlobalEntry.name_of_retract hretract]
  exact h name e he

end Globals

/-! ## Sessions -/

namespace Database

variable {d : Database}

theorem named_claim (h : d.globals.Named) (name : String) (id : FileId) :
    (d.claim name id).globals.Named := by
  rw [claim]
  dsimp only
  split
  · exact h.define name id
  · exact h

theorem named_release (h : d.globals.Named) (id : FileId) (handOver : Bool) :
    (d.release id handOver).globals.Named := by
  have hwithout := h.retract id
  rw [release]
  split
  · exact hwithout
  · split
    · rw [disown]
      split
      · exact hwithout
      · exact named_claim hwithout _ _
    · exact hwithout

theorem named_enter (h : d.globals.Named) (id : FileId) (file : SourceFile) :
    (d.enter id file).globals.Named := by
  refine Globals.Named.references ?_ id file.external
  split
  · exact h
  · exact named_claim h _ _

theorem named_shelve (h : d.globals.Named) (key : SourceKey) (file : SourceFile) :
    (d.shelve key file).globals.Named := by
  rw [shelve]
  exact named_enter (named_release h _ _) _ _

/-- **One call** keeps the table named. -/
theorem named_after (h : d.globals.Named) (call : Operation) : (d.after call).globals.Named := by
  cases call with
  | «open» key text => exact named_shelve h key _
  | change id text =>
    rw [after]
    cases hchange : d.changeFile? id text with
    | none => exact h
    | some d' =>
      obtain ⟨key, -, rfl⟩ := Option.map_eq_some_iff.1 hchange
      exact named_shelve h key _
  | close id =>
    rw [after]
    cases hclose : d.closeFile? id with
    | none => exact h
    | some d' =>
      obtain ⟨key, -, rfl⟩ := Option.map_eq_some_iff.1 hclose
      exact named_release h id true

end Database

/-- **In every session the global names are listed under the names they show.** -/
theorem named_session (catalog : Catalog) (calls : List Operation) :
    (session catalog calls).1.globals.Named := by
  suffices h : ∀ s : Database × Desk, s.1.globals.Named →
      (calls.foldl (fun s call => (s.1.after call, s.2.after s.1 call)) s).1.globals.Named from
    h _ (Globals.named_ofCatalog catalog)
  induction calls with
  | nil => exact fun _ h => h
  | cons call calls ih => exact fun s h => ih _ (Database.named_after h call)

end ScriptSense
