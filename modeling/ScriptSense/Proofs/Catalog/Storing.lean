/-
Storing a catalog loses nothing.

Every catalog that is read, and every one that is extended, lists its entries under
their own folded names, and these names are as they are stored: without blank space
around them, and not empty. Such a catalog is `Tidy`. What its texts hold is read
back entry by entry, no name is changed on the way in, and since no two entries fold
to one name each is entered behind those before it. So the tables come back with
their order.
-/
import Mathlib.Data.List.DropRight
import Mathlib.Data.List.Nodup
import ScriptSense.Catalog.Stored
import ScriptSense.Proofs.Json.RoundTrip

set_option autoImplicit false

namespace ScriptSense

/-! ## Names as they are stored -/

/-- A trimmed name has no blank space to trim. -/
theorem trimBlank_trimBlank (text : String) : trimBlank (trimBlank text) = trimBlank text := by
  have hfront : (trimBlank text).toList = (text.toList.dropWhile isBlank).rdropWhile isBlank := by
    rw [trimBlank, String.toList_ofList, List.rdropWhile]
  -- What is left begins as the text did without the blank space in front.
  have hkept : (trimBlank text).toList.dropWhile isBlank = (trimBlank text).toList := by
    rw [hfront, List.dropWhile_eq_self_iff]
    intro hpos
    obtain ⟨after, hafter⟩ := List.rdropWhile_prefix isBlank (text.toList.dropWhile isBlank)
    have hwhole : 0 < (text.toList.dropWhile isBlank).length := by
      rw [← hafter, List.length_append]
      omega
    have hhead := List.dropWhile_eq_self_iff.1
      (List.dropWhile_idempotent (p := isBlank) (l := text.toList)) hwhole
    have hsame : (text.toList.dropWhile isBlank)[0]
        = ((text.toList.dropWhile isBlank).rdropWhile isBlank)[0] := by
      rw [List.getElem_of_eq hafter.symm hwhole]
      exact List.getElem_append_left hpos
    rwa [hsame] at hhead
  have htrim : trimBlank (trimBlank text)
      = String.ofList (((trimBlank text).toList.dropWhile isBlank).rdropWhile isBlank) := rfl
  rw [htrim, hkept, hfront, List.rdropWhile_idempotent, ← hfront, String.ofList_toList]

namespace Catalog

/-- The name is stored as it is. -/
def IsStored (name : String) : Prop := checkName name = .ok name

theorem isStored_of_checkName {written name : String} (h : checkName written = .ok name) :
    IsStored name := by
  simp only [checkName] at h
  split at h
  · cases h
  · next hsome =>
    obtain rfl : trimBlank written = name := Except.ok.inj h
    rw [IsStored, checkName, trimBlank_trimBlank]
    exact if_neg hsome

end Catalog

/-! ## Tables that are entered anew -/

namespace Entries

variable {α : Type}

theorem put_of_not_mem {key : String} {entries : List (String × α)} (h : key ∉ keys entries)
    (value : α) : put key value entries = entries ++ [(key, value)] := by
  induction entries with
  | nil => rfl
  | cons entry entries ih =>
    obtain ⟨k, w⟩ := entry
    simp only [keys, List.map_cons, List.mem_cons, not_or] at h
    rw [put, if_neg (Ne.symm h.1), ih h.2, List.cons_append]

/-- Values under keys of their own are entered one behind the other. -/
theorem foldl_put (key : α → String) (values : List α) (entries : List (String × α))
    (h : (keys entries ++ values.map key).Nodup) :
    values.foldl (fun known v => put (key v) v known) entries
      = entries ++ values.map fun v => (key v, v) := by
  induction values generalizing entries with
  | nil => simp
  | cons v values ih =>
    have hnew : key v ∉ keys entries := fun hmem =>
      (List.nodup_append.1 h).2.2 (key v) hmem (key v) (by simp) rfl
    have hnext : (keys (entries ++ [(key v, v)]) ++ values.map key).Nodup := by
      simpa [keys] using h
    rw [List.foldl_cons, put_of_not_mem hnew, ih _ hnext]
    simp

end Entries

namespace NameMap

variable {α : Type}

theorem eq_of_entries {m m' : NameMap α} (h : m.entries = m'.entries) : m = m' := by
  cases m
  cases m'
  simpa using h

/-- Every entry is under the name that its value has, as it is stored. -/
def Tidy (name : α → String) (m : NameMap α) : Prop :=
  ∀ entry ∈ m.entries, entry.1 = foldCase (name entry.2) ∧ Catalog.IsStored (name entry.2)

variable {name : α → String} {m : NameMap α}

theorem Tidy.empty : Tidy name (.empty : NameMap α) := fun _ h => absurd h List.not_mem_nil

theorem Tidy.insert (h : Tidy name m) {value : α} (hvalue : Catalog.IsStored (name value)) :
    Tidy name (m.insert (name value) value) := fun entry hentry => by
  rcases Entries.mem_of_mem_put hentry with rfl | hentry
  · exact ⟨rfl, hvalue⟩
  · exact h entry hentry

theorem Tidy.isStored (h : Tidy name m) {value : α} (hvalue : value ∈ m.values) :
    Catalog.IsStored (name value) := by
  obtain ⟨entry, hentry, rfl⟩ := List.mem_map.1 hvalue
  exact (h entry hentry).2

theorem Tidy.entries_eq (h : Tidy name m) :
    m.values.map (fun v => (foldCase (name v), v)) = m.entries := by
  rw [values, List.map_map]
  refine (List.map_congr_left fun entry hentry => ?_).trans (List.map_id _)
  exact Prod.ext (h entry hentry).1.symm rfl

theorem Tidy.map_foldCase (h : Tidy name m) :
    m.values.map (fun v => foldCase (name v)) = m.keys := by
  rw [keys, Entries.keys, ← h.entries_eq, List.map_map]
  rfl

/-- The names are as different as the keys. -/
theorem Tidy.nodup_names (h : Tidy name m) : (m.values.map name).Nodup := by
  have hkeys : ((m.values.map name).map foldCase).Nodup := by
    rw [List.map_map]
    exact h.map_foldCase ▸ m.nodup
  exact List.Nodup.of_map foldCase hkeys

/-- **A tidy table is what entering its values makes of no table.** -/
theorem Tidy.foldl_insert (h : Tidy name m) :
    m.values.foldl (fun known v => known.insert (name v) v) .empty = m := by
  have hentries (values : List α) (known : NameMap α) :
      (values.foldl (fun known v => known.insert (name v) v) known).entries
        = values.foldl (fun known v => Entries.put (foldCase (name v)) v known) known.entries := by
    induction values generalizing known with
    | nil => rfl
    | cons v values ih => exact ih _
  have hnodup : (m.values.map fun v => foldCase (name v)).Nodup := h.map_foldCase ▸ m.nodup
  refine eq_of_entries ((hentries m.values .empty).trans ?_)
  exact (Entries.foldl_put _ _ [] hnodup).trans h.entries_eq

end NameMap

/-! ## Records -/

theorem FunctionEntry.ofJson?_toJson (f : FunctionEntry) : ofJson? f.toJson = some f := by
  obtain ⟨name, kind, returnType, origin⟩ := f
  cases kind <;> cases returnType <;> rfl

theorem FormEntry.ofJson?_toJson (f : FormEntry) : ofJson? f.name f.toJson = some f := by
  obtain ⟨name, ty, origin⟩ := f
  cases ty <;> rfl

namespace Catalog

/-! ## What the texts of a catalog hold -/

theorem isPlain_toJson (f : FunctionEntry) : f.toJson.IsPlain :=
  Json.isPlain_object (by simp [Json.isPlain_string])

theorem isPlain_toJson_form (f : FormEntry) : f.toJson.IsPlain :=
  Json.isPlain_object (by simp [Json.isPlain_string])

/-- The functions are read back from their text. -/
theorem functionsOf?_functionsText (c : Catalog) :
    functionsOf? c.functionsText = some c.functions.values := by
  have hplain : (Json.array (c.functions.values.map FunctionEntry.toJson)).IsPlain :=
    Json.isPlain_array fun item hitem => by
      obtain ⟨f, -, rfl⟩ := List.mem_map.1 hitem
      exact isPlain_toJson f
  rw [functionsOf?, functionsText, Json.parse?_spread hplain]
  exact Json.mapM_map_of_inverse FunctionEntry.ofJson?_toJson _

/-- The forms are read back from their text, if no two of them have one name. -/
theorem formsOf?_formsText {c : Catalog} (h : (c.forms.values.map FormEntry.name).Nodup) :
    formsOf? c.formsText = some c.forms.values := by
  have hplain : (Json.object (c.forms.values.map fun f => (f.name, f.toJson))).IsPlain :=
    Json.isPlain_object fun member hmember => by
      obtain ⟨f, -, rfl⟩ := List.mem_map.1 hmember
      exact isPlain_toJson_form f
  -- The names are distinct, so that entering the forms one by one keeps their order.
  have hkept : (c.forms.values.foldl (fun known f => Entries.put f.name f known) []).map Prod.snd
      = c.forms.values := by
    rw [Entries.foldl_put FormEntry.name c.forms.values [] (by simpa [Entries.keys] using h),
      List.nil_append, List.map_map]
    exact List.map_id _
  rw [formsOf?, formsText, Json.parse?_spread hplain]
  simp only [Json.members?, Option.pure_def, Option.bind_eq_bind, Option.bind_some]
  rw [Json.mapM_map_of_inverse]
  · rw [Option.bind_some, hkept]
  · exact FormEntry.ofJson?_toJson

/-! ## Tidy catalogs -/

/-- Both tables are tidy. -/
structure Tidy (c : Catalog) : Prop where
  functions : c.functions.Tidy FunctionEntry.name
  forms : c.forms.Tidy FormEntry.name

theorem Tidy.empty : Tidy .empty := ⟨.empty, .empty⟩

/-- Entries whose names are checked on the way in keep what each of them keeps. -/
theorem foldlM_checked {α : Type} {P : Catalog → Prop} (name : α → String)
    (rename : α → String → α) (add : Catalog → α → Catalog)
    (hadd : ∀ c a stored, IsStored stored → P c → P (add c (rename a stored)))
    (values : List α) {c c' : Catalog} (hc : P c)
    (h : values.foldlM (fun c a => do return add c (rename a (← checkName (name a)))) c
      = .ok c') : P c' := by
  induction values generalizing c with
  | nil => exact Except.ok.inj h ▸ hc
  | cons a values ih =>
    rw [List.foldlM_cons] at h
    cases hname : checkName (name a) with
    | error e =>
      rw [hname] at h
      cases h
    -- The name has passed the check, so it is one that can be stored.
    | ok stored =>
      rw [hname] at h
      exact ih (hadd c a stored (isStored_of_checkName hname) hc) h

theorem Tidy.withFunctions {c c' : Catalog} (hc : c.Tidy) {text : String}
    (h : c.withFunctions text = .ok c') : c'.Tidy := by
  unfold Catalog.withFunctions at h
  split at h
  · cases h
  · next functions _ =>
    refine foldlM_checked FunctionEntry.name (fun f stored => { f with name := stored }) addFunction
      (fun c f stored hstored hc => ?_) functions hc h
    have hvalue : IsStored ({ f with name := stored } : FunctionEntry).name := hstored
    exact ⟨hc.functions.insert hvalue, hc.forms⟩

theorem Tidy.withForms {c c' : Catalog} (hc : c.Tidy) {text : String}
    (h : c.withForms text = .ok c') : c'.Tidy := by
  unfold Catalog.withForms at h
  split at h
  · cases h
  · next forms _ =>
    refine foldlM_checked FormEntry.name (fun f stored => { f with name := stored }) addForm
      (fun c f stored hstored hc => ?_) forms hc h
    have hvalue : IsStored ({ f with name := stored } : FormEntry).name := hstored
    exact ⟨hc.functions, hc.forms.insert hvalue⟩

theorem Tidy.load {functions forms : String} {c : Catalog} (h : Catalog.load functions forms = .ok c) :
    c.Tidy := by
  unfold Catalog.load at h
  cases hfunctions : Catalog.empty.withFunctions functions with
  | error e =>
    rw [hfunctions] at h
    cases h
  | ok c' =>
    rw [hfunctions] at h
    exact (Tidy.empty.withFunctions hfunctions).withForms h

/-! ## Reading back -/

/-- Entries with the names that they have as they are stored are entered as they are. -/
theorem foldlM_stored {α : Type} (name : α → String) (rename : α → String → α)
    (add : Catalog → α → Catalog) (hrename : ∀ a, rename a (name a) = a) {values : List α}
    (h : ∀ a ∈ values, IsStored (name a)) (c : Catalog) :
    values.foldlM (fun c a => do return add c (rename a (← checkName (name a)))) c
      = .ok (values.foldl add c) := by
  induction values generalizing c with
  | nil => rfl
  | cons a values ih =>
    have hname : checkName (name a) = .ok (name a) := h a List.mem_cons_self
    rw [List.foldlM_cons, hname]
    have hrest := ih (fun b hb => h b (List.mem_cons_of_mem a hb)) (add c a)
    rw [List.foldl_cons, ← hrest]
    conv_rhs => rw [← hrename a]
    rfl

/-- **A tidy catalog comes back from its texts.** -/
theorem Tidy.load_texts {c : Catalog} (h : c.Tidy) :
    Catalog.load c.functionsText c.formsText = .ok c := by
  -- The functions are read into the empty catalog first, and the forms are read on top of them.
  have hfunctions : Catalog.empty.withFunctions c.functionsText = .ok ⟨c.functions, .empty⟩ := by
    have hfold (values : List FunctionEntry) (known : NameMap FunctionEntry) :
        values.foldl addFunction ⟨known, .empty⟩
          = ⟨values.foldl (fun known f => known.insert f.name f) known, .empty⟩ := by
      induction values generalizing known with
      | nil => rfl
      | cons f values ih => exact ih _
    rw [Catalog.withFunctions, functionsOf?_functionsText]
    refine (foldlM_stored FunctionEntry.name (fun f stored => { f with name := stored }) addFunction
      (fun _ => rfl) (fun f hf => h.functions.isStored hf) _).trans ?_
    rw [Catalog.empty, hfold, h.functions.foldl_insert]
  have hforms : Catalog.withForms ⟨c.functions, .empty⟩ c.formsText = .ok c := by
    have hfold (values : List FormEntry) (known : NameMap FormEntry) :
        values.foldl addForm ⟨c.functions, known⟩
          = ⟨c.functions, values.foldl (fun known f => known.insert f.name f) known⟩ := by
      induction values generalizing known with
      | nil => rfl
      | cons f values ih => exact ih _
    rw [Catalog.withForms, formsOf?_formsText h.forms.nodup_names]
    refine (foldlM_stored FormEntry.name (fun f stored => { f with name := stored }) addForm
      (fun _ => rfl) (fun f hf => h.forms.isStored hf) _).trans ?_
    rw [hfold, h.forms.foldl_insert]
  rw [Catalog.load, hfunctions]
  exact hforms

/-- A catalog that some calls make: two texts are loaded, and texts of functions are
added. -/
inductive Made : Catalog → Prop
  | load {functions forms : String} {c : Catalog} (loaded : Catalog.load functions forms = .ok c) :
      Made c
  | withFunctions {c c' : Catalog} {text : String} (made : Made c)
      (extended : c.withFunctions text = .ok c') : Made c'

theorem Made.tidy {c : Catalog} (h : Made c) : c.Tidy := by
  induction h with
  | load loaded => exact .load loaded
  | withFunctions _ extended ih => exact ih.withFunctions extended

/-- **Storing a catalog loses nothing.** -/
theorem stored_catalog_reloads {c : Catalog} (h : Made c) :
    Catalog.load c.functionsText c.formsText = .ok c :=
  h.tidy.load_texts

theorem stored_catalog_reloads_at_spaced_name : ∃ c c',
    Catalog.load "[[\" Say \",\"command\"]]" "\x7b\"Sun\":[]\x7d" = .ok c
      ∧ c.withFunctions "[[\"SAY\"],[\"a\\nb\"]]" = .ok c'
      ∧ c'.functions.values.map FunctionEntry.name = ["SAY", "a\nb"]
      ∧ Catalog.load c'.functionsText c'.formsText = .ok c' := by
  -- Both readings are evaluated, and what they give is taken out again.
  have hmade : ((Catalog.load "[[\" Say \",\"command\"]]" "\x7b\"Sun\":[]\x7d").toOption.bind
      fun c => (c.withFunctions "[[\"SAY\"],[\"a\\nb\"]]").toOption).any
        (fun c' => c'.functions.values.map FunctionEntry.name == ["SAY", "a\nb"]) = true := by
    decide +kernel
  obtain ⟨c', hmade, hnames⟩ := (Option.any_eq_true _ _).1 hmade
  obtain ⟨c, hloaded, hextended⟩ := Option.bind_eq_some_iff.1 hmade
  have of_toOption {e : Except CatalogError Catalog} {c : Catalog} (h : e.toOption = some c) :
      e = .ok c := by
    cases e with
    | error _ => cases h
    | ok _ => exact congrArg Except.ok (Option.some.inj h)
  have hloaded := of_toOption hloaded
  have hextended := of_toOption hextended
  exact ⟨c, c', hloaded, hextended, eq_of_beq hnames,
    stored_catalog_reloads (.withFunctions (.load hloaded) hextended)⟩

end Catalog

end ScriptSense
