/-
The numbers of files, and sets of them.

Files are numbered as they are opened, and a number is never given twice. A set
of files is kept as an ascending list, so that equal sets are equal values and
can be shown as they are.
-/

set_option autoImplicit false

namespace ScriptSense

/-- The number of a file. -/
structure FileId where
  /-- Files are counted from zero. -/
  index : Nat
deriving DecidableEq, Repr, Inhabited

/-- The written form. -/
def FileId.text (file : FileId) : String := "file#" ++ toString file.index

/-- A set of files. -/
structure FileSet where
  /-- The files in ascending order. -/
  ids : List FileId
  /-- No file is listed twice, and none before a smaller one. -/
  ascending : ids.Pairwise fun a b => a.index < b.index

namespace FileSet

instance : DecidableEq FileSet := fun a b =>
  decidable_of_iff (a.ids = b.ids) (by cases a; cases b; simp)

/-- The set without files. -/
def empty : FileSet := ⟨[], .nil⟩

/-- No file is in the set. -/
def isEmpty (s : FileSet) : Bool := s.ids.isEmpty

/-- The file is in the set. -/
def contains (s : FileSet) (file : FileId) : Bool := s.ids.contains file

/-- Puts a file into an ascending list. -/
def place (file : FileId) : List FileId → List FileId
  | [] => [file]
  | f :: fs =>
    if file.index < f.index then file :: f :: fs
    else if file.index = f.index then f :: fs
    else f :: place file fs

theorem mem_place {file f : FileId} {fs : List FileId} :
    f ∈ place file fs ↔ f = file ∨ f ∈ fs := by
  induction fs with
  | nil => simp [place]
  | cons g gs ih =>
    simp only [place]
    split
    · simp
    · split
      · next h =>
        have : file = g := by cases file; cases g; simpa using h
        subst this
        simp
      · simp only [List.mem_cons, ih]
        constructor
        · rintro (h | h | h)
          · exact .inr (.inl h)
          · exact .inl h
          · exact .inr (.inr h)
        · rintro (h | h | h)
          · exact .inr (.inl h)
          · exact .inl h
          · exact .inr (.inr h)

theorem ascending_place (file : FileId) {fs : List FileId}
    (h : fs.Pairwise fun a b => a.index < b.index) :
    (place file fs).Pairwise fun a b => a.index < b.index := by
  induction fs with
  | nil => simp [place]
  | cons g gs ih =>
    have hg := List.pairwise_cons.1 h
    simp only [place]
    split
    · next hlt =>
      refine List.pairwise_cons.2 ⟨fun f hf => ?_, h⟩
      rcases List.mem_cons.1 hf with rfl | hf
      · exact hlt
      · exact Nat.lt_trans hlt (hg.1 f hf)
    · split
      · exact h
      · refine List.pairwise_cons.2 ⟨fun f hf => ?_, ih hg.2⟩
        rcases mem_place.1 hf with rfl | hf
        · omega
        · exact hg.1 f hf

/-- The set with a file. -/
def insert (s : FileSet) (file : FileId) : FileSet :=
  ⟨place file s.ids, ascending_place file s.ascending⟩

/-- The set without a file. -/
def erase (s : FileSet) (file : FileId) : FileSet :=
  ⟨s.ids.filter (· != file), s.ascending.filter _⟩

theorem contains_insert (s : FileSet) (file f : FileId) :
    (s.insert file).contains f = (f == file || s.contains f) := by
  rw [Bool.eq_iff_iff]
  simp [contains, insert, mem_place]

theorem contains_erase (s : FileSet) (file f : FileId) :
    (s.erase file).contains f = (f != file && s.contains f) := by
  rw [Bool.eq_iff_iff]
  simp [contains, erase, and_comm]

/-- The set that contains no file is empty. -/
theorem eq_empty {s : FileSet} (h : ∀ file, s.contains file = false) : s = empty := by
  obtain ⟨ids, ascending⟩ := s
  cases ids with
  | nil => rfl
  | cons file files =>
    have hfile := h file
    simp [contains] at hfile

end FileSet

end ScriptSense
