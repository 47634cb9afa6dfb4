/-
Which place a path names, and when its key names the same one.

A place is told by the names of the directories around it, from the inside out, and a path
leads from a place to a place: a component `..` leads to the directory around, and at the
root it leads nowhere (`follow`). The key of a path is made of the text alone, before it is
known where the path begins. For a path that begins at the root that does no harm. For any
other one it does none as long as the path never leads above the place where it begins
(`staysBelow`): what is taken back then was entered by the path itself. And that is exactly
as far as it goes (`ofText_keeps_place_iff`). A component `..` that finds nothing to take
back is left out of the key, so `../x` has the key of `x`, and two paths that name different
places share one key.

The written form of a key is the shortest that it can have: read as a path, it is the key
again (`ofText_text`).
-/
import ScriptSense.Workspace.SourceKey

set_option autoImplicit false

namespace ScriptSense.SourcePath

/-! ## Places -/

/-- The text begins at the root. -/
def isAbsolute (text : String) : Bool := text.toList.head? == some '/'

/-- What stands between the separators of a text. -/
def piecesOf (text : String) : List String := (pieces text.toList).map String.ofList

/-- The place to which some pieces lead from a place. The root has no directory around it. -/
def follow (place : List String) : List String → List String
  | [] => place
  | piece :: rest =>
    if piece = "" ∨ piece = "." then follow place rest
    else if piece = ".." then follow place.tail rest
    else follow (piece :: place) rest

/-- **The place that a path names**, seen from a place. -/
def placeFrom (start : List String) (text : String) : List String :=
  follow (if isAbsolute text then [] else start) (piecesOf text)

/-- The pieces never lead above a place, from as many directories below it. -/
def staysBelow : Nat → List String → Bool
  | _, [] => true
  | depth, piece :: rest =>
    if piece = "" ∨ piece = "." then staysBelow depth rest
    else if piece = ".." then 0 < depth && staysBelow (depth - 1) rest
    else staysBelow (depth + 1) rest

/-- The word names a directory or a file in one. -/
structure IsName (name : String) : Prop where
  proper : name ≠ "" ∧ name ≠ "." ∧ name ≠ ".."
  noSeparator : '/' ∉ name.toList

/-! ## The components of a key -/

variable {components ps : List String} {piece : String}

theorem enter_blank (h : piece = "" ∨ piece = ".") : enter components piece = components := if_pos h

theorem enter_back : enter components ".." = components.dropLast := by
  rw [enter, if_neg (by decide), if_pos rfl]

theorem enter_name (h : ¬ (piece = "" ∨ piece = ".")) (hback : piece ≠ "..") :
    enter components piece = components ++ [piece] := by
  rw [enter, if_neg h, if_neg hback]

/-- Entering pieces one after the other is following them, told from the outside in. -/
theorem reverse_foldl_enter : (ps.foldl enter components).reverse = follow components.reverse ps := by
  induction ps generalizing components with
  | nil => rfl
  | cons piece ps ih =>
    rw [List.foldl_cons, ih, follow]
    by_cases hblank : piece = "" ∨ piece = "."
    · rw [if_pos hblank, enter_blank hblank]
    · rw [if_neg hblank]
      by_cases hback : piece = ".."
      · rw [if_pos hback, hback, enter_back, List.tail_reverse]
      · rw [if_neg hback, enter_name hblank hback, List.reverse_append]
        rfl

/-- Pieces that stay below a place lead on from there as they lead on from the root. -/
theorem foldl_enter_of_stays {start : List String} (h : staysBelow components.length ps = true) :
    ps.foldl enter (start ++ components) = start ++ ps.foldl enter components := by
  induction ps generalizing components with
  | nil => rfl
  | cons piece ps ih =>
    rw [List.foldl_cons, List.foldl_cons]
    rw [staysBelow] at h
    by_cases hblank : piece = "" ∨ piece = "."
    · rw [if_pos hblank] at h
      rw [enter_blank hblank, enter_blank hblank, ih h]
    · rw [if_neg hblank] at h
      by_cases hback : piece = ".."
      · rw [if_pos hback] at h
        obtain ⟨hpos, hrest⟩ := (Bool.and_eq_true _ _).mp h
        -- The path stays below its start, so a step back drops one of its own components.
        have hne : components ≠ [] := List.length_pos_iff.1 (of_decide_eq_true hpos)
        rw [hback, enter_back, enter_back, List.dropLast_append_of_ne_nil hne]
        refine ih ?_
        rw [List.length_dropLast]
        exact hrest
      · rw [if_neg hback] at h
        rw [enter_name hblank hback, enter_name hblank hback, List.append_assoc]
        refine ih ?_
        rw [List.length_append]
        exact h

/-- Pieces that lead above a directory forget its name. -/
theorem foldl_enter_of_leaves {directory : String} (h : staysBelow components.length ps = false) :
    ps.foldl enter (directory :: components) = ps.foldl enter components := by
  induction ps generalizing components with
  | nil => cases h
  | cons piece ps ih =>
    rw [List.foldl_cons, List.foldl_cons]
    rw [staysBelow] at h
    by_cases hblank : piece = "" ∨ piece = "."
    · rw [if_pos hblank] at h
      rw [enter_blank hblank, enter_blank hblank, ih h]
    · rw [if_neg hblank] at h
      by_cases hback : piece = ".."
      · rw [if_pos hback] at h
        rw [hback, enter_back, enter_back]
        -- The step back that leaves the start drops the directory, and goes unnoticed without
        -- one.
        by_cases hnil : components = []
        · rw [hnil]
          rfl
        · rw [decide_eq_true (List.length_pos_iff.2 hnil), Bool.true_and] at h
          rw [List.dropLast_cons_of_ne_nil hnil]
          refine ih ?_
          rw [List.length_dropLast]
          exact h
      · rw [if_neg hback] at h
        rw [enter_name hblank hback, enter_name hblank hback, List.cons_append]
        refine ih ?_
        rw [List.length_append]
        exact h

theorem noSeparator_of_mem_pieces {cs piece : List Char} (h : piece ∈ pieces cs) : '/' ∉ piece := by
  induction cs generalizing piece with
  | nil =>
    rw [List.mem_singleton.1 h]
    exact List.not_mem_nil
  | cons c cs ih =>
    rw [pieces] at h
    by_cases hc : c = '/'
    · rw [if_pos hc] at h
      rcases List.mem_cons.1 h with rfl | h
      · exact List.not_mem_nil
      · exact ih h
    · rw [if_neg hc] at h
      -- A character that is no separator joins the piece behind it.
      have hhead : ∀ p : List Char, '/' ∉ p → '/' ∉ c :: p := by
        intro p hp hmem
        rcases List.mem_cons.1 hmem with heq | hmem
        · exact hc heq.symm
        · exact hp hmem
      split at h
      · rw [List.mem_singleton.1 h]
        exact hhead [] List.not_mem_nil
      · next first rest hpieces =>
        rw [hpieces] at ih
        rcases List.mem_cons.1 h with rfl | h
        · exact hhead first (ih List.mem_cons_self)
        · exact ih (List.mem_cons_of_mem _ h)

/-- Only names are entered. -/
theorem isName_of_mem_foldl (hcomponents : ∀ c ∈ components, IsName c)
    (hps : ∀ p ∈ ps, '/' ∉ p.toList) : ∀ c ∈ ps.foldl enter components, IsName c := by
  induction ps generalizing components with
  | nil => exact hcomponents
  | cons piece ps ih =>
    rw [List.foldl_cons]
    refine ih ?_ fun p hp => hps p (List.mem_cons_of_mem _ hp)
    by_cases hblank : piece = "" ∨ piece = "."
    · rw [enter_blank hblank]
      exact hcomponents
    -- A step back only drops a component.
    · by_cases hback : piece = ".."
      · rw [hback, enter_back]
        exact fun c hc => hcomponents c (List.dropLast_subset _ hc)
      · rw [enter_name hblank hback]
        intro c hc
        rcases List.mem_append.1 hc with hc | hc
        · exact hcomponents c hc
        · rw [List.mem_singleton.1 hc]
          exact ⟨⟨fun h => hblank (.inl h), fun h => hblank (.inr h), hback⟩, hps piece List.mem_cons_self⟩

/-- **The components of a key are names.** -/
theorem isName_of_mem_components (text : String) : ∀ c ∈ (ofText text).components, IsName c := by
  refine isName_of_mem_foldl (by simp) fun p hp => ?_
  obtain ⟨piece, hpiece, rfl⟩ := List.mem_map.1 hp
  rw [String.toList_ofList]
  exact noSeparator_of_mem_pieces hpiece

/-- Names are entered as they are. -/
theorem foldl_enter_names (h : ∀ c ∈ ps, IsName c) : ps.foldl enter components = components ++ ps := by
  induction ps generalizing components with
  | nil => exact (List.append_nil _).symm
  | cons name ps ih =>
    obtain ⟨hempty, hdot, hback⟩ := (h name List.mem_cons_self).proper
    rw [List.foldl_cons, enter_name (not_or.2 ⟨hempty, hdot⟩) hback,
      ih fun c hc => h c (List.mem_cons_of_mem _ hc), List.append_assoc]
    rfl

/-! ## The written form -/

theorem pieces_append {front rest : List Char} (h : '/' ∉ front) :
    pieces (front ++ '/' :: rest) = front :: pieces rest := by
  induction front with
  | nil => rw [List.nil_append, pieces, if_pos rfl]
  | cons c front ih =>
    obtain ⟨hc, hfront⟩ := not_or.1 (mt List.mem_cons.2 h)
    rw [List.cons_append, pieces, if_neg (Ne.symm hc), ih hfront]

theorem pieces_of_noSeparator {cs : List Char} (h : '/' ∉ cs) : pieces cs = [cs] := by
  induction cs with
  | nil => rfl
  | cons c cs ih =>
    obtain ⟨hc, hcs⟩ := not_or.1 (mt List.mem_cons.2 h)
    rw [pieces, if_neg (Ne.symm hc), ih hcs]

/-- Words put together with separators come apart again. -/
theorem pieces_intercalate {words : List (List Char)} (hne : words ≠ [])
    (h : ∀ word ∈ words, '/' ∉ word) : pieces (['/'].intercalate words) = words := by
  induction words with
  | nil => exact absurd rfl hne
  | cons word words ih =>
    have hword := h word List.mem_cons_self
    by_cases hlast : words = []
    · rw [hlast, List.intercalate_singleton, pieces_of_noSeparator hword]
    · rw [List.intercalate_cons_of_ne_nil hlast, List.append_assoc, List.singleton_append,
        pieces_append hword, ih hlast fun w hw => h w (List.mem_cons_of_mem _ hw)]

theorem toList_text (absolute : Bool) (components : List String) :
    (text ⟨absolute, components⟩).toList
      = (if absolute then ['/'] else []) ++ ['/'].intercalate (components.map String.toList) := by
  cases absolute <;> simp [text]

/-- Names can be written one after the other, and read again. -/
theorem piecesOf_text {absolute : Bool} (hne : components ≠ []) (h : ∀ c ∈ components, IsName c) :
    piecesOf (text ⟨absolute, components⟩) = (if absolute then [""] else []) ++ components := by
  -- Names contain no separator, so joining and cutting them gives the names back.
  have hwords : pieces (['/'].intercalate (components.map String.toList)) = components.map String.toList := by
    refine pieces_intercalate (mt List.map_eq_nil_iff.1 hne) fun word hword => ?_
    obtain ⟨c, hc, rfl⟩ := List.mem_map.1 hword
    exact (h c hc).noSeparator
  have hback : (components.map String.toList).map String.ofList = components := by
    simp [Function.comp_def]
  rw [piecesOf, toList_text]
  cases absolute with
  | false => exact (congrArg (List.map String.ofList) hwords).trans hback
  | true =>
    rw [if_pos rfl, if_pos rfl, List.singleton_append, pieces, if_pos rfl, hwords, List.map_cons, hback]
    rfl

/-- Entering what the written form of names holds is entering the names. -/
theorem foldl_enter_piecesOf_text {absolute : Bool} {names : List String} (h : ∀ c ∈ names, IsName c) :
    (piecesOf (text ⟨absolute, names⟩)).foldl enter components = components ++ names := by
  by_cases hnil : names = []
  · subst hnil
    rw [List.append_nil]
    cases absolute <;> rfl
  · rw [piecesOf_text hnil h, List.foldl_append, foldl_enter_names h]
    cases absolute <;> rfl

theorem isAbsolute_text {absolute : Bool} (h : ∀ c ∈ components, IsName c) :
    isAbsolute (text ⟨absolute, components⟩) = absolute := by
  rw [isAbsolute, toList_text]
  cases absolute with
  | true => rfl
  | false =>
    cases components with
    | nil => rfl
    | cons name rest =>
      -- The first character is one of a name, so it is no separator.
      have hname := h name List.mem_cons_self
      obtain ⟨c, cs, hcs⟩ := List.exists_cons_of_ne_nil (mt String.toList_eq_nil_iff.1 hname.proper.1)
      have hc : c ≠ '/' := by
        rintro rfl
        exact hname.noSeparator (hcs ▸ List.mem_cons_self)
      rw [List.map_cons, hcs, List.intercalate_cons_cons_left]
      simpa using hc

/-- **The written form of a key has the key.** -/
theorem ofText_text (written : String) : ofText (ofText written).text = ofText written := by
  have hnames := isName_of_mem_components written
  have habsolute : isAbsolute (ofText written).text = (ofText written).absolute := isAbsolute_text hnames
  have hcomponents : (piecesOf (ofText written).text).foldl enter [] = (ofText written).components :=
    foldl_enter_piecesOf_text hnames
  show SourcePath.mk (isAbsolute (ofText written).text) ((piecesOf (ofText written).text).foldl enter []) = _
  rw [habsolute, hcomponents]

/-! ## The place of a key -/

theorem placeFrom_eq (start : List String) (written : String) :
    placeFrom start written
      = ((piecesOf written).foldl enter (if isAbsolute written then [] else start.reverse)).reverse := by
  rw [placeFrom, reverse_foldl_enter]
  cases isAbsolute written
  · exact congrArg (follow · _) (List.reverse_reverse start).symm
  · rfl

/-- The key names what its components name from where the path begins. -/
theorem placeFrom_key (start : List String) (written : String) :
    placeFrom start (ofText written).text
      = ((if isAbsolute written then [] else start.reverse) ++ (ofText written).components).reverse := by
  have hnames := isName_of_mem_components written
  have habsolute : isAbsolute (ofText written).text = isAbsolute written := isAbsolute_text hnames
  rw [placeFrom_eq, habsolute]
  exact congrArg List.reverse (foldl_enter_piecesOf_text hnames)

/-- **The key of a path names the same place as the path, wherever it begins, exactly if the
path begins at the root or never leads above where it begins.** -/
theorem ofText_keeps_place_iff (written : String) :
    (∀ start, placeFrom start (ofText written).text = placeFrom start written)
      ↔ isAbsolute written = true ∨ staysBelow 0 (piecesOf written) = true := by
  constructor
  · intro hkept
    refine Classical.byContradiction fun hnot => ?_
    obtain ⟨habsolute, hleaves⟩ := not_or.1 hnot
    rw [Bool.not_eq_true] at habsolute hleaves
    -- From a directory right below the root the path leads out of it, and the key does not.
    have hsame := hkept ["directory"]
    have hforgets : (piecesOf written).foldl enter ["directory"] = (ofText written).components :=
      foldl_enter_of_leaves hleaves
    rw [placeFrom_key, placeFrom_eq, habsolute] at hsame
    have hlength := congrArg List.length (hsame.trans (congrArg List.reverse hforgets))
    simp at hlength
  · intro h start
    rw [placeFrom_key, placeFrom_eq]
    by_cases habsolute : isAbsolute written = true
    · rw [if_pos habsolute]
      rfl
    · have hstays := h.resolve_left habsolute
      rw [if_neg habsolute]
      have hlead : (piecesOf written).foldl enter (start.reverse ++ [])
          = start.reverse ++ (piecesOf written).foldl enter [] := foldl_enter_of_stays hstays
      rw [List.append_nil] at hlead
      exact congrArg List.reverse hlead.symm

/-- A path that leads above where it begins has the key of one that does not. -/
example : ofText "../x" = ofText "x" ∧ placeFrom ["b", "a"] "../x" = ["x", "a"]
    ∧ placeFrom ["b", "a"] "x" = ["x", "b", "a"] := by decide

/-- **Paths with one key name one place**, if none of them leads above where it begins. -/
theorem placeFrom_congr {a b : String} (hkey : SourceKey.ofPath a = SourceKey.ofPath b)
    (ha : isAbsolute a = true ∨ staysBelow 0 (piecesOf a) = true)
    (hb : isAbsolute b = true ∨ staysBelow 0 (piecesOf b) = true) (start : List String) :
    placeFrom start a = placeFrom start b := by
  have hsame : ofText a = ofText b := SourceKey.path.inj hkey
  rw [← (ofText_keeps_place_iff a).2 ha, ← (ofText_keeps_place_iff b).2 hb, hsame]

end ScriptSense.SourcePath
