/-
Names looked up in scopes that were opened and filled in any order.

A history is a list of changes: a scope is opened inside another, or a symbol is
declared in one. It says by itself what is to be seen from a scope: which scopes are
around it (`Outward`), and which symbol is the first and the last that a scope declares
under a name (`IsFirst`, `IsLast`), whatever else happens in between. The tree keeps less
than that, and three walks look things up in it. That all of them answer from the history
(`Answers`) is shown of the tree after any history in which no change names a scope that
is not there (`Sound`).

The invariant of the run is `Follows`. It says of the table of a scope both what it knows
under a name and in which order its names stand, and the list of visible symbols needs
both: a name that is declared again keeps its place and takes the later symbol.
-/
import Mathlib.Data.List.Nodup
import Mathlib.Data.List.Pairwise
import Mathlib.Data.Nat.Find
import ScriptSense.Proofs.Script.Scopes

set_option autoImplicit false

namespace ScriptSense

/-! ## Histories -/

/-- A change to the scopes of a script. -/
inductive ScopeChange where
  /-- A scope is opened inside another. -/
  | opens (parent : ScopeId) (kind : ScopeKind) (node : NodeKey)
  /-- A symbol is declared in a scope. -/
  | declares (scope : ScopeId) (symbol : Symbol)

namespace ScopeChange

/-- The scope that a change names. -/
def scope : ScopeChange → ScopeId
  | opens parent _ _ => parent
  | declares scope _ => scope

/-- The scope around the one that is opened. -/
def opening? : ScopeChange → Option ScopeId
  | opens parent _ _ => some parent
  | declares _ _ => none

/-- The symbol that is declared, with its scope. -/
def declaration? : ScopeChange → Option (ScopeId × Symbol)
  | opens _ _ _ => none
  | declares scope symbol => some (scope, symbol)

end ScopeChange

/-- The tree after a change. -/
def ScopeTree.after (t : ScopeTree) : ScopeChange → ScopeTree
  | .opens parent kind node => (t.openScope parent kind node).2
  | .declares scope symbol => (t.declare scope symbol).2

/-- The tree after a history. -/
def ScopeTree.build (node : NodeKey) (history : List ScopeChange) : ScopeTree :=
  history.foldl ScopeTree.after (.ofRoot node)

/-- Of each key not met before, the first entry is kept, and nothing else. -/
theorem ScopeTree.exists_kept (seen : List String) (entries : List (String × SymbolId)) :
    ∃ kept, unshadowed seen entries = kept.map Prod.snd ∧ kept.Sublist entries
      ∧ (Entries.keys kept).Nodup
      ∧ ∀ key x, (key, x) ∈ kept ↔ key ∉ seen ∧ Entries.get? key entries = some x := by
  induction entries generalizing seen with
  | nil => exact ⟨[], rfl, .slnil, .nil, fun key x => by simp [Entries.get?]⟩
  | cons entry rest ih =>
    obtain ⟨k, v⟩ := entry
    -- An entry is kept unless its name was seen further inside.
    by_cases hseen : k ∈ seen
    · obtain ⟨kept, hids, hsub, hnodup, hmem⟩ := ih seen
      refine ⟨kept, by simp [unshadowed, hseen, hids], hsub.cons _, hnodup, fun key x => ?_⟩
      rw [hmem, Entries.get?]
      refine and_congr_right fun hkey => ?_
      have hne : k ≠ key := fun hk => hkey (hk ▸ hseen)
      rw [if_neg hne]
    · obtain ⟨kept, hids, hsub, hnodup, hmem⟩ := ih (k :: seen)
      refine ⟨(k, v) :: kept, by simp [unshadowed, hseen, hids], hsub.cons_cons _, ?_,
        fun key x => ?_⟩
      · refine List.nodup_cons.2 ⟨fun hk => ?_, hnodup⟩
        obtain ⟨⟨_, x⟩, hkept, rfl⟩ := List.mem_map.1 hk
        exact ((hmem _ x).1 hkept).1 List.mem_cons_self
      · rw [List.mem_cons, hmem, Entries.get?, List.mem_cons, not_or]
        by_cases hk : k = key
        · subst hk
          simp [hseen, eq_comm]
        · simp [hk, Ne.symm hk]

/-- **What is to be seen from a scope has names of its own**, if the tables around it list
every symbol under its name. -/
theorem ScopeTree.names_visible {t : ScopeTree} {id : ScopeId}
    (h : ∀ s ∈ t.chain id, ∀ entry ∈ s.symbols.entries,
      ∃ symbol, t.symbol? entry.2 = some symbol ∧ foldCase symbol.name = entry.1) :
    ∃ names : List String, names.Nodup
      ∧ (t.visible id).map (fun x => (t.symbol? x).map (foldCase ·.name)) = names.map some := by
  obtain ⟨kept, hvisible, hsub, hnodup, -⟩ := exists_kept [] ((t.chain id).flatMap (·.symbols.entries))
  refine ⟨Entries.keys kept, hnodup, ?_⟩
  rw [visible, hvisible, List.map_map, Entries.keys, List.map_map]
  refine List.map_congr_left fun entry hentry => ?_
  obtain ⟨s, hs, hmem⟩ := List.mem_flatMap.1 (hsub.subset hentry)
  obtain ⟨symbol, hsymbol, hname⟩ := h s hs entry hmem
  simp [hsymbol, hname]

namespace ScopeHistory

/-- The scopes inside which others are opened, in order. -/
def openings (history : List ScopeChange) : List ScopeId :=
  history.filterMap ScopeChange.opening?

/-- The symbols that are declared, in order, each with its scope. -/
def declarations (history : List ScopeChange) : List (ScopeId × Symbol) :=
  history.filterMap ScopeChange.declaration?

/-- Every scope that a change names is there by then: it is the script's own, or one that
was opened before. -/
inductive Sound : List ScopeChange → Prop
  | nil : Sound []
  | concat {history : List ScopeChange} {change : ScopeChange} : Sound history →
    change.scope.index ≤ (openings history).length → Sound (history ++ [change])

/-- The scope around a scope; the script's own has none. -/
def around? (history : List ScopeChange) (id : ScopeId) : Option ScopeId :=
  match id.index with
  | 0 => none
  | n + 1 => (openings history)[n]?

/-- The scopes from one outwards, up to that of the script. -/
inductive Outward (history : List ScopeChange) : ScopeId → List ScopeId → Prop
  | root : Outward history .root [.root]
  | step {id p : ScopeId} {chain : List ScopeId} : around? history id = some p →
    Outward history p chain → Outward history id (id :: chain)

/-- All ways outwards end in the scope of the script. -/
theorem Outward.root_mem {history : List ScopeChange} {id : ScopeId} {chain : List ScopeId}
    (h : Outward history id chain) : .root ∈ chain := by
  induction h with
  | root => exact List.mem_cons_self
  | step _ _ ih => exact List.mem_cons_of_mem _ ih

/-- The symbol of this number is declared in the scope, under the name up to case. -/
def Declares (log : List (ScopeId × Symbol)) (id : ScopeId) (name : String) (x : SymbolId) : Prop :=
  ∃ s, log[x.index]? = some (id, s) ∧ foldCase s.name = foldCase name

/-- It is the first one of that name there. -/
def IsFirst (log : List (ScopeId × Symbol)) (id : ScopeId) (name : String) (x : SymbolId) : Prop :=
  Declares log id name x ∧ ∀ y, Declares log id name y → x.index ≤ y.index

/-- It is the last one of that name there. -/
def IsLast (log : List (ScopeId × Symbol)) (id : ScopeId) (name : String) (x : SymbolId) : Prop :=
  Declares log id name x ∧ ∀ y, Declares log id name y → y.index ≤ x.index

/-- Of two symbols, the one of the inner scope comes first, and in one scope the one whose
name was declared first. -/
def Precedes (log : List (ScopeId × Symbol)) (chain : List ScopeId) (x y : SymbolId) : Prop :=
  ∃ a s b r, log[x.index]? = some (a, s) ∧ log[y.index]? = some (b, r)
    ∧ ([a, b].Sublist chain
      ∨ a = b ∧ ∃ i j, IsFirst log a s.name i ∧ IsFirst log b r.name j ∧ i.index < j.index)

/-- **What a tree answers is what its history says.** -/
structure Answers (history : List ScopeChange) (t : ScopeTree) : Prop where
  /-- There is the scope of the script and one for each that was opened. -/
  size : t.scopes.size = (openings history).length + 1
  /-- The symbols are those declared, each under its number. -/
  symbols : t.symbols.toList = (declarations history).map Prod.snd
  /-- From every scope one chain of scopes leads outwards. -/
  chained : ∀ id, id.index < t.scopes.size → ∃! chain, Outward history id chain
  /-- A name stands for the last symbol under it in the nearest scope that declares it. -/
  resolved : ∀ id chain, Outward history id chain → ∀ name a x, t.resolve? id name = some (a, x) ↔
    ∃ inner outer, chain = inner ++ a :: outer ∧ IsLast (declarations history) a name x
      ∧ ∀ b ∈ inner, ∀ y, ¬ Declares (declarations history) b name y
  /-- It stands for nothing when none of them declares it. -/
  unresolved : ∀ id chain, Outward history id chain → ∀ name, t.resolve? id name = none ↔
    ∀ a ∈ chain, ∀ x, ¬ Declares (declarations history) a name x
  /-- The symbols to be seen from a scope are those that a name stands for there. -/
  seen : ∀ id x, x ∈ t.visible id ↔ ∃ name a, t.resolve? id name = some (a, x)
  /-- No two of them have one name. -/
  distinct : ∀ id, ((t.visible id).map fun x => (t.symbol? x).map (foldCase ·.name)).Nodup
  /-- They stand from the inside out, and in one scope as the names were first declared. -/
  ordered : ∀ id chain, Outward history id chain →
    (t.visible id).Pairwise (Precedes (declarations history) chain)
  /-- A scope lies within those on its way outwards. -/
  within : ∀ inner outer, t.isWithin inner outer = true ↔
    ∃ chain, Outward history inner chain ∧ outer ∈ chain
  /-- It lies within itself. -/
  within_refl : ∀ id, id.index < t.scopes.size → t.isWithin id id = true
  /-- No two scopes lie within each other. -/
  within_antisymm : ∀ a b, t.isWithin a b = true → t.isWithin b a = true → a = b
  /-- What lies within a scope lies within all around it. -/
  within_trans : ∀ a b c, t.isWithin a b = true → t.isWithin b c = true → t.isWithin a c = true
  /-- All lie within the scope of the script. -/
  within_root : ∀ id, id.index < t.scopes.size → t.isWithin id .root = true

/-! ## One declaration more -/

section

variable {log : List (ScopeId × Symbol)} {id a : ScopeId} {name : String} {x y : SymbolId}
  {s : Symbol}

/-- A symbol that is declared has a place in the log. -/
theorem Declares.lt (h : Declares log id name x) : x.index < log.length := by
  obtain ⟨s, hs, -⟩ := h
  exact (List.getElem?_eq_some_iff.1 hs).1

/-- With one declaration more, a name is declared as before or by this one. -/
theorem declares_concat : Declares (log ++ [(a, s)]) id name x ↔
    Declares log id name x ∨ x.index = log.length ∧ a = id ∧ foldCase s.name = foldCase name := by
  constructor
  · rintro ⟨r, hr, hname⟩
    rw [List.getElem?_append] at hr
    split at hr
    · exact .inl ⟨r, hr, hname⟩
    · rw [List.getElem?_singleton] at hr
      split at hr
      · obtain ⟨rfl, rfl⟩ := Prod.mk.inj (Option.some.inj hr)
        exact .inr ⟨by omega, rfl, hname⟩
      · cases hr
  · rintro (h | ⟨hx, rfl, hname⟩)
    · obtain ⟨r, hr, hname⟩ := h
      exact ⟨r, by rwa [List.getElem?_append_left (List.getElem?_eq_some_iff.1 hr).1], hname⟩
    · exact ⟨s, by simp [hx], hname⟩

/-- A name that is declared has a first symbol. -/
theorem Declares.exists_first (h : Declares log id name x) : ∃ i, IsFirst log id name i := by
  classical
  have hex : ∃ n, Declares log id name ⟨n⟩ := ⟨x.index, h⟩
  exact ⟨⟨Nat.find hex⟩, Nat.find_spec hex, fun y hy => Nat.find_min' hex hy⟩

/-- Which declaration is the first does not depend on the case of the name. -/
theorem IsFirst.congr {name' : String} (h : IsFirst log id name x)
    (hname : foldCase name = foldCase name') : IsFirst log id name' x := by
  have hsame : Declares log id name = Declares log id name' := by
    funext y
    rw [Declares, Declares, hname]
  rw [IsFirst, ← hsame]
  exact h

/-- There is one last declaration at most. -/
theorem IsLast.unique (h : IsLast log id name x) (h' : IsLast log id name y) : x = y := by
  have hindex : x.index = y.index := Nat.le_antisymm (h'.2 x h.1) (h.2 y h'.1)
  cases x
  cases y
  exact congrArg SymbolId.mk hindex

/-- The first symbol of a name stays the first. -/
theorem IsFirst.concat (h : IsFirst log id name x) : IsFirst (log ++ [(a, s)]) id name x := by
  refine ⟨declares_concat.2 (.inl h.1), fun y hy => ?_⟩
  rcases declares_concat.1 hy with hy | ⟨hy, -⟩
  · exact h.2 y hy
  · exact hy ▸ Nat.le_of_lt h.1.lt

/-- The symbol of a new name is the first. -/
theorem isFirst_concat (hnone : ∀ y, ¬ Declares log id name y)
    (hname : foldCase s.name = foldCase name) :
    IsFirst (log ++ [(id, s)]) id name ⟨log.length⟩ := by
  refine ⟨declares_concat.2 (.inr ⟨rfl, rfl, hname⟩), fun y hy => ?_⟩
  rcases declares_concat.1 hy with hy | ⟨hy, -⟩
  · exact absurd hy (hnone y)
  · exact Nat.le_of_eq hy.symm

/-- What the table of a scope is to know under a name. -/
def Known (log : List (ScopeId × Symbol)) (id : ScopeId) (name : String) : Option SymbolId → Prop
  | none => ∀ x, ¬ Declares log id name x
  | some x => IsLast log id name x

/-- What a table knows of a name is the last declaration of it. -/
theorem Known.eq_some_iff {o : Option SymbolId} (h : Known log id name o) :
    o = some x ↔ IsLast log id name x := by
  cases o with
  | none => exact ⟨fun ho => (nomatch ho), fun hx => absurd hx.1 (h x)⟩
  | some y => exact ⟨fun ho => Option.some.inj ho ▸ h, fun hx => by rw [IsLast.unique h hx]⟩

/-- A table that knows nothing of a name has no declaration of it. -/
theorem Known.eq_none_iff {o : Option SymbolId} (h : Known log id name o) :
    o = none ↔ ∀ x, ¬ Declares log id name x := by
  cases o with
  | none => exact ⟨fun _ => h, fun _ => rfl⟩
  | some y => exact ⟨fun ho => (nomatch ho), fun hnone => absurd h.1 (hnone y)⟩

/-- A declaration makes its name known under its own number. -/
theorem known_concat_self (hname : foldCase s.name = foldCase name) :
    Known (log ++ [(id, s)]) id name (some ⟨log.length⟩) := by
  refine ⟨declares_concat.2 (.inr ⟨rfl, rfl, hname⟩), fun y hy => ?_⟩
  rcases declares_concat.1 hy with hy | ⟨hy, -⟩
  · exact Nat.le_of_lt hy.lt
  · exact Nat.le_of_eq hy

/-- A declaration of another name, or in another scope, changes nothing. -/
theorem Known.concat {o : Option SymbolId} (h : Known log id name o)
    (hne : a = id → foldCase s.name ≠ foldCase name) : Known (log ++ [(a, s)]) id name o := by
  have hsame : ∀ y, Declares (log ++ [(a, s)]) id name y ↔ Declares log id name y :=
    fun y => declares_concat.trans (or_iff_left fun hy => hne hy.2.1 hy.2.2)
  cases o with
  | none => exact fun y hy => h y ((hsame y).1 hy)
  | some x => exact ⟨(hsame x).2 h.1, fun y hy => h.2 y ((hsame y).1 hy)⟩

/-- The names of a scope stand as they were first declared. -/
def InOrder (log : List (ScopeId × Symbol)) (id : ScopeId) (names : List String) : Prop :=
  names.Pairwise fun m n => ∃ i j, IsFirst log id m i ∧ IsFirst log id n j ∧ i.index < j.index

/-- The names of a scope stay in order when more is declared. -/
theorem InOrder.concat {names : List String} (h : InOrder log id names) :
    InOrder (log ++ [(a, s)]) id names :=
  List.Pairwise.imp (fun ⟨i, j, hi, hj, hlt⟩ => ⟨i, j, hi.concat, hj.concat, hlt⟩) h

/-- A name that is put into a table comes behind the others, unless it is there. -/
theorem InOrder.insert {table : SymbolTable} (h : InOrder log id table.keys)
    (htable : ∀ name, Known log id name (table.find? name)) (value : SymbolId) :
    InOrder (log ++ [(id, s)]) id (table.insert s.name value).keys := by
  have hkeys : (table.insert s.name value).keys
      = if foldCase s.name ∈ table.keys then table.keys else table.keys ++ [foldCase s.name] :=
    Entries.keys_put _ _ _
  rw [hkeys]
  split
  · exact h.concat
  · next hnew =>
    have hnone := (htable s.name).eq_none_iff.1 (Entries.get?_eq_none.2 hnew)
    refine List.pairwise_append.2 ⟨h.concat, List.pairwise_singleton _ _, fun m hm n hn => ?_⟩
    rw [List.mem_singleton.1 hn]
    -- The names that were there have a symbol, and it is an earlier one.
    cases hfind : table.find? m with
    | none =>
      rw [NameMap.find?, table.folded m hm] at hfind
      exact absurd hm (Entries.get?_eq_none.1 hfind)
    | some x =>
      have hlast := (htable m).eq_some_iff.1 hfind
      obtain ⟨i, hi⟩ := hlast.1.exists_first
      exact ⟨i, _, hi.concat,
        (isFirst_concat hnone rfl).congr (foldCase_foldCase _).symm, hi.1.lt⟩

end

/-! ## One change more -/

section

variable {history : List ScopeChange} {id a p : ScopeId} {s : Symbol}

/-- One scope more is opened. -/
@[simp] theorem openings_opens (kind : ScopeKind) (node : NodeKey) :
    openings (history ++ [.opens p kind node]) = openings history ++ [p] := by
  simp [openings, ScopeChange.opening?]

/-- A declaration opens no scope. -/
@[simp] theorem openings_declares :
    openings (history ++ [.declares a s]) = openings history := by
  simp [openings, ScopeChange.opening?]

/-- Opening a scope declares nothing. -/
@[simp] theorem declarations_opens (kind : ScopeKind) (node : NodeKey) :
    declarations (history ++ [.opens p kind node]) = declarations history := by
  simp [declarations, ScopeChange.declaration?]

/-- One declaration more comes behind the others. -/
@[simp] theorem declarations_declares :
    declarations (history ++ [.declares a s]) = declarations history ++ [(a, s)] := by
  simp [declarations, ScopeChange.declaration?]

/-- Around the new scope is the one it was opened in. -/
theorem around?_opens_self (kind : ScopeKind) (node : NodeKey)
    (hid : id.index = (openings history).length + 1) :
    around? (history ++ [.opens p kind node]) id = some p := by
  simp [around?, hid]

/-- Around the scopes of before is what was around them. -/
theorem around?_opens_of_le (kind : ScopeKind) (node : NodeKey)
    (hid : id.index ≤ (openings history).length) :
    around? (history ++ [.opens p kind node]) id = around? history id := by
  unfold around?
  split
  · rfl
  · rw [openings_opens, List.getElem?_append_left (by omega)]

/-- A declaration leaves the scopes where they are. -/
theorem around?_declares : around? (history ++ [.declares a s]) id = around? history id := by
  rw [around?, openings_declares, around?]

end

/-! ## The invariant -/

/-- The tree is the one that a history leads to. -/
structure Follows (history : List ScopeChange) (t : ScopeTree) : Prop where
  ranked : t.Ranked
  size : t.scopes.size = (openings history).length + 1
  parent {id : ScopeId} {s : Scope} : t.scope? id = some s → s.parent = around? history id
  symbols : t.symbols.toList = (declarations history).map Prod.snd
  homes {id : ScopeId} {name : String} {x : SymbolId} : Declares (declarations history) id name x →
    id.index < t.scopes.size
  tables {id : ScopeId} {s : Scope} : t.scope? id = some s →
    ∀ name, Known (declarations history) id name (s.symbols.find? name)
  order {id : ScopeId} {s : Scope} : t.scope? id = some s →
    InOrder (declarations history) id s.symbols.keys

/-- A tree of a single scope follows an empty history. -/
theorem follows_ofRoot (node : NodeKey) : Follows [] (.ofRoot node) where
  ranked := ScopeTree.ranked_ofRoot node
  size := rfl
  parent h := by
    obtain ⟨rfl, rfl⟩ := ScopeTree.eq_of_scope?_ofRoot h
    rfl
  symbols := rfl
  homes h := absurd h.lt (Nat.not_lt_zero _)
  tables h name := by
    obtain ⟨rfl, rfl⟩ := ScopeTree.eq_of_scope?_ofRoot h
    exact fun x hx => absurd hx.lt (Nat.not_lt_zero _)
  order h := by
    obtain ⟨rfl, rfl⟩ := ScopeTree.eq_of_scope?_ofRoot h
    exact .nil

namespace Follows

variable {history : List ScopeChange} {t : ScopeTree} {id a b p : ScopeId} {name : String}
  {chain : List ScopeId} {x : SymbolId}

/-- A scope that is opened in the tree is opened in the history. -/
theorem openScope (h : Follows history t) (hp : p.index < t.scopes.size) (kind : ScopeKind)
    (node : NodeKey) : Follows (history ++ [.opens p kind node]) (t.openScope p kind node).2 := by
  -- A scope is the new one, with an empty table, or an old one with the table it had.
  have hcases : ∀ {id s}, (t.openScope p kind node).2.scope? id = some s →
      (id.index = t.scopes.size ∧ s.parent = some p ∧ s.symbols = .empty)
        ∨ ∃ r, t.scope? id = some r ∧ s.parent = r.parent ∧ s.symbols = r.symbols := by
    intro id s hs
    rw [ScopeTree.scope?_openScope hp] at hs
    split at hs
    · next hid =>
      obtain rfl := Option.some.inj hs
      exact .inl ⟨hid, rfl, rfl⟩
    · obtain ⟨r, hr, rfl⟩ := Option.map_eq_some_iff.1 hs
      refine .inr ⟨r, hr, ?_⟩
      split <;> exact ⟨rfl, rfl⟩
  have hsize := h.size
  refine ⟨h.ranked.openScope hp kind node, ?_, fun {id s} hs => ?_, ?_, fun hx => ?_,
    fun {id s} hs name => ?_, fun {id s} hs => ?_⟩
  · rw [ScopeTree.size_openScope, hsize, openings_opens, List.length_append]
    rfl
  · rcases hcases hs with ⟨hid, hparent, -⟩ | ⟨r, hr, hparent, -⟩
    · rw [around?_opens_self kind node (hid.trans hsize), hparent]
    · have hlt := ScopeTree.lt_size_of_scope? hr
      rw [around?_opens_of_le kind node (by omega), hparent, h.parent hr]
  · rw [declarations_opens]
    exact h.symbols
  · rw [declarations_opens] at hx
    rw [ScopeTree.size_openScope]
    exact Nat.lt_succ_of_lt (h.homes hx)
  · rw [declarations_opens]
    rcases hcases hs with ⟨hid, -, htable⟩ | ⟨r, hr, -, htable⟩
    · rw [htable]
      exact fun x hx => Nat.ne_of_lt (h.homes hx) hid
    · rw [htable]
      exact h.tables hr name
  · rw [declarations_opens]
    rcases hcases hs with ⟨-, -, htable⟩ | ⟨r, hr, -, htable⟩
    · rw [htable]
      exact .nil
    · rw [htable]
      exact h.order hr

/-- A symbol that is declared in the tree is declared in the history. -/
theorem declare (h : Follows history t) (ha : a.index < t.scopes.size) (symbol : Symbol) :
    Follows (history ++ [.declares a symbol]) (t.declare a symbol).2 := by
  have hsize : t.symbols.size = (declarations history).length := by
    rw [← Array.length_toList, h.symbols, List.length_map]
  -- A scope is the one that declares the symbol, or another with the table it had.
  have hcases : ∀ {id s}, (t.declare a symbol).2.scope? id = some s →
      ∃ r, t.scope? id = some r ∧ s.parent = r.parent
        ∧ (a = id ∧ s.symbols = r.symbols.insert symbol.name ⟨t.symbols.size⟩
          ∨ a ≠ id ∧ s.symbols = r.symbols) := by
    intro id s hs
    rw [ScopeTree.scope?_declare] at hs
    obtain ⟨r, hr, rfl⟩ := Option.map_eq_some_iff.1 hs
    refine ⟨r, hr, ?_⟩
    split
    · next hid => exact ⟨rfl, .inl ⟨hid, rfl⟩⟩
    · next hid => exact ⟨rfl, .inr ⟨hid, rfl⟩⟩
  refine ⟨h.ranked.declare a symbol, ?_, fun {id s} hs => ?_, ?_, fun hx => ?_,
    fun {id s} hs name => ?_, fun {id s} hs => ?_⟩
  · rw [ScopeTree.size_declare, openings_declares, h.size]
  · obtain ⟨r, hr, hparent, -⟩ := hcases hs
    rw [around?_declares, hparent, h.parent hr]
  · rw [ScopeTree.toList_symbols_declare, h.symbols, declarations_declares, List.map_append]
    rfl
  · rw [ScopeTree.size_declare]
    rw [declarations_declares] at hx
    rcases declares_concat.1 hx with hx | ⟨-, rfl, -⟩
    · exact h.homes hx
    · exact ha
  · rw [declarations_declares]
    obtain ⟨r, hr, -, ⟨rfl, htable⟩ | ⟨hne, htable⟩⟩ := hcases hs
    · rw [htable, NameMap.find?_insert, hsize]
      split
      · next hname => exact known_concat_self hname.symm
      · next hname => exact (h.tables hr name).concat fun _ => Ne.symm hname
    · rw [htable]
      exact (h.tables hr name).concat fun hid => absurd hid hne
  · rw [declarations_declares]
    obtain ⟨r, hr, -, ⟨rfl, htable⟩ | ⟨-, htable⟩⟩ := hcases hs
    · rw [htable]
      exact (h.order hr).insert (h.tables hr) _
    · rw [htable]
      exact (h.order hr).concat

/-- A tree follows the history that it was built by. -/
theorem of_sound {history : List ScopeChange} (h : Sound history) (node : NodeKey) :
    Follows history (.build node history) := by
  induction h with
  | nil => exact follows_ofRoot node
  | @concat history change _ hscope ih =>
    rw [ScopeTree.build, List.foldl_concat, ← ScopeTree.build]
    have hlt : change.scope.index < (ScopeTree.build node history).scopes.size := by
      rw [ih.size]
      exact Nat.lt_succ_of_le hscope
    cases change with
    | opens p kind node' => exact ih.openScope hlt kind node'
    | declares a symbol => exact ih.declare hlt symbol

/-! ## The way outwards -/

/-- The walk outwards goes the way that the history gives. -/
theorem ancestors_of_outward (h : Follows history t) (hout : Outward history id chain) :
    t.ancestors id = chain := by
  induction hout with
  | root =>
    have hroot : ScopeId.root.index < t.scopes.size := by
      rw [h.size]
      exact Nat.succ_pos _
    obtain ⟨s, hs⟩ := ScopeTree.exists_scope_of_lt hroot
    have hnone : s.parent = none := h.parent hs
    rw [ScopeTree.ancestors_eq h.ranked hs, hnone]
    rfl
  -- A scope with another one around it was opened, so it is in the tree.
  | @step id p chain hp _ ih =>
    have hid : id.index < t.scopes.size := by
      rw [h.size]
      unfold around? at hp
      split at hp
      · cases hp
      · next n hn =>
        have := (List.getElem?_eq_some_iff.1 hp).1
        omega
    obtain ⟨s, hs⟩ := ScopeTree.exists_scope_of_lt hid
    rw [ScopeTree.ancestors_eq h.ranked hs, h.parent hs, hp, Option.elim_some, ih]

/-- From every scope there is a way outwards, and it is the walk. -/
theorem outward_ancestors (h : Follows history t) (hid : id.index < t.scopes.size) :
    Outward history id (t.ancestors id) := by
  induction hindex : id.index using Nat.strong_induction_on generalizing id with
  | _ index ih =>
    obtain ⟨s, hs⟩ := ScopeTree.exists_scope_of_lt hid
    rw [ScopeTree.ancestors_eq h.ranked hs]
    cases hp : s.parent with
    | none =>
      -- Only the scope of the script has none around it.
      have haround := (h.parent hs).symm.trans hp
      unfold around? at haround
      split at haround
      · next hzero =>
        obtain rfl : id = .root := by cases id; exact congrArg ScopeId.mk hzero
        exact .root
      · next n hn =>
        have := List.getElem?_eq_none_iff.1 haround
        rw [h.size] at hid
        omega
    | some p =>
      have hlt := h.ranked.parent hs hp
      exact .step ((h.parent hs).symm.trans hp) (ih p.index (hindex ▸ hlt) (hlt.trans hid) rfl)

/-! ## Looking names up -/

/-- The table of a scope on the way outwards. -/
theorem known_of_mem_chain (h : Follows history t) {s : Scope} (hs : s ∈ t.chain id)
    (name : String) : Known (declarations history) s.id name (s.symbols.find? name) :=
  h.tables (ScopeTree.scope?_of_mem_walk h.ranked hs) name

/-- A name resolves to its last declaration in the innermost scope on the way that has one. -/
theorem resolve?_eq_some_iff (h : Follows history t) : t.resolve? id name = some (a, x) ↔
    ∃ inner outer, t.ancestors id = inner ++ a :: outer ∧ IsLast (declarations history) a name x
      ∧ ∀ b ∈ inner, ∀ y, ¬ Declares (declarations history) b name y := by
  rw [ScopeTree.resolve?, List.findSome?_eq_some_iff]
  -- The search finds the first table that knows the name, so those in front of it know nothing.
  constructor
  · rintro ⟨inner, s, outer, hchain, hfound, hinner⟩
    have hknown := fun r hr =>
      h.known_of_mem_chain (show r ∈ t.chain id from hchain ▸ hr) name
    obtain ⟨y, hy, hpair⟩ := Option.map_eq_some_iff.1 hfound
    obtain ⟨rfl, rfl⟩ := Prod.mk.inj hpair
    refine ⟨inner.map Scope.id, outer.map Scope.id, ?_, ?_, ?_⟩
    · rw [ScopeTree.ancestors, hchain, List.map_append, List.map_cons]
    · exact (hknown s (by simp)).eq_some_iff.1 hy
    · rintro b hb
      obtain ⟨r, hr, rfl⟩ := List.mem_map.1 hb
      exact (hknown r (by simp [hr])).eq_none_iff.1 (Option.map_eq_none_iff.1 (hinner r hr))
  · rintro ⟨inner, outer, hancestors, hlast, hinner⟩
    obtain ⟨before, rest, hchain, rfl, hrest⟩ := List.map_eq_append_iff.1 hancestors
    obtain ⟨s, behind, rfl, rfl, rfl⟩ := List.map_eq_cons_iff.1 hrest
    have hknown := fun r hr =>
      h.known_of_mem_chain (show r ∈ t.chain id from hchain ▸ hr) name
    refine ⟨before, s, behind, hchain, ?_, fun r hr => ?_⟩
    · rw [(hknown s (by simp)).eq_some_iff.2 hlast, Option.map_some]
    · rw [(hknown r (by simp [hr])).eq_none_iff.2 (hinner r.id (List.mem_map_of_mem hr)),
        Option.map_none]

/-- A name resolves to nothing when no scope on the way declares it. -/
theorem resolve?_eq_none_iff (h : Follows history t) : t.resolve? id name = none ↔
    ∀ a ∈ t.ancestors id, ∀ x, ¬ Declares (declarations history) a name x := by
  rw [ScopeTree.resolve?, List.findSome?_eq_none_iff, ScopeTree.ancestors, List.forall_mem_map]
  refine forall₂_congr fun s hs => ?_
  rw [Option.map_eq_none_iff, (h.known_of_mem_chain hs name).eq_none_iff]

/-! ## What is to be seen -/

/-- The entries in sight of a scope, from the inside out. -/
theorem get?_flatMap_chain (name : String) : Entries.get? (foldCase name)
    ((t.chain id).flatMap (·.symbols.entries)) = (t.resolve? id name).map Prod.snd := by
  rw [ScopeTree.resolve?]
  induction t.chain id with
  | nil => rfl
  | cons s rest ih =>
    rw [List.flatMap_cons, Entries.get?_append, ih, List.findSome?_cons]
    rw [← NameMap.find?]
    cases s.symbols.find? name <;> rfl

/-- What is visible is what some name resolves to. -/
theorem mem_visible_iff : x ∈ t.visible id ↔ ∃ name a, t.resolve? id name = some (a, x) := by
  obtain ⟨kept, hvisible, -, -, hkept⟩ :=
    ScopeTree.exists_kept [] ((t.chain id).flatMap (·.symbols.entries))
  rw [ScopeTree.visible, hvisible, List.mem_map]
  constructor
  · rintro ⟨⟨key, x⟩, hmem, rfl⟩
    have hget := ((hkept key x).1 hmem).2
    obtain ⟨s, -, hentry⟩ := List.mem_flatMap.1 (Entries.mem_of_get? hget)
    have hfolded : foldCase key = key := s.symbols.folded key (List.mem_map_of_mem hentry)
    rw [← hfolded, get?_flatMap_chain] at hget
    obtain ⟨⟨a, _⟩, hresolve, rfl⟩ := Option.map_eq_some_iff.1 hget
    exact ⟨key, a, hresolve⟩
  · rintro ⟨name, a, hresolve⟩
    refine ⟨(foldCase name, x), (hkept _ x).2 ⟨List.not_mem_nil, ?_⟩, rfl⟩
    rw [get?_flatMap_chain, hresolve, Option.map_some]

/-- An entry in sight of a scope is of the last symbol under its key, in one of the scopes on
the way outwards. -/
theorem isLast_of_mem (h : Follows history t) {s : Scope} (hs : s ∈ t.chain id)
    {entry : String × SymbolId} (hentry : entry ∈ s.symbols.entries) :
    IsLast (declarations history) s.id entry.1 entry.2 := by
  exact (h.known_of_mem_chain hs entry.1).eq_some_iff.1 (s.symbols.mem_entries_iff.1 hentry).2

/-- The entries in sight stand in the order in which their symbols are to be listed. -/
theorem pairwise_precedes (h : Follows history t) :
    ((t.chain id).flatMap (·.symbols.entries)).Pairwise
      fun e e' => Precedes (declarations history) (t.ancestors id) e.2 e'.2 := by
  refine List.pairwise_flatMap.2 ⟨fun s hs => ?_, List.pairwise_iff_forall_sublist.2 ?_⟩
  · have horder := h.order (ScopeTree.scope?_of_mem_walk h.ranked hs)
    refine (List.pairwise_map.1 horder).imp_of_mem fun {e e'} he he' hfirst => ?_
    obtain ⟨i, j, hi, hj, hlt⟩ := hfirst
    obtain ⟨r, hr, hname⟩ := (h.isLast_of_mem hs he).1
    obtain ⟨r', hr', hname'⟩ := (h.isLast_of_mem hs he').1
    exact ⟨s.id, r, s.id, r', hr, hr',
      .inr ⟨rfl, i, j, hi.congr hname.symm, hj.congr hname'.symm, hlt⟩⟩
  · intro s s' hsub e he e' he'
    obtain ⟨r, hr, -⟩ := (h.isLast_of_mem (hsub.subset (by simp)) he).1
    obtain ⟨r', hr', -⟩ := (h.isLast_of_mem (hsub.subset (by simp)) he').1
    exact ⟨s.id, r, s'.id, r', hr, hr', .inl (hsub.map Scope.id)⟩

/-- A symbol is what the history has declared under its number. -/
theorem symbol?_eq (h : Follows history t) (x : SymbolId) :
    t.symbol? x = ((declarations history)[x.index]?).map Prod.snd := by
  rw [ScopeTree.symbol?, ← Array.getElem?_toList, h.symbols, List.getElem?_map]

/-- The symbols to be seen have the names that they are listed under. -/
theorem nodup_names (h : Follows history t) :
    ((t.visible id).map fun x => (t.symbol? x).map (foldCase ·.name)).Nodup := by
  have hlisted : ∀ s ∈ t.chain id, ∀ entry ∈ s.symbols.entries,
      ∃ symbol, t.symbol? entry.2 = some symbol ∧ foldCase symbol.name = entry.1 := by
    intro s hs entry hentry
    obtain ⟨r, hr, hname⟩ := (h.isLast_of_mem hs hentry).1
    have hfolded := (s.symbols.mem_entries_iff.1 hentry).1
    exact ⟨r, by rw [h.symbol?_eq, hr, Option.map_some], hname.trans hfolded⟩
  obtain ⟨names, hnodup, hnames⟩ := ScopeTree.names_visible hlisted
  rw [hnames]
  exact hnodup.map fun _ _ => Option.some.inj

/-- What is visible is listed from the inside to the outside, and in each scope in the order of
the names. -/
theorem pairwise_visible (h : Follows history t) :
    (t.visible id).Pairwise (Precedes (declarations history) (t.ancestors id)) := by
  obtain ⟨kept, hvisible, hsub, -, -⟩ :=
    ScopeTree.exists_kept [] ((t.chain id).flatMap (·.symbols.entries))
  rw [ScopeTree.visible, hvisible]
  exact List.pairwise_map.2 (h.pairwise_precedes.sublist hsub)

end Follows

/-- **What a tree answers is what its history says**, after any history in which no change
names a scope that is not there. -/
theorem scopes_answer {history : List ScopeChange} (h : Sound history) (node : NodeKey) :
    Answers history (.build node history) := by
  -- The tables follow the history, and all answers are read off what they record.
  have hfollows := Follows.of_sound h node
  have hranked := hfollows.ranked
  refine ⟨hfollows.size, hfollows.symbols, fun id hid => ?_, fun id chain hout name a x => ?_,
    fun id chain hout name => ?_, fun id x => Follows.mem_visible_iff,
    fun id => hfollows.nodup_names, fun id chain hout => ?_, fun inner outer => ?_,
    fun id hid => ?_, fun a b hab hba => ?_,
    fun a b c hab hbc => ?_, fun id hid => ?_⟩
  · exact ⟨_, hfollows.outward_ancestors hid,
      fun chain hout => (hfollows.ancestors_of_outward hout).symm⟩
  · rw [hfollows.resolve?_eq_some_iff, hfollows.ancestors_of_outward hout]
  · rw [hfollows.resolve?_eq_none_iff, hfollows.ancestors_of_outward hout]
  · rw [← hfollows.ancestors_of_outward hout]
    exact hfollows.pairwise_visible
  · rw [ScopeTree.isWithin_iff]
    refine ⟨fun hmem => ?_, fun ⟨chain, hout, hmem⟩ => ?_⟩
    · exact ⟨_, hfollows.outward_ancestors (ScopeTree.lt_size_of_mem_ancestors hmem), hmem⟩
    · rwa [hfollows.ancestors_of_outward hout]
  · exact ScopeTree.isWithin_iff.2 (ScopeTree.mem_ancestors_self hranked hid)
  · exact ScopeTree.eq_of_mem_ancestors hranked (ScopeTree.isWithin_iff.1 hba)
      (ScopeTree.isWithin_iff.1 hab)
  · rw [ScopeTree.isWithin_iff] at *
    exact (ScopeTree.ancestors_suffix hranked hab).subset hbc
  · exact ScopeTree.isWithin_iff.2 (hfollows.outward_ancestors hid).root_mem

/-- The name is declared in the script, in a block of it and in the script again; the block
sees the one of its own. -/
theorem scopes_answer_at_shadowing :
    let named (name : String) : Symbol := ⟨name, .variable, .integer, default, default⟩
    let history : List ScopeChange := [.declares .root (named "Count"), .declares .root (named "x"),
      .opens .root .block default, .declares ⟨1⟩ (named "count"), .declares .root (named "COUNT"),
      .declares ⟨1⟩ (named "y")]
    Sound history ∧ Answers history (.build default history)
      ∧ (ScopeTree.build default history).visible ⟨1⟩ = [⟨2⟩, ⟨4⟩, ⟨1⟩]
      ∧ (ScopeTree.build default history).visible .root = [⟨3⟩, ⟨1⟩] := by
  intro named history
  have hsound : Sound history := by
    refine @Sound.concat (history.take 5) _ (@Sound.concat (history.take 4) _
      (@Sound.concat (history.take 3) _ (@Sound.concat (history.take 2) _
        (@Sound.concat (history.take 1) _ (@Sound.concat [] _ .nil ?_) ?_) ?_) ?_) ?_) ?_
    all_goals decide
  exact ⟨hsound, scopes_answer hsound default, by decide +kernel, by decide +kernel⟩

end ScopeHistory

end ScriptSense
