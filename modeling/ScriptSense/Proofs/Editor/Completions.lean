/-
**A list of completions is canonical**: sorted with no two of one rank and name, each name
once, and the same whatever order the table of global names is in.

The list comes about in two steps, and what it says of a name is decided in the first one:
of all candidates with the name the first is kept (`mem_select_iff`). So the list depends on
the candidates only through what is found first under each name (`select_congr`), and the
second step, which sorts, has nothing to decide, since the names are distinct by then. The
symbols in sight are the first candidates. Each has a name of its own, so all of them are
kept and whatever else has such a name is not (`named?_candidates`). The scripts
are the last candidates. A global name is listed under the name it shows (`named_session`),
so no two scripts have one name, and their order does not matter (`named?_perm`).
-/
import Mathlib.Data.String.Basic
import ScriptSense.Editor.Completion
import ScriptSense.Proofs.Editor.References
import ScriptSense.Proofs.Script.Lookup

set_option autoImplicit false

namespace ScriptSense

namespace Completion

variable {a b c : Completion} {cs cs' : List Completion} {seen : List String} {written name : String}

/-! ## The first of each name -/

/-- The first candidate of a folded name. -/
def named? (cs : List Completion) (name : String) : Option Completion := cs.find? (·.key == name)

theorem key_of_named? (h : named? cs name = some c) : c.key = name := by
  simpa using List.find?_some h

theorem named?_cons (a : Completion) (cs : List Completion) (name : String) :
    named? (a :: cs) name = if a.key = name then some a else named? cs name := by
  by_cases h : a.key = name <;> simp [named?, h]

theorem named?_append (cs cs' : List Completion) (name : String) :
    named? (cs ++ cs') name = (named? cs name).or (named? cs' name) := List.find?_append

/-- Of distinct names, each candidate is the first of its own. -/
theorem named?_eq_some_iff (hnodup : (cs.map key).Nodup) :
    named? cs name = some c ↔ c ∈ cs ∧ c.key = name := by
  constructor
  · intro h
    exact ⟨List.mem_of_find?_eq_some h, key_of_named? h⟩
  · rintro ⟨hmem, rfl⟩
    obtain ⟨first, hfirst⟩ : ∃ first, named? cs c.key = some first :=
      Option.isSome_iff_exists.1 (List.find?_isSome.2 ⟨c, hmem, beq_self_eq_true _⟩)
    rw [hfirst, List.inj_on_of_nodup_map hnodup (List.mem_of_find?_eq_some hfirst) hmem
      (key_of_named? hfirst)]

/-- Of distinct names, what is found does not depend on the order. -/
theorem named?_perm (hperm : cs.Perm cs') (hnodup : (cs.map key).Nodup) (name : String) :
    named? cs name = named? cs' name := by
  have hnodup' : (cs'.map key).Nodup := (hperm.map key).nodup_iff.1 hnodup
  ext c
  rw [named?_eq_some_iff hnodup, named?_eq_some_iff hnodup', hperm.mem_iff]

theorem mem_firsts_iff : c ∈ firsts seen cs ↔ c.key ∉ seen ∧ named? cs c.key = some c := by
  induction cs generalizing seen with
  | nil => simp [firsts, named?]
  | cons a cs ih =>
    rw [firsts, named?_cons]
    by_cases hseen : a.key ∈ seen
    · rw [if_pos (List.contains_iff_mem.2 hseen), ih]
      refine and_congr_right fun hc => ?_
      have hne : a.key ≠ c.key := fun heq => hc (heq ▸ hseen)
      rw [if_neg hne]
    · rw [if_neg (mt List.contains_iff_mem.1 hseen), List.mem_cons, ih, List.mem_cons, not_or]
      by_cases hkey : a.key = c.key
      · rw [if_pos hkey, Option.some.injEq]
        refine ⟨?_, fun h => .inl h.2.symm⟩
        rintro (rfl | ⟨⟨hne, -⟩, -⟩)
        · exact ⟨hseen, rfl⟩
        · exact absurd hkey.symm hne
      · rw [if_neg hkey]
        refine ⟨?_, fun h => .inr ⟨⟨Ne.symm hkey, h.1⟩, h.2⟩⟩
        rintro (rfl | ⟨⟨-, hc⟩, hfound⟩)
        · exact absurd rfl hkey
        · exact ⟨hc, hfound⟩

theorem nodup_firsts : ((firsts seen cs).map key).Nodup := by
  induction cs generalizing seen with
  | nil => exact List.nodup_nil
  | cons a cs ih =>
    rw [firsts]
    split
    · exact ih
    · refine List.nodup_cons.2 ⟨fun hmem => ?_, ih⟩
      obtain ⟨c, hc, hkey⟩ := List.mem_map.1 hmem
      exact (mem_firsts_iff.1 hc).1 (hkey ▸ List.mem_cons_self)

/-! ## The order -/

/-- The candidate has a lower rank than the other one, or the same rank and a smaller name. -/
def Before (a b : Completion) : Prop :=
  a.priority < b.priority ∨ a.priority = b.priority ∧ a.key < b.key

theorem precedes_iff : precedes a b = true ↔
    a.priority < b.priority ∨ a.priority = b.priority ∧ a.key ≤ b.key := by
  simp [precedes]

theorem precedes_trans (a b c : Completion) (hab : precedes a b = true) (hbc : precedes b c = true) :
    precedes a c = true := by
  rw [precedes_iff] at *
  rcases hab with hab | ⟨hab, hle⟩
  · left
    omega
  · rcases hbc with hbc | ⟨hbc, hle'⟩
    · left
      omega
    · exact .inr ⟨hab.trans hbc, hle.trans hle'⟩

theorem precedes_total (a b : Completion) : (precedes a b || precedes b a) = true := by
  rw [Bool.or_eq_true, precedes_iff, precedes_iff]
  rcases Nat.lt_trichotomy a.priority b.priority with hlt | heq | hlt
  · exact .inl (.inl hlt)
  · rcases le_total a.key b.key with hle | hle
    · exact .inl (.inr ⟨heq, hle⟩)
    · exact .inr (.inr ⟨heq.symm, hle⟩)
  · exact .inr (.inl hlt)

theorem Before.asymm (h : Before a b) : ¬ Before b a := by
  rintro (h' | ⟨h', hlt'⟩)
  · rcases h with h | ⟨h, -⟩ <;> omega
  · rcases h with h | ⟨-, hlt⟩
    · omega
    · exact lt_asymm hlt hlt'

/-! ## The selection -/

/-- The name of the candidate begins with what is written. -/
def Begins (written : String) (c : Completion) : Prop := (foldCase written).toList <+: c.key.toList

theorem begins_iff : (foldCase written).toList.isPrefixOf c.key.toList = true ↔ Begins written c :=
  List.isPrefixOf_iff_prefix

/-- Whether a candidate begins so depends on its name alone, so the first of its name is still
the first. -/
theorem named?_filter_of_begins (h : Begins written c) :
    named? (cs.filter fun c => (foldCase written).toList.isPrefixOf c.key.toList) c.key
      = named? cs c.key := by
  have hsame : (fun x : Completion => decide ((foldCase written).toList.isPrefixOf x.key.toList = true
      ∧ (x.key == c.key) = true)) = fun x : Completion => x.key == c.key := by
    funext x
    by_cases hkey : x.key = c.key
    · rw [hkey, begins_iff.2 h]
      simp
    · simp [hkey]
  rw [named?, List.find?_filter, hsame, named?]

/-- **What is selected is the first candidate of its name**, if the name begins with what is
written. -/
theorem mem_select_iff : c ∈ select written cs ↔ Begins written c ∧ named? cs c.key = some c := by
  rw [select, List.mem_mergeSort, mem_firsts_iff]
  by_cases hbegins : Begins written c
  · rw [named?_filter_of_begins hbegins]
    simp [hbegins]
  · refine iff_of_false (fun hfound => hbegins ?_) fun h => hbegins h.1
    have hmem := List.mem_filter.1 (List.mem_of_find?_eq_some hfound.2)
    exact begins_iff.1 hmem.2

theorem nodup_select : ((select written cs).map key).Nodup :=
  ((List.mergeSort_perm _ _).map key).nodup_iff.2 nodup_firsts

/-- **No two that are selected have one rank and name**, and they stand in order. -/
theorem pairwise_select : (select written cs).Pairwise Before := by
  have hsorted : (select written cs).Pairwise fun a b => precedes a b = true :=
    List.pairwise_mergeSort precedes_trans precedes_total _
  have hdistinct : (select written cs).Pairwise fun a b => a.key ≠ b.key :=
    List.pairwise_map.1 nodup_select
  refine hsorted.imp₂ (fun a b hprecedes hne => ?_) hdistinct
  rcases precedes_iff.1 hprecedes with hlt | ⟨heq, hle⟩
  · exact .inl hlt
  · exact .inr ⟨heq, lt_of_le_of_ne hle hne⟩

/-- **Only what is found first under each name matters.** -/
theorem select_congr (h : ∀ name, named? cs name = named? cs' name) :
    select written cs = select written cs' := by
  have hmem : ∀ c, c ∈ select written cs ↔ c ∈ select written cs' := by
    intro c
    rw [mem_select_iff, mem_select_iff, h]
  have hperm : (select written cs).Perm (select written cs') :=
    (List.perm_ext_iff_of_nodup nodup_select.of_map nodup_select.of_map).2 hmem
  exact hperm.eq_of_pairwise (fun _ _ _ _ hab hba => absurd hba hab.asymm) pairwise_select pairwise_select

/-- A candidate that is selected is the only one of its name. -/
theorem filter_select (h : c ∈ select written cs) :
    (select written cs).filter (·.key == c.key) = [c] := by
  have hnodup : ((select written cs).map key).Nodup := nodup_select
  have hfilter : ((select written cs).filter (·.key == c.key)).Nodup := hnodup.of_map.filter _
  refine List.perm_singleton.1 ((List.perm_ext_iff_of_nodup hfilter (List.nodup_singleton c)).2 ?_)
  intro b
  rw [List.mem_filter, List.mem_singleton, beq_iff_eq]
  refine ⟨fun ⟨hb, hkey⟩ => List.inj_on_of_nodup_map hnodup hb h hkey, ?_⟩
  rintro rfl
  exact ⟨h, rfl⟩

end Completion

/-! ## The symbols in sight -/

section

variable {root : Tree} {t : ScopeTree} {id : ScopeId}

theorem Completion.key_ofSymbol (s : Symbol) : (ofSymbol s).key = foldCase s.name := rfl

/-- The tables of a script list every symbol under its name. -/
theorem ScopeTree.Sound.names_visible (h : t.Sound root) (id : ScopeId) :
    ∃ names : List String, names.Nodup
      ∧ (t.visible id).map (fun x => (t.symbol? x).map (foldCase ·.name)) = names.map some := by
  refine ScopeTree.names_visible fun s hs entry hentry => ?_
  obtain ⟨hfolded, hfound⟩ := s.symbols.mem_entries_iff.1 hentry
  obtain ⟨declared, hdeclared, hsame⟩ := h.symbol (ScopeTree.scope?_of_mem_walk h.ranked hs) hfound
  exact ⟨declared, hdeclared, ((sameName_iff _ _).1 hsame).symm.trans hfolded⟩

theorem ScopeTree.Sound.exists_symbol (h : t.Sound root) {x : SymbolId} (hx : x ∈ t.visible id) :
    ∃ symbol, t.symbol? x = some symbol := by
  obtain ⟨names, -, hnames⟩ := h.names_visible id
  have hmem : (t.symbol? x).map (foldCase ·.name) ∈ names.map some := by
    rw [← hnames]
    exact List.mem_map_of_mem hx
  obtain ⟨name, -, hname⟩ := List.mem_map.1 hmem
  obtain ⟨symbol, hsymbol, -⟩ := Option.map_eq_some_iff.1 hname.symm
  exact ⟨symbol, hsymbol⟩

/-- **No two symbols in sight have one name.** -/
theorem ScopeTree.Sound.nodup_symbols (h : t.Sound root) (id : ScopeId) :
    ((((t.visible id).filterMap t.symbol?).map Completion.ofSymbol).map Completion.key).Nodup := by
  obtain ⟨names, hnodup, hnames⟩ := h.names_visible id
  have hsame : (((t.visible id).filterMap t.symbol?).map Completion.ofSymbol).map Completion.key = names := by
    calc (((t.visible id).filterMap t.symbol?).map Completion.ofSymbol).map Completion.key
        = (t.visible id).filterMap fun x => (t.symbol? x).map (foldCase ·.name) := by
          rw [List.map_map, List.map_filterMap]
          rfl
      _ = ((t.visible id).map fun x => (t.symbol? x).map (foldCase ·.name)).filterMap fun o => o := by
          rw [List.filterMap_map]
          rfl
      _ = names := by
          rw [hnames, List.filterMap_map]
          exact List.filterMap_some
  rw [hsame]
  exact hnodup

end

/-! ## The scripts -/

/-- An entry is listed under the name it shows. -/
theorem Globals.Named.key_eq {g : Globals} (h : g.Named) {entry : String × GlobalEntry}
    (hentry : entry ∈ g.table.entries) : foldCase entry.2.name = entry.1 := by
  obtain ⟨hfolded, hfound⟩ := g.table.mem_entries_iff.1 hentry
  exact ((sameName_iff _ _).1 (h _ _ hfound)).symm.trans hfolded

theorem Completion.key_of_ofGlobal? {e : GlobalEntry} {c : Completion} (h : ofGlobal? e = some c) :
    c.key = foldCase e.name := by
  rw [ofGlobal?] at h
  split at h
  · rw [← Option.some.inj h]
    rfl
  · cases h
  · cases h
  · cases h

/-- The scripts among the global names. -/
def Globals.scripts (g : Globals) : List Completion := g.table.values.filterMap Completion.ofGlobal?

/-- **No two scripts among the global names have one name.** -/
theorem Globals.Named.nodup_scripts {g : Globals} (h : g.Named) :
    (g.scripts.map Completion.key).Nodup := by
  rw [Globals.scripts, NameMap.values, List.filterMap_map, List.Nodup, List.pairwise_map,
    List.pairwise_filterMap]
  have hkeys : g.table.entries.Pairwise fun e e' => e.1 ≠ e'.1 := List.pairwise_map.1 g.table.nodup
  refine hkeys.imp_of_mem fun {e e'} he he' hne b hb b' hb' hkey => hne ?_
  have hbkey : b.key = e.1 := (Completion.key_of_ofGlobal? hb).trans (h.key_eq he)
  have hbkey' : b'.key = e'.1 := (Completion.key_of_ofGlobal? hb').trans (h.key_eq he')
  rw [← hbkey, ← hbkey', hkey]

namespace Database

variable {d : Database} {file : FileId} {offset : Nat}

/-- The cursor at an offset of an open file. -/
def cursorAt? (d : Database) (file : FileId) (offset : Nat) : Option Cursor :=
  (d.file? file).map fun source => Cursor.ofTree source.root offset

theorem completionsAt_eq {cursor : Cursor} (h : d.cursorAt? file offset = some cursor) :
    d.completionsAt file offset = Completion.select cursor.written (d.candidates file cursor) := by
  obtain ⟨source, hsource, rfl⟩ := Option.map_eq_some_iff.1 h
  rw [completionsAt, hsource]

theorem completionsAt_eq_nil (h : d.cursorAt? file offset = none) : d.completionsAt file offset = [] := by
  rw [completionsAt, Option.map_eq_none_iff.1 h]

/-- **What is completed does not depend on the order of the global names.** -/
theorem completionsAt_reordered (h : d.globals.Named) {table : NameMap GlobalEntry}
    (hperm : table.entries.Perm d.globals.table.entries) :
    completionsAt { d with globals := ⟨table⟩ } file offset = d.completionsAt file offset := by
  have hcursor : cursorAt? { d with globals := ⟨table⟩ } file offset = d.cursorAt? file offset := rfl
  have hscripts : (Globals.scripts ⟨table⟩).Perm d.globals.scripts := (hperm.map Prod.snd).filterMap _
  cases hat : d.cursorAt? file offset with
  | none => rw [completionsAt_eq_nil hat, completionsAt_eq_nil (hcursor.trans hat)]
  | some cursor =>
    rw [completionsAt_eq hat, completionsAt_eq (hcursor.trans hat)]
    refine Completion.select_congr fun name => ?_
    rw [candidates, candidates]
    by_cases hmember : cursor.isAfterMember = true
    · rw [if_pos hmember, if_pos hmember]
    · rw [if_neg hmember, if_neg hmember]
      have hfound : Completion.named? (Globals.scripts ⟨table⟩) name
          = Completion.named? d.globals.scripts name :=
        (Completion.named?_perm hscripts.symm h.nodup_scripts name).symm
      -- The scripts come last, and what comes before them is the same.
      refine (Completion.named?_append _ _ name).trans (Eq.trans ?_ (Completion.named?_append _ _ name).symm)
      exact congrArg (Option.or _) hfound

/-- **A symbol in sight is the first candidate of its name.** -/
theorem named?_candidates {source : SourceFile} (hfile : d.file? file = some source)
    (hsound : source.Sound) {cursor : Cursor} {token : TokenSite} {node : NodeSite} {script : Script}
    {scope : ScopeId} {x : SymbolId} {symbol : Symbol} (hmember : cursor.isAfterMember = false)
    (htoken : cursor.token = some token) (hnode : token.scope? = some node)
    (hscope : d.scopeOf? file node = some (script, scope)) (hx : x ∈ script.scopes.visible scope)
    (hsymbol : script.scopes.symbol? x = some symbol) :
    Completion.named? (d.candidates file cursor) (foldCase symbol.name) = some (.ofSymbol symbol) := by
  have hscopes := hsound.scopes (exists_scope_of_scopeOf? hfile hsound hscope).1
  have hvisible : (cursor.token.toList.flatMap (d.visibleFrom file)).map Completion.ofSymbol
      = ((script.scopes.visible scope).filterMap script.scopes.symbol?).map Completion.ofSymbol := by
    rw [htoken]
    simp [visibleFrom, hnode, hscope]
  have hmem : Completion.ofSymbol symbol
      ∈ ((script.scopes.visible scope).filterMap script.scopes.symbol?).map Completion.ofSymbol :=
    List.mem_map_of_mem (List.mem_filterMap.2 ⟨x, hx, hsymbol⟩)
  have hfirst : Completion.named? (((script.scopes.visible scope).filterMap script.scopes.symbol?).map
      Completion.ofSymbol) (foldCase symbol.name) = some (.ofSymbol symbol) :=
    (Completion.named?_eq_some_iff (hscopes.nodup_symbols scope)).2 ⟨hmem, rfl⟩
  -- All other candidates come behind the symbols in sight.
  rw [candidates, hmember, if_neg Bool.false_ne_true, hvisible]
  simp only [Completion.named?_append, hfirst, Option.some_or]

/-- **A list of completions is canonical.** -/
structure Canonical (d : Database) (file : FileId) (offset : Nat) : Prop where
  /-- It ascends by rank and folded name. -/
  ascending : (d.completionsAt file offset).Pairwise Completion.Before
  /-- No folded name comes twice. -/
  distinct : ((d.completionsAt file offset).map Completion.key).Nodup
  /-- All begin with what is written in front of the cursor. -/
  begins : ∀ cursor, d.cursorAt? file offset = some cursor →
    ∀ c ∈ d.completionsAt file offset, Completion.Begins cursor.written c
  /-- The order of the global names does not matter. -/
  stable : ∀ table : NameMap GlobalEntry, table.entries.Perm d.globals.table.entries →
    completionsAt { d with globals := ⟨table⟩ } file offset = d.completionsAt file offset
  /-- A symbol that can be seen from the cursor, unless a member is written there, is listed
  as a variable, and nothing else of its name is. -/
  seen : ∀ cursor token node script scope, d.cursorAt? file offset = some cursor →
    cursor.isAfterMember = false → cursor.token = some token → token.scope? = some node →
    d.scopeOf? file node = some (script, scope) → ∀ x ∈ script.scopes.visible scope,
      ∃ symbol, script.scopes.symbol? x = some symbol
        ∧ ((foldCase cursor.written).toList <+: (foldCase symbol.name).toList →
          (d.completionsAt file offset).filter (·.key == foldCase symbol.name)
            = [⟨symbol.name, .variable, some symbol.ty.word⟩])

end Database

/-- **In every session all lists of completions are canonical.** -/
theorem completions_canonical (catalog : Catalog) (calls : List Operation) (file : FileId) (offset : Nat) :
    (session catalog calls).1.Canonical file offset := by
  have hnamed := named_session catalog calls
  have hsound : ∀ source, (session catalog calls).1.file? file = some source → source.Sound :=
    fun source hsource => sound_session catalog calls hsource
  -- Of the session no more than this is used.
  generalize (session catalog calls).1 = d at hnamed hsound ⊢
  refine ⟨?_, ?_, fun cursor hat c hc => ?_, fun table hperm => Database.completionsAt_reordered hnamed hperm,
    fun cursor token node script scope hat hmember htoken hnode hscope x hx => ?_⟩
  · cases hat : d.cursorAt? file offset with
    | none =>
      rw [Database.completionsAt_eq_nil hat]
      exact .nil
    | some cursor =>
      rw [Database.completionsAt_eq hat]
      exact Completion.pairwise_select
  · cases hat : d.cursorAt? file offset with
    | none =>
      rw [Database.completionsAt_eq_nil hat]
      exact List.nodup_nil
    | some cursor =>
      rw [Database.completionsAt_eq hat]
      exact Completion.nodup_select
  · rw [Database.completionsAt_eq hat] at hc
    exact (Completion.mem_select_iff.1 hc).1
  · obtain ⟨source, hsource, -⟩ := Option.map_eq_some_iff.1 hat
    have hscript := (Database.exists_scope_of_scopeOf? hsource (hsound source hsource) hscope).1
    obtain ⟨symbol, hsymbol⟩ := ((hsound source hsource).scopes hscript).exists_symbol hx
    refine ⟨symbol, hsymbol, fun hbegins => ?_⟩
    have hfirst := Database.named?_candidates hsource (hsound source hsource) hmember htoken hnode
      hscope hx hsymbol
    have hselected : Completion.ofSymbol symbol
        ∈ Completion.select cursor.written (d.candidates file cursor) :=
      Completion.mem_select_iff.2 ⟨hbegins, hfirst⟩
    have honly := Completion.filter_select hselected
    rw [Completion.key_ofSymbol] at honly
    rw [Database.completionsAt_eq hat]
    exact honly

/-- A script that declares a variable of its own name. -/
def hidingScript : List Operation := [.open (.virtual "a") "scn T\nint t\nset t to 1\n"]

/-- Behind the variable of the last line, the variable is offered and hides the script. -/
theorem completions_canonical_at_hidden_script :
    (∃ cursor token node script scope, (session .empty hidingScript).1.cursorAt? ⟨0⟩ 17 = some cursor
      ∧ cursor.isAfterMember = false ∧ cursor.token = some token ∧ token.scope? = some node
      ∧ (session .empty hidingScript).1.scopeOf? ⟨0⟩ node = some (script, scope)
      ∧ script.scopes.visible scope = [⟨0⟩])
    ∧ (session .empty hidingScript).1.completionsAt ⟨0⟩ 17
      = [⟨"t", .variable, some "integer"⟩, ⟨"to", .keyword, none⟩]
    ∧ (session .empty hidingScript).1.Canonical ⟨0⟩ 17 := by
  have hfound : ((session .empty hidingScript).1.cursorAt? ⟨0⟩ 17).any (fun cursor =>
      !cursor.isAfterMember && cursor.token.any fun token => token.scope?.any fun node =>
        ((session .empty hidingScript).1.scopeOf? ⟨0⟩ node).any fun found =>
          found.1.scopes.visible found.2 == [⟨0⟩]) = true := by
    decide +kernel
  obtain ⟨cursor, hat, hfound⟩ := (Option.any_eq_true _ _).1 hfound
  obtain ⟨hmember, hfound⟩ := Bool.and_eq_true_iff.1 hfound
  obtain ⟨token, htoken, hfound⟩ := (Option.any_eq_true _ _).1 hfound
  obtain ⟨node, hnode, hfound⟩ := (Option.any_eq_true _ _).1 hfound
  obtain ⟨⟨script, scope⟩, hscope, hvisible⟩ := (Option.any_eq_true _ _).1 hfound
  refine ⟨⟨cursor, token, node, script, scope, hat, ?_, htoken, hnode, hscope, eq_of_beq hvisible⟩, ?_,
    completions_canonical .empty hidingScript ⟨0⟩ 17⟩
  · simpa using hmember
  · have hfirsts : ((session .empty hidingScript).1.cursorAt? ⟨0⟩ 17).all (fun cursor =>
        Completion.firsts [] (((session .empty hidingScript).1.candidates ⟨0⟩ cursor).filter fun c =>
          (foldCase cursor.written).toList.isPrefixOf c.key.toList)
        == [⟨"t", .variable, some "integer"⟩, ⟨"to", .keyword, none⟩]) = true := by
      decide +kernel
    rw [hat, Option.all_some, beq_iff_eq] at hfirsts
    rw [Database.completionsAt_eq hat, Completion.select, hfirsts]
    exact List.mergeSort_of_pairwise (by decide +kernel)

end ScriptSense
