/-
**References are found exactly**: for whatever an identifier refers to, the search
finds all identifiers that refer to the same and no others.

The search leaves out most of the text. A symbol of a script is looked for below the
node that opens its scope, and only where its name is written. That nothing is lost
there rests on three facts. What a name stands for is declared in a scope around it, and
scopes lie in each other as their nodes do, so the name is below the node of the scope
(`definitionOf?_bound`). A name that a table knows is the name of the symbol up to case.
And a global name is listed under the name that it shows (`named_session`).
-/
import ScriptSense.Editor.References
import ScriptSense.Proofs.Script.Lexical
import ScriptSense.Proofs.Script.Nesting
import ScriptSense.Proofs.Workspace.Naming

set_option autoImplicit false

namespace ScriptSense

/-! ## The same thing -/

namespace Definition

variable {a b c : Definition}

theorem isSame_bound {file : FileId} {scope : ScopeId} {symbol : SymbolId} :
    a.isSame (.bound file scope symbol) = true ↔ a = .bound file scope symbol := by
  cases a <;> simp [isSame]

theorem isSame_global {e : GlobalEntry} :
    a.isSame (.global e) = true ↔ ∃ e', a = .global e' ∧ foldCase e'.name = foldCase e.name := by
  cases a <;> simp [isSame, sameName_iff]

theorem isSame_refl (a : Definition) : a.isSame a = true := by
  cases a with
  | bound => exact isSame_bound.2 rfl
  | global e => exact isSame_global.2 ⟨e, rfl, rfl⟩

/-- What is the same as one of two that are the same is the same as the other. -/
theorem isSame_congr (h : a.isSame b = true) (c : Definition) : c.isSame a = c.isSame b := by
  cases b with
  | bound => rw [isSame_bound.1 h]
  | global e =>
    obtain ⟨e', rfl, hname⟩ := isSame_global.1 h
    rw [Bool.eq_iff_iff, isSame_global, isSame_global, hname]

end Definition

/-! ## What is read out of a text -/

/-- The symbol that a table gives to a name has the name. -/
theorem Logged.name_of_find? {g : Gathered} {log : List Entry} (h : Logged g log) {id : ScopeId}
    {s : Scope} (hs : g.scopes.scope? id = some s) {name : String} {x : SymbolId}
    (hx : s.symbols.find? name = some x) :
    ∃ declared, g.scopes.symbol? x = some declared ∧ sameName name declared.name = true := by
  have hlatest := h.tables hs name
  rw [hx] at hlatest
  obtain ⟨e, he, -, hname, -⟩ := hlatest
  refine ⟨e.symbol, ?_, (sameName_iff _ _).2 hname.symm⟩
  rw [h.symbol?_eq, he]
  rfl

/-- **What a search relies on** in the scopes of a script with the tree. -/
structure ScopeTree.Sound (root : Tree) (t : ScopeTree) : Prop where
  ranked : t.Ranked
  nested : t.Nested root
  symbol {id : ScopeId} {s : Scope} {name : String} {x : SymbolId} : t.scope? id = some s →
    s.symbols.find? name = some x →
    ∃ declared, t.symbol? x = some declared ∧ sameName name declared.name = true

/-- **What a search relies on** in a file. -/
structure SourceFile.Sound (f : SourceFile) : Prop where
  tiled : f.root.Tiled
  formed : f.root.Formed
  scopes {script : Script} : f.script = some script → script.scopes.Sound f.root

/-- What a file means is read out of the tree of a script, which is as the reader builds
it. -/
theorem SourceFile.exists_root_read (catalog : Catalog) (text : String) : ∃ span cs,
    (read catalog text).root = .node .script span cs ∧ (Tree.node .script span cs).Tiled
      ∧ (Tree.node .script span cs).Formed ∧ ∀ script, (read catalog text).script = some script →
        Script.ofTree? (.node .script span cs) = some script := by
  obtain ⟨span, cs, hroot⟩ : ∃ span cs, (parseWith catalog.isFunction text).root = .node .script span cs :=
    ⟨_, _, rfl⟩
  have ht := tiled_parseWith catalog.isFunction text
  have hf := formed_parseWith catalog.isFunction text
  have htree : (parseWith catalog.isFunction text).script? = some (.node .script span cs) := by
    rw [Parse.script?, hroot]
    rfl
  rw [hroot] at ht hf
  refine ⟨span, cs, hroot, ht, hf, fun script h => ?_⟩
  rwa [read, htree, Option.bind_some] at h

theorem SourceFile.sound_read (catalog : Catalog) (text : String) : (read catalog text).Sound := by
  obtain ⟨span, cs, hroot, ht, hf, hscript⟩ := exists_root_read catalog text
  refine ⟨hroot ▸ ht, hroot ▸ hf, fun {script} h => ?_⟩
  have htree := hscript script h
  obtain ⟨gathered, log, hscopes, hlogged⟩ := logged_ofTree ht hf htree
  refine ⟨?_, hroot ▸ nested_ofTree ht htree, ?_⟩
  · rw [hscopes]
    exact hlogged.ranked
  · rw [hscopes]
    exact fun hs hx => hlogged.name_of_find? hs hx

/-- **Every open file can be searched.** -/
theorem sound_session (catalog : Catalog) (calls : List Operation) {id : FileId} {f : SourceFile}
    (h : (session catalog calls).1.file? id = some f) : f.Sound := by
  rw [(kept_session catalog calls).file?_eq, Desk.shelf] at h
  obtain ⟨file, -, rfl⟩ := Option.map_eq_some_iff.1 h
  exact SourceFile.sound_read catalog file.2

/-! ## Scopes around a token -/

theorem Site.above_of_parent? {α : Type} {s : Site α} {p : NodeSite} (h : s.parent? = some p) :
    s.above = p.item :: p.above := by
  rw [parent?] at h
  split at h
  · cases h
  · next habove => rw [habove, ← Option.some.inj h]

theorem mem_of_scopesAround {span : Span} {above : List Tree} {n : NodeSite}
    (h : n ∈ scopesAround span above) : n.item ∈ above := by
  induction above generalizing span with
  | nil => cases h
  | cons p ps ih =>
    rw [scopesAround] at h
    split at h
    · rcases List.mem_cons.1 h with rfl | h
      · exact List.mem_cons_self
      · exact List.mem_cons_of_mem _ (ih h)
    · exact List.mem_cons_of_mem _ (ih h)

theorem NodeSite.mem_above_of_scope? {s n : NodeSite} (h : s.scope? = some n) : n.item ∈ s.above :=
  mem_of_scopesAround (List.mem_of_mem_head? h)

theorem ScopeTree.exists_scope_of_scopeOf? {t : ScopeTree} (ht : t.Ranked) {key : NodeKey} {id : ScopeId}
    (h : t.scopeOf? key = some id) : ∃ s, t.scope? id = some s ∧ s.node = key := by
  obtain ⟨s, hs, rfl⟩ := Option.map_eq_some_iff.1 h
  have hkey : s.node = key := by simpa using Array.find?_some hs
  obtain ⟨i, hi⟩ := Array.getElem?_of_mem (Array.mem_of_find?_eq_some hs)
  have hs' : t.scope? ⟨i⟩ = some s := hi
  exact ⟨s, by rwa [ht.id hs'], hkey⟩

section

variable {root : Tree} {scopes : ScopeTree} {t : TokenSite}

/-- Around a scope whose node is around a token, every scope has a node around the
token. -/
theorem ScopeTree.Sound.isBelow (hsound : scopes.Sound root) (htiled : root.Tiled) (ht : t ∈ root.sites)
    {n : Tree} (hn : n ∈ t.above) {inner outer : ScopeId} {s r : Scope}
    (hs : scopes.scope? inner = some s) (hnode : n.key? = some s.node)
    (hr : scopes.scope? outer = some r) (houter : outer ∈ scopes.ancestors inner) :
    t.isBelow r.node = true := by
  obtain ⟨m, hm, hkey⟩ := hsound.nested.placed hr
  have hcovers : m.span.covers t.item.span = true := by
    rw [Tree.span_of_key? hkey]
    refine Span.covers_trans (hsound.nested.covers hsound.ranked hs houter hr) ?_
    rw [← Tree.span_of_key? hnode]
    exact (htiled.of_mem_above ht hn).2
  have habove := htiled.mem_above_of_covers hm (by rw [hkey]; nofun) ht hcovers
  exact List.any_eq_true.2 ⟨m, habove, by rw [hkey]; exact beq_self_eq_true _⟩

end

/-! ## What an identifier refers to -/

namespace Database

variable {d : Database} {file owner : FileId} {source : SourceFile} {t : TokenSite} {scope : ScopeId}
  {symbol : SymbolId}

/-- **A token is where a symbol can be meant**: below the node of the symbol's scope, and
written like the symbol. -/
def Sighted (source : SourceFile) (scope : ScopeId) (symbol : SymbolId) (t : TokenSite) : Prop :=
  ∃ script s declared, source.script = some script ∧ script.scopes.scope? scope = some s
    ∧ script.scopes.symbol? symbol = some declared ∧ t.isBelow s.node = true
    ∧ sameName t.item.text declared.name = true

/-- A scope that a node around a token opens. -/
theorem exists_scope_of_scopeOf? (hfile : d.file? file = some source) (hsound : source.Sound)
    {node : NodeSite} {script : Script} (h : d.scopeOf? file node = some (script, scope)) :
    source.script = some script
      ∧ ∃ s, script.scopes.scope? scope = some s ∧ node.item.key? = some s.node := by
  rw [scopeOf?, scriptOf?, hfile, Option.bind_some] at h
  obtain ⟨script', hscript, h⟩ := Option.bind_eq_some_iff.1 h
  obtain ⟨key, hkey, h⟩ := Option.bind_eq_some_iff.1 h
  obtain ⟨scope', hscope, h⟩ := Option.bind_eq_some_iff.1 h
  obtain ⟨rfl, rfl⟩ := Prod.mk.inj (Option.some.inj h)
  obtain ⟨s, hs, rfl⟩ := ScopeTree.exists_scope_of_scopeOf? (hsound.scopes hscript).ranked hscope
  exact ⟨hscript, s, hs, hkey⟩

/-- The word of a name is the token in it. -/
theorem text_eq_of_parent (hsound : source.Sound) (ht : t ∈ source.root.sites)
    (hkind : t.item.kind = .ident) {p : NodeSite} (hp : t.parent? = some p)
    (hnaming : p.item.isNode NodeKind.isNaming = true) : View.Identifier.text p.item = t.item.text := by
  have habove := Site.above_of_parent? hp
  have hholds := (hsound.tiled.of_mem_above ht (p := p.item) (by rw [habove]; exact List.mem_cons_self)).1
  have hchild := hsound.tiled.leaf_mem_children ht habove
  have hformed := hholds.formed hsound.formed
  cases hitem : p.item with
  | leaf => rw [hitem] at hnaming; cases hnaming
  | node kind span cs =>
    rw [hitem] at hnaming hchild hformed
    exact Tree.text_eq_of_isName (hformed.named hnaming) hchild hkind

/-- **How a token comes to mean something**: a scope around it knows its name, or its name
is a global one. -/
inductive ComesFrom (d : Database) (file : FileId) (t : TokenSite) : Definition → Prop
  | bound {n : NodeSite} (hn : n.item ∈ t.above) {script : Script} {inner : ScopeId}
    (hscope : d.scopeOf? file n = some (script, inner)) {scope : ScopeId}
    (houter : scope ∈ script.scopes.ancestors inner) {s : Scope}
    (hs : script.scopes.scope? scope = some s) {symbol : SymbolId}
    (hfound : s.symbols.find? t.item.text = some symbol) : ComesFrom d file t (.bound file scope symbol)
  | global {e : GlobalEntry} (he : d.globals.find? t.item.text = some e) : ComesFrom d file t (.global e)

/-- **What a definition says of a token** that has it. -/
def Fits (file : FileId) (source : SourceFile) (t : TokenSite) : Definition → Prop
  | .bound owner scope symbol => owner = file ∧ Sighted source scope symbol t
  | .global e => sameName t.item.text e.name = true

section

variable {definition : Definition}

theorem comesFrom_boundDefinition? (hfile : d.file? file = some source) (hsound : source.Sound)
    {around : Option NodeSite} (haround : ∀ n, around = some n → n.item ∈ t.above)
    (h : d.boundDefinition? file around t.item.text = some definition) : d.ComesFrom file t definition := by
  rw [boundDefinition?] at h
  obtain ⟨n, hn, h⟩ := Option.bind_eq_some_iff.1 h
  obtain ⟨⟨script, inner⟩, hscope, h⟩ := Option.bind_eq_some_iff.1 h
  obtain ⟨⟨outer, found⟩, hresolve, h⟩ := Option.bind_eq_some_iff.1 h
  obtain rfl := Option.some.inj h
  have hranked := (hsound.scopes (exists_scope_of_scopeOf? hfile hsound hscope).1).ranked
  obtain ⟨before, after, r, hancestors, hr, hfound, -⟩ := ScopeTree.resolve?_eq_some hranked hresolve
  refine .bound (haround n hn) hscope ?_ hr hfound
  rw [hancestors]
  exact List.mem_append_right _ List.mem_cons_self

theorem comesFrom_definitionOfVariable? (hfile : d.file? file = some source) (hsound : source.Sound)
    {decl : NodeSite} (hdecl : ∀ n ∈ decl.above, n ∈ t.above)
    (h : d.definitionOfVariable? file decl t.item.text = some definition) :
    d.ComesFrom file t definition := by
  rw [definitionOfVariable?] at h
  obtain ⟨n, hn, h⟩ := Option.bind_eq_some_iff.1 h
  obtain ⟨⟨script, inner⟩, hscope, h⟩ := Option.bind_eq_some_iff.1 h
  obtain ⟨r, hr, h⟩ := Option.bind_eq_some_iff.1 h
  obtain ⟨found, hfound, h⟩ := Option.bind_eq_some_iff.1 h
  obtain rfl := Option.some.inj h
  have hranked := (hsound.scopes (exists_scope_of_scopeOf? hfile hsound hscope).1).ranked
  refine .bound (hdecl _ (NodeSite.mem_above_of_scope? hn)) hscope ?_ hr hfound
  rw [ScopeTree.ancestors_eq hranked hr]
  exact List.mem_cons_self

theorem comesFrom_globalDefinition? (h : d.globalDefinition? t.item.text = some definition) :
    d.ComesFrom file t definition := by
  obtain ⟨e, he, rfl⟩ := Option.map_eq_some_iff.1 h
  exact .global he

/-- **What a token means comes from a scope around it or is global.** -/
theorem comesFrom_definitionOf? (hfile : d.file? file = some source) (hsound : source.Sound)
    (ht : t ∈ source.root.sites) (hkind : t.item.kind = .ident)
    (h : d.definitionOf? file t = some definition) : d.ComesFrom file t definition := by
  obtain ⟨p, hp, h⟩ := Option.bind_eq_some_iff.1 h
  have habove := Site.above_of_parent? hp
  have hname := text_eq_of_parent hsound ht hkind hp
  split at h
  · next huse =>
    -- Where the name is used.
    rw [definitionOfUse?, hname ((Tree.isNode_eq huse).trans rfl)] at h
    split at h
    · cases h
    · split at h
      · exact comesFrom_globalDefinition? h
      · rcases Option.or_eq_some_iff.1 h with h | ⟨-, h⟩
        · refine comesFrom_boundDefinition? hfile hsound (fun n hn => ?_) h
          rw [habove]
          exact List.mem_cons_of_mem _ (NodeSite.mem_above_of_scope? hn)
        · exact comesFrom_globalDefinition? h
  · split at h
    · next hdeclared =>
      -- Where the name is declared.
      rw [definitionOfName?, hname ((Tree.isNode_eq hdeclared).trans rfl)] at h
      obtain ⟨decl, hdecl, h⟩ := Option.bind_eq_some_iff.1 h
      split at h
      · refine comesFrom_definitionOfVariable? hfile hsound (fun n hn => ?_) h
        rw [habove, Site.above_of_parent? hdecl]
        exact List.mem_cons_of_mem _ (List.mem_cons_of_mem _ hn)
      · split at h
        · exact comesFrom_globalDefinition? h
        · cases h
    · cases h

/-- **What a token refers to fits the token.** -/
theorem fits_definitionOf? (hnamed : d.globals.Named) (hfile : d.file? file = some source)
    (hsound : source.Sound) (ht : t ∈ source.root.sites) (hkind : t.item.kind = .ident)
    (h : d.definitionOf? file t = some definition) : Fits file source t definition := by
  cases comesFrom_definitionOf? hfile hsound ht hkind h with
  | bound hn hscope houter hr hfound =>
    obtain ⟨hscript, s, hs, hnode⟩ := exists_scope_of_scopeOf? hfile hsound hscope
    have hscopes := hsound.scopes hscript
    obtain ⟨declared, hdeclared, hname⟩ := hscopes.symbol hr hfound
    exact ⟨rfl, _, _, declared, hscript, hr, hdeclared,
      hscopes.isBelow hsound.tiled ht hn hs hnode hr houter, hname⟩
  | global he => exact hnamed _ _ he

end

/-! ## What a search finds -/

/-- **An identifier of an open file refers to the thing.** -/
structure Refers (d : Database) (definition : Definition) (r : Reference) : Prop where
  identifier : ∃ source, d.file? r.file = some source ∧ r.token ∈ source.root.sites
  kind : r.token.item.kind = .ident
  same : ∃ other, d.definitionOf? r.file r.token = some other ∧ other.isSame definition = true

variable {definition other : Definition} {r : Reference}

/-- The tokens of a file that are searched are among its tokens. -/
theorem sublist_of_searched? {sites : List TokenSite} {name : String}
    (h : d.searched? file definition = some (sites, name)) :
    ∃ source, d.file? file = some source ∧ sites.Sublist source.root.sites := by
  cases definition with
  | bound owner scope symbol =>
    rw [searched?] at h
    obtain ⟨source, hfile, h⟩ := Option.bind_eq_some_iff.1 h
    obtain ⟨script, -, h⟩ := Option.bind_eq_some_iff.1 h
    obtain ⟨-, -, h⟩ := Option.bind_eq_some_iff.1 h
    obtain ⟨s, -, h⟩ := Option.bind_eq_some_iff.1 h
    obtain ⟨declared, -, h⟩ := Option.bind_eq_some_iff.1 h
    -- A local variable is searched for below its scope, so some of the tokens are left out.
    obtain ⟨rfl, -⟩ := Prod.mk.inj (Option.some.inj h)
    exact ⟨source, hfile, List.filter_sublist⟩
  | global e =>
    rw [searched?] at h
    obtain ⟨source, hfile, h⟩ := Option.bind_eq_some_iff.1 h
    obtain ⟨rfl, -⟩ := Prod.mk.inj (Option.some.inj h)
    exact ⟨source, hfile, List.Sublist.refl _⟩

/-- What fits a token is searched for at the token. -/
theorem searched?_of_fits (hfile : d.file? file = some source) (ht : t ∈ source.root.sites)
    (hfits : Fits file source t definition) : ∃ sites name, d.searched? file definition = some (sites, name)
      ∧ t ∈ sites ∧ sameName t.item.text name = true := by
  cases definition with
  | bound owner scope symbol =>
    obtain ⟨rfl, script, s, declared, hscript, hs, hdeclared, hbelow, hname⟩ := hfits
    refine ⟨source.root.sites.filter (·.isBelow s.node), declared.name, ?_,
      List.mem_filter.2 ⟨ht, hbelow⟩, hname⟩
    -- The file that was asked for owns the variable.
    have hsame : (guard (owner = owner) : Option Unit) = some () := if_pos rfl
    rw [searched?, hfile, Option.bind_eq_bind, Option.bind_some, hscript, Option.bind_eq_bind,
      Option.bind_some, hsame, Option.bind_eq_bind, Option.bind_some, hs, Option.bind_eq_bind,
      Option.bind_some, hdeclared]
    rfl
  | global e =>
    refine ⟨source.root.sites, e.name, ?_, ht, hfits⟩
    simp [searched?, hfile]

/-- Of two that are the same both fit or none. -/
theorem Fits.congr (h : Fits file source t other) (hsame : other.isSame definition = true) :
    Fits file source t definition := by
  cases definition with
  | bound owner scope symbol => rwa [Definition.isSame_bound.1 hsame] at h
  | global e =>
    obtain ⟨e', rfl, hname⟩ := Definition.isSame_global.1 hsame
    exact (sameName_iff _ _).2 (((sameName_iff _ _).1 h).trans hname)

/-- **What a search relies on** in a workspace. -/
structure Searchable (d : Database) : Prop where
  named : d.globals.Named
  sound {file : FileId} {source : SourceFile} : d.file? file = some source → source.Sound

theorem searchable_session (catalog : Catalog) (calls : List Operation) :
    (session catalog calls).1.Searchable :=
  ⟨named_session catalog calls, fun h => sound_session catalog calls h⟩

/-- What is looked for in a file is what refers to the thing. -/
theorem mem_occurrences_iff (hd : d.Searchable) :
    t ∈ d.occurrences file definition ↔ d.Refers definition ⟨file, t⟩ := by
  rw [occurrences]
  constructor
  -- What is found is an identifier of the file that bears the name and has this definition.
  · intro h
    split at h
    · cases h
    · next sites name hsearched =>
      obtain ⟨ht, hcond⟩ := List.mem_filter.1 h
      simp only [Bool.and_eq_true, beq_iff_eq, Option.any_eq_true] at hcond
      obtain ⟨⟨hkind, -⟩, hsame⟩ := hcond
      obtain ⟨source, hfile, hsites⟩ := sublist_of_searched? hsearched
      exact ⟨⟨source, hfile, hsites.subset ht⟩, hkind, hsame⟩
  · rintro ⟨⟨source, hfile, ht⟩, hkind, other, hother, hsame⟩
    -- A token that refers to it fits, so it is among those that are searched.
    have hfits := (fits_definitionOf? hd.named hfile (hd.sound hfile) ht hkind hother).congr hsame
    obtain ⟨sites, name, hsearched, hmem, hname⟩ := searched?_of_fits hfile ht hfits
    rw [hsearched]
    refine List.mem_filter.2 ⟨hmem, ?_⟩
    simp only [Bool.and_eq_true, beq_iff_eq, Option.any_eq_true]
    exact ⟨⟨hkind, hname⟩, other, hother, hsame⟩

theorem mem_fileIds_iff : file ∈ d.fileIds ↔ ∃ source, d.file? file = some source := by
  rw [fileIds, List.mem_map]
  constructor
  · rintro ⟨e, he, rfl⟩
    exact ⟨e.value, file?_eq_some.2 ⟨e, he, rfl, rfl⟩⟩
  · rintro ⟨source, hsource⟩
    obtain ⟨e, he, hid, -⟩ := file?_eq_some.1 hsource
    exact ⟨e, he, hid⟩

/-- A symbol is meant in its file only. -/
theorem mem_filesOf (hd : d.Searchable) (h : d.Refers definition r) : r.file ∈ d.filesOf definition := by
  obtain ⟨⟨source, hfile, ht⟩, hkind, other, hother, hsame⟩ := h
  cases definition with
  | bound owner scope symbol =>
    have hfits := (fits_definitionOf? hd.named hfile (hd.sound hfile) ht hkind hother).congr hsame
    exact List.mem_singleton.2 hfits.1.symm
  | global e => exact mem_fileIds_iff.2 ⟨source, hfile⟩

/-- **The search finds what refers to the thing**, and nothing else. -/
theorem mem_referencesTo_iff (hd : d.Searchable) :
    r ∈ d.referencesTo definition ↔ d.Refers definition r := by
  rw [referencesTo, List.mem_flatMap]
  constructor
  · rintro ⟨file, -, h⟩
    obtain ⟨t, ht, rfl⟩ := List.mem_map.1 h
    exact (mem_occurrences_iff hd).1 ht
  · intro h
    exact ⟨r.file, mem_filesOf hd h, List.mem_map.2 ⟨r.token, (mem_occurrences_iff hd).2 h, rfl⟩⟩

end Database

/-! ## In which order -/

/-- The reference comes first: its file has the smaller number, or it stands in front of
the other in one file. -/
def Reference.Before (r r' : Reference) : Prop :=
  r.file.index < r'.file.index ∨ r.file = r'.file ∧ r.span.start < r'.span.start

namespace Database

variable {d : Database} {definition other : Definition}

theorem pairwise_occurrences (hd : d.Searchable) (file : FileId) :
    (d.occurrences file definition).Pairwise fun t t' => t.item.start < t'.item.start := by
  rw [occurrences]
  split
  · exact .nil
  · next sites name hsearched =>
    obtain ⟨source, hfile, hsites⟩ := sublist_of_searched? hsearched
    have htiled := (hd.sound hfile).tiled
    refine List.Pairwise.sublist (List.filter_sublist.trans hsites) ?_
    refine htiled.sites_pairwise.imp_of_mem fun {t t'} ht _ h => ?_
    exact Nat.lt_of_lt_of_le (htiled.site_proper ht) h

theorem pairwise_filesOf (d : Database) (definition : Definition) :
    (d.filesOf definition).Pairwise fun file file' => file.index < file'.index := by
  cases definition with
  | bound => exact List.pairwise_singleton _ _
  | global => exact List.pairwise_map.2 (List.pairwise_map.1 d.sources.ascending)

/-- **References are found in order**, each once. -/
theorem pairwise_referencesTo (hd : d.Searchable) (definition : Definition) :
    (d.referencesTo definition).Pairwise Reference.Before := by
  rw [referencesTo, List.pairwise_flatMap]
  refine ⟨fun file _ => ?_, (pairwise_filesOf d definition).imp fun {file file'} hlt => ?_⟩
  · rw [List.pairwise_map]
    exact (pairwise_occurrences hd file).imp fun h => .inr ⟨rfl, h⟩
  · intro r hr r' hr'
    obtain ⟨-, -, rfl⟩ := List.mem_map.1 hr
    obtain ⟨-, -, rfl⟩ := List.mem_map.1 hr'
    exact .inl hlt

/-! ## Asking again -/

/-- What is the same has the same references. -/
theorem referencesTo_congr (h : other.isSame definition = true) :
    d.referencesTo other = d.referencesTo definition := by
  cases definition with
  -- A local variable is the same only as itself. A global one is searched for by its name.
  | bound => rw [Definition.isSame_bound.1 h]
  | global e =>
    obtain ⟨e', rfl, hname⟩ := Definition.isSame_global.1 h
    have hoccurrences : ∀ file, d.occurrences file (.global e') = d.occurrences file (.global e) := by
      intro file
      rw [occurrences, occurrences, searched?, searched?]
      cases d.file? file with
      | none => rfl
      | some source =>
        refine List.filter_congr fun t _ => ?_
        simp only [sameName, hname, Definition.isSame_congr h]
    rw [referencesTo, referencesTo, filesOf, filesOf]
    simp only [hoccurrences]

/-- **A cursor in an identifier means what it refers to.** -/
theorem definitionAt?_eq {file : FileId} {source : SourceFile} {t : TokenSite}
    (hfile : d.file? file = some source) (htiled : source.root.Tiled) (ht : t ∈ source.root.sites)
    (hkind : t.item.kind = .ident) {offset : Nat} (hfrom : t.item.start ≤ offset)
    (huntil : offset < t.item.stop) :
    d.definitionAt? file offset = (d.definitionOf? file t).map (Prod.mk t) := by
  have hnear := htiled.identifierNear?_eq ht hkind hfrom huntil
  cases hdef : d.definitionOf? file t <;> simp [definitionAt?, hfile, hnear, hdef]

/-- A cursor in an identifier asks for what it refers to. -/
theorem referencesAt_eq {file : FileId} {source : SourceFile} {t : TokenSite}
    (hfile : d.file? file = some source) (htiled : source.root.Tiled) (ht : t ∈ source.root.sites)
    (hkind : t.item.kind = .ident) (hdef : d.definitionOf? file t = some definition) {offset : Nat}
    (hfrom : t.item.start ≤ offset) (huntil : offset < t.item.stop) :
    d.referencesAt file offset true = d.referencesTo definition := by
  rw [referencesAt, definitionAt?_eq hfile htiled ht hkind hfrom huntil, hdef]
  exact List.filter_eq_self.2 fun r _ => rfl

end Database

/-- **The references of what an identifier refers to are found exactly.** -/
structure Database.FoundExactly (d : Database) (definition : Definition) (identifier : Reference) : Prop where
  /-- What is found are the identifiers of all open files that refer to the same. -/
  exact : ∀ r, r ∈ d.referencesTo definition ↔ d.Refers definition r
  /-- They are in order, and none is found twice. -/
  ordered : (d.referencesTo definition).Pairwise Reference.Before
  /-- The identifier is among them. -/
  self : identifier ∈ d.referencesTo definition
  /-- A cursor in any of them finds the same again. -/
  again : ∀ r ∈ d.referencesTo definition, ∀ offset, r.span.start ≤ offset → offset < r.span.stop →
    d.referencesAt r.file offset true = d.referencesTo definition

/-- **Find-references is exact** in every workspace, for every identifier of an open file
that refers to something. -/
theorem references_exact (catalog : Catalog) (calls : List Operation) {file : FileId} {source : SourceFile}
    {t : TokenSite} {definition : Definition}
    (hfile : (session catalog calls).1.file? file = some source) (ht : t ∈ source.root.sites)
    (hkind : t.item.kind = .ident)
    (hdef : (session catalog calls).1.definitionOf? file t = some definition) :
    (session catalog calls).1.FoundExactly definition ⟨file, t⟩ := by
  have hd := Database.searchable_session catalog calls
  -- Asking at a place that was found gives the same definition, and with it the same list.
  refine
    { exact := fun r => Database.mem_referencesTo_iff hd
      ordered := Database.pairwise_referencesTo hd definition
      self := ?_
      again := fun r hr offset hfrom huntil => ?_ }
  · exact (Database.mem_referencesTo_iff hd).2
      ⟨⟨source, hfile, ht⟩, hkind, definition, hdef, definition.isSame_refl⟩
  · obtain ⟨⟨source', hfile', hr'⟩, hkind', other, hother, hsame⟩ :=
      (Database.mem_referencesTo_iff hd).1 hr
    rw [← Database.referencesTo_congr hsame]
    exact Database.referencesAt_eq hfile' (hd.sound hfile').tiled hr' hkind' hother hfrom huntil

/-- Two scripts that use one name, which neither of them declares. -/
def sharedName : List Operation :=
  [.open (.virtual "a") "scn T\nset y to 1\n",
    .open (.virtual "b") "scn U\nset y to 2\n"]

theorem references_exact_at_shared_name : ∃ source t definition,
    (session .empty sharedName).1.file? ⟨0⟩ = some source ∧ t ∈ source.root.sites ∧ t.item.kind = .ident
      ∧ (session .empty sharedName).1.definitionOf? ⟨0⟩ t = some definition
      ∧ ((session .empty sharedName).1.referencesTo definition).map (fun r => (r.file.index, r.span.start))
        = [(0, 10), (1, 10)]
      ∧ (session .empty sharedName).1.FoundExactly definition ⟨⟨0⟩, t⟩ := by
  have hfound : ((session .empty sharedName).1.file? ⟨0⟩).any (fun source => source.root.sites.any fun t =>
      t.item.kind == .ident && ((session .empty sharedName).1.definitionOf? ⟨0⟩ t).any fun definition =>
        ((session .empty sharedName).1.referencesTo definition).map (fun r => (r.file.index, r.span.start))
          == [(0, 10), (1, 10)]) = true := by
    decide +kernel
  obtain ⟨source, hfile, hfound⟩ := (Option.any_eq_true _ _).1 hfound
  obtain ⟨t, ht, hfound⟩ := List.any_eq_true.1 hfound
  obtain ⟨hkind, hfound⟩ := Bool.and_eq_true_iff.1 hfound
  obtain ⟨definition, hdef, hplaces⟩ := (Option.any_eq_true _ _).1 hfound
  exact ⟨source, t, definition, hfile, ht, eq_of_beq hkind, hdef, eq_of_beq hplaces,
    references_exact .empty sharedName hfile ht (eq_of_beq hkind) hdef⟩

end ScriptSense
