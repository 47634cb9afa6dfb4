/-
**Going to a declaration ends there**: what it finds is a declared name, and whoever asks
again from the name is led to the same place.

The first question is answered from tables that were filled when the files were read: by
the number of a symbol, or by the entry of a global name. The second one starts from the
tree, maybe that of another file. They meet at the declaring identifier
(`SourceFile.Traced`). For a symbol it leads back to the scope whose table has the symbol,
so that table is asked for the same name again (`definitionOf?_declared`); the declarations
that a later one in the scope hides are never found. For a global name it leads back to
the table of global names, and since the owner of a script name writes it as its own, up
to case, that table finds the same entry.
-/
import ScriptSense.Proofs.Editor.Origins
import ScriptSense.Proofs.Editor.References

set_option autoImplicit false

namespace ScriptSense

/-! ## Declared names in a file -/

/-- The scope that a node opens is found by the node, if no other one is opened by it. -/
theorem ScopeTree.scopeOf?_eq {t : ScopeTree} (ht : t.Ranked) {id : ScopeId} {s : Scope}
    (hs : t.scope? id = some s)
    (hdistinct : ∀ {id' s'}, t.scope? id' = some s' → s'.node = s.node → id' = id) :
    t.scopeOf? s.node = some id := by
  cases hfound : t.scopeOf? s.node with
  | none =>
    obtain ⟨i, hi⟩ := Array.getElem?_eq_some_iff.1 hs
    have hnone := Array.find?_eq_none.1 (Option.map_eq_none_iff.1 hfound) s (hi ▸ Array.getElem_mem i)
    exact absurd (beq_self_eq_true _) hnone
  | some id' =>
    -- The first scope of the node is found, and the node has only this one.
    obtain ⟨s', hs', hnode⟩ := exists_scope_of_scopeOf? ht hfound
    rw [hdistinct hs' hnode]

/-- **What going to a declaration relies on** in a file. -/
structure SourceFile.Traced (f : SourceFile) : Prop where
  sound : f.Sound
  sited {script : Script} : f.script = some script → script.scopes.Sited f.root
  distinct {script : Script} {id id' : ScopeId} {s s' : Scope} : f.script = some script →
    script.scopes.scope? id = some s → script.scopes.scope? id' = some s' → s.node = s'.node →
    s.node.span.start < s.node.span.stop → id = id'
  titled {script : Script} : f.script = some script → ∃ decl token, NodeSite.Names f.root decl token
    ∧ decl.item.isNode (· == .scriptNameDecl) = true
    ∧ token.item.text = script.name ∧ token.item.span = script.nameSpan

theorem SourceFile.traced_read (catalog : Catalog) (text : String) : (read catalog text).Traced := by
  obtain ⟨span, cs, hroot, ht, hf, hscript⟩ := exists_root_read catalog text
  refine
    { sound := sound_read catalog text
      sited := fun {script} h => hroot ▸ sited_ofTree ht (hscript script h)
      distinct := fun {script _ _ _ _} h => ?_
      titled := fun {script} h => hroot ▸ exists_names_ofTree (hscript script h) }
  obtain ⟨gathered, log, hscopes, hlogged⟩ := logged_ofTree ht hf (hscript script h)
  rw [hscopes]
  exact hlogged.distinct

theorem traced_session (catalog : Catalog) (calls : List Operation) {id : FileId} {f : SourceFile}
    (h : (session catalog calls).1.file? id = some f) : f.Traced := by
  rw [(kept_session catalog calls).file?_eq, Desk.shelf] at h
  obtain ⟨file, -, rfl⟩ := Option.map_eq_some_iff.1 h
  exact SourceFile.traced_read catalog file.2

/-! ## What a declared name refers to -/

namespace Database

variable {d : Database} {file : FileId} {source : SourceFile} {t : TokenSite} {decl : NodeSite}

/-- The name of a declaration refers to what is declared. -/
theorem definitionOf?_of_names (hsound : source.Sound) (h : decl.Names source.root t) :
    d.definitionOf? file t =
      if decl.item.isNode (· == .varDecl) then d.definitionOfVariable? file decl t.item.text
      else if decl.item.isNode (· == .scriptNameDecl) then d.globalDefinition? t.item.text
      else none := by
  obtain ⟨name, habove, hname⟩ := h.above
  have hparent : t.parent? = some ⟨name, decl.item :: decl.above⟩ := by
    rw [Site.parent?, habove]
  have htext := text_eq_of_parent hsound h.mem h.kind hparent ((Tree.isNode_eq hname).trans rfl)
  -- The token stands in a declared name, so it is no use.
  have hnot : name.isNode (· == .nameRef) = false := (Tree.isNode_eq hname).trans rfl
  rw [definitionOf?, hparent, Option.bind_some]
  simp only [hname, hnot, Bool.false_eq_true, if_false, if_true]
  rw [definitionOfName?, htext]
  rfl

/-- **The name of a declared symbol refers to what the table of its scope gives to the
name.** -/
theorem definitionOf?_declared (hfile : d.file? file = some source) (htraced : source.Traced)
    {script : Script} (hscript : source.script = some script) {scope : ScopeId} {s : Scope}
    (hs : script.scopes.scope? scope = some s) {symbol : Symbol}
    (h : symbol.DeclaredBy source.root s.node decl t) :
    d.definitionOf? file t = (s.symbols.find? t.item.text).map (.bound file scope) := by
  obtain ⟨n, hn, hkey⟩ := h.scope
  obtain ⟨name, habove, -⟩ := h.names.above
  -- The node of the scope is around the name, so it is not empty.
  have hmem : n.item ∈ t.above := by
    rw [habove]
    exact List.mem_cons_of_mem _ (List.mem_cons_of_mem _ (NodeSite.mem_above_of_scope? hn))
  have hcovers := (htraced.sound.tiled.of_mem_above h.names.mem hmem).2
  rw [Tree.span_of_key? hkey] at hcovers
  obtain ⟨hstart, hstop⟩ := Span.covers_iff.1 hcovers
  have hproper := htraced.sound.tiled.site_proper h.names.mem
  have hinner : t.item.span.start < t.item.span.stop := hproper
  have hscope : script.scopes.scopeOf? s.node = some scope := by
    refine ScopeTree.scopeOf?_eq (htraced.sound.scopes hscript).ranked hs fun hs' hnode => ?_
    exact (htraced.distinct hscript hs hs' hnode.symm (by omega)).symm
  have hopened : d.scopeOf? file n = some (script, scope) := by
    simp [scopeOf?, scriptOf?, hfile, hscript, hkey, hscope]
  rw [definitionOf?_of_names htraced.sound h.names, if_pos h.isDeclaration, definitionOfVariable?, hn]
  simp only [hopened, hs, Option.bind_eq_bind, Option.bind_some]
  cases s.symbols.find? t.item.text <;> rfl

/-! ## What a used name refers to -/

/-- **A used name refers to the innermost declaration around it**, if the innermost node
around it that opens a scope has a meaning. No other node is asked: where the walk has left
that one out, the scopes around it are not looked at. -/
theorem definitionOfUse?_of_declared (hfile : d.file? file = some source) (hsound : source.Sound)
    {use n : NodeSite} (hmember : use.isMember = false) (hmethod : use.isMethod = false)
    (hn : use.scope? = some n) {script : Script} {inner : ScopeId}
    (hscope : d.scopeOf? file n = some (script, inner)) {outer : ScopeId} {r : Scope}
    (houter : outer ∈ script.scopes.ancestors inner) (hr : script.scopes.scope? outer = some r)
    (hknown : r.symbols.find? (View.Identifier.text use.item) ≠ none) :
    ∃ before scope after s symbol, script.scopes.ancestors inner = before ++ scope :: after
      ∧ script.scopes.scope? scope = some s ∧ s.symbols.find? (View.Identifier.text use.item) = some symbol
      ∧ (∀ id ∈ before, ∀ q, script.scopes.scope? id = some q →
        q.symbols.find? (View.Identifier.text use.item) = none)
      ∧ d.definitionOfUse? file use = some (.bound file scope symbol) := by
  have hranked := (hsound.scopes (exists_scope_of_scopeOf? hfile hsound hscope).1).ranked
  -- An outer scope holds the name, so looking it up does not fail.
  cases hresolve : script.scopes.resolve? inner (View.Identifier.text use.item) with
  | none => exact absurd (ScopeTree.resolve?_eq_none hranked hresolve houter hr) hknown
  | some found =>
    obtain ⟨scope, symbol⟩ := found
    obtain ⟨before, after, s, hancestors, hs, hfound, hbefore⟩ := ScopeTree.resolve?_eq_some hranked hresolve
    refine ⟨before, scope, after, s, symbol, hancestors, hs, hfound, hbefore, ?_⟩
    have hbound : d.boundDefinition? file use.scope? (View.Identifier.text use.item)
        = some (.bound file scope symbol) := by
      simp [boundDefinition?, hn, hscope, hresolve]
    rw [definitionOfUse?, hmember, hmethod, hbound]
    rfl

/-! ## Asking again -/

/-- **The place is that of a name in an open file**, and from its beginning one is led to
it again. -/
structure Settles (d : Database) (owner : FileId) (place : Span) (written : String) : Prop where
  /-- It is the place of an identifier in a name, written so up to case. -/
  name : ∃ source token p, d.file? owner = some source ∧ token ∈ source.root.sites
    ∧ token.item.kind = .ident ∧ token.item.span = place ∧ token.parent? = some p
    ∧ p.item.isNode (· == .name) = true ∧ sameName token.item.text written = true
  again : d.declarationAt? owner place.start = some (owner, place)

/-- A declared name settles, if what it refers to is declared there. -/
theorem settles_of_names {owner : FileId} {place : Span} {written : String} {definition : Definition}
    (hfile : d.file? owner = some source) (htiled : source.root.Tiled) (h : decl.Names source.root t)
    (hspan : t.item.span = place) (hwritten : sameName t.item.text written = true)
    (hdef : d.definitionOf? owner t = some definition)
    (hdeclaration : d.declaration? definition = some (owner, place)) : d.Settles owner place written := by
  obtain ⟨name, habove, hname⟩ := h.above
  refine ⟨⟨source, t, ⟨name, decl.item :: decl.above⟩, hfile, h.mem, h.kind, hspan, ?_, hname, hwritten⟩, ?_⟩
  · rw [Site.parent?, habove]
  · have hproper := htiled.site_proper h.mem
    -- Asking at the first character of the token finds the token itself.
    have hat := definitionAt?_eq (d := d) hfile htiled h.mem h.kind (Nat.le_refl _) hproper
    rw [← hspan]
    change d.declarationAt? owner t.item.start = _
    rw [declarationAt?, hat, hdef]
    exact hspan ▸ hdeclaration

/-- **What going to a declaration relies on** in a workspace. -/
structure Navigable (d : Database) : Prop where
  traced {file : FileId} {source : SourceFile} : d.file? file = some source → source.Traced
  owned {name : String} {e : GlobalEntry} {owner : FileId} : d.globals.find? name = some e →
    e.origin = .script owner → ∃ source, d.file? owner = some source ∧ source.declares name = true

variable {owner : FileId} {place : Span}

/-- A symbol of a script is declared where its name refers to it. -/
theorem Navigable.settles_bound (hd : d.Navigable) (hfile : d.file? file = some source) {script : Script}
    (hscript : source.script = some script) {scope : ScopeId} {s : Scope}
    (hs : script.scopes.scope? scope = some s) {written : String} {symbol : SymbolId}
    (hfound : s.symbols.find? written = some symbol)
    (hplace : d.declaration? (.bound file scope symbol) = some (owner, place)) :
    d.Settles owner place written := by
  have htraced := hd.traced hfile
  obtain ⟨declared, decl, token, hsymbol, hname, hdeclared⟩ := (htraced.sited hscript).declared hs hfound
  have hdeclaration : d.declaration? (.bound file scope symbol) = some (file, declared.nameSpan) := by
    simp [declaration?, scriptOf?, hfile, hscript, hsymbol]
  obtain ⟨rfl, rfl⟩ := Prod.mk.inj (Option.some.inj (hplace.symm.trans hdeclaration))
  rw [← hdeclared.text] at hname
  -- The name is declared as it was found, up to case.
  have hsame := (sameName_iff _ _).1 hname
  refine settles_of_names hfile htraced.sound.tiled hdeclared.names hdeclared.span
    ((sameName_iff _ _).2 hsame.symm) ?_ hplace
  rw [definitionOf?_declared hfile htraced hscript hs hdeclared, ← s.symbols.find?_congr hsame, hfound]
  rfl

/-- The name of a script is declared in the file that owns it. -/
theorem Navigable.settles_global (hd : d.Navigable) {written : String} {e : GlobalEntry}
    (he : d.globals.find? written = some e) (hplace : d.declaration? (.global e) = some (owner, place)) :
    d.Settles owner place written := by
  cases horigin : e.origin with
  | script id =>
    obtain ⟨source, hfile, hdeclares⟩ := hd.owned he horigin
    obtain ⟨name, hscriptName, hsame⟩ := (Option.any_eq_true _ _).1 hdeclares
    obtain ⟨script, hscript, rfl⟩ := Option.map_eq_some_iff.1 hscriptName
    have htraced := hd.traced hfile
    obtain ⟨decl, token, hnames, hkind, htext, hspan⟩ := htraced.titled hscript
    have hdeclaration : d.declaration? (.global e) = some (id, script.nameSpan) := by
      simp [declaration?, horigin, scriptPlace?, scriptOf?, hfile, hscript]
    obtain ⟨rfl, rfl⟩ := Prod.mk.inj (Option.some.inj (hplace.symm.trans hdeclaration))
    rw [← htext, sameName_iff] at hsame
    refine settles_of_names hfile htraced.sound.tiled hnames hspan ((sameName_iff _ _).2 hsame.symm) ?_ hplace
    -- The name of a script is no variable, so the global table is asked for it again.
    have hnot : decl.item.isNode (· == .varDecl) = false := (Tree.isNode_eq hkind).trans rfl
    rw [definitionOf?_of_names htraced.sound hnames, hnot, hkind, globalDefinition?,
      ← d.globals.find?_congr hsame, he]
    rfl
  | builtin | form | implicit => simp [declaration?, horigin] at hplace

end Database

/-! ## Sessions -/

/-- The catalog does not say that a name is one of a script. -/
theorem Catalog.origin?_ne_script (c : Catalog) (name : String) (owner : FileId) :
    c.origin? name ≠ some (.script owner) := by
  rw [origin?]
  intro h
  split at h
  · cases h
  · split at h <;> cases h

/-- A name of a script is owned by the file that its entry names. -/
theorem Coherent.owner?_of_origin {catalog : Catalog} {d : Database} {desk : Desk}
    (h : Coherent catalog d desk) {name : String} {e : GlobalEntry} {owner : FileId}
    (he : d.globals.find? name = some e) (horigin : e.origin = .script owner) :
    d.owner? name = some owner := by
  have hentry := h.origin name e he
  rw [horigin] at hentry
  cases hcatalog : catalog.origin? name with
  | some o =>
    rw [hcatalog, Option.getD_some] at hentry
    -- The catalog gives no name to a script.
    exact absurd (hcatalog.trans (congrArg some hentry.symm)) (catalog.origin?_ne_script name owner)
  | none =>
    rw [hcatalog, Option.getD_none] at hentry
    cases howner : d.owner? name with
    | none =>
      rw [howner] at hentry
      cases hentry
    | some id =>
      rw [howner] at hentry
      rw [GlobalOrigin.script.inj hentry]

theorem navigable_session (catalog : Catalog) (calls : List Operation) :
    (session catalog calls).1.Navigable where
  traced h := traced_session catalog calls h
  owned {name e owner} he horigin := by
    have hkept := kept_session catalog calls
    have howner := hkept.coherent.owner?_of_origin he horigin
    rw [hkept.file?_eq]
    exact hkept.coherent.owner name owner howner

/-- **Going to a declaration ends there**, in every workspace and from every cursor: it is
answered with the place of a name in an open file, which is written like the identifier
at the cursor, and who asks from there gets the same answer. -/
theorem declaration_settles (catalog : Catalog) (calls : List Operation) {file : FileId} {offset : Nat}
    {owner : FileId} {place : Span}
    (h : (session catalog calls).1.declarationAt? file offset = some (owner, place)) :
    ∃ source asked, (session catalog calls).1.file? file = some source
      ∧ source.root.identifierNear? offset = some asked
      ∧ (session catalog calls).1.Settles owner place asked.item.text := by
  have hd := navigable_session catalog calls
  obtain ⟨⟨found, meant⟩, hat, hplace⟩ := Option.bind_eq_some_iff.1 h
  obtain ⟨source, hfile, hat⟩ := Option.bind_eq_some_iff.1 hat
  obtain ⟨asked, hnear, hat⟩ := Option.bind_eq_some_iff.1 hat
  obtain ⟨definition, hdef, hat⟩ := Option.bind_eq_some_iff.1 hat
  obtain ⟨rfl, rfl⟩ := Prod.mk.inj (Option.some.inj hat)
  have hsound := (hd.traced hfile).sound
  obtain ⟨hmem, hkind⟩ := hsound.tiled.mem_sites_of_identifierNear? hnear
  refine ⟨source, asked, hfile, hnear, ?_⟩
  -- The definition is a local variable of the file, or an entry of the global table.
  cases Database.comesFrom_definitionOf? hfile hsound hmem hkind hdef with
  | bound hn hscope houter hs hfound =>
    exact hd.settles_bound hfile (Database.exists_scope_of_scopeOf? hfile hsound hscope).1 hs hfound hplace
  | global he => exact hd.settles_global he hplace

/-- A script that declares a variable twice, and one that names the first script. -/
def namedScripts : List Operation :=
  [.open (.virtual "a") "scn T\nint x\nint X\nset x to 1\n",
    .open (.virtual "b") "scn U\nset t to 2\n"]

theorem declaration_settles_at_named_scripts :
    (session .empty namedScripts).1.declarationAt? ⟨1⟩ 10 = some (⟨0⟩, ⟨4, 5⟩)
      ∧ ∃ source asked, (session .empty namedScripts).1.file? ⟨1⟩ = some source
        ∧ source.root.identifierNear? 10 = some asked
        ∧ (session .empty namedScripts).1.Settles ⟨0⟩ ⟨4, 5⟩ asked.item.text := by
  have h : (session .empty namedScripts).1.declarationAt? ⟨1⟩ 10 = some (⟨0⟩, ⟨4, 5⟩) := by
    decide +kernel
  exact ⟨h, declaration_settles .empty namedScripts h⟩

/-- From the first declaration one is led to the one that hides it. -/
example : (session .empty namedScripts).1.declarationAt? ⟨0⟩ 10 = some (⟨0⟩, ⟨16, 17⟩) := by
  decide +kernel

end ScriptSense
