/-
Where the symbols of a script come from.

A symbol gets its name and its place from the identifier in a declaration. To go back
from a table to the text it takes two facts: the identifier is a token of the tree, and
the innermost node around it that opens a scope is the one that has opened the scope of
the table. The second one is not read off the walk. The walk takes the scope along from
the outside in, and a reader of the tree looks for it from the inside out, where it skips
a `foreach` if it comes from the collection. That both mean the same scope at every place
is what the walk keeps (`keeping_sited`).
-/
import ScriptSense.Editor.Definition
import ScriptSense.Proofs.Script.Binding
import ScriptSense.Proofs.Script.Keeping

set_option autoImplicit false

namespace ScriptSense

/-! ## Names of declarations -/

/-- **The token is the name that a declaration declares**: the identifier in the name
right under the node. -/
structure NodeSite.Names (root : Tree) (decl : NodeSite) (t : TokenSite) : Prop where
  mem : t ∈ root.sites
  kind : t.item.kind = .ident
  above : ∃ name, t.above = name :: decl.item :: decl.above ∧ name.isNode (· == .name) = true

/-- Where a view finds the identifier of a declaration, there is its name. -/
theorem NodeSite.names_of_token? {root : Tree} {decl : NodeSite} (hs : root.Stands decl)
    {name : decl.item.Child} (hname : decl.item.node? .name = some name) {ident : Token}
    (hident : View.Identifier.token? name.val = some ident) :
    decl.Names root ⟨ident, name.val :: decl.item :: decl.above⟩ := by
  obtain ⟨hkind, before, after, hchildren, -⟩ :=
    Tree.tokenWhere?_eq_some (p := (· == .ident)) (t := name.val) hident
  have hleaf : root.Stands ⟨.leaf ident, name.val :: decl.item :: decl.above⟩ :=
    (hs.child name.property).child (hchildren ▸ List.mem_append_right _ List.mem_cons_self)
  exact ⟨hleaf.mem_sites, eq_of_beq hkind, name.val, rfl, Tree.isNode_of_nodeWhere? hname⟩

/-- **The declaration declares the symbol** in the scope that a node opens, and the token
is its name. -/
structure Symbol.DeclaredBy (root : Tree) (symbol : Symbol) (node : NodeKey) (decl : NodeSite)
    (t : TokenSite) : Prop where
  names : decl.Names root t
  isDeclaration : decl.item.isNode (· == .varDecl) = true
  text : t.item.text = symbol.name
  span : t.item.span = symbol.nameSpan
  scope : ∃ n, decl.scope? = some n ∧ n.item.key? = some node

/-- **The symbols of the tables are declared** in the tree, each in the scope that knows it. -/
structure ScopeTree.Sited (root : Tree) (t : ScopeTree) : Prop where
  declared {id : ScopeId} {s : Scope} {name : String} {x : SymbolId} : t.scope? id = some s →
    s.symbols.find? name = some x → ∃ symbol decl token, t.symbol? x = some symbol
      ∧ sameName name symbol.name = true ∧ symbol.DeclaredBy root s.node decl token

namespace ScopeTree.Sited

variable {root : Tree} {t : ScopeTree} {p : ScopeId} {r : Scope}

theorem ofRoot (key : NodeKey) : (ScopeTree.ofRoot key).Sited root := by
  refine ⟨fun hs hx => ?_⟩
  obtain ⟨-, rfl⟩ := eq_of_scope?_ofRoot hs
  cases hx

/-- A scope that is opened knows no symbol. -/
theorem openScope (h : t.Sited root) (hp : t.scope? p = some r) (kind : ScopeKind) (node : NodeKey) :
    (t.openScope p kind node).2.Sited root := by
  refine ⟨fun {id s name x} hs hx => ?_⟩
  have hlt := lt_size_of_scope? hp
  rw [scope?_openScope hlt] at hs
  split at hs
  · rw [← Option.some.inj hs] at hx
    cases hx
  · obtain ⟨s', hs', rfl⟩ := Option.map_eq_some_iff.1 hs
    have hsame : ∀ q : Scope, ∀ more, (if p = id then { q with children := more } else q).symbols = q.symbols
        ∧ (if p = id then { q with children := more } else q).node = q.node := by
      intro q more
      split <;> exact ⟨rfl, rfl⟩
    rw [(hsame s' _).1] at hx
    rw [(hsame s' _).2]
    obtain ⟨symbol, decl, token, hsymbol, hname, hdeclared⟩ := h.declared hs' hx
    exact ⟨symbol, decl, token, (extends_openScope hlt kind node).symbol? hsymbol, hname, hdeclared⟩

/-- A symbol is entered under its name, in the scope where it is declared. -/
theorem declare (h : t.Sited root) (hp : t.scope? p = some r) {symbol : Symbol} {decl : NodeSite}
    {token : TokenSite} (hdeclared : symbol.DeclaredBy root r.node decl token) :
    (t.declare p symbol).2.Sited root := by
  refine ⟨fun {id s name x} hs hx => ?_⟩
  have hold : ∀ {q : Scope}, t.scope? id = some q → q.symbols.find? name = some x →
      ∃ symbol' decl token, (t.declare p symbol).2.symbol? x = some symbol'
        ∧ sameName name symbol'.name = true ∧ symbol'.DeclaredBy root q.node decl token := by
    intro q hs' hx'
    obtain ⟨symbol', decl', token', hsymbol, hname, hdeclared'⟩ := h.declared hs' hx'
    exact ⟨symbol', decl', token', (extends_declare t p symbol).symbol? hsymbol, hname, hdeclared'⟩
  rw [scope?_declare] at hs
  obtain ⟨s', hs', hentered⟩ := Option.map_eq_some_iff.1 hs
  split at hentered
  · next hid =>
    subst hid hentered
    change (s'.symbols.insert symbol.name ⟨t.symbols.size⟩).find? name = some x at hx
    rw [NameMap.find?_insert] at hx
    split at hx
    · next hname =>
      obtain rfl := Option.some.inj (hs'.symm.trans hp)
      rw [← Option.some.inj hx]
      exact ⟨symbol, decl, token, symbol?_declare t p symbol, (sameName_iff _ _).2 hname, hdeclared⟩
    · exact hold (q := s') hs' hx
  · rw [← hentered] at hx ⊢
    exact hold hs' hx

end ScopeTree.Sited

/-! ## Scopes from the inside out -/

theorem scopesAround_cons_of_opens {span : Span} {p : Tree} {ps : List Tree}
    (hopens : p.isNode NodeKind.opensScope = true) (hcollects : p.collects span = false) :
    scopesAround span (p :: ps) = ⟨p, ps⟩ :: scopesAround p.span ps := by
  rw [scopesAround, hopens, hcollects]
  rfl

theorem scopesAround_cons_of_not_opens {span : Span} {p : Tree} {ps : List Tree}
    (hopens : p.isNode NodeKind.opensScope = false) :
    scopesAround span (p :: ps) = scopesAround span ps := by
  rw [scopesAround, hopens]
  rfl

theorem scopesAround_cons_of_collects {span : Span} {p : Tree} {ps : List Tree}
    (hcollects : p.collects span = true) : scopesAround span (p :: ps) = scopesAround span ps := by
  rw [scopesAround, hcollects, Bool.not_true, Bool.and_false]
  rfl

/-- Of the children of a loop only the collection is where the collection is. -/
theorem Tree.Tiled.not_collects {t c : Tree} (ht : t.Tiled) (hc : c ∈ t.children)
    (hkind : c.isNode NodeKind.isExpression = false) {span : Span} (hproper : span.start < span.stop)
    (hcovers : c.span.covers span = true) : t.collects span = false := by
  refine Bool.eq_false_iff.2 fun hcollects => ?_
  obtain ⟨-, hany⟩ := Bool.and_eq_true_iff.1 hcollects
  obtain ⟨c', hc', hcovers'⟩ := (Option.any_eq_true _ _).1 hany
  have hexpression := Tree.isNode_of_nodeAfter? hc'
  have hne : c ≠ c'.val := by
    rintro rfl
    exact Bool.false_ne_true (hkind.symm.trans hexpression)
  have hapart := ht.apart hc c'.property hne
  obtain ⟨hstart, hstop⟩ := Span.covers_iff.1 hcovers
  obtain ⟨hstart', hstop'⟩ := Span.covers_iff.1 hcovers'
  omega

/-! ## What the walk keeps -/

/-- **The walk keeps the symbols of the tables declared**: where it is at work, the scope
that a reader finds is its own. -/
theorem keeping_sited {root : Tree} (ht : root.Tiled) :
    Keeping root (ScopeTree.Sited root) fun s key => ∀ span : Span, span.start < span.stop →
      s.item.span.covers span = true →
        ∃ n, (scopesAround span s.above).head? = some n ∧ n.item.key? = some key where
  through hs hopens hc hkey span hproper hcovers := by
    rw [scopesAround_cons_of_not_opens hopens]
    exact hkey span hproper
      (Span.covers_trans (Span.covers_iff.2 ((hs.holds.tiled ht).covers_child hc)) hcovers)
  collection {t c above key} hs hloop hc hkey span hproper hcovers := by
    have hcollects : t.collects span = true := by
      rw [Tree.collects, hloop, hc]
      exact hcovers
    rw [scopesAround_cons_of_collects hcollects]
    exact hkey span hproper
      (Span.covers_trans (Span.covers_iff.2 ((hs.holds.tiled ht).covers_child c.property)) hcovers)
  inside {t c above key} hs hopens hkey hc hkind span hproper hcovers := by
    rw [scopesAround_cons_of_opens hopens ((hs.holds.tiled ht).not_collects hc hkind hproper hcovers)]
    exact ⟨⟨t, above⟩, rfl, hkey⟩
  opened kind _ h hp _ _ := h.openScope hp kind _
  declared {s t sc r symbol} hs h hp hkey hdecl hsymbol := by
    obtain ⟨name, ident, hname, hident, htext, hspan⟩ := hsymbol.named
    have hproper := hsymbol.start_lt_stop (hs.holds.tiled ht)
    rw [← Tree.span_of_key? hsymbol.key] at hproper
    exact h.declare hp ⟨NodeSite.names_of_token? hs hname hident, hdecl, htext.symm, hspan.symm,
      hkey s.item.span hproper (Span.covers_refl _)⟩

/-! ## Scripts -/

/-- **In a script the symbols of the tables are declared.** -/
theorem sited_ofTree {span : Span} {cs : List Tree} (ht : (Tree.node .script span cs).Tiled)
    {script : Script} (h : Script.ofTree? (.node .script span cs) = some script) :
    script.scopes.Sited (.node .script span cs) :=
  (keeping_sited ht).script (.ofRoot _) h

/-- The name of a script is declared in it. -/
theorem exists_names_ofTree {span : Span} {cs : List Tree} {script : Script}
    (h : Script.ofTree? (.node .script span cs) = some script) :
    ∃ decl token, NodeSite.Names (.node .script span cs) decl token
      ∧ decl.item.isNode (· == .scriptNameDecl) = true
      ∧ token.item.text = script.name ∧ token.item.span = script.nameSpan := by
  rw [Script.ofTree?_node] at h
  obtain ⟨ident, hdeclared, rfl⟩ := Option.map_eq_some_iff.1 h
  obtain ⟨decl, hdecl, hdeclared⟩ := Option.bind_eq_some_iff.1 hdeclared
  obtain ⟨name, hname, hident⟩ := Option.bind_eq_some_iff.1 hdeclared
  exact ⟨⟨decl.val, [.node .script span cs]⟩, _,
    NodeSite.names_of_token? (.child .root decl.property) hname hident,
    Tree.isNode_of_nodeWhere? hdecl, rfl, rfl⟩

end ScriptSense
