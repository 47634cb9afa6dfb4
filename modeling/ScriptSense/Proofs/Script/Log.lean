/-
The scopes of a script against the log of its declarations.

The table of a scope forgets: of each name it knows the last symbol only. What it shows
is therefore measured against a log that forgets nothing, in which every symbol stands
with the scope that declares it, in the order of declaration (`Logged`). A name is
looked up in the log as it is at that moment; that nothing which is logged afterwards
would have been in sight is a matter of where it stands in the text (`Follows`), and then
the name is bound as it should be (`lexical_of_follows`).
-/
import Mathlib.Data.List.Nodup
import ScriptSense.Proofs.Script.Running
import ScriptSense.Proofs.Script.Scopes
import ScriptSense.Proofs.Script.Uses

set_option autoImplicit false

namespace ScriptSense

/-- A declaration: the scope that declares the symbol, its node, and the symbol. -/
structure Entry where
  /-- The scope that declares the symbol. -/
  home : ScopeId
  /-- The node that opens the scope. -/
  node : NodeKey
  /-- The symbol. -/
  symbol : Symbol

/-- What a scope knows of a name: the last symbol of that name that it declares. -/
def Latest (log : List Entry) (id : ScopeId) (name : String) : Option SymbolId → Prop
  | none => ∀ e ∈ log, e.home = id → foldCase e.symbol.name ≠ foldCase name
  | some x => ∃ e, log[x.index]? = some e ∧ e.home = id ∧ foldCase e.symbol.name = foldCase name
      ∧ ∀ i e', log[i]? = some e' → e'.home = id → foldCase e'.symbol.name = foldCase name →
        i ≤ x.index

/-- **What has been collected agrees with a log of the declarations.** -/
structure Logged (g : Gathered) (log : List Entry) : Prop where
  ranked : g.scopes.Ranked
  symbols : g.scopes.symbols.toList = log.map Entry.symbol
  homes {e : Entry} : e ∈ log → ∃ s, g.scopes.scope? e.home = some s ∧ s.node = e.node
  tables {id : ScopeId} {s : Scope} : g.scopes.scope? id = some s →
    ∀ name, Latest log id name (s.symbols.find? name)
  /-- What a scope declares later stands later. -/
  ordered : log.Pairwise fun e e' =>
    e.home = e'.home → e.symbol.decl.span.stop ≤ e'.symbol.decl.span.start
  /-- No declaration is empty. -/
  proper {e : Entry} : e ∈ log → e.symbol.decl.span.start < e.symbol.decl.span.stop
  /-- No two scopes are opened by one node, unless it is empty. -/
  distinct {id id' : ScopeId} {s s' : Scope} : g.scopes.scope? id = some s →
    g.scopes.scope? id' = some s' → s.node = s'.node → s.node.span.start < s.node.span.stop → id = id'
  /-- The names from outside are listed under what they are, up to case. -/
  external {entry : String × String} : entry ∈ g.external.entries → foldCase entry.2 = entry.1

namespace Logged

variable {g : Gathered} {log : List Entry} {id : ScopeId} {name : String}

theorem symbol?_eq (h : Logged g log) (x : SymbolId) :
    g.scopes.symbol? x = (log[x.index]?).map Entry.symbol := by
  rw [ScopeTree.symbol?, ← Array.getElem?_toList, h.symbols, List.getElem?_map]

theorem size_symbols (h : Logged g log) : g.scopes.symbols.size = log.length := by
  rw [← Array.length_toList, h.symbols, List.length_map]

theorem home_lt (h : Logged g log) {e : Entry} (he : e ∈ log) :
    e.home.index < g.scopes.scopes.size := by
  obtain ⟨s, hs, -⟩ := h.homes he
  exact ScopeTree.lt_size_of_scope? hs

/-- A name from outside is listed once. -/
theorem countP_values (h : Logged g log) (hname : g.external.contains name = true) :
    g.external.values.countP (fun other => foldCase other == foldCase name) = 1 := by
  have hcount : g.external.values.countP (fun other => foldCase other == foldCase name)
      = g.external.keys.count (foldCase name) := by
    rw [NameMap.values, NameMap.keys, Entries.keys, List.count, List.countP_map, List.countP_map]
    exact List.countP_congr fun entry hentry => by simp [h.external hentry]
  refine hcount.trans (List.count_eq_one_of_mem g.external.nodup ?_)
  refine Classical.byContradiction fun hnone => ?_
  rw [NameMap.contains, NameMap.find?, Entries.get?_eq_none.2 hnone] at hname
  cases hname

/-! ## Opening a scope -/

theorem openScope (h : Logged g log) {p : ScopeId} (hp : p.index < g.scopes.scopes.size)
    (kind : ScopeKind) {node : NodeKey} (hfresh : ∀ {id s}, g.scopes.scope? id = some s →
      node.span.start < node.span.stop → s.node ≠ node) :
    Logged { g with scopes := (g.scopes.openScope p kind node).2 } log where
  ranked := h.ranked.openScope hp kind node
  symbols := h.symbols
  homes he := by
    obtain ⟨s, hs, hnode⟩ := h.homes he
    obtain ⟨s', hs', -, hnode'⟩ := (ScopeTree.extends_openScope hp kind node).scope hs
    exact ⟨s', hs', hnode'.trans hnode⟩
  tables {id s} hs name := by
    rw [ScopeTree.scope?_openScope hp] at hs
    split at hs
    -- Nothing is logged in a scope that did not exist.
    · next hid =>
      obtain rfl := Option.some.inj hs
      intro e he hhome
      have := h.home_lt he
      rw [hhome] at this
      omega
    · obtain ⟨r, hr, rfl⟩ := Option.map_eq_some_iff.1 hs
      have htable := h.tables hr name
      split <;> exact htable
  ordered := h.ordered
  proper := h.proper
  distinct {id id' s s'} hs hs' hnode hproper := by
    -- Two scopes of one node: if one of them is new, the node would have had a scope already.
    rcases ScopeTree.node_of_openScope hp hs with ⟨rfl, hn⟩ | ⟨r, hr, hn⟩
      <;> rcases ScopeTree.node_of_openScope hp hs' with ⟨rfl, hn'⟩ | ⟨r', hr', hn'⟩
    · rfl
    · exact absurd (hn'.symm.trans (hnode.symm.trans hn)) (hfresh hr' (by rwa [hn] at hproper))
    · exact absurd (hn.symm.trans (hnode.trans hn')) (hfresh hr (by rwa [hnode, hn'] at hproper))
    · exact h.distinct hr hr' (hn.symm.trans (hnode.trans hn')) (by rwa [hn] at hproper)
  external := h.external

/-! ## Declaring a symbol -/

theorem latest_concat_self {e : Entry} (hhome : e.home = id)
    (hname : foldCase e.symbol.name = foldCase name) :
    Latest (log ++ [e]) id name (some ⟨log.length⟩) := by
  refine ⟨e, by simp, hhome, hname, fun i e' he' _ _ => ?_⟩
  have := (List.getElem?_eq_some_iff.1 he').1
  simp only [List.length_append, List.length_singleton] at this
  exact Nat.le_of_lt_succ this

theorem latest_concat_of_ne {e : Entry} {o : Option SymbolId}
    (hne : e.home = id → foldCase e.symbol.name ≠ foldCase name) (h : Latest log id name o) :
    Latest (log ++ [e]) id name o := by
  cases o with
  | none =>
    intro e' he' hhome
    rcases List.mem_append.1 he' with he' | he'
    · exact h e' he' hhome
    · rw [List.mem_singleton.1 he'] at hhome ⊢
      exact hne hhome
  | some x =>
    obtain ⟨e₀, he₀, hhome₀, hname₀, hlast⟩ := h
    have hlt := (List.getElem?_eq_some_iff.1 he₀).1
    refine ⟨e₀, by rwa [List.getElem?_append_left hlt], hhome₀, hname₀, fun i e' he' hhome hname => ?_⟩
    rw [List.getElem?_append] at he'
    split at he'
    · exact hlast i e' he' hhome hname
    -- The new entry is of another name, so it is not later than the latest of this one.
    · rw [List.getElem?_singleton] at he'
      split at he'
      · obtain rfl := Option.some.inj he'
        exact absurd hname (hne hhome)
      · cases he'

theorem declare (h : Logged g log) {s : Scope} (hs : g.scopes.scope? id = some s) {symbol : Symbol}
    (hproper : symbol.decl.span.start < symbol.decl.span.stop)
    (hbefore : ∀ e ∈ log, e.home = id → e.symbol.decl.span.stop ≤ symbol.decl.span.start) :
    Logged { g with scopes := (g.scopes.declare id symbol).2 } (log ++ [⟨id, s.node, symbol⟩]) where
  ranked := h.ranked.declare id symbol
  symbols := by
    rw [ScopeTree.toList_symbols_declare, h.symbols, List.map_append]
    rfl
  homes {e} he := by
    obtain ⟨r, hr, hnode⟩ : ∃ r, g.scopes.scope? e.home = some r ∧ r.node = e.node := by
      rcases List.mem_append.1 he with he | he
      · exact h.homes he
      · rw [List.mem_singleton.1 he]
        exact ⟨s, hs, rfl⟩
    obtain ⟨r', hr', -, hnode'⟩ := (ScopeTree.extends_declare g.scopes id symbol).scope hr
    exact ⟨r', hr', hnode'.trans hnode⟩
  tables {id' s'} hs' name := by
    rw [ScopeTree.scope?_declare] at hs'
    obtain ⟨r, hr, rfl⟩ := Option.map_eq_some_iff.1 hs'
    split
    -- In this scope the new symbol is the latest of its name, and the others keep theirs.
    · next hid =>
      simp only [NameMap.find?_insert, h.size_symbols]
      split
      · next hname => exact latest_concat_self hid hname.symm
      · next hname => exact latest_concat_of_ne (fun _ => Ne.symm hname) (h.tables hr name)
    · next hid => exact latest_concat_of_ne (fun hhome => absurd hhome hid) (h.tables hr name)
  ordered := by
    refine List.pairwise_append.2 ⟨h.ordered, List.pairwise_singleton _ _, fun e he e' he' hhome => ?_⟩
    rw [List.mem_singleton.1 he'] at hhome ⊢
    exact hbefore e he hhome
  proper {e} he := by
    rcases List.mem_append.1 he with he | he
    · exact h.proper he
    · rw [List.mem_singleton.1 he]
      exact hproper
  distinct {i i' t t'} ht ht' hnode hp := by
    rw [ScopeTree.scope?_declare] at ht ht'
    obtain ⟨r, hr, rfl⟩ := Option.map_eq_some_iff.1 ht
    obtain ⟨r', hr', rfl⟩ := Option.map_eq_some_iff.1 ht'
    have hsame : ∀ q : Scope, ∀ j, (if id = j then
        { q with symbols := q.symbols.insert symbol.name ⟨g.scopes.symbols.size⟩ } else q).node
          = q.node := by
      intro q j
      split <;> rfl
    rw [hsame] at hnode hp
    rw [hsame] at hnode
    exact h.distinct hr hr' hnode hp
  external := h.external

end Logged

/-! ## Growing -/

/-- What has been collected is still there, and so is the log. -/
structure Grows (g : Gathered) (log : List Entry) (g' : Gathered) (log' : List Entry) : Prop where
  scopes : g.scopes.Extends g'.scopes
  log : log <+: log'
  external {name : String} : g.external.contains name = true → g'.external.contains name = true

namespace Grows

variable {g g' g'' : Gathered} {log log' log'' : List Entry}

theorem refl (g : Gathered) (log : List Entry) : Grows g log g log :=
  ⟨.refl _, List.prefix_rfl, id⟩

theorem trans (h : Grows g log g' log') (h' : Grows g' log' g'' log'') : Grows g log g'' log'' :=
  ⟨h.scopes.trans h'.scopes, h.log.trans h'.log, fun hname => h'.external (h.external hname)⟩

theorem getElem? (h : Grows g log g' log') {i : Nat} (hi : i < log.length) : log'[i]? = log[i]? := by
  obtain ⟨new, rfl⟩ := h.log
  exact List.getElem?_append_left hi

theorem length_le (h : Grows g log g' log') : log.length ≤ log'.length := h.log.length_le

end Grows

/-- **What comes later than what stands at some places**: to the scopes that are there
now it adds only symbols declared behind these places, or those that are pending. -/
structure Follows (spans : List Span) (pending : List SymbolId) (g : Gathered) (log : List Entry)
    (g' : Gathered) (log' : List Entry) : Prop where
  logged : Logged g' log'
  grows : Grows g log g' log'
  behind {i : Nat} {e : Entry} : log'[i]? = some e → log.length ≤ i →
    e.home.index < g.scopes.scopes.size →
    (∀ r ∈ spans, r.stop ≤ e.symbol.decl.span.start) ∨ ⟨i⟩ ∈ pending
  pending {x : SymbolId} : x ∈ pending → log.length ≤ x.index

/-- The log says that the scope declares the symbol. -/
def LoggedIn (log : List Entry) (id : ScopeId) (x : SymbolId) : Prop :=
  ∃ e, log[x.index]? = some e ∧ e.home = id

section

variable {g g' : Gathered} {log log' : List Entry} {u : Use} {name : String} {id : ScopeId} {x : SymbolId}

/-- In sight of a use is what was declared before it was met, and nothing else. -/
theorem inSight_iff (h : Logged g log) (hlater : Follows [u.expr.span] u.pending g log g' log')
    (hspan : u.expr.span.start ≤ u.expr.span.stop)
    (hclear : ∀ e ∈ log, e.home ∈ g.scopes.ancestors u.scope →
      e.symbol.decl.span.stop ≤ u.expr.span.start)
    (hid : id ∈ g.scopes.ancestors u.scope) :
    InSight (LoggedIn log') g'.scopes u name id x
      ↔ ∃ e, log[x.index]? = some e ∧ e.home = id ∧ foldCase e.symbol.name = foldCase name := by
  constructor
  · rintro ⟨⟨e, he, hhome⟩, ⟨symbol, hsymbol, hname, hbefore⟩, hsettled⟩
    rw [hlater.logged.symbol?_eq, he] at hsymbol
    obtain rfl := Option.some.inj hsymbol
    -- What was declared later does not end in front of the use.
    have hlt : x.index < log.length := by
      refine Nat.lt_of_not_le fun hle => ?_
      obtain ⟨s, hs⟩ := ScopeTree.exists_scope_of_mem_ancestors h.ranked hid
      have hold : e.home.index < g.scopes.scopes.size := by
        rw [hhome]
        exact ScopeTree.lt_size_of_scope? hs
      rcases hlater.behind he hle hold with hbehind | hpending
      · have hstart := hbehind _ (List.mem_singleton_self _)
        have hproper := hlater.logged.proper (List.mem_of_getElem? he)
        omega
      · exact hsettled hpending
    exact ⟨e, by rwa [← hlater.grows.getElem? hlt], hhome, hname⟩
  · rintro ⟨e, he, hhome, hname⟩
    have hlt := (List.getElem?_eq_some_iff.1 he).1
    have he' : log'[x.index]? = some e := by rwa [hlater.grows.getElem? hlt]
    refine ⟨⟨e, he', hhome⟩, ⟨e.symbol, ?_, hname, ?_⟩, fun hpending => ?_⟩
    · rw [hlater.logged.symbol?_eq, he']
      rfl
    · exact hclear e (List.mem_of_getElem? he) (hhome ▸ hid)
    · exact absurd (hlater.pending hpending) (Nat.not_le_of_lt hlt)

/-- **A name that is looked up is bound lexically**, whatever comes later. -/
theorem lexical_of_follows {o : Option SymbolId} (h : Logged g log)
    (hlater : Follows [u.expr.span] u.pending g log g' log')
    (hspan : u.expr.span.start ≤ u.expr.span.stop)
    (hclear : ∀ e ∈ log, e.home ∈ g.scopes.ancestors u.scope →
      e.symbol.decl.span.stop ≤ u.expr.span.start)
    (hscope : u.scope.index < g.scopes.scopes.size)
    (hused : u.expr.usedName? = some (name, o))
    (ho : o = (g.scopes.resolve? u.scope name).map Prod.snd)
    (hty : u.expr.isName = true → u.expr.ty
      = (o.map fun x => ((g.scopes.symbol? x).map Symbol.ty).getD .unknown).getD .ambiguous)
    (houtside : o = none → g'.external.contains name = true) :
    Lexical (LoggedIn log') g'.scopes g'.external.values u := by
  have hancestors := hlater.grows.scopes.ancestors_eq h.ranked hlater.logged.ranked hscope
  intro name' o' hused'
  obtain ⟨rfl, rfl⟩ := Prod.mk.inj (Option.some.inj (hused.symm.trans hused'))
  cases hresolve : g.scopes.resolve? u.scope name with
  | none =>
    rw [hresolve, Option.map_none] at ho
    -- No scope on the way outwards holds the name, so it is an external one.
    refine .inr ⟨fun id hid x hx => ?_, ho, ?_, hlater.logged.countP_values (houtside ho)⟩
    · rw [hancestors] at hid
      obtain ⟨e, he, hhome, hname⟩ := (inSight_iff h hlater hspan hclear hid).1 hx
      obtain ⟨s, hs⟩ := ScopeTree.exists_scope_of_mem_ancestors h.ranked hid
      have hlatest := h.tables hs name
      rw [ScopeTree.resolve?_eq_none h.ranked hresolve hid hs] at hlatest
      exact hlatest e (List.mem_of_getElem? he) hhome hname
    · rw [ho] at hty
      exact hty
  | some found =>
    obtain ⟨id, x⟩ := found
    rw [hresolve, Option.map_some] at ho
    obtain ⟨inner, outer, s, hsplit, hs, hfind, hinner⟩ := ScopeTree.resolve?_eq_some h.ranked hresolve
    have hid : id ∈ g.scopes.ancestors u.scope := by simp [hsplit]
    have hlatest := h.tables hs name
    rw [hfind] at hlatest
    obtain ⟨e, he, hhome, hname, hlast⟩ := hlatest
    have hlt := (List.getElem?_eq_some_iff.1 he).1
    -- The name was found, and it is still there when the walk has gone on.
    have hsymbol : g'.scopes.symbol? x = some e.symbol := by
      rw [hlater.logged.symbol?_eq, hlater.grows.getElem? hlt, he]
      rfl
    refine .inl ⟨x, e.symbol, ⟨inner, id, outer, by rw [hancestors, hsplit], ?_, ?_, ?_⟩, ho, hsymbol,
      fun hisName => ?_⟩
    · exact (inSight_iff h hlater hspan hclear hid).2 ⟨e, he, hhome, hname⟩
    · intro id' hid' y hy
      have hmem : id' ∈ g.scopes.ancestors u.scope := by simp [hsplit, hid']
      obtain ⟨e', he', hhome', hname'⟩ := (inSight_iff h hlater hspan hclear hmem).1 hy
      obtain ⟨s', hs'⟩ := ScopeTree.exists_scope_of_mem_ancestors h.ranked hmem
      have hnone := h.tables hs' name
      rw [hinner id' hid' s' hs'] at hnone
      exact hnone e' (List.mem_of_getElem? he') hhome' hname'
    · intro y hy hne
      obtain ⟨e', he', hhome', hname'⟩ := (inSight_iff h hlater hspan hclear hid).1 hy
      have hlt' := (List.getElem?_eq_some_iff.1 he').1
      have hindex : y.index ≠ x.index := fun heq => hne (by cases y; cases x; exact congrArg _ heq)
      have hfirst : y.index < x.index := by
        have := hlast y.index e' he' hhome' hname'
        omega
      refine ⟨e'.symbol, e.symbol, ?_, hsymbol, ?_⟩
      · rw [hlater.logged.symbol?_eq, hlater.grows.getElem? hlt', he']
        rfl
      · obtain ⟨_, hy'⟩ := List.getElem?_eq_some_iff.1 he'
        obtain ⟨_, hx'⟩ := List.getElem?_eq_some_iff.1 he
        -- Entries of one scope are ordered by place, so that an earlier one stands in front.
        have horder := List.pairwise_iff_getElem.1 h.ordered y.index x.index hlt' hlt hfirst
        rw [hy', hx'] at horder
        exact horder (hhome'.trans hhome.symm)
    · rw [hty hisName, ho, Option.map_some, Option.getD_some, h.symbol?_eq, he]
      rfl

end

end ScriptSense
