/-
The names of a script.

Every script that is read and has a meaning goes through the walk from an empty log, and
nothing comes after its end. What is left is to say which scope holds a symbol without
the log: the syntax tree tells it (`holds_iff_logged`), since two declarations do not
share a place and two scopes that hold something are not opened by one node.
-/
import ScriptSense.Proofs.Script.Binding

set_option autoImplicit false

namespace ScriptSense

namespace Tree

/-! ## Declarations and their places -/

namespace Tile

variable {start stop : Nat} {ts : List Tree} {decl node : NodeKey} {around a a' : Option NodeKey}

/-- A declaration stands where its tree stands. -/
theorem covers_declaration (h : Tile start ts stop) (hd : (decl, a) ∈ declarationsOfAll around ts) :
    start ≤ decl.span.start ∧ decl.span.stop ≤ stop := by
  induction h generalizing around with
  | nil => cases hd
  | leaf hstart htext hts ih =>
    rw [declarationsOfAll, declarations, List.nil_append] at hd
    have hproper := token_start_lt_stop htext
    have := ih hd
    omega
  | node hstart hcs hts ihcs ihts =>
    have hle := hcs.le
    rw [declarationsOfAll, declarations, List.mem_append] at hd
    -- Below the node or behind it: the spans of both lie in the tile.
    rcases hd with hd | hd
    · have hstop := hts.le
      split at hd
      · rw [(Prod.mk.inj (List.mem_singleton.1 hd)).1]
        exact ⟨hstart.ge, hstop⟩
      · have := ihcs hd
        omega
    · have := ihts hd
      omega

/-- The node that opens the scope of a declaration stands around it. -/
theorem covers_of_scope (h : Tile start ts stop) (hd : (decl, some node) ∈ declarationsOfAll around ts) :
    around = some node ∨ node.span.start ≤ decl.span.start ∧ decl.span.stop ≤ node.span.stop := by
  induction h generalizing around with
  | nil => cases hd
  | leaf _ _ _ ih =>
    rw [declarationsOfAll, declarations, List.nil_append] at hd
    exact ih hd
  | node hstart hcs hts ihcs ihts =>
    rw [declarationsOfAll, declarations, List.mem_append] at hd
    rcases hd with hd | hd
    · split at hd
      · exact .inl (Prod.mk.inj (List.mem_singleton.1 hd)).2.symm
      · rcases ihcs hd with heq | hcovers
        -- A declaration right in the node belongs to it where the node opens a scope, else to
        -- the one around.
        · split at heq
          · rw [if_pos ‹_›] at hd
            rw [← Option.some.inj heq]
            exact .inr (hcs.covers_declaration hd)
          · exact .inl heq
        · exact .inr hcovers
    · exact ihts hd

/-- A declaration that is not empty is one only. -/
theorem declarations_unique (h : Tile start ts stop) (hproper : decl.span.start < decl.span.stop)
    (hd : (decl, a) ∈ declarationsOfAll around ts) (hd' : (decl, a') ∈ declarationsOfAll around ts) :
    a = a' := by
  induction h generalizing around with
  | nil => cases hd
  | leaf _ _ _ ih =>
    rw [declarationsOfAll, declarations, List.nil_append] at hd hd'
    exact ih hd hd'
  | @node start stop kind span cs ts hstart hcs hts ihcs ihts =>
    -- Trees side by side do not overlap, so one declaration is found in one tree only.
    have hfirst : ∀ {b}, (decl, b) ∈ declarations around (.node kind span cs) →
        decl.span.stop ≤ span.stop := fun hb =>
      (covers_declaration (.node hstart hcs (.nil _)) (List.mem_append_left _ hb)).2
    rw [declarationsOfAll, List.mem_append] at hd hd'
    rcases hd with hd | hd <;> rcases hd' with hd' | hd'
    · rw [declarations] at hd hd'
      split at hd
      · rw [if_pos ‹_›] at hd'
        exact (Prod.mk.inj (List.mem_singleton.1 hd)).2.trans (Prod.mk.inj (List.mem_singleton.1 hd')).2.symm
      · rw [if_neg ‹_›] at hd'
        exact ihcs hd hd'
    · have := hfirst hd
      have := (hts.covers_declaration hd').1
      omega
    · have := hfirst hd'
      have := (hts.covers_declaration hd).1
      omega
    · exact ihts hd hd'

end Tile

end Tree

/-! ## Which scope holds a symbol -/

section

variable {root : Tree} {g : Gathered} {log : List Entry}

/-- What is logged is declared in the tree. -/
def Declared (root : Tree) (log : List Entry) : Prop :=
  ∀ e ∈ log, (e.symbol.decl, some e.node) ∈ root.declarations none

/-- The log and the tree agree on which scope holds a symbol. -/
theorem holds_iff_logged (hroot : root.Tiled) (h : Logged g log) (hdeclared : Declared root log)
    (id : ScopeId) (x : SymbolId) : LoggedIn log id x ↔ Holds root g.scopes id x := by
  have htile : Tree.Tile root.span.start [root] root.span.stop := hroot
  have hmem : ∀ {y}, y ∈ root.declarations none ↔ y ∈ Tree.declarationsOfAll none [root] := by
    intro y
    simp [Tree.declarationsOfAll]
  constructor
  · rintro ⟨e, he, rfl⟩
    have hin := List.mem_of_getElem? he
    obtain ⟨s, hs, hnode⟩ := h.homes hin
    refine ⟨s, e.symbol, hs, ?_, ?_⟩
    · rw [h.symbol?_eq, he]
      rfl
    · rw [hnode]
      exact hdeclared e hin
  · rintro ⟨s, symbol, hs, hsymbol, hdecl⟩
    rw [h.symbol?_eq, Option.map_eq_some_iff] at hsymbol
    obtain ⟨e, he, rfl⟩ := hsymbol
    have hin := List.mem_of_getElem? he
    obtain ⟨s', hs', hnode⟩ := h.homes hin
    have hproper := h.proper hin
    -- The declaration has one scope, so the scope it is logged in is the one that holds it.
    have hsame : s.node = s'.node := by
      rw [hnode]
      exact Option.some.inj (htile.declarations_unique hproper (hmem.1 hdecl) (hmem.1 (hdeclared e hin)))
    have hcovers := (htile.covers_of_scope (hmem.1 hdecl)).resolve_left fun hnone => by cases hnone
    exact ⟨e, he, (h.distinct hs hs' hsame (by omega)).symm⟩

end

/-! ## Scripts -/

/-- The beginning of a script agrees with an empty log. -/
theorem logged_ofRoot (key : NodeKey) : Logged ⟨.ofRoot key, .empty⟩ [] where
  ranked := ScopeTree.ranked_ofRoot key
  symbols := rfl
  homes := nofun
  tables hs name := by
    obtain ⟨-, rfl⟩ := ScopeTree.eq_of_scope?_ofRoot hs
    rw [NameMap.find?_empty]
    exact fun e he => nomatch he
  ordered := .nil
  proper := nofun
  distinct hs hs' _ _ :=
    (ScopeTree.eq_of_scope?_ofRoot hs).1.trans (ScopeTree.eq_of_scope?_ofRoot hs').1.symm
  external := nofun

/-- The statements outside every block, as trees. -/
abbrev outerStatements (root : Tree) : List Tree := (View.Script.statements root).map Subtype.val

/-- **The meaning of a script is what the walk over its statements leaves behind**, from an
empty log. -/
theorem reaches_ofTree {span : Span} {cs : List Tree} (ht : (Tree.node .script span cs).Tiled)
    (hf : (Tree.node .script span cs).Formed) {script : Script}
    (h : Script.ofTree? (.node .script span cs) = some script) : ∃ gathered log,
      script.scopes = gathered.scopes ∧ script.external = gathered.external.values
        ∧ Reaches .root true (.of (outerStatements (.node .script span cs))) (.start span) [] gathered log
        ∧ Bound (.of (outerStatements (.node .script span cs))) gathered log
          fun pending u => ∃ s ∈ script.body, u ∈ s.uses .root pending := by
  rw [Script.ofTree?_node] at h
  obtain ⟨name, -, rfl⟩ := Option.map_eq_some_iff.1 h
  set root := Tree.node .script span cs with hroot
  -- At the start only the root is open, and nothing is declared.
  have hready : Ready .root (.of (outerStatements root)) (.start span) [] := by
    refine ⟨logged_ofRoot _, Nat.zero_lt_one, fun {id s} hs _ => ?_, nofun⟩
    obtain ⟨-, rfl⟩ := ScopeTree.eq_of_scope?_ofRoot hs
    rintro ⟨t, -, -, -, hkind, -⟩
    exact hkind rfl
  obtain ⟨log, hreaches, hbound⟩ := Walks.each (d := true) (f := fun c : root.Child => Lower.statement .root c.val)
    (fun a _ => (bindings a.val (ht.of_mem_children a.property) (hf.of_mem_children a.property)).statement .root)
    (ht.pairwise_nodesWhere NodeKind.isStatement) (.start span) [] hready
  rw [Lower.after_filterMapM] at hreaches hbound
  exact ⟨_, log, rfl, rfl, hreaches, hbound _ rfl⟩

/-- The scopes of a script agree with a log of its declarations. -/
theorem logged_ofTree {span : Span} {cs : List Tree} (ht : (Tree.node .script span cs).Tiled)
    (hf : (Tree.node .script span cs).Formed) {script : Script}
    (h : Script.ofTree? (.node .script span cs) = some script) :
    ∃ gathered log, script.scopes = gathered.scopes ∧ Logged gathered log := by
  obtain ⟨gathered, log, hscopes, -, hreaches, -⟩ := reaches_ofTree ht hf h
  exact ⟨gathered, log, hscopes, hreaches.logged⟩

/-- **The names of a script are bound lexically**, whatever the tree it is the meaning of,
if its elements lie side by side and its blocks stand where they should. -/
theorem lexical_ofTree {span : Span} {cs : List Tree} (ht : (Tree.node .script span cs).Tiled)
    (hf : (Tree.node .script span cs).Formed) {script : Script}
    (h : Script.ofTree? (.node .script span cs) = some script) {u : Use} (hu : u ∈ script.uses) :
    Lexical (Holds (.node .script span cs) script.scopes) script.scopes script.external u := by
  obtain ⟨gathered, log, hscopes, hexternal, hreaches, hbound⟩ := reaches_ofTree ht hf h
  rw [hscopes, hexternal]
  set root := Tree.node .script span cs with hroot
  -- The statements stand right below the script.
  have hstatement : ∀ c ∈ outerStatements root, c ∈ cs ∧ c.isNode (· == .stmtList) = false := by
    intro c hc
    obtain ⟨a, ha, rfl⟩ := List.mem_map.1 hc
    exact ⟨a.property, Tree.not_isNode (Tree.isNode_of_mem_nodesWhere ha)
      fun k hk => by cases k <;> first | rfl | cases hk⟩
  -- Every entry of the log is a declaration of the tree in the scope of its node.
  have hdeclared : Declared root log := by
    intro e he
    obtain ⟨i, hi⟩ := List.getElem?_of_mem he
    rcases hreaches.entries hi (Nat.zero_le _) with ⟨-, t, ht, hdecl⟩ | ⟨-, hhome, -, t, ht, hdecl⟩
    · exact Tree.mem_declarations_of_child (hstatement t ht).1 rfl (hdecl _)
    · -- What is declared outside every block belongs to the script.
      obtain ⟨s, hs, hnode⟩ := hreaches.logged.homes he
      have hscope : (Gathered.start span).scopes.scope? .root
          = some ⟨.root, none, [], .script, ⟨.script, span⟩, .empty⟩ := rfl
      obtain ⟨s', hs', -, hroot'⟩ := hreaches.grows.scopes.scope hscope
      rw [hhome, hs'] at hs
      rw [← hnode, ← Option.some.inj hs, hroot']
      exact Tree.mem_declarations_of_child (hstatement t ht).1 rfl (hdecl _)
  have hlexical := hbound [] gathered log ⟨hreaches.logged, .refl _ _, fun he hi _ =>
    absurd (List.getElem?_eq_some_iff.1 he).1 (Nat.not_lt_of_le hi), nofun⟩ u
    (mem_usesOf_statements.1 hu)
  -- What the log holds is what the finished tree holds, so the rule speaks of the tree alone.
  have hholds : LoggedIn log = Holds root gathered.scopes :=
    funext fun id => funext fun x => propext (holds_iff_logged ht hreaches.logged hdeclared id x)
  rwa [hholds] at hlexical

/-- **Names are bound lexically.** In every script that is read and has a meaning, the
name of each name and of each call stands for the last symbol that the innermost of the
scopes around it declares in front of it, and for nothing if none of them does. -/
theorem names_bind_lexically (isFunction : String → Bool) (text : String) {script : Script}
    (h : Script.ofTree? (parseWith isFunction text).root = some script) {u : Use} (hu : u ∈ script.uses) :
    Lexical (Holds (parseWith isFunction text).root script.scopes) script.scopes script.external u :=
  lexical_ofTree (tiled_parseWith isFunction text) (formed_parseWith isFunction text) h hu

theorem names_bind_lexically_at_assignment : ∃ script,
    Script.ofTree? (parseWith noFunctions "scn T\nint x\nset x to y\n").root = some script
      ∧ script.uses.map (·.expr.usedName?) = [some ("x", some ⟨0⟩), some ("y", none)]
      ∧ ∀ u ∈ script.uses, Lexical
        (Holds (parseWith noFunctions "scn T\nint x\nset x to y\n").root script.scopes)
        script.scopes script.external u := by
  have huses : (Script.ofTree? (parseWith noFunctions "scn T\nint x\nset x to y\n").root).any
      (fun script => script.uses.map (·.expr.usedName?) == [some ("x", some ⟨0⟩), some ("y", none)])
        = true := by
    decide +kernel
  obtain ⟨script, h, hnames⟩ := (Option.any_eq_true _ _).1 huses
  exact ⟨script, h, eq_of_beq hnames, fun u hu => names_bind_lexically noFunctions _ h hu⟩

end ScriptSense
