/-
Blocks that are closed.

A block statement is closed if the word that closes it is among its children. That is so in
trees that are whole, and in trees without a word that opens a block.
-/
import ScriptSense.Proofs.Grammar.HeadedRules
import ScriptSense.Proofs.Grammar.WholeRules
import ScriptSense.Proofs.Syntax.Moved

set_option autoImplicit false

namespace ScriptSense

open ScriptSense.Tree (leavesOfAll)

/-- The word that closes the statement. -/
def NodeKind.closer? : NodeKind → Option TokenKind
  | .ifStmt => some .kwEndIf
  | .whileStmt | .foreachStmt => some .kwLoop
  | .beginStmt => some .kwEnd
  | _ => none

/-- The word opens a block that another word closes. -/
def opensBlock : TokenKind → Bool
  | .kwIf | .kwWhile | .kwForeach | .kwBegin => true
  | _ => false

/-- **All block statements in the tree are closed**: each has the word that closes it. -/
inductive Tree.Closed : Tree → Prop
  | leaf (t : Token) : Closed (.leaf t)
  | node {kind : NodeKind} {span : Span} {children : List Tree}
      (hcloser : ∀ word ∈ kind.closer?, ∃ m, .leaf m ∈ children ∧ m.kind = word)
      (hcs : ∀ c ∈ children, Closed c) : Closed (.node kind span children)

theorem Tree.mem_leavesOfAll {m : Token} {ts : List Tree} :
    m ∈ leavesOfAll ts ↔ ∃ t ∈ ts, m ∈ t.leaves := by
  induction ts with
  | nil => simp
  | cons t ts ih => simp [ih]

namespace Tree.Closed

variable {t : Tree} {kind : NodeKind} {span : Span} {cs : List Tree}

theorem of_mem_children {c : Tree} (h : Closed t) (hc : c ∈ t.children) : Closed c := by
  cases h with
  | leaf => simp [children] at hc
  | node _ hcs => exact hcs c hc

theorem closer (h : Closed (.node kind span cs)) :
    ∀ word ∈ kind.closer?, ∃ m, .leaf m ∈ cs ∧ m.kind = word := by
  cases h with
  | node hcloser _ => exact hcloser

/-- A node that needs no word to be closed. -/
theorem of_children (hkind : kind.closer? = none) (hcs : ∀ c ∈ cs, Closed c) :
    Closed (.node kind span cs) :=
  .node (fun word h => by rw [hkind] at h; cases h) hcs

/-- Tokens alone are closed. -/
theorem of_tokens {ts : List Token} : ∀ c ∈ ts.map Tree.leaf, Closed c := by
  intro c hc
  obtain ⟨t, -, rfl⟩ := List.mem_map.1 hc
  exact .leaf t

/-- Where no block is opened, none is left open. -/
theorem of_formed (h : t.Formed) (hopen : ∀ m ∈ t.leaves, opensBlock m.kind = false) :
    Closed t := by
  induction h with
  | leaf t => exact .leaf t
  | @node kind span children hheaded _ _ ih =>
    rw [leaves_node] at hopen
    refine .node (fun word hword => ?_) fun c hc => ih c hc fun m hm => hopen m ?_
    · have hopener : ∃ opener ∈ kind.opener?, opensBlock opener = true ∧ kind.isHeaded = true := by
        cases kind <;> first | exact ⟨_, rfl, rfl, rfl⟩ | cases hword
      obtain ⟨opener, hmem, hopens, hkind⟩ := hopener
      obtain ⟨m, hm, rfl⟩ := (hheaded hkind).opener opener hmem
      have hquiet := hopen m (mem_leavesOfAll.2 ⟨_, hm, by simp⟩)
      rw [hquiet] at hopens
      cases hopens
    · exact mem_leavesOfAll.2 ⟨c, hc, hm⟩

/-- A tree further on is as closed as it was. -/
theorem moved (bytes : Nat) (h : Closed t) : Closed (t.moved bytes) := by
  induction h with
  | leaf t => exact .leaf (t.moved bytes)
  | node hcloser _ ih =>
    rw [moved_node]
    refine .node (fun word hword => ?_) fun c hc => ?_
    · obtain ⟨m, hm, hkind⟩ := hcloser word hword
      exact ⟨m.moved bytes, List.mem_map.2 ⟨_, hm, moved_leaf ..⟩, hkind⟩
    · obtain ⟨c, hmem, rfl⟩ := List.mem_map.1 hc
      exact ih c hmem

end Tree.Closed

end ScriptSense
