/-
What is left of a tree without blank space and comments.

An outline keeps the nodes, and of the tokens all but the trivia: line breaks stay, and
every token stays with its place. What goes are the spans of the nodes, which reach over
the trivia inside them.

Of a name that is known to be a function the grammar makes a call even where no argument
follows. `Outline.pruned` takes such calls back: a call whose arguments have no token is
replaced by the name that is called.
-/
import ScriptSense.Syntax.Tree

set_option autoImplicit false

namespace ScriptSense

/-- A tree without blank space and comments. -/
inductive Outline where
  /-- A token. -/
  | token (t : Token)
  /-- A node over its children. -/
  | node (kind : NodeKind) (children : List Outline)

namespace Tree

/-- The element is blank space or a comment. -/
def isBlank : Tree → Bool
  | .leaf t => t.kind.isTrivia
  | .node .. => false

mutual

/-- The outline of a tree. -/
def outline : Tree → Outline
  | .leaf t => .token t
  | .node kind _ children => .node kind (outlines children)

/-- The outlines of the elements of a list, those that are blank left out. -/
def outlines : List Tree → List Outline
  | [] => []
  | t :: ts => if t.isBlank then outlines ts else t.outline :: outlines ts

end

/-- The tokens of some elements, those that are blank left out. -/
def tokensShown (ts : List Tree) : List Token := (leavesOfAll ts).filter (!·.kind.isTrivia)

end Tree

namespace Outline

mutual

/-- The tokens of an outline. -/
def tokens : Outline → List Token
  | .token t => [t]
  | .node _ children => tokensOfAll children

/-- The tokens of some outlines. -/
def tokensOfAll : List Outline → List Token
  | [] => []
  | o :: os => o.tokens ++ tokensOfAll os

end

/-- A node over children, or the name that is called if there is no token among the
arguments of the call. -/
def call : NodeKind → List Outline → Outline
  | .funcExpr, [.node .nameRef name, .node .argList args] =>
    if (tokensOfAll args).isEmpty then .node .nameRef name
    else .node .funcExpr [.node .nameRef name, .node .argList args]
  | kind, children => .node kind children

mutual

/-- The outline with every call without arguments replaced by the name that is called. -/
def pruned : Outline → Outline
  | .token t => .token t
  | .node kind children => call kind (prunedAll children)

/-- The same of the outlines of a list. -/
def prunedAll : List Outline → List Outline
  | [] => []
  | o :: os => o.pruned :: prunedAll os

end

end Outline

/-! ## Lists of elements -/

namespace Tree

@[simp] theorem outlines_nil : outlines [] = [] := by simp [outlines]

@[simp] theorem outline_node (kind : NodeKind) (span : Span) (children : List Tree) :
    (node kind span children).outline = .node kind (outlines children) := by
  simp [outline]

theorem outlines_cons (t : Tree) (ts : List Tree) :
    outlines (t :: ts) = if t.isBlank then outlines ts else t.outline :: outlines ts := by
  rw [outlines]

@[simp] theorem outlines_append (ts us : List Tree) :
    outlines (ts ++ us) = outlines ts ++ outlines us := by
  induction ts with
  | nil => rfl
  | cons t ts ih =>
    rw [List.cons_append, outlines_cons, outlines_cons, ih]
    split <;> rfl

/-- A node has an outline. -/
theorem outlines_singleton {t : Tree} (h : t.isNode (fun _ => true) = true) :
    outlines [t] = [t.outline] := by
  cases t with
  | leaf => cases h
  | node => simp [outlines_cons, isBlank]

/-- Blank space and comments have none. -/
theorem outlines_trivia {ts : List Token} (h : ∀ t ∈ ts, t.kind.isTrivia = true) :
    outlines (ts.map .leaf) = [] := by
  induction ts with
  | nil => rfl
  | cons t ts ih =>
    rw [List.map_cons, outlines_cons, isBlank, if_pos (h t List.mem_cons_self)]
    exact ih fun u hu => h u (List.mem_cons_of_mem _ hu)

/-- In front of tokens, blank space and comments do not matter. -/
theorem outlines_visible (ts : List Token) :
    outlines (ts.map .leaf) = outlines ((ts.dropWhile (·.kind.isTrivia)).map .leaf) := by
  induction ts with
  | nil => rfl
  | cons t ts ih =>
    by_cases ht : t.kind.isTrivia
    · rw [List.dropWhile_cons, if_pos ht, List.map_cons, outlines_cons, isBlank, if_pos ht, ih]
    · rw [List.dropWhile_cons, if_neg ht]

theorem tokensShown_append (ts us : List Tree) :
    tokensShown (ts ++ us) = tokensShown ts ++ tokensShown us := by
  rw [tokensShown, leavesOfAll_append, List.filter_append]
  rfl

mutual

/-- The tokens of the outline of a tree. -/
theorem tokens_outline : ∀ t : Tree, t.isBlank = false → t.outline.tokens = tokensShown [t]
  | .leaf t, h => by
    have hshown : (!t.kind.isTrivia) = true := by
      rw [Bool.not_eq_true']
      exact h
    simp [outline, Outline.tokens, tokensShown, hshown]
  | .node kind span cs, _ => by
    rw [outline_node, Outline.tokens, tokensOfAll_outlines cs]
    simp [tokensShown]

theorem tokensOfAll_outlines : ∀ ts : List Tree, Outline.tokensOfAll (outlines ts) = tokensShown ts
  | [] => rfl
  | t :: ts => by
    have hsplit : tokensShown (t :: ts) = tokensShown [t] ++ tokensShown ts :=
      tokensShown_append [t] ts
    rw [outlines_cons, hsplit]
    split
    · next hblank =>
      have hnone : tokensShown [t] = [] := by
        cases t with
        | leaf m =>
          have hm : m.kind.isTrivia = true := hblank
          simp [tokensShown, hm]
        | node => cases hblank
      rw [hnone, tokensOfAll_outlines ts, List.nil_append]
    · next hshown =>
      rw [Outline.tokensOfAll, tokens_outline t (Bool.not_eq_true _ ▸ hshown),
        tokensOfAll_outlines ts]

end

end Tree

namespace Outline

@[simp] theorem prunedAll_append (os os' : List Outline) :
    prunedAll (os ++ os') = prunedAll os ++ prunedAll os' := by
  induction os with
  | nil => simp [prunedAll]
  | cons o os ih => simp [prunedAll, ih]

/-- Only calls are replaced. -/
theorem call_of_ne {kind : NodeKind} (h : kind ≠ .funcExpr) (children : List Outline) :
    call kind children = .node kind children := by
  unfold call
  split
  · exact absurd rfl h
  · rfl

/-- A call with a token among its arguments stays. -/
theorem call_of_tokens {name : Outline} {args : List Outline} (h : tokensOfAll args ≠ []) :
    call .funcExpr [name, .node .argList args] = .node .funcExpr [name, .node .argList args] := by
  unfold call
  split
  · next hchildren =>
    simp only [List.cons.injEq, node.injEq, true_and, and_true] at hchildren
    obtain ⟨rfl, rfl⟩ := hchildren
    rw [if_neg (by simpa using h)]
  · rfl

@[simp] theorem call_empty (name : List Outline) :
    call .funcExpr [.node .nameRef name, .node .argList []] = .node .nameRef name := rfl

@[simp] theorem pruned_token (t : Token) : (token t).pruned = token t := by simp [pruned]

theorem pruned_node (kind : NodeKind) (children : List Outline) :
    (node kind children).pruned = call kind (prunedAll children) := by
  simp [pruned]

@[simp] theorem prunedAll_nil : prunedAll [] = [] := by simp [prunedAll]

@[simp] theorem prunedAll_cons (o : Outline) (os : List Outline) :
    prunedAll (o :: os) = o.pruned :: prunedAll os := by
  simp [prunedAll]

/-- Tokens alone hold no calls. -/
theorem prunedAll_tokens (ts : List Token) :
    prunedAll (Tree.outlines (ts.map .leaf)) = Tree.outlines (ts.map .leaf) := by
  induction ts with
  | nil => simp
  | cons t ts ih =>
    rw [List.map_cons, Tree.outlines_cons]
    split
    · exact ih
    · rw [prunedAll_cons, ih, Tree.outline, pruned_token]

end Outline

end ScriptSense
