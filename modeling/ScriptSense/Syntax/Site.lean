/-
Elements of a tree where they stand.

A site is an element together with the nodes above it, nearest first. That is
all a reader needs to walk upwards, so nothing in a tree points to its parent.

A cursor stands between two characters and so touches up to two tokens. Which of
them it means is for the reader to say: `tokenAfter?` takes the right one,
`tokenNear?` the one that carries meaning, and if neither does the last such
token before it on the same line. The line matters: a cursor in an empty line
must not be taken for one behind the word that ends the line above.
-/
import ScriptSense.Syntax.Tree

set_option autoImplicit false

namespace ScriptSense

universe u

/-- Something in a tree with the nodes above it, nearest first. -/
structure Site (α : Type u) where
  /-- The thing itself. -/
  item : α
  /-- The nodes around it, from the inside out. -/
  above : List Tree

/-- The place of a token in a tree. -/
abbrev TokenSite := Site Token

/-- The place of a node in a tree. -/
abbrev NodeSite := Site Tree

namespace Site

variable {α : Type u}

/-- The node right above. -/
def parent? (s : Site α) : Option NodeSite :=
  match s.above with
  | [] => none
  | p :: ps => some ⟨p, ps⟩

end Site

namespace Tree

mutual

/-- The tokens of a tree that stands below the nodes `above`. -/
def sitesBelow (above : List Tree) : Tree → List TokenSite
  | .leaf t => [⟨t, above⟩]
  | .node k s cs => sitesOfAllBelow (.node k s cs :: above) cs

/-- The tokens of a list of trees that stand below the nodes `above`. -/
def sitesOfAllBelow (above : List Tree) : List Tree → List TokenSite
  | [] => []
  | t :: ts => t.sitesBelow above ++ sitesOfAllBelow above ts

end

/-- The tokens of a tree where they stand, from left to right. -/
def sites (t : Tree) : List TokenSite := t.sitesBelow []

mutual

/-- The nodes of a tree that stands below the nodes `above`. -/
def nodeSitesBelow (above : List Tree) : Tree → List NodeSite
  | .leaf _ => []
  | .node k s cs =>
    ⟨.node k s cs, above⟩ :: nodeSitesOfAllBelow (.node k s cs :: above) cs

/-- The nodes of a list of trees that stand below the nodes `above`. -/
def nodeSitesOfAllBelow (above : List Tree) : List Tree → List NodeSite
  | [] => []
  | t :: ts => t.nodeSitesBelow above ++ nodeSitesOfAllBelow above ts

end

/-- The nodes of a tree where they stand, parents before children. -/
def nodeSites (t : Tree) : List NodeSite := t.nodeSitesBelow []

mutual

/-- The tips of a tree that stands below the nodes `above`. -/
def tipsBelow (above : List Tree) : Tree → List NodeSite
  | .leaf t => [⟨.leaf t, above⟩]
  | .node k s cs =>
    if cs.isEmpty then [⟨.node k s cs, above⟩] else tipsOfAllBelow (.node k s cs :: above) cs

/-- The tips of a list of trees that stand below the nodes `above`. -/
def tipsOfAllBelow (above : List Tree) : List Tree → List NodeSite
  | [] => []
  | t :: ts => t.tipsBelow above ++ tipsOfAllBelow above ts

end

/-- The elements of a tree without children, from left to right: its tokens, and
the nodes that hold nothing. -/
def tips (t : Tree) : List NodeSite := t.tipsBelow []

/-! ## Tokens at an offset -/

/-- The tokens that a cursor touches: one, or two between which it stands. -/
def touching (t : Tree) (offset : Nat) : List TokenSite :=
  t.sites.filter (·.item.span.touches offset)

/-- The token a cursor is in, the right one of two. -/
def tokenAfter? (t : Tree) (offset : Nat) : Option TokenSite := (t.touching offset).getLast?

/-- The tips that end at an offset or before it, the last one first. -/
def tipsBefore (t : Tree) (offset : Nat) : List NodeSite :=
  (t.tips.filter (·.item.span.stop ≤ offset)).reverse

/-- The last token before an offset that is not to be passed over. A node without
tokens is never passed over: what should be in it is missing, and what stands in
front of it belongs elsewhere. -/
def tokenBefore? (passed : TokenKind → Bool) (t : Tree) (offset : Nat) : Option TokenSite :=
  match (t.tipsBefore offset).dropWhile (·.item.kind.isToken passed) with
  | ⟨.leaf token, above⟩ :: _ => some ⟨token, above⟩
  | _ => none

/-- The last significant token before an offset and after the last line break
before it. -/
def significantBefore? (t : Tree) (offset : Nat) : Option TokenSite :=
  (t.tokenBefore? TokenKind.isTrivia offset).filter (·.item.kind != .newline)

/-- The token a cursor means: a significant one that it touches, the left one of
two; else the last significant one on its line; else a token that it touches. -/
def tokenNear? (t : Tree) (offset : Nat) : Option TokenSite :=
  match t.touching offset with
  | [] => none
  | left :: more =>
    -- The left token comes first, so it wins if both carry meaning.
    match (left :: more).find? (·.item.kind.isSignificant) with
    | some s => some s
    | none => (t.significantBefore? left.item.start).or (some left)

/-- The identifier a cursor means, the right one of two. -/
def identifierNear? (t : Tree) (offset : Nat) : Option TokenSite :=
  match t.touching offset with
  -- Between two tokens only these two count; nothing is looked for behind them.
  | [left, right] => [right, left].find? (·.item.kind == .ident)
  | _ => (t.tokenNear? offset).filter (·.item.kind == .ident)

mutual

theorem map_item_sitesBelow (above : List Tree) (t : Tree) :
    (t.sitesBelow above).map Site.item = t.leaves := by
  cases t with
  | leaf t => simp [sitesBelow, leaves]
  | node k s cs =>
    simpa [sitesBelow, leaves] using map_item_sitesOfAllBelow (.node k s cs :: above) cs

theorem map_item_sitesOfAllBelow (above : List Tree) (ts : List Tree) :
    (sitesOfAllBelow above ts).map Site.item = leavesOfAll ts := by
  cases ts with
  | nil => simp [sitesOfAllBelow, leavesOfAll]
  | cons t ts =>
    simp [sitesOfAllBelow, leavesOfAll, map_item_sitesBelow above t,
      map_item_sitesOfAllBelow above ts]

end

end Tree

end ScriptSense
