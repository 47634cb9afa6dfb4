/-
Syntax trees.

A tree keeps every token of the text, blank space and comments included, so the
text can be read off its leaves (`Tree.text`). A node knows the span it was
built over; a node without tokens still has a place, at which its span is empty.

The functions here are the ways to go through a tree: its leaves from left to
right, its elements with parents before or after their children. Each is one
recursion over the tree and its lists of children.
-/
import ScriptSense.Syntax.NodeKind
import ScriptSense.Syntax.Token

set_option autoImplicit false

namespace ScriptSense

/-- An element of a syntax tree: a token, or a node over its children. -/
inductive Tree where
  /-- A token. -/
  | leaf (token : Token)
  /-- A node, the span it was built over, and its children in order. -/
  | node (kind : NodeKind) (span : Span) (children : List Tree)
deriving Repr, Inhabited

/-- A node as others refer to it: by its kind and its place. -/
structure NodeKey where
  /-- The kind of the node. -/
  kind : NodeKind
  /-- The place of the node. -/
  span : Span
deriving DecidableEq, Repr, Inhabited

namespace Tree

/-- The kind of an element. -/
def kind : Tree → ElementKind
  | .leaf t => .token t.kind
  | .node k _ _ => .node k

/-- The place of an element. -/
def span : Tree → Span
  | .leaf t => t.span
  | .node _ s _ => s

/-- The children of an element, none for a token. -/
def children : Tree → List Tree
  | .leaf _ => []
  | .node _ _ cs => cs

/-- The token, if the element is one. -/
def token? : Tree → Option Token
  | .leaf t => some t
  | .node _ _ _ => none

/-- The key of a node. -/
def key? : Tree → Option NodeKey
  | .leaf _ => none
  | .node k s _ => some ⟨k, s⟩

/-- The element is a node whose kind has the property. -/
def isNode (p : NodeKind → Bool) (t : Tree) : Bool := t.kind.isNode p

theorem sizeOf_lt_of_mem_children {c t : Tree} (h : c ∈ t.children) : sizeOf c < sizeOf t := by
  cases t with
  | leaf => simp [children] at h
  | node k s cs =>
    have := List.sizeOf_lt_of_mem h
    simp only [children] at this
    simp only [node.sizeOf_spec]
    omega

/-! ## Walks -/

mutual

/-- The tokens of a tree, from left to right. -/
def leaves : Tree → List Token
  | .leaf t => [t]
  | .node _ _ cs => leavesOfAll cs

/-- The tokens of a list of trees, from left to right. -/
def leavesOfAll : List Tree → List Token
  | [] => []
  | t :: ts => t.leaves ++ leavesOfAll ts

end

/-- The text of a tree. -/
def text (t : Tree) : String := Token.spell t.leaves

mutual

/-- The elements of a tree with their depth, parents before children. -/
def preorder (depth : Nat) : Tree → List (Nat × Tree)
  | .leaf t => [(depth, .leaf t)]
  | .node k s cs => (depth, .node k s cs) :: preorderOfAll (depth + 1) cs

/-- The elements of a list of trees, parents before children. -/
def preorderOfAll (depth : Nat) : List Tree → List (Nat × Tree)
  | [] => []
  | t :: ts => t.preorder depth ++ preorderOfAll depth ts

end

mutual

/-- The elements of a tree, children before parents. -/
def postorder : Tree → List Tree
  | .leaf t => [.leaf t]
  | .node k s cs => postorderOfAll cs ++ [.node k s cs]

/-- The elements of a list of trees, children before parents. -/
def postorderOfAll : List Tree → List Tree
  | [] => []
  | t :: ts => t.postorder ++ postorderOfAll ts

end

/-- The elements of a tree, parents before children. -/
def elements (t : Tree) : List Tree := (t.preorder 0).map Prod.snd

/-- The nodes of a tree, parents before children. -/
def nodes (t : Tree) : List Tree := t.elements.filter (·.isNode fun _ => true)

/-- The first node of a tree, parents before children, with a key. -/
def find? (t : Tree) (key : NodeKey) : Option Tree := t.nodes.find? (·.key? == some key)

@[simp] theorem leaves_leaf (t : Token) : (leaf t).leaves = [t] := by simp [leaves]

@[simp] theorem leaves_node (k : NodeKind) (s : Span) (cs : List Tree) :
    (node k s cs).leaves = leavesOfAll cs := by simp [leaves]

@[simp] theorem leavesOfAll_nil : leavesOfAll [] = [] := by simp [leavesOfAll]

@[simp] theorem leavesOfAll_cons (t : Tree) (ts : List Tree) :
    leavesOfAll (t :: ts) = t.leaves ++ leavesOfAll ts := by simp [leavesOfAll]

@[simp] theorem leavesOfAll_append (ts us : List Tree) :
    leavesOfAll (ts ++ us) = leavesOfAll ts ++ leavesOfAll us := by
  induction ts with
  | nil => simp
  | cons t ts ih => simp [ih]

end Tree

end ScriptSense
