/-
What is written down while a text is read, and what is made of it.

A reading knows the kinds of the tokens and nothing else, and it builds no tree: it
writes down events, from the front of the text to its end. Begin a node, take a
token, finish the node, complain. Whoever plays the events later puts the blank space
and the comments back in, finds the places of the complaints, and tells the builder of
the tree what to do, act by act.

A node may turn out to be the first child of another one after it has been finished:
`a + b` is read as far as `a` before the operator is seen. The events are not moved
then. The start of the finished node is given the distance to a later event, which
becomes the start of the node around it, and whoever plays the events begins both
nodes at the first of the two.

Much of this can go wrong: a mark may no longer stand on the event it was set on, a
counter may be lowered below zero, a node may be finished that was never begun. Each
of these ends everything at once (`Breach`).
-/
import ScriptSense.Syntax.Problem
import ScriptSense.Syntax.Tree

set_option autoImplicit false

namespace ScriptSense.Record

/-- An entry of the record of a reading. -/
inductive Event where
  /-- A node begins; the node around it, if it was found later, begins at a distance
  behind this event. -/
  | start (kind : NodeKind) (outer? : Option Nat)
  /-- A number of tokens belong here, each with the blank space in front of it. -/
  | token (kind : TokenKind) (count : Nat)
  /-- The node under construction ends. -/
  | finish
  /-- Something is wrong with the next token. -/
  | complaint (problem : Problem)
  /-- A place that is kept for a start, or one that is used up. -/
  | tombstone
deriving DecidableEq, Repr

/-- What must never happen while events are written down or played. -/
inductive Breach where
  /-- Too many looks at the same token. -/
  | stuck
  /-- The rules called each other, or a loop turned, more often than was foreseen. -/
  | exhausted
  /-- A token was demanded and another one is there. -/
  | unexpected (wanted : TokenKind)
  /-- A mark that is completed does not stand on the start of a node. -/
  | noStart
  /-- A mark that is abandoned does not stand on a place kept for a start. -/
  | noTombstone
  /-- There is no event at the place. -/
  | noEvent
  /-- A node is its own outer node. -/
  | endless
  /-- A mark was neither completed nor abandoned. -/
  | unsettledMark
  /-- A number was lowered below zero. -/
  | belowZero
  /-- A node is finished and none was begun. -/
  | unbalancedFinish
  /-- A node was begun and is not finished. -/
  | unbalancedStart
deriving DecidableEq, Repr

/-- What the builder of a tree is told. -/
inductive Act where
  /-- Begin a node; what comes next is inside it. -/
  | enter (kind : NodeKind)
  /-- Add a token to the node under construction. -/
  | token (kind : TokenKind) (text : String)
  /-- End the node under construction, and go on in the one around it. -/
  | leave
deriving DecidableEq, Repr

mutual

/-- **The acts that build a tree**: a node is entered and left once, and what is told
in between builds its children. -/
def actsOf : Tree → List Act
  | .leaf t => [.token t.kind t.text]
  | .node kind _ children => .enter kind :: actsOfAll children ++ [.leave]

/-- The acts that build a list of trees one after the other. -/
def actsOfAll : List Tree → List Act
  | [] => []
  | t :: ts => actsOf t ++ actsOfAll ts

end

@[simp] theorem actsOf_leaf (t : Token) : actsOf (.leaf t) = [.token t.kind t.text] := by
  simp [actsOf]

@[simp] theorem actsOf_node (kind : NodeKind) (span : Span) (children : List Tree) :
    actsOf (.node kind span children) = .enter kind :: actsOfAll children ++ [.leave] := by
  simp [actsOf]

@[simp] theorem actsOfAll_nil : actsOfAll [] = [] := by simp [actsOfAll]

@[simp] theorem actsOfAll_cons (t : Tree) (ts : List Tree) :
    actsOfAll (t :: ts) = actsOf t ++ actsOfAll ts := by simp [actsOfAll]

@[simp] theorem actsOfAll_append (ts us : List Tree) :
    actsOfAll (ts ++ us) = actsOfAll ts ++ actsOfAll us := by
  induction ts with
  | nil => simp
  | cons t ts ih => simp [ih]

end ScriptSense.Record
