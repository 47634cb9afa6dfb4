/-
Reading a text into a syntax tree.

Every text has a tree, with complaints where it is malformed. A set of names
known to be functions changes only where a name alone is a call.
-/
import ScriptSense.Syntax.Grammar.Script

set_option autoImplicit false

namespace ScriptSense

/-- A text that has been read. -/
structure Parse where
  /-- The tree of the text. -/
  root : Tree
  /-- What is wrong with the text, in the order in which it was met. -/
  complaints : List Complaint
  /-- Why the reading was given up, if it was. -/
  fault : Option Fault

namespace Parse

/-- Reads a text of a kind. -/
def ofContent (kind : NodeKind) (content : Grammar.Rules → Grammar.Step Unit)
    (isFunction : String → Bool) (text : String) : Parse :=
  let s := Grammar.run isFunction content (tokens text)
  ⟨s.root kind, s.complaints.toList, s.fault⟩

/-- There is no complaint at all. -/
def isClean (p : Parse) : Bool := p.complaints.isEmpty

/-- Some complaint is an error. -/
def hasErrors (p : Parse) : Bool := p.complaints.any (·.severity == .error)

/-- The tree of a script, none of a text that was read as an expression. -/
def script? (p : Parse) : Option Tree :=
  if p.root.isNode (· == .script) then some p.root else none

end Parse

/-- No name is known to be a function. -/
def noFunctions : String → Bool := fun _ => false

/-- **Reads a script**, given the names known to be functions. -/
def parseWith (isFunction : String → Bool) (text : String) : Parse :=
  Parse.ofContent .script Grammar.script isFunction text

/-- Reads a script without knowing any function. -/
def parse (text : String) : Parse := parseWith noFunctions text

/-- **Reads a text as one expression.** -/
def parseExpression (text : String) : Parse :=
  Parse.ofContent .exprRoot Grammar.onlyExpression noFunctions text

end ScriptSense
