/-
Who refers to a thing.

The identifiers that refer to a thing are found by asking every identifier with
its name what it refers to. A symbol of a script can only be meant below the
node that opens its scope; a global name can be meant in every open file.
-/
import ScriptSense.Editor.Definition

set_option autoImplicit false

namespace ScriptSense

/-- An identifier that refers to a thing. -/
structure Reference where
  /-- The file it stands in. -/
  file : FileId
  /-- The identifier with the nodes around it. -/
  token : TokenSite

namespace TokenSite

/-- The token lies below the node with the key. -/
def isBelow (s : TokenSite) (key : NodeKey) : Bool := s.above.any (·.key? == some key)

/-- Whether a value is stored into what the node names: it is the target of a
`set` or the left operand of an assignment. -/
def isTarget (use parent : Tree) : Bool :=
  if parent.isNode (· == .setStmt) then
    (View.SetStmt.target? parent).any (·.val.key? == use.key?)
  else if parent.isNode (· == .binExpr) then
    (View.Operation.operator? parent).any (·.kind.isAssignment)
      && (View.BinExpr.left? parent).any (·.val.key? == use.key?)
  else false

/-- A value is stored into what the identifier names. -/
def isWrite (s : TokenSite) : Bool :=
  s.parent?.any fun use =>
    use.item.isNode (· == .nameRef) && use.parent?.any fun p => isTarget use.item p.item

end TokenSite

namespace Reference

/-- The place of the identifier. -/
def span (r : Reference) : Span := r.token.item.span

/-- A value is stored into what the identifier names. -/
def isWrite (r : Reference) : Bool := r.token.isWrite

end Reference

namespace Database

/-- The tokens of a file among which a thing can be meant, with its name. -/
def searched? (d : Database) (file : FileId) : Definition → Option (List TokenSite × String)
  | .bound owner scope symbol => do
    let source ← d.file? file
    let script ← source.script
    -- The symbols of one file mean nothing in another.
    guard (owner = file)
    let node := (← script.scopes.scope? scope).node
    let declared ← script.scopes.symbol? symbol
    return (source.root.sites.filter (·.isBelow node), declared.name)
  | .global entry => do
    return ((← d.file? file).root.sites, entry.name)

/-- **The identifiers of a file that refer to a thing**, from left to right. -/
def occurrences (d : Database) (file : FileId) (definition : Definition) : List TokenSite :=
  match d.searched? file definition with
  | none => []
  | some (sites, name) =>
    sites.filter fun s =>
      s.item.kind == .ident && sameName s.item.text name
        && (d.definitionOf? file s).any (·.isSame definition)

/-- The files in which a thing can be meant. -/
def filesOf (d : Database) : Definition → List FileId
  | .bound file _ _ => [file]
  | .global _ => d.fileIds

/-- **The identifiers of all files that refer to a thing**, its declaration
included. -/
def referencesTo (d : Database) (definition : Definition) : List Reference :=
  (d.filesOf definition).flatMap fun file =>
    (d.occurrences file definition).map (Reference.mk file)

/-- The identifiers that refer to the thing that a cursor means, with or without
its declaration. -/
def referencesAt (d : Database) (file : FileId) (offset : Nat) (declaration : Bool) :
    List Reference :=
  match d.definitionAt? file offset with
  | none => []
  | some (_, definition) =>
    let declared := d.declaration? definition
    (d.referencesTo definition).filter fun r =>
      declaration || declared != some (r.file, r.span)

end Database

end ScriptSense
