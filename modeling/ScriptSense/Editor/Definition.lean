/-
What an identifier refers to.

A name in a tree is looked up from the innermost node around it that opens a
scope, provided that the script means something there; if nothing in the script
has the name, it is a global one. Two places are special. The collection of a
`foreach` belongs to what is around the loop and does not see its variable. The
name after a point or an arrow is a field of something unknown and refers to
nothing here, and if it is called it can only be a global function.

Two identifiers refer to the same thing when their definitions agree: global
ones by their folded name, those of a script by file, scope and symbol.
-/
import ScriptSense.Syntax.Site
import ScriptSense.Syntax.View
import ScriptSense.Workspace.Database

set_option autoImplicit false

namespace ScriptSense

/-- What an identifier refers to. -/
inductive Definition where
  /-- A symbol of a script. -/
  | bound (file : FileId) (scope : ScopeId) (symbol : SymbolId)
  /-- A global name. -/
  | global (entry : GlobalEntry)
deriving DecidableEq

namespace Definition

/-- Both are the same thing. -/
def isSame : Definition → Definition → Bool
  | .global a, .global b => sameName a.name b.name
  | a, b => a == b

end Definition

/-! ## Scopes in a tree -/

/-- The node is a `foreach` that has the span in its collection. -/
def Tree.collects (t : Tree) (span : Span) : Bool :=
  t.isNode (· == .foreachStmt)
    && (View.ForeachStmt.collection? t).any fun c => c.val.span.covers span

/-- The nodes among `above` that open the scopes around something with a span,
from the inside out. -/
def scopesAround (span : Span) : List Tree → List NodeSite
  | [] => []
  | p :: ps =>
    if p.isNode NodeKind.opensScope && !p.collects span then ⟨p, ps⟩ :: scopesAround p.span ps
    else scopesAround span ps

/-- The nodes that open the scopes around a token, from the inside out. -/
def TokenSite.scopes (s : TokenSite) : List NodeSite := scopesAround s.item.span s.above

/-- The innermost node that opens a scope around a token. -/
def TokenSite.scope? (s : TokenSite) : Option NodeSite := s.scopes.head?

/-- The innermost node that opens a scope around a node. -/
def NodeSite.scope? (s : NodeSite) : Option NodeSite :=
  (scopesAround s.item.span s.above).head?

namespace NodeSite

/-- The node is the name or the call after a point or an arrow. -/
def isMember (s : NodeSite) : Bool :=
  s.parent?.any fun p =>
    p.item.isNode (· == .memberExpr) && !View.MemberExpr.isIndex p.item
      && (View.MemberExpr.member? p.item).any (·.val.key? == s.item.key?)

/-- The node is the name of a call after a point or an arrow. -/
def isMethod (s : NodeSite) : Bool :=
  s.parent?.any fun p => p.item.isNode (· == .funcExpr) && isMember p

end NodeSite

/-! ## Definitions -/

namespace Database

/-- The scope that a node opens in what the file means. -/
def scopeOf? (d : Database) (file : FileId) (node : NodeSite) : Option (Script × ScopeId) := do
  let script ← d.scriptOf? file
  let key ← node.item.key?
  let scope ← script.scopes.scopeOf? key
  return (script, scope)

/-- The global name. -/
def globalDefinition? (d : Database) (name : String) : Option Definition :=
  (d.globals.find? name).map .global

/-- The symbol that a name has from a node outwards. -/
def boundDefinition? (d : Database) (file : FileId) (around : Option NodeSite) (name : String) :
    Option Definition := do
  let (script, scope) ← d.scopeOf? file (← around)
  let (owner, symbol) ← script.scopes.resolve? scope name
  return .bound file owner symbol

/-- **What a name refers to where it is used.** -/
def definitionOfUse? (d : Database) (file : FileId) (use : NodeSite) : Option Definition :=
  let name := View.Identifier.text use.item
  -- A member belongs to something that is known only when the script runs.
  if use.isMember then none
  else if use.isMethod then d.globalDefinition? name
  else (d.boundDefinition? file use.scope? name).or (d.globalDefinition? name)

/-- What a declared variable is, given its declaration. -/
def definitionOfVariable? (d : Database) (file : FileId) (decl : NodeSite) (name : String) :
    Option Definition := do
  let (script, scope) ← d.scopeOf? file (← decl.scope?)
  let symbol ← (← script.scopes.scope? scope).symbols.find? name
  return .bound file scope symbol

/-- **What a name refers to where it is declared.** -/
def definitionOfName? (d : Database) (file : FileId) (name : NodeSite) : Option Definition :=
  let text := View.Identifier.text name.item
  name.parent?.bind fun parent =>
    if parent.item.isNode (· == .varDecl) then d.definitionOfVariable? file parent text
    else if parent.item.isNode (· == .scriptNameDecl) then d.globalDefinition? text
    else none

/-- What a token refers to. -/
def definitionOf? (d : Database) (file : FileId) (token : TokenSite) : Option Definition :=
  token.parent?.bind fun parent =>
    if parent.item.isNode (· == .nameRef) then d.definitionOfUse? file parent
    else if parent.item.isNode (· == .name) then d.definitionOfName? file parent
    else none

/-- **The identifier that a cursor means**, with what it refers to. -/
def definitionAt? (d : Database) (file : FileId) (offset : Nat) :
    Option (TokenSite × Definition) := do
  let token ← (← d.file? file).root.identifierNear? offset
  return (token, ← d.definitionOf? file token)

/-! ## Declarations -/

/-- Where the name of a script is declared. -/
def scriptPlace? (d : Database) (owner : FileId) : Option (FileId × Span) :=
  (d.scriptOf? owner).map fun script => (owner, script.nameSpan)

/-- **Where a thing is declared**, if an open script declares it. -/
def declaration? (d : Database) : Definition → Option (FileId × Span)
  | .bound file _ symbol => do
    let declared ← (← d.scriptOf? file).scopes.symbol? symbol
    return (file, declared.nameSpan)
  | .global entry =>
    match entry.origin with
    | .script owner => d.scriptPlace? owner
    | .builtin | .form | .implicit => none

/-- Where the thing is declared to which the identifier refers that a cursor
means. -/
def declarationAt? (d : Database) (file : FileId) (offset : Nat) : Option (FileId × Span) := do
  d.declaration? (← d.definitionAt? file offset).2

end Database

end ScriptSense
