/-
Scopes and the symbols declared in them.

The scopes of a script are numbered as they are opened, the script's own scope
first, and each but that one names the scope around it. A symbol belongs to the
scope that declares it and is numbered as it is declared. Declaring a name again
in one scope replaces the symbol it stands for there.

A name is looked up from a scope outwards. The walk (`ScopeTree.chain`) follows
the links outwards for as many steps as there are scopes, which is as far as any
walk without repetition goes. Nothing forces a link to lead to an older scope: a
scope may be opened around one that does not exist yet, and the walk then ends
in front of the missing scope.
-/
import ScriptSense.Text.NameMap
import ScriptSense.Syntax.Tree
import ScriptSense.Script.Ty

set_option autoImplicit false

namespace ScriptSense

/-- The number of a scope. -/
structure ScopeId where
  /-- Scopes are counted from zero. -/
  index : Nat
deriving DecidableEq, Repr, Inhabited

/-- The scope of the script itself. -/
def ScopeId.root : ScopeId := ⟨0⟩

/-- The number of a symbol. -/
structure SymbolId where
  /-- Symbols are counted from zero. -/
  index : Nat
deriving DecidableEq, Repr, Inhabited

/-- What a name stands for. -/
inductive SymbolKind where
  | variable | function | script
deriving DecidableEq, Repr

/-- The word for a kind of symbol. -/
def SymbolKind.word : SymbolKind → String
  | .variable => "variable"
  | .function => "function"
  | .script => "script"

/-- The kind of symbol of a word. -/
def SymbolKind.ofWord? (word : String) : Option SymbolKind :=
  [SymbolKind.variable, .function, .script].find? (·.word == word)

/-- A declared name. -/
structure Symbol where
  /-- The name as declared. -/
  name : String
  /-- What it stands for. -/
  kind : SymbolKind
  /-- Its declared type. -/
  ty : Ty
  /-- The node that declares it. -/
  decl : NodeKey
  /-- The place of the name in the declaration. -/
  nameSpan : Span
deriving DecidableEq, Repr

/-- What opens a scope. -/
inductive ScopeKind where
  /-- The script. -/
  | script
  /-- The statements of a block. -/
  | block
  /-- The header of a `foreach`, for its loop variable. -/
  | foreachHeader
  /-- The parameters of a lambda. -/
  | lambdaParams
deriving DecidableEq, Repr

namespace ScopeKind

/-- Every kind. -/
def all : List ScopeKind := [.script, .block, .foreachHeader, .lambdaParams]

/-- The name under which a kind is shown. -/
def label : ScopeKind → String
  | .script => "Script"
  | .block => "Block"
  | .foreachHeader => "ForeachHeader"
  | .lambdaParams => "LambdaParams"

/-- The kind with a label. -/
def ofLabel? (label : String) : Option ScopeKind := all.find? (·.label == label)

end ScopeKind

/-- The symbols that one scope declares, by name, in order of declaration. -/
abbrev SymbolTable := NameMap SymbolId

/-- A scope. -/
structure Scope where
  /-- Its number. -/
  id : ScopeId
  /-- The scope around it. -/
  parent : Option ScopeId
  /-- The scopes right inside it, in the order in which they were opened. -/
  children : List ScopeId
  /-- What opens it. -/
  kind : ScopeKind
  /-- The node that opens it. -/
  node : NodeKey
  /-- The symbols it declares. -/
  symbols : SymbolTable
deriving DecidableEq

/-- The scopes and symbols of a script. -/
structure ScopeTree where
  /-- The scopes by number. -/
  scopes : Array Scope
  /-- The symbols by number. -/
  symbols : Array Symbol
deriving DecidableEq

namespace ScopeTree

/-- The tree with only the scope of the script, opened by a node. -/
def ofRoot (node : NodeKey) : ScopeTree :=
  ⟨#[⟨.root, none, [], .script, node, .empty⟩], #[]⟩

/-- A scope by number. -/
def scope? (t : ScopeTree) (id : ScopeId) : Option Scope := t.scopes[id.index]?

/-- A symbol by number. -/
def symbol? (t : ScopeTree) (id : SymbolId) : Option Symbol := t.symbols[id.index]?

/-- Changes a scope, if there is one of this number. -/
def modifyScope (t : ScopeTree) (id : ScopeId) (f : Scope → Scope) : ScopeTree :=
  { t with scopes := t.scopes.modify id.index f }

/-- Opens a scope inside another. -/
def openScope (t : ScopeTree) (parent : ScopeId) (kind : ScopeKind) (node : NodeKey) :
    ScopeId × ScopeTree :=
  let id : ScopeId := ⟨t.scopes.size⟩
  -- Entered before it is listed as a child, so a scope can be its own parent.
  let grown := { t with scopes := t.scopes.push ⟨id, some parent, [], kind, node, .empty⟩ }
  (id, grown.modifyScope parent fun s => { s with children := s.children ++ [id] })

/-- Declares a symbol in a scope. -/
def declare (t : ScopeTree) (scope : ScopeId) (symbol : Symbol) : SymbolId × ScopeTree :=
  let id : SymbolId := ⟨t.symbols.size⟩
  let grown := { t with symbols := t.symbols.push symbol }
  (id, grown.modifyScope scope fun s => { s with symbols := s.symbols.insert symbol.name id })

/-- The scope that a node opens. -/
def scopeOf? (t : ScopeTree) (node : NodeKey) : Option ScopeId :=
  (t.scopes.find? (·.node == node)).map Scope.id

/-! ## Looking outwards -/

/-- The scopes met on the way outwards, in at most so many steps. -/
def walk (t : ScopeTree) : Nat → ScopeId → List Scope
  | 0, _ => []
  | steps + 1, id =>
    match t.scope? id with
    | none => []
    | some s =>
      match s.parent with
      | none => [s]
      | some parent => s :: t.walk steps parent

/-- A scope and the scopes around it, from the inside out. -/
def chain (t : ScopeTree) (id : ScopeId) : List Scope := t.walk t.scopes.size id

/-- The numbers of a scope and the scopes around it, from the inside out. -/
def ancestors (t : ScopeTree) (id : ScopeId) : List ScopeId := (t.chain id).map Scope.id

/-- **What a name stands for in a scope**: the symbol that the innermost scope
around it gives to the name, with that scope. -/
def resolve? (t : ScopeTree) (id : ScopeId) (name : String) : Option (ScopeId × SymbolId) :=
  (t.chain id).findSome? fun s => (s.symbols.find? name).map (Prod.mk s.id)

/-- The entries of the first table under each key, in order; `seen` are keys met
before. -/
def unshadowed (seen : List String) : List (String × SymbolId) → List SymbolId
  | [] => []
  | (key, id) :: rest =>
    if seen.contains key then unshadowed seen rest
    else id :: unshadowed (key :: seen) rest

/-- The symbols to be seen from a scope, from the inside out, each name once. -/
def visible (t : ScopeTree) (id : ScopeId) : List SymbolId :=
  unshadowed [] ((t.chain id).flatMap (·.symbols.entries))

/-- The scope is another one or lies inside it. -/
def isWithin (t : ScopeTree) (inner outer : ScopeId) : Bool := (t.ancestors inner).contains outer

end ScopeTree

end ScriptSense
