/-
What may be written at a cursor.

The candidates are the symbols that can be seen from there, the words of the
language, the functions and forms of the catalog and the scripts of the
workspace; behind a point or an arrow only functions make sense. Those that do
not begin with what is already written are left out, and so are all but the
first candidate of each name. What is left is sorted, the most specific sort of
candidate first, and by folded name within a sort.
-/
import ScriptSense.Editor.Definition

set_option autoImplicit false

namespace ScriptSense

/-- The sorts of candidates. -/
inductive CompletionKind where
  | keyword | function | variable | form | script
deriving DecidableEq, Repr

namespace CompletionKind

/-- The rank of a sort, lower ones first. -/
def priority : CompletionKind → Nat
  | .variable => 10
  | .function => 20
  | .form | .script => 30
  | .keyword => 40

/-- The name under which a sort is shown. -/
def label : CompletionKind → String
  | .keyword => "Keyword"
  | .function => "Function"
  | .variable => "Variable"
  | .form => "Form"
  | .script => "Script"

end CompletionKind

/-- Something that may be written. -/
structure Completion where
  /-- What is written. -/
  label : String
  /-- The sort of candidate. -/
  kind : CompletionKind
  /-- What is known of it. -/
  detail : Option String
deriving DecidableEq, Repr

namespace Completion

/-- The name under which candidates are compared. -/
def key (c : Completion) : String := foldCase c.label

/-- The rank of the candidate. -/
def priority (c : Completion) : Nat := c.kind.priority

/-- The candidate comes before the other one or at the same place. -/
def precedes (a b : Completion) : Bool :=
  a.priority < b.priority || (a.priority == b.priority && decide (a.key ≤ b.key))

/-- The words of the language that are offered. -/
def keywords : List String :=
  ["scriptname", "begin", "end", "if", "elseif", "else", "endif", "while", "loop", "foreach",
    "continue", "break", "return", "set", "to", "let", "short", "int", "long", "float", "ref",
    "string_var", "array_var"]

/-- The candidate of a word. -/
def ofKeyword (word : String) : Completion := ⟨word, .keyword, none⟩

/-- The candidate of a symbol. -/
def ofSymbol (s : Symbol) : Completion := ⟨s.name, .variable, some s.ty.word⟩

/-- The candidate of a function. -/
def ofFunction (f : FunctionEntry) : Completion :=
  ⟨f.name, .function, some (f.kind.word ++ " -> " ++ f.returnType.word)⟩

/-- The candidate of a form. -/
def ofForm (f : FormEntry) : Completion := ⟨f.name, .form, some f.ty.word⟩

/-- The candidate of a global name, if it is one of a script. -/
def ofGlobal? (e : GlobalEntry) : Option Completion :=
  match e.origin with
  | .script _ => some ⟨e.name, .script, some "script"⟩
  | .builtin | .form | .implicit => none

/-- The first candidate of each name; `seen` are names met before. -/
def firsts (seen : List String) : List Completion → List Completion
  | [] => []
  | c :: cs =>
    if seen.contains c.key then firsts seen cs else c :: firsts (c.key :: seen) cs

/-- The candidates that begin with what is written, each name once, in order. -/
def select (written : String) (candidates : List Completion) : List Completion :=
  let beginning := (foldCase written).toList
  let fitting := candidates.filter fun c => beginning.isPrefixOf c.key.toList
  (firsts [] fitting).mergeSort precedes

end Completion

/-! ## Where the cursor is -/

/-- A cursor in a text. -/
structure Cursor where
  /-- The token that the cursor means. -/
  token : Option TokenSite
  /-- The part of an identifier in front of the cursor. -/
  written : String
  /-- The token behind which something is written. -/
  previous : Option TokenSite

namespace Cursor

/-- The cursor at an offset of a tree. -/
def ofTree (t : Tree) (offset : Nat) : Cursor :=
  match t.tokenNear? offset with
  | none => ⟨none, "", none⟩
  | some s =>
    if s.item.kind == .ident then
      ⟨some s, String.ofList (takeBytes (offset - s.item.start) s.item.text.toList),
        t.tokenBefore? TokenKind.isTrivia s.item.start⟩
    else ⟨some s, "", some s⟩

/-- A member is written. -/
def isAfterMember (c : Cursor) : Bool :=
  c.previous.any fun s => s.item.kind == .dot || s.item.kind == .arrow

end Cursor

namespace Database

/-- The symbols that can be seen from a token. -/
def visibleFrom (d : Database) (file : FileId) (token : TokenSite) : List Symbol :=
  match token.scope?.bind (d.scopeOf? file) with
  | none => []
  | some (script, scope) => (script.scopes.visible scope).filterMap script.scopes.symbol?

/-- All that may be written at a cursor. -/
def candidates (d : Database) (file : FileId) (cursor : Cursor) : List Completion :=
  let functions := d.catalog.functions.values.map Completion.ofFunction
  if cursor.isAfterMember then functions
  else
    (cursor.token.toList.flatMap (d.visibleFrom file)).map Completion.ofSymbol
      ++ Completion.keywords.map Completion.ofKeyword
      ++ functions
      ++ d.catalog.forms.values.map Completion.ofForm
      ++ d.globals.table.values.filterMap Completion.ofGlobal?

/-- **What may be written at an offset.** -/
def completionsAt (d : Database) (file : FileId) (offset : Nat) : List Completion :=
  match d.file? file with
  | none => []
  | some source =>
    let cursor := Cursor.ofTree source.root offset
    Completion.select cursor.written (d.candidates file cursor)

end Database

end ScriptSense
