/-
What the editor tells about a name.

The answer is a little document: a line of code in the way the thing could be
declared, and below it what else is known. A symbol of a script is shown with
the word that declares it.
-/
import ScriptSense.Editor.Definition

set_option autoImplicit false

namespace ScriptSense

/-- A piece of code in a document. -/
def codeBlock (code : String) : String := "```obscript\n" ++ code ++ "\n```"

/-- A document with a further paragraph. -/
def withParagraph (document paragraph : String) : String := document ++ "\n\n" ++ paragraph

/-- A document with the origin of what it is about, if there is one. -/
def withOrigin (document origin : String) : String :=
  if origin.isEmpty then document else withParagraph document ("From " ++ origin)

/-- What is told about a function. -/
def FunctionEntry.document (f : FunctionEntry) : String :=
  withOrigin
    (withParagraph (codeBlock (f.kind.word ++ " " ++ f.name))
      ("Returns `" ++ f.returnType.word ++ "`"))
    f.origin

/-- What is told about a form. -/
def FormEntry.document (f : FormEntry) : String :=
  withOrigin (codeBlock (f.ty.word ++ " " ++ f.name)) f.origin

namespace Database

/-- What is told about a symbol of a script. -/
def symbolDocument? (d : Database) (file : FileId) (symbol : SymbolId) : Option String := do
  let source ← d.file? file
  let declared ← (← source.script).scopes.symbol? symbol
  let typeToken := (source.root.find? declared.decl).bind View.VarDecl.typeToken?
  let word := (typeToken.map Token.text).getD declared.ty.word
  return codeBlock (word ++ " " ++ declared.name)

/-- What is told about a global name. -/
def globalDocument (d : Database) (entry : GlobalEntry) : String :=
  match entry.origin with
  | .builtin =>
    ((d.catalog.functions.find? entry.name).map FunctionEntry.document).getD
      (codeBlock ("function " ++ entry.name))
  | .form =>
    ((d.catalog.forms.find? entry.name).map FormEntry.document).getD
      (codeBlock ("form " ++ entry.name))
  | .script owner =>
    let document := codeBlock ("scriptname " ++ entry.name)
    match d.key? owner with
    | none => document
    | some key => withParagraph document ("Declared in `" ++ key.text ++ "`")
  | .implicit => withParagraph (codeBlock entry.name) "Not declared in any open script"

/-- What is told about a thing. -/
def document? (d : Database) : Definition → Option String
  | .bound file _ symbol => d.symbolDocument? file symbol
  | .global entry => some (d.globalDocument entry)

/-- **What is told about the name that a cursor means**, with the place of the
name. -/
def hoverAt? (d : Database) (file : FileId) (offset : Nat) : Option (String × Span) := do
  let (token, definition) ← d.definitionAt? file offset
  return (← d.document? definition, token.item.span)

end Database

end ScriptSense
