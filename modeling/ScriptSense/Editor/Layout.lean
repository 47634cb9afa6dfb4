/-
Laying out a text.

The layout of a text concerns the edges of its lines and the case of the words
of the language; nothing else is touched. A line is indented by as many levels
as there are blocks around its first token, so the word that closes a block
stands below the one that opens it. A line without content has no blank space
at all, and no line has any at its end. A line that begins inside a string is
not seen as one, because lines are what stands between the line breaks that are
tokens.
-/
import ScriptSense.Editor.Settings
import ScriptSense.Syntax.Parse
import ScriptSense.Syntax.Site
import ScriptSense.Text.Edit
import ScriptSense.Workspace.Database

set_option autoImplicit false

namespace ScriptSense

/-! ## Lines -/

/-- The tokens between two line breaks. -/
structure Line where
  /-- The tokens, from left to right. -/
  tokens : List TokenSite
  /-- The end of the line, in front of the line break. -/
  stop : Nat

namespace Line

/-- The lines of a run of tokens that ends at an offset. -/
def split (stop : Nat) : List TokenSite → List Line
  | [] => [⟨[], stop⟩]
  | s :: rest =>
    if s.item.kind == .newline then ⟨[], s.item.start⟩ :: split stop rest
    else match split stop rest with
      | [] => [⟨[s], stop⟩]
      | line :: lines => ⟨s :: line.tokens, line.stop⟩ :: lines

/-- The lines of a tree. -/
def ofTree (t : Tree) : List Line := split t.span.stop t.sites

/-- The blank space in front of the content. -/
def indent? (l : Line) : Option Token :=
  (l.tokens.head?.map Site.item).filter (·.kind == .whitespace)

/-- The tokens behind the blank space in front. -/
def content (l : Line) : List TokenSite :=
  if l.indent?.isSome then l.tokens.tail else l.tokens

end Line

/-- The number of blocks around a token. -/
def TokenSite.blockDepth (s : TokenSite) : Nat :=
  (s.above.filter (·.isNode (· == .stmtList))).length

/-! ## Edits -/

namespace Layout

/-- Makes the blank space in front of a line what it should be. -/
def indentEdits (wanted : String) (indent : Option Token) (start : Nat) : List Edit :=
  match indent with
  | some blank => if blank.text = wanted then [] else [⟨blank.span, wanted⟩]
  | none => if wanted.isEmpty then [] else [⟨.point start, wanted⟩]

/-- Makes the case of a word what it should be. -/
def caseEdits (style : KeywordStyle) (t : Token) : List Edit :=
  if t.kind.isKeyword || t.kind.isTypeName then
    let cased := style.apply t.text
    if cased = t.text then [] else [⟨t.span, cased⟩]
  else []

/-- Removes the blank space at the end of a line. -/
def trailingEdits (last : Token) (stop : Nat) : List Edit :=
  if last.kind == .whitespace then [⟨⟨last.start, stop⟩, ""⟩] else []

/-- The edits of a line. -/
def lineEdits (settings : Settings) (l : Line) : List Edit :=
  match l.content with
  -- A line of blank space only becomes an empty one.
  | [] => l.indent?.toList.map fun blank => ⟨blank.span, ""⟩
  | first :: rest =>
    indentEdits (settings.indentation first.blockDepth) l.indent? first.item.start
      ++ (first :: rest).flatMap (fun s => caseEdits settings.keywordStyle s.item)
      ++ trailingEdits ((first :: rest).getLast (List.cons_ne_nil _ _)).item l.stop

end Layout

/-- **The edits that lay out a tree.** -/
def layoutEdits (settings : Settings) (t : Tree) : List Edit :=
  (Line.ofTree t).flatMap (Layout.lineEdits settings)

/-- **The text, laid out.** -/
def layout (settings : Settings) (text : String) : String :=
  Edit.applyAll text (layoutEdits settings (parse text).root)

/-- The edits that lay out an open file. -/
def Database.layoutEdits (d : Database) (settings : Settings) (file : FileId) : List Edit :=
  match d.file? file with
  | none => []
  | some source => ScriptSense.layoutEdits settings source.root

end ScriptSense
