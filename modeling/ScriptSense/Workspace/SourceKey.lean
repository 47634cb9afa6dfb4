/-
What a file is known by.

A file is known by its path or, if it has none, by whatever name the editor has
for it. Paths are compared by their text alone: repeated separators and
components `.` mean nothing, and a component `..` takes back the one before it,
or nothing if there is none.
-/

set_option autoImplicit false

namespace ScriptSense

/-- A path in its shortest form. -/
structure SourcePath where
  /-- The path begins at the root. -/
  absolute : Bool
  /-- The components, from the outside in. -/
  components : List String
deriving DecidableEq, Repr

namespace SourcePath

/-- What stands between the separators of a path. -/
def pieces : List Char → List (List Char)
  | [] => [[]]
  | c :: cs =>
    if c = '/' then [] :: pieces cs
    else match pieces cs with
      | [] => [[c]]
      | piece :: rest => (c :: piece) :: rest

/-- The components after one more piece of a path. -/
def enter (components : List String) (piece : String) : List String :=
  if piece = "" ∨ piece = "." then components
  -- In front of the first component there is nothing to take back.
  else if piece = ".." then components.dropLast
  else components ++ [piece]

/-- The path of a text. -/
def ofText (text : String) : SourcePath :=
  ⟨text.toList.head? == some '/',
    ((pieces text.toList).map String.ofList).foldl enter []⟩

/-- The written form. -/
def text (p : SourcePath) : String :=
  (if p.absolute then "/" else "") ++ "/".intercalate p.components

end SourcePath

/-- What a file is known by. -/
inductive SourceKey where
  /-- A path. -/
  | path (path : SourcePath)
  /-- The name of something without a path. -/
  | virtual (name : String)
deriving DecidableEq, Repr

namespace SourceKey

/-- The key of a path. -/
def ofPath (text : String) : SourceKey := .path (.ofText text)

/-- What the addresses of files begin with. -/
def fileScheme : List Char := "file://".toList

/-- The key of an address: a path if it is the address of a file. -/
def ofUri (uri : String) : SourceKey :=
  if fileScheme.isPrefixOf uri.toList then
    ofPath (String.ofList (uri.toList.drop fileScheme.length))
  else .virtual uri

/-- The written form. -/
def text : SourceKey → String
  | .path p => p.text
  | .virtual name => name

end SourceKey

end ScriptSense
