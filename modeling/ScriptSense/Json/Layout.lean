/-
Writing JSON.

A value is written as its words. The compact form has nothing between them. The
spread form gives every item and every member a line of its own, indented by two
spaces for each list or record around it; a list or record without content stays
on its line, and a blank follows each colon. Both are functions of the words
alone.
-/
import ScriptSense.Json.Basic

set_option autoImplicit false

namespace ScriptSense.Json

/-- A new line, indented. -/
def newLine (depth : Nat) : List Char := '\n' :: List.replicate (2 * depth) ' '

/-- Words spread over lines, with `depth` lists and records around them. -/
def spreadWords (depth : Nat) : List Lexeme → List Char
  | [] => []
  | .openList :: .closeList :: rest => '[' :: ']' :: spreadWords depth rest
  | .openRecord :: .closeRecord :: rest => '{' :: '}' :: spreadWords depth rest
  | word :: rest =>
    match word with
    | .openList | .openRecord =>
      word.text ++ newLine (depth + 1) ++ spreadWords (depth + 1) rest
    | .closeList | .closeRecord =>
      newLine (depth - 1) ++ word.text ++ spreadWords (depth - 1) rest
    | .comma => word.text ++ newLine depth ++ spreadWords depth rest
    | .colon => word.text ++ ' ' :: spreadWords depth rest
    | _ => word.text ++ spreadWords depth rest

/-- The value on lines. -/
def spread (value : Json) : String := String.ofList (spreadWords 0 value.words)

/-- The value without blank space. -/
def compact (value : Json) : String := String.ofList (value.words.flatMap Lexeme.text)

end ScriptSense.Json
