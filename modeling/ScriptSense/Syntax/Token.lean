/-
Tokens, and how a text falls into them.

A text is cut into tokens from left to right, and the cut is exact: the tokens
follow each other without gap or overlap, and one empty token of kind `eof`
ends the list. Nothing is refused; a character that begins no token is a token
of its own, of kind `unknown`.

What a token is depends on its first character. That is what `Lead` records,
and the scanner below is one small function for each lead. Only digits and the
point take a second look: `12.5` is one number, but `12.5x` is the words `12`
and `5x` around a point, because a number may not run into a letter.
-/
import ScriptSense.Number.Digits
import ScriptSense.Text.Span
import ScriptSense.Text.Bytes
import ScriptSense.Syntax.TokenKind

set_option autoImplicit false

namespace ScriptSense

/-- A piece of a text with its place in it. -/
structure Token where
  /-- What the token is. -/
  kind : TokenKind
  /-- The offset at which it begins. -/
  start : Nat
  /-- The characters it is made of. -/
  text : String
deriving DecidableEq, Repr, Inhabited

namespace Token

/-- The offset after the token. -/
def stop (t : Token) : Nat := t.start + t.text.utf8ByteSize

/-- The place of the token. -/
def span (t : Token) : Span := ⟨t.start, t.stop⟩

/-- The text that a run of tokens spells. -/
def spell (tokens : List Token) : String :=
  String.ofList (tokens.flatMap fun t => t.text.toList)

end Token

/-! ## Classes of characters -/

/-- Horizontal blank space: space, tab, form feed. -/
def isGap (c : Char) : Bool := c == ' ' || c == '\t' || c == '\x0c'

/-- A character of a line break. -/
def isBreak (c : Char) : Bool := c == '\r' || c == '\n'

/-- A character of a word. -/
def isWordChar (c : Char) : Bool := c.isAlphanum || c == '_'

/-- The ways in which a token can begin. -/
inductive Lead where
  | gap | lineBreak | semicolon | quote | digit | letter | point | other
deriving DecidableEq, Repr

/-- The way in which a token begins that has this first character. -/
def Lead.of (c : Char) : Lead :=
  if isGap c then .gap
  else if isBreak c then .lineBreak
  else if c == ';' then .semicolon
  else if c == '"' || c == '\'' then .quote
  else if c.isDigit then .digit
  else if isWordChar c then .letter
  else if c == '.' then .point
  else .other

/-! ## The scanner

Each function is given what the token begins with and answers its kind and its
length in characters. -/

namespace Scan

/-- How many characters at the front have the property. -/
def run (p : Char → Bool) (cs : List Char) : Nat := (cs.takeWhile p).length

/-- The next character belongs to a word. -/
def wordFollows (cs : List Char) : Bool := cs.head?.any isWordChar

/-- A word, all of it: a keyword, a type name or an identifier. -/
def word (cs : List Char) : TokenKind × Nat :=
  let n := run isWordChar cs
  (TokenKind.ofWord (String.ofList (cs.take n)), n)

/-- The length of a hexadecimal number: a zero, an `x` and at least one digit. -/
def hexLength? : List Char → Option Nat
  | '0' :: x :: cs =>
    let n := run isHexDigit cs
    -- Without a digit behind the `x` this is a word, `0x`.
    if (x == 'x' || x == 'X') && 0 < n then some (n + 2) else none
  | _ => none

/-- The length of the digits at the front, with the fraction after them. -/
def decimalLength (cs : List Char) : Nat :=
  let n := run Char.isDigit cs
  match cs.drop n with
  | '.' :: fraction =>
    let m := run Char.isDigit fraction
    if 0 < m then n + 1 + m else n
  | _ => n

/-- What begins with a digit. A decimal number that runs into a letter is none;
the digits are then part of a word. -/
def digits (cs : List Char) : TokenKind × Nat :=
  match hexLength? cs with
  | some n => (.hexNumber, n)
  | none =>
    -- `12.5x` is no number, and of it the word takes `12` only: a point is in no
    -- word. The rest is looked at afresh.
    let n := decimalLength cs
    if wordFollows (cs.drop n) then word cs else (.number, n)

/-- What begins with a point: a number if digits follow and no letter after
them. -/
def point (rest : List Char) : TokenKind × Nat :=
  let n := run Char.isDigit rest
  if 0 < n && !wordFollows (rest.drop n) then (.number, n + 1) else (.dot, 1)

/-- A string, up to the next quote of the same sort, or to the end of the text
if there is none. -/
def quoted (quote : Char) (rest : List Char) : TokenKind × Nat :=
  let n := run (· != quote) rest
  -- One quote in front; the other one counts if it is there.
  (.string, if (rest.drop n).isEmpty then n + 1 else n + 2)

/-- Operators of two characters. -/
def pair? : Char → Char → Option TokenKind
  | ':', '=' => some .colonEq
  | '+', '=' => some .plusEq
  | '-', '=' => some .minusEq
  | '*', '=' => some .starEq
  | '/', '=' => some .slashEq
  | '^', '=' => some .caretEq
  | '|', '=' => some .pipeEq
  | '&', '=' => some .ampEq
  | '%', '=' => some .percentEq
  | '|', '|' => some .pipePipe
  | '&', '&' => some .ampAmp
  | '=', '=' => some .eqEq
  | '!', '=' => some .bangEq
  | '>', '=' => some .gtEq
  | '<', '=' => some .ltEq
  | '<', '<' => some .shl
  | '>', '>' => some .shr
  | '-', '>' => some .arrow
  | '<', '-' => some .lArrow
  | _, _ => none

/-- Operators and punctuation of one character. -/
def single? : Char → Option TokenKind
  | '+' => some .plus
  | '-' => some .minus
  | '*' => some .star
  | '/' => some .slash
  | '%' => some .percent
  | '^' => some .caret
  | '!' => some .bang
  | '$' => some .dollar
  | '#' => some .hash
  | '&' => some .amp
  | '|' => some .pipe
  | '<' => some .lt
  | '>' => some .gt
  | ',' => some .comma
  | ':' => some .colon
  | '(' => some .lParen
  | ')' => some .rParen
  | '[' => some .lBracket
  | ']' => some .rBracket
  | '{' => some .lBrace
  | '}' => some .rBrace
  | _ => none

/-- An operator: the longer one where two would do. -/
def operator (c : Char) (rest : List Char) : TokenKind × Nat :=
  match rest.head?.bind (pair? c) with
  | some kind => (kind, 2)
  | none => ((single? c).getD .unknown, 1)

/-- **The token at the front of `c :: rest`.** -/
def next (c : Char) (rest : List Char) : TokenKind × Nat :=
  match Lead.of c with
  | .gap => (.whitespace, run isGap rest + 1)
  | .lineBreak => (.newline, run isBreak rest + 1)
  | .semicolon => (.comment, run (!isBreak ·) rest + 1)
  | .quote => quoted c rest
  | .digit => digits (c :: rest)
  | .letter => word (c :: rest)
  | .point => point rest
  | .other => operator c rest

end Scan

/-- The tokens of a text that begins at an offset. -/
def tokensFrom (offset : Nat) : List Char → List Token
  | [] => [⟨.eof, offset, ""⟩]
  | c :: rest =>
    let (kind, length) := Scan.next c rest
    -- `c` is part of the token whatever the length, so the rest is shorter.
    let text := String.ofList ((c :: rest).take length)
    ⟨kind, offset, text⟩ :: tokensFrom (offset + text.utf8ByteSize) (rest.drop (length - 1))
termination_by cs => cs.length
decreasing_by
  simp only [List.length_cons, List.length_drop]
  omega

/-- **The tokens of a text**, the last one of kind `eof`. -/
def tokens (text : String) : List Token := tokensFrom 0 text.toList

/-- The text is one identifier and nothing else. -/
def isIdentifier (text : String) : Bool := (tokens text).map Token.kind == [.ident, .eof]

end ScriptSense
