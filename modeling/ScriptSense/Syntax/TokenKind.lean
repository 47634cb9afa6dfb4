/-
The kinds of tokens.

A kind belongs to one family. The families are what the grammar and the editor
ask about: trivia is invisible to the grammar, line breaks end statements,
keywords and type names are what the layout may recase. Since a family is a
function of the kind, no kind is in two of them.

The binding powers at the end are the whole of the operator table: an operator
with powers `(l, r)` takes an operand to its left that binds at least as tightly
as `l` and one to its right that binds at least as tightly as `r`, so `l < r`
associates to the left and `r < l` to the right.
-/
import ScriptSense.Text.Casing

set_option autoImplicit false

namespace ScriptSense

/-- What a token is. -/
inductive TokenKind where
  | whitespace | comment | newline | number | hexNumber | string | ident
  | colonEq | plusEq | minusEq | starEq | slashEq | caretEq | pipeEq | ampEq | percentEq
  | pipePipe | ampAmp | eqEq | bangEq | gtEq | ltEq | shl | shr | arrow | lArrow
  | plus | minus | star | slash | percent | caret | bang | dollar | hash | amp | pipe | lt | gt
  | dot | comma | colon | lParen | rParen | lBracket | rBracket | lBrace | rBrace
  | kwScriptName | kwBegin | kwEnd | kwIf | kwElseIf | kwElse | kwEndIf | kwWhile | kwLoop
  | kwForeach | kwContinue | kwBreak | kwReturn | kwSet | kwTo | kwLet
  | kwShort | kwInt | kwLong | kwFloat | kwRef | kwStringVar | kwArrayVar
  | unknown | eof
deriving DecidableEq, Repr, Inhabited

/-- The families of token kinds. -/
inductive TokenFamily where
  /-- Blank space and comments. -/
  | trivia
  /-- Runs of line breaks. -/
  | newline
  /-- Numbers and strings. -/
  | literal
  /-- Names that are no keywords. -/
  | identifier
  /-- Operators that store a value. -/
  | assignment
  /-- The other operators, and punctuation. -/
  | operator
  /-- Words with a place of their own in the grammar. -/
  | keyword
  /-- Words that declare a variable. -/
  | typeName
  /-- Characters no token starts with, and the end of the text. -/
  | special
deriving DecidableEq, Repr

namespace TokenKind

/-- Every kind, in the order of declaration. -/
def all : List TokenKind :=
  [.whitespace, .comment, .newline, .number, .hexNumber, .string, .ident, .colonEq, .plusEq,
    .minusEq, .starEq, .slashEq, .caretEq, .pipeEq, .ampEq, .percentEq, .pipePipe, .ampAmp,
    .eqEq, .bangEq, .gtEq, .ltEq, .shl, .shr, .arrow, .lArrow, .plus, .minus, .star, .slash,
    .percent, .caret, .bang, .dollar, .hash, .amp, .pipe, .lt, .gt, .dot, .comma, .colon,
    .lParen, .rParen, .lBracket, .rBracket, .lBrace, .rBrace, .kwScriptName, .kwBegin, .kwEnd,
    .kwIf, .kwElseIf, .kwElse, .kwEndIf, .kwWhile, .kwLoop, .kwForeach, .kwContinue, .kwBreak,
    .kwReturn, .kwSet, .kwTo, .kwLet, .kwShort, .kwInt, .kwLong, .kwFloat, .kwRef,
    .kwStringVar, .kwArrayVar, .unknown, .eof]

/-- The family of a kind. -/
def family : TokenKind → TokenFamily
  | .whitespace | .comment => .trivia
  | .newline => .newline
  | .number | .hexNumber | .string => .literal
  | .ident => .identifier
  | .colonEq | .plusEq | .minusEq | .starEq | .slashEq | .caretEq | .pipeEq | .ampEq
  | .percentEq => .assignment
  | .pipePipe | .ampAmp | .eqEq | .bangEq | .gtEq | .ltEq | .shl | .shr | .arrow | .lArrow
  | .plus | .minus | .star | .slash | .percent | .caret | .bang | .dollar | .hash | .amp
  | .pipe | .lt | .gt | .dot | .comma | .colon | .lParen | .rParen | .lBracket | .rBracket
  | .lBrace | .rBrace => .operator
  | .kwScriptName | .kwBegin | .kwEnd | .kwIf | .kwElseIf | .kwElse | .kwEndIf | .kwWhile
  | .kwLoop | .kwForeach | .kwContinue | .kwBreak | .kwReturn | .kwSet | .kwTo | .kwLet => .keyword
  | .kwShort | .kwInt | .kwLong | .kwFloat | .kwRef | .kwStringVar | .kwArrayVar => .typeName
  | .unknown | .eof => .special

/-- Blank space or a comment. -/
def isTrivia (k : TokenKind) : Bool := k.family == .trivia

theorem isTrivia_iff {k : TokenKind} : k.isTrivia = true ↔ k = .whitespace ∨ k = .comment := by
  cases k <;> decide

/-- A number or a string. -/
def isLiteral (k : TokenKind) : Bool := k.family == .literal

/-- An operator that stores a value. -/
def isAssignment (k : TokenKind) : Bool := k.family == .assignment

/-- An operator, one that stores a value included, or punctuation. -/
def isOperator (k : TokenKind) : Bool := k.family == .assignment || k.family == .operator

/-- A word with a place of its own in the grammar. -/
def isKeyword (k : TokenKind) : Bool := k.family == .keyword

/-- A word that declares a variable. -/
def isTypeName (k : TokenKind) : Bool := k.family == .typeName

/-- Neither trivia nor a line break. -/
def isSignificant (k : TokenKind) : Bool := !k.isTrivia && k != .newline

/-! ## Operators -/

/-- The powers with which an operator binds the operands on its two sides. -/
def binaryPower? : TokenKind → Option (Nat × Nat)
  -- From right to left: `a := b := 1` stores into both.
  | .colonEq | .plusEq | .minusEq | .starEq | .slashEq | .caretEq | .pipeEq | .ampEq
  | .percentEq => some (2, 1)
  | .pipePipe => some (3, 4)
  | .ampAmp => some (5, 6)
  | .colon => some (7, 8)
  | .eqEq | .bangEq => some (9, 10)
  | .lt | .gt | .ltEq | .gtEq => some (11, 12)
  | .pipe => some (13, 14)
  | .amp => some (15, 16)
  | .shl | .shr => some (17, 18)
  | .plus | .minus => some (19, 20)
  | .star | .slash | .percent => some (21, 22)
  -- From right to left, as powers are written.
  | .caret => some (24, 23)
  | _ => none

/-- The power with which an operator in front of an operand binds it. -/
def unaryPower? : TokenKind → Option Nat
  | .bang | .minus | .dollar | .hash | .star | .amp => some 25
  | _ => none

/-- Operators in front of an operand bind tighter than all between operands. -/
theorem binaryPower?_lt {k : TokenKind} {powers : Nat × Nat} (h : k.binaryPower? = some powers) :
    powers.1 < 25 := by
  cases k <;> simp [binaryPower?] at h <;> subst h <;> decide

/-- All operators in front of an operand bind equally tight. -/
theorem unaryPower?_eq {k : TokenKind} {power : Nat} (h : k.unaryPower? = some power) :
    power = 25 := by
  cases k <;> simp [unaryPower?] at h <;> exact h.symm

/-- An expression may begin here. -/
def canStartExpression (k : TokenKind) : Bool :=
  k.isLiteral || k.unaryPower?.isSome || k == .ident || k == .lParen

/-- An argument without parentheses around the list may begin here. An operator
that may also stand between operands does not begin one: `f - 1` subtracts. -/
def canStartArgument : TokenKind → Bool
  | .number | .hexNumber | .string | .ident | .lParen | .dollar | .hash | .bang => true
  | _ => false

/-! ## Words -/

/-- The words that are no identifiers, in small letters. -/
def wordTable : List (String × TokenKind) :=
  [("scriptname", .kwScriptName), ("scn", .kwScriptName), ("begin", .kwBegin), ("end", .kwEnd),
    ("if", .kwIf), ("elseif", .kwElseIf), ("else", .kwElse), ("endif", .kwEndIf),
    ("while", .kwWhile), ("loop", .kwLoop), ("foreach", .kwForeach),
    ("continue", .kwContinue), ("break", .kwBreak), ("return", .kwReturn), ("set", .kwSet),
    ("to", .kwTo), ("let", .kwLet), ("short", .kwShort), ("int", .kwInt), ("long", .kwLong),
    ("float", .kwFloat), ("ref", .kwRef), ("reference", .kwRef), ("string_var", .kwStringVar),
    ("array_var", .kwArrayVar)]

/-- The kind of a word, whatever the case of its letters. -/
def ofWord (word : String) : TokenKind := (wordTable.lookup (foldCase word)).getD .ident

/-- The name under which a kind is shown. -/
def label : TokenKind → String
  | .whitespace => "Whitespace"
  | .comment => "Comment"
  | .newline => "Newline"
  | .number => "Number"
  | .hexNumber => "HexNumber"
  | .string => "String"
  | .ident => "Ident"
  | .colonEq => "ColonEq"
  | .plusEq => "PlusEq"
  | .minusEq => "MinusEq"
  | .starEq => "StarEq"
  | .slashEq => "SlashEq"
  | .caretEq => "CaretEq"
  | .pipeEq => "PipeEq"
  | .ampEq => "AmpEq"
  | .percentEq => "PercentEq"
  | .pipePipe => "PipePipe"
  | .ampAmp => "AmpAmp"
  | .eqEq => "EqEq"
  | .bangEq => "BangEq"
  | .gtEq => "GtEq"
  | .ltEq => "LtEq"
  | .shl => "Shl"
  | .shr => "Shr"
  | .arrow => "Arrow"
  | .lArrow => "LArrow"
  | .plus => "Plus"
  | .minus => "Minus"
  | .star => "Star"
  | .slash => "Slash"
  | .percent => "Percent"
  | .caret => "Caret"
  | .bang => "Bang"
  | .dollar => "Dollar"
  | .hash => "Hash"
  | .amp => "Amp"
  | .pipe => "Pipe"
  | .lt => "Lt"
  | .gt => "Gt"
  | .dot => "Dot"
  | .comma => "Comma"
  | .colon => "Colon"
  | .lParen => "LParen"
  | .rParen => "RParen"
  | .lBracket => "LBracket"
  | .rBracket => "RBracket"
  | .lBrace => "LBrace"
  | .rBrace => "RBrace"
  | .kwScriptName => "KwScriptName"
  | .kwBegin => "KwBegin"
  | .kwEnd => "KwEnd"
  | .kwIf => "KwIf"
  | .kwElseIf => "KwElseIf"
  | .kwElse => "KwElse"
  | .kwEndIf => "KwEndIf"
  | .kwWhile => "KwWhile"
  | .kwLoop => "KwLoop"
  | .kwForeach => "KwForeach"
  | .kwContinue => "KwContinue"
  | .kwBreak => "KwBreak"
  | .kwReturn => "KwReturn"
  | .kwSet => "KwSet"
  | .kwTo => "KwTo"
  | .kwLet => "KwLet"
  | .kwShort => "KwShort"
  | .kwInt => "KwInt"
  | .kwLong => "KwLong"
  | .kwFloat => "KwFloat"
  | .kwRef => "KwRef"
  | .kwStringVar => "KwStringVar"
  | .kwArrayVar => "KwArrayVar"
  | .unknown => "Unknown"
  | .eof => "Eof"

/-- Only the fold of a word decides its kind. -/
theorem ofWord_congr {a b : String} (h : foldCase a = foldCase b) : ofWord a = ofWord b := by
  simp [ofWord, h]

end TokenKind

end ScriptSense
