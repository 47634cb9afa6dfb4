/-
Reading tokens and building the tree, in one state.

The grammar sees significant tokens and line breaks only; blank space and
comments travel along. A token takes the trivia in front of it into the node
under construction, and a node that is opened first leaves that trivia to the
node around it, so that it begins with a token of its own. Only a list of
statements keeps the trivia in front: the indentation of a block is inside it.

Tokens move in one way, by `State.shift`: the first of `rest` becomes the last
of `out`. Whatever the grammar does, what is built so far followed by what is
left is therefore the text, and nothing can be lost, doubled or reordered.

Two things are counted. Every look at a token is counted until a token is
consumed, and a grammar that looks more often than `lookLimit` times is stuck;
nesting is counted by the rules themselves, against `nestingLimit`. A fault ends
the reading: from then on every look finds the end of the text, all rules
return, and the tokens left go to the root. The grammar of this library never
faults, but the type of its steps does not know that.
-/
import ScriptSense.Syntax.Problem
import ScriptSense.Syntax.Tree

set_option autoImplicit false

namespace ScriptSense

universe u

/-- What a rule relies on when it goes on. -/
inductive Footing where
  /-- The kind of the next token. -/
  | token (kind : TokenKind)
  /-- Whether the element built last is a node. -/
  | built (isNode : Bool)
  /-- Whether a counter is above zero. -/
  | counted (isOpen : Bool)
deriving DecidableEq, Repr

/-- Why the reading of a text was given up. -/
inductive Fault where
  /-- Too many looks at the same token. -/
  | stuck
  /-- A rule found something else than what it stands on. -/
  | mismatch (wanted found : Footing)
deriving DecidableEq, Repr

namespace Grammar

/-- The looks allowed between two tokens consumed. -/
def lookLimit : Nat := 4096

/-- The depth of expressions and blocks from which on they are skipped. -/
def nestingLimit : Nat := 128

/-! ## The tokens ahead -/

/-- The kind of the `n`-th token ahead, trivia not counted; `eof` behind the
last one. -/
def kindAhead : Nat → List Token → TokenKind
  | _, [] => .eof
  | n, t :: ts =>
    if t.kind.isTrivia then kindAhead n ts
    else match n with
      | 0 => t.kind
      | n + 1 => kindAhead n ts

/-- How many tokens at the front are line breaks, with the trivia between and in
front of them. -/
def breaksAhead : List Token → Nat
  | [] => 0
  | t :: ts =>
    if t.kind == .newline then breaksAhead ts + 1
    else if t.kind.isTrivia then
      -- Trivia goes along only if a line break comes after it.
      match breaksAhead ts with
      | 0 => 0
      | n + 1 => n + 2
    else 0

/-! ## The state -/

/-- What is counted on the way in and out of a construct. -/
inductive Counter where
  /-- Open parentheses. -/
  | parens
  /-- Open `begin` blocks and lambdas. -/
  | begins
  /-- The depth of expressions and blocks. -/
  | nesting
deriving DecidableEq, Repr

/-- The tokens ahead, the node under construction, and what is counted. -/
structure State where
  /-- The tokens not consumed yet, trivia included, the final `eof` not. -/
  rest : List Token
  /-- The offset at which `rest` begins. -/
  offset : Nat := 0
  /-- The end of the last significant token consumed. -/
  anchor : Nat := 0
  /-- The children so far of the node under construction. -/
  out : Array Tree := #[]
  /-- The complaints so far. -/
  complaints : Array Complaint := #[]
  /-- Open parentheses; while there are any, line breaks mean nothing. -/
  parens : Nat := 0
  /-- Open `begin` blocks and lambdas. -/
  begins : Nat := 0
  /-- The depth of expressions and blocks. -/
  nesting : Nat := 0
  /-- The looks since the last token consumed. -/
  looks : Nat := 0
  /-- Why the reading was given up. -/
  fault : Option Fault := none

namespace State

/-- Moves the first token ahead into the node under construction. -/
def shift (s : State) : State :=
  match s.rest with
  | [] => s
  | t :: ts =>
    { s with
      rest := ts
      out := s.out.push (.leaf t)
      offset := t.stop
      anchor := if t.kind.isSignificant then t.stop else s.anchor }

/-- Moves the first `n` tokens ahead. -/
def shiftMany : Nat → State → State
  | 0, s => s
  | n + 1, s => shiftMany n s.shift

/-- Moves the trivia ahead. -/
def shiftTrivia (s : State) : State :=
  s.shiftMany (s.rest.takeWhile (·.kind.isTrivia)).length

/-- Moves the line breaks ahead, if there are open parentheses. -/
def shiftBreaks (s : State) : State :=
  if 0 < s.parens then s.shiftMany (breaksAhead s.rest) else s

/-- Consumes the next token; between parentheses also the line breaks after it. -/
def consume (s : State) : State :=
  { s.shiftTrivia.shift.shiftBreaks with looks := 0 }

/-- Where a complaint about the next token belongs: on the token, or behind the
last significant one if the line ends here. -/
def place (s : State) : Span :=
  match s.rest.dropWhile (·.kind.isTrivia) with
  | [] => .point s.anchor
  | t :: _ => if t.kind == .newline then .point s.anchor else t.span

/-- Gives up, for the first reason that there was. -/
def giveUp (fault : Fault) (s : State) : State :=
  { s with fault := s.fault.or (some fault) }

/-- The value of a counter. -/
def count (s : State) : Counter → Nat
  | .parens => s.parens
  | .begins => s.begins
  | .nesting => s.nesting

/-- Gives a counter a value. -/
def setCount (c : Counter) (n : Nat) (s : State) : State :=
  match c with
  | .parens => { s with parens := n }
  | .begins => { s with begins := n }
  | .nesting => { s with nesting := n }

/-- Adds one to a counter. -/
def raise (c : Counter) (s : State) : State := s.setCount c (s.count c + 1)

/-- Takes one from a counter, which has to be above zero. -/
def lower (c : Counter) (s : State) : State :=
  if s.count c = 0 then s.giveUp (.mismatch (.counted true) (.counted false))
  else s.setCount c (s.count c - 1)

/-- Closes the node under construction, which began at `start`, and goes back to
the node around it, whose children so far are `outer`. -/
def close (kind : NodeKind) (start : Nat) (outer : Array Tree) (s : State) : State :=
  { s with out := outer.push (.node kind ⟨start, s.offset⟩ s.out.toList) }

end State

/-! ## Steps -/

/-- A step of the grammar. -/
abbrev Step := StateM State

/-- Looks at the `n`-th token ahead. -/
def look (n : Nat) : Step TokenKind := fun s =>
  if s.fault.isSome || lookLimit < s.looks then (.eof, s.giveUp .stuck)
  else (kindAhead n s.rest, { s with looks := s.looks + 1 })

/-- Looks at the next token. -/
def current : Step TokenKind := look 0

/-- Looks whether the next token is of a kind. -/
def isAt (kind : TokenKind) : Step Bool := return (← current) == kind

/-- Looks whether the text ends here. -/
def atEnd : Step Bool := isAt .eof

/-- Looks whether the line ends here. -/
def atLineEnd : Step Bool := do
  let kind ← current
  return kind == .newline || kind == .eof

/-- Consumes the next token, whatever it is. -/
def bumpAny : Step Unit := do
  -- There is nothing to consume at the end of the text.
  unless (← current) == .eof do
    modify State.consume

/-- Consumes the next token if it is of a kind. -/
def eat (kind : TokenKind) : Step Bool := do
  let there ← isAt kind
  if there then modify State.consume
  return there

/-- Consumes the next token, which the rule knows to be of a kind. -/
def bump (kind : TokenKind) : Step Unit := do
  let found ← current
  if found == kind then modify State.consume
  else modify (State.giveUp (.mismatch (.token kind) (.token found)))

/-- Complains about the next token. -/
def complain (problem : Problem) : Step Unit :=
  modify fun s => { s with complaints := s.complaints.push ⟨problem, s.place⟩ }

/-- Consumes a token of a kind or complains that it is missing. -/
def expect (kind : TokenKind) (wanted : Wanted) : Step Bool := do
  let there ← eat kind
  unless there do complain (.missing wanted)
  return there

/-! ## Nodes -/

variable {α : Type}

/-- Builds a node over what `body` consumes. -/
def node (kind : NodeKind) (body : Step α) : Step α := do
  -- Indentation is outside the node, except that a block has its own inside.
  unless kind == .stmtList do modify State.shiftTrivia
  let before ← get
  set { before with out := #[] }
  let a ← body
  modify (State.close kind before.offset before.out)
  return a

/-- Builds a node whose first child is the node built last, followed by what
`body` consumes. -/
def nodeAround (kind : NodeKind) (body : Step α) : Step α := do
  let before ← get
  match before.out.back? with
  | some (.node first span children) =>
    set { before with out := #[.node first span children] }
    let a ← body
    -- The new node begins where its first child does.
    modify (State.close kind span.start before.out.pop)
    return a
  | _ =>
    modify (State.giveUp (.mismatch (.built true) (.built false)))
    node kind body

/-! ## Control -/

/-- Repeats a step on what it answered last, until it answers nothing, at most
`turns` times. -/
def iterate {σ : Type} (step : σ → Step (Option σ)) : Nat → σ → Step Unit
  | 0, _ => modify (State.giveUp .stuck)
  | turns + 1, x => do
    match ← step x with
    | none => return
    | some y => iterate step turns y

/-- Runs `body` with a counter raised by one. -/
def within (c : Counter) (body : Step α) : Step α := do
  modify (State.raise c)
  let a ← body
  modify (State.lower c)
  return a

/-- Runs `body` and puts a counter back to where it was. -/
def restoring (c : Counter) (body : Step α) : Step α := do
  let outer := (← get).count c
  let a ← body
  modify (State.setCount c outer)
  return a

/-- Runs `body` outside the parentheses that are open, where line breaks count. -/
def withoutParens (body : Step α) : Step α :=
  restoring .parens do
    modify (State.setCount .parens 0)
    body

/-- A turn of a climb: a check and, one level deeper, an act on what it answered. -/
def climbTurn {β : Type} (check : Step (Option β)) (act : β → Step Bool) :
    Step (Option Unit) := do
  match ← check with
  | none => return none
  | some b => do
    modify (State.raise .nesting)
    if ← act b then return some () else return none

/-- Repeats two steps in turn, as long as the first answers something and the
second, which is given the answer, answers `true`. Each time the second is one
level deeper; behind the last one, the depth is what it was. -/
def climb {β : Type} (check : Step (Option β)) (act : β → Step Bool) (turns : Nat) : Step Unit :=
  restoring .nesting (iterate (fun _ => climbTurn check act) turns ())

/-! ## Questions about the state -/

/-- The limit of nesting is reached. -/
def isTooDeep : Step Bool := return nestingLimit ≤ (← get).nesting

/-- No `begin` block and no lambda is open. -/
def isOutside : Step Bool := return (← get).begins == 0

/-- The next token has a text with the property. -/
def textAhead (p : String → Bool) : Step Bool :=
  return ((← get).rest.find? (!·.kind.isTrivia)).any fun t => p t.text

end Grammar

end ScriptSense
