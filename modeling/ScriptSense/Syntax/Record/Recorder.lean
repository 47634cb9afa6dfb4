/-
Looking at tokens and writing down events.

A rule that builds a node sets a mark in front of it (`start`), writes down what is
in the node, and completes the mark with the kind of the node, or abandons it if there
is no node after all. Until then the mark stands on a place that is kept for the
start of the node, and it has to stand on that very place when it is completed. A node
that is complete can be preceded by another one, which is written down behind it and
will begin where it begins.

A mark that was set has to be settled: each is put on the list of those that are
pending and taken off when it is completed or abandoned. Whoever asks for the events
asks whether a mark is left.
-/
import ScriptSense.Syntax.Grammar.Builder
import ScriptSense.Syntax.Record.Event

set_option autoImplicit false

namespace ScriptSense.Record

open Grammar (Counter lookLimit nestingLimit)

/-! ## What a reading sees of a text -/

/-- The kinds of the tokens of a text, blank space, comments and the end left out, and
of each whether it is a name known to be a function. -/
structure Input where
  /-- The kinds of the tokens. -/
  kinds : Array TokenKind
  /-- Whether the token is an identifier known to be a function. -/
  functions : Array Bool
deriving Repr

namespace Input

/-- What is seen of some tokens. -/
def ofTokens (isFunction : String → Bool) (tokens : List Token) : Input :=
  let seen := tokens.filter fun t => !t.kind.isTrivia && t.kind != .eof
  { kinds := (seen.map (·.kind)).toArray
    functions := (seen.map fun t => t.kind == .ident && isFunction t.text).toArray }

/-- The kind of a token; behind the last one, `eof`. -/
def kind (input : Input) (place : Nat) : TokenKind := input.kinds[place]?.getD .eof

/-- The token is an identifier known to be a function. -/
def isFunction (input : Input) (place : Nat) : Bool := input.functions[place]?.getD false

/-- How many line breaks follow each other from a token on. -/
def breaksFrom (input : Input) (place : Nat) : Nat :=
  ((input.kinds.toList.drop place).takeWhile (· == .newline)).length

end Input

/-! ## The state -/

/-- The place of a reading, the events so far, and what is counted. -/
structure State where
  /-- The tokens that are read. -/
  input : Input
  /-- How many of them have been consumed. -/
  place : Nat := 0
  /-- The events so far. -/
  events : Array Event := #[]
  /-- The marks that were set and are neither completed nor abandoned, by their places. -/
  pending : List Nat := []
  /-- The looks since the last token consumed. -/
  looks : Nat := 0
  /-- Open parentheses; while there are any, line breaks mean nothing. -/
  parens : Nat := 0
  /-- Open `begin` blocks and lambdas. -/
  begins : Nat := 0
  /-- The depth of expressions and blocks. -/
  nesting : Nat := 0

namespace State

/-- Writes down an event. -/
def write (e : Event) (s : State) : State := { s with events := s.events.push e }

/-- Consumes a token as one of a kind. -/
def take (kind : TokenKind) (s : State) : State :=
  { s.write (.token kind 1) with place := s.place + 1, looks := 0 }

/-- Consumes a number of line breaks. -/
def takeBreaks : Nat → State → State
  | 0, s => s
  | n + 1, s => takeBreaks n (s.take .newline)

/-- Consumes a token as one of a kind; between parentheses also the line breaks after it. -/
def consume (kind : TokenKind) (s : State) : State :=
  let s := s.take kind
  if 0 < s.parens then s.takeBreaks (s.input.breaksFrom s.place) else s

/-- The value of a counter. -/
def count (s : State) : Counter → Nat
  | .parens => s.parens
  | .begins => s.begins
  | .nesting => s.nesting

/-- Gives a counter a value. -/
def setCount (c : Counter) (n : Nat) (s : State) : State :=
  match c with
  | .parens => { s with parens := n }
  | .begins => { s with begins := n }
  | .nesting => { s with nesting := n }

/-- Adds one to a counter. -/
def raise (c : Counter) (s : State) : State := s.setCount c (s.count c + 1)

end State

/-! ## Steps -/

/-- A step of a reading. -/
abbrev Step := StateT State (Except Breach)

variable {α β σ : Type}

/-- Looks at the `n`-th token ahead. -/
def look (n : Nat) : Step TokenKind := fun s =>
  if lookLimit < s.looks then .error .stuck
  else .ok (s.input.kind (s.place + n), { s with looks := s.looks + 1 })

/-- Looks at the next token. -/
def current : Step TokenKind := look 0

/-- Looks whether the next token is of a kind. -/
def isAt (kind : TokenKind) : Step Bool := return (← current) == kind

/-- Looks whether the text ends here. -/
def atEnd : Step Bool := isAt .eof

/-- Looks whether the line ends here. -/
def atLineEnd : Step Bool := do
  let kind ← current
  return kind == .newline || kind == .eof

/-- Looks whether the next token is an identifier known to be a function. -/
def atFunction : Step Bool := do
  if ← isAt .ident then return (← get).input.isFunction (← get).place
  return false

/-- Consumes the next token, whatever it is. -/
def bumpAny : Step Unit := do
  let kind ← current
  -- There is nothing to consume at the end of the text.
  unless kind == .eof do modify (State.consume kind)

/-- Consumes the next token if it is of a kind. -/
def eat (kind : TokenKind) : Step Bool := do
  if !(← isAt kind) || kind == .eof then return false
  modify (State.consume kind)
  return true

/-- Consumes the next token, which is demanded to be of a kind. -/
def bump (kind : TokenKind) : Step Unit := do
  unless ← eat kind do throw (.unexpected kind)

/-- Complains about the next token. -/
def complain (problem : Problem) : Step Unit := modify (State.write (.complaint problem))

/-- Consumes a token of a kind or complains that it is missing. -/
def expect (kind : TokenKind) (wanted : Wanted) : Step Bool := do
  if ← eat kind then return true
  complain (.missing wanted)
  return false

/-- The limit of nesting is reached. -/
def isTooDeep : Step Bool := return nestingLimit ≤ (← get).nesting

/-- No `begin` block and no lambda is open. -/
def isOutside : Step Bool := return (← get).begins == 0

/-! ## Marks -/

/-- A mark in front of a node that is being written down. -/
structure Mark where
  /-- The place kept for the start of the node. -/
  place : Nat

/-- A node that is complete. -/
structure Built where
  /-- The place of the start of the node. -/
  place : Nat

/-- The state with a place kept for a start at the end of what is written down. -/
def State.begun (s : State) : State :=
  { s.write .tombstone with pending := s.events.size :: s.pending }

/-- Sets a mark at the end of what is written down. -/
def start : Step Mark := fun s => .ok (⟨s.events.size⟩, s.begun)

/-- The state in which a node is complete that begins with an event. -/
def State.completed (mark : Mark) (first : Event) (s : State) : State :=
  { s with
    events := (s.events.setIfInBounds mark.place first).push .finish
    pending := s.pending.erase mark.place }

/-- Completes a node of a kind. -/
def complete (mark : Mark) (kind : NodeKind) : Step Built := fun s =>
  match s.events[mark.place]? with
  | some .tombstone => .ok (⟨mark.place⟩, s.completed mark (.start kind none))
  | some (.start _ outer?) => .ok (⟨mark.place⟩, s.completed mark (.start kind outer?))
  | some _ => .error .noStart
  | none => .error .noEvent

/-- Gives up a mark. If nothing is written down behind it, its place goes too. -/
def abandon (mark : Mark) : Step Unit := fun s =>
  if s.events.size = 0 then .error .belowZero
  else if mark.place = s.events.size - 1 then
    if s.events.back? = some .tombstone then
      .ok ((), { s with events := s.events.pop, pending := s.pending.erase mark.place })
    else .error .noTombstone
  else .ok ((), { s with pending := s.pending.erase mark.place })

/-- Makes the node that begins at `outer` the node around the one that begins at
`place`, or around the outermost of those that are around that one already. -/
def link (outer place : Nat) (events : Array Event) : Except Breach (Array Event) :=
  match h : events[place]? with
  | none => .error .noEvent
  | some (.start _ (some 0)) => .error .endless
  | some (.start _ (some (distance + 1))) => link outer (place + (distance + 1)) events
  | some (.start kind none) =>
    if outer < place then .error .belowZero
    else .ok (events.setIfInBounds place (.start kind (some (outer - place))))
  | some _ => .ok events
termination_by events.size - place
decreasing_by
  have := (Array.getElem?_eq_some_iff.1 h).1
  omega

/-- Sets a mark for a node around one that is complete. -/
def precede (built : Built) : Step Mark := fun s => do
  let place := s.events.size
  let events ← link place built.place (s.events.push .tombstone)
  return (⟨place⟩, { s with events := events, pending := place :: s.pending })

/-! ## Control -/

/-- Takes one from a counter, which has to be above zero. -/
def lower (c : Counter) : Step Unit := do
  let n := (← get).count c
  if n = 0 then throw .belowZero
  modify (State.setCount c (n - 1))

/-- Runs `body` with a counter raised by one. -/
def within (c : Counter) (body : Step α) : Step α := do
  modify (State.raise c)
  let a ← body
  lower c
  return a

/-- Runs `body` outside the parentheses that are open, where line breaks count. -/
def withoutParens (body : Step α) : Step α := do
  let outer := (← get).parens
  modify (State.setCount .parens 0)
  let a ← body
  modify (State.setCount .parens outer)
  return a

/-- Repeats a step on what it answered last, until it answers that it is done, at most
`turns` times. -/
def iterate (step : σ → Step (ForInStep σ)) : Nat → σ → Step σ
  | 0, _ => throw .exhausted
  | turns + 1, x => do
    match ← step x with
    | .done y => return y
    | .yield y => iterate step turns y

/-- A turn of a climb around a node: a check and, one level deeper, an act on what it
answered, which may build a node around the one before. -/
def climbTurn (check : Step (Option β)) (act : β → Built → Step (Option Built))
    (built : Built) : Step (ForInStep Built) := do
  match ← check with
  | none => return .done built
  | some b => do
    modify (State.raise .nesting)
    match ← act b built with
    | none => return .done built
    | some around => return .yield around

/-- Builds nodes around a node, as long as the check answers something and the act
builds one. Each is one level deeper; behind the last one, the depth is what it was. -/
def climb (check : Step (Option β)) (act : β → Built → Step (Option Built)) (turns : Nat)
    (built : Built) : Step Built := do
  let outer := (← get).nesting
  let last ← iterate (climbTurn check act) turns built
  modify (State.setCount .nesting outer)
  return last

end ScriptSense.Record
