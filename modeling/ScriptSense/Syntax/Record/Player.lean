/-
Playing the events of a text.

The player goes through the events from the front, with all tokens of the text at hand.
It tells the builder of the tree what to do and puts in what the reading did not see:
a node begins at its first significant token, so the trivia ahead is added before it
is entered; only a list of statements keeps the indentation in front of it. The root
is entered before anything else, and what the reading left behind goes to it before it
is left.

Nodes that were found one around the other are entered at the start of the innermost,
the outermost first. For that the player follows the distances from start to start
and takes out what it finds, so that none is met again.

How many nodes are open is counted. It must never be asked to leave a node when there
is none, and behind the last event all must be left.
-/
import ScriptSense.Syntax.Record.Script

set_option autoImplicit false

namespace ScriptSense.Record

/-- Someone who plays events. -/
structure Player where
  /-- The tokens that were not added yet, the trivia and the last `eof` included. -/
  tokens : List Token
  /-- The events that were not played yet. -/
  events : List Event
  /-- The number of nodes that are entered and not left. -/
  depth : Nat := 0
  /-- The end of the last significant token added. -/
  anchor : Nat := 0
  /-- What the builder was told. -/
  acts : Array Act := #[]
  /-- The complaints so far, each at its place. -/
  complaints : Array Complaint := #[]

/-- What comes of a text: the acts that build its tree, and the complaints. -/
structure Outcome where
  /-- What the builder of the tree is told. -/
  acts : List Act
  /-- What is wrong with the text, in the order in which it was met. -/
  complaints : List Complaint
deriving DecidableEq, Repr

/-- The kinds of the nodes around one that begins in front of the events, from the
inside out, and the events without their starts. -/
def outerNodes : Option Nat → List Event → Except Breach (List NodeKind × List Event)
  | none, es => .ok ([], es)
  -- The event itself, which is taken out already.
  | some 0, es => .ok ([], es)
  | some (_ + 1), [] => .error .noEvent
  | some 1, .start kind outer? :: es => do
    let (kinds, es) ← outerNodes outer? es
    return (kind :: kinds, .tombstone :: es)
  | some 1, _ :: es => .ok ([], .tombstone :: es)
  | some (n + 2), e :: es => do
    let (kinds, es) ← outerNodes (some (n + 1)) es
    return (kinds, e :: es)

namespace Player

/-- Adds the next token as one of a kind; at the end of the text, nothing. -/
def token (kind : TokenKind) (p : Player) : Player :=
  match p.tokens with
  | [] => p
  | t :: ts =>
    if t.kind == .eof then p
    else
      { p with
        tokens := ts
        acts := p.acts.push (.token kind t.text)
        anchor := if !t.kind.isTrivia && t.kind != .newline then t.stop else p.anchor }

/-- Adds some tokens as what they are. -/
def tokensAs (ts : List Token) (p : Player) : Player := ts.foldl (fun p t => p.token t.kind) p

/-- Adds the trivia ahead. -/
def trivia (p : Player) : Player := p.tokensAs (p.tokens.takeWhile (·.kind.isTrivia))

/-- Adds all that is left of the text. -/
def remaining (p : Player) : Player := p.tokensAs (p.tokens.takeWhile (·.kind != .eof))

/-- Where a complaint about the next token belongs: on the token, or behind the
last significant one if the line or the text ends here. -/
def spot (p : Player) : Span :=
  match p.tokens.find? (!·.kind.isTrivia) with
  | some t => if t.kind == .newline || t.kind == .eof then .point p.anchor else t.span
  | none => .point p.anchor

/-- Enters a node. -/
def enter (p : Player) (kind : NodeKind) : Player :=
  { p with acts := p.acts.push (.enter kind), depth := p.depth + 1 }

/-- Adds a number of tokens as tokens of a kind, each with the trivia in front of it. -/
def significant (kind : TokenKind) : Nat → Player → Player
  | 0, p => p
  | n + 1, p => significant kind n (p.trivia.token kind)

/-- Enters the nodes that begin here, which are given from the inside out. -/
def enterAll (kinds : List NodeKind) (p : Player) : Player :=
  -- A list of statements keeps the indentation in front of its first statement.
  let p := if 0 < p.depth && !kinds.contains .stmtList then p.trivia else p
  kinds.reverse.foldl enter p

/-- Leaves a node; if it is the root, the rest of the text goes to it. -/
def leave (p : Player) : Except Breach Player :=
  if p.depth = 0 then .error .unbalancedFinish
  else
    let p := if p.depth = 1 then p.remaining else p
    .ok { p with acts := p.acts.push .leave, depth := p.depth - 1 }

/-- Plays the next event. -/
def play (p : Player) : Except Breach Player :=
  match p.events with
  | [] => .ok p
  | .start kind outer? :: es => do
    let (kinds, es) ← outerNodes outer? es
    return { p with events := es }.enterAll (kind :: kinds)
  | .token kind count :: es => .ok ({ p with events := es }.significant kind count)
  | .finish :: es => { p with events := es }.leave
  | .complaint problem :: es =>
    .ok { p with events := es, complaints := p.complaints.push ⟨problem, p.spot⟩ }
  | .tombstone :: es => .ok { p with events := es }

/-- Plays a number of events. -/
def playMany : Nat → Player → Except Breach Player
  | 0, p => .ok p
  | n + 1, p => p.play >>= playMany n

end Player

/-- **What comes of the events of a text**, with the tokens of the text. -/
def outcomeOf (tokens : List Token) (events : Array Event) : Except Breach Outcome := do
  let p ← Player.playMany events.size { tokens := tokens, events := events.toList }
  if p.depth = 0 then return ⟨p.acts.toList, p.complaints.toList⟩
  else throw .unbalancedStart

/-- Reads a text and plays what was written down. -/
def ofContent (content : Rules → Step Unit) (isFunction : String → Bool) (text : String) :
    Except Breach Outcome := do
  let events ← eventsOf content isFunction (ScriptSense.tokens text)
  outcomeOf (ScriptSense.tokens text) events

/-- **Reads a script by way of events**, given the names known to be functions. -/
def parseWith (isFunction : String → Bool) (text : String) : Except Breach Outcome :=
  ofContent script isFunction text

/-- **Reads a text as one expression, by way of events.** -/
def parseExpression (text : String) : Except Breach Outcome :=
  ofContent onlyExpression (fun _ => false) text

end ScriptSense.Record
