/-
Playing events makes the moves that the grammar makes.

The grammar on trees and the player move through the same tokens. What a run of events
does is said by two states of the grammar: wherever the player stands as the first of
them says, it comes to stand as the second says, having told the builder what builds
the trees in between, and having touched nothing behind the events (`Plays`). Events
can be put one after the other, so this is said of each kind of event and of nodes.

The node that was written last is special, since another one may still be found around
it. Its start is then given a distance, and it is followed from there, so what is said
of the events has to hold for whatever the start may be given later (`Continues`):
the player enters the nodes around it first, in the order from the outside in
(`Builds`). A node around a node that `Builds` is said of is again one of which
`Builds` can be said, and so the chain of starts is followed link by link.
-/
import ScriptSense.Proofs.Grammar.Headed
import ScriptSense.Proofs.Record.Marks

set_option autoImplicit false

namespace ScriptSense.Record

open Grammar (kindAhead breaksAhead)

/-! ## Runs of events -/

/-- A run over some events and then over others is a run over both. -/
theorem playMany_add (n m : Nat) (p : Player) :
    Player.playMany (n + m) p = Player.playMany n p >>= Player.playMany m := by
  induction n generalizing p with
  | zero => rw [Nat.zero_add]; rfl
  | succ n ih =>
    rw [Nat.succ_add, Player.playMany, Player.playMany]
    cases h : p.play with
    | error e => rfl
    | ok q => exact ih q

/-- What was played need not be played again. -/
theorem playMany_append {es es' : List Event} {p q : Player}
    (h : Player.playMany es.length p = .ok q) :
    Player.playMany (es ++ es').length p = Player.playMany es'.length q := by
  rw [List.length_append, playMany_add, h]
  rfl

/-- A run takes the first event and goes on with the rest. -/
theorem playMany_cons {e : Event} {es : List Event} {p q : Player} (h : p.play = .ok q) :
    Player.playMany (e :: es).length p = Player.playMany es.length q := by
  rw [List.length_cons, Player.playMany, h]
  rfl

/-! ## Where the player stands -/

/-- The player that has come as far as a state of the grammar, with events ahead. -/
def playerAt (eof : Token) (s : Grammar.State) (depth : Nat) (acts : List Act)
    (events : List Event) : Player where
  tokens := s.rest ++ [eof]
  events := events
  depth := depth
  anchor := s.anchor
  acts := acts.toArray
  complaints := s.complaints

variable {eof : Token} {s t u : Grammar.State} {depth : Nat} {acts : List Act}
  {events more : List Event}

/-- A token is added as one of a kind and moves into the node under construction. -/
theorem token_playerAt {next : Token} {rest : List Token} (h : s.rest = next :: rest)
    (hnext : next.kind ≠ .eof) (kind : TokenKind) :
    (playerAt eof s depth acts events).token kind
      = playerAt eof s.shift depth (acts ++ [.token kind next.text]) events := by
  rw [Grammar.State.shift_of_rest h]
  simp [playerAt, Player.token, h, hnext, TokenKind.isSignificant, bne]

/-- The player hands out tokens of the text in front of the state, as they are. -/
theorem tokensAs_playerAt {front : List Token} (h : front <+: s.rest)
    (hfront : ∀ t ∈ front, t.kind ≠ .eof) :
    (playerAt eof s depth acts events).tokensAs front
      = playerAt eof (s.shiftMany front.length) depth
          (acts ++ actsOfAll (front.map .leaf)) events := by
  induction front generalizing s acts with
  | nil => simp [Player.tokensAs, Grammar.State.shiftMany]
  | cons next front ih =>
    obtain ⟨rest, hrest⟩ := h
    have hshift : front <+: s.shift.rest := by
      rw [Grammar.State.shift_of_rest hrest.symm]
      exact List.prefix_append front rest
    have hnext : next.kind ≠ .eof := hfront next (List.mem_cons_self ..)
    have hstep : (playerAt eof s.shift depth (acts ++ [.token next.kind next.text])
        events).tokensAs front = _ := ih hshift
      fun t ht => hfront t (List.mem_cons_of_mem _ ht)
    rw [Player.tokensAs, List.foldl_cons, token_playerAt hrest.symm hnext]
    simpa [Player.tokensAs, Grammar.State.shiftMany] using hstep

/-- Trivia that is taken over stands behind what was built. -/
theorem toList_out_shiftTrivia (s : Grammar.State) :
    s.shiftTrivia.out.toList
      = s.out.toList ++ (s.rest.takeWhile (·.kind.isTrivia)).map .leaf := by
  rw [Grammar.State.shiftTrivia, Grammar.State.toList_out_shiftMany,
    ← List.prefix_iff_eq_take.1 (List.takeWhile_prefix _)]

/-- The token that is looked at stands behind the trivia. -/
theorem exists_next {kind : TokenKind} (hkind : kind ≠ .eof) (h : kindAhead 0 s.rest = kind) :
    ∃ next rest, s.shiftTrivia.rest = next :: rest ∧ next.kind = kind := by
  rw [Grammar.State.kindAhead_zero, ← Grammar.State.rest_shiftTrivia] at h
  cases hrest : s.shiftTrivia.rest with
  | nil =>
    rw [hrest] at h
    exact absurd h.symm hkind
  | cons next rest =>
    rw [hrest] at h
    exact ⟨next, rest, rfl, h⟩

/-- The end of the text is no trivia. -/
theorem isTrivia_eof : TokenKind.eof.isTrivia = false := rfl

/-- The trivia ahead is added. -/
theorem trivia_playerAt (heof : eof.kind = .eof) :
    (playerAt eof s depth acts events).trivia
      = playerAt eof s.shiftTrivia depth
          (acts ++ actsOfAll ((s.rest.takeWhile (·.kind.isTrivia)).map .leaf)) events := by
  have htake : (s.rest ++ [eof]).takeWhile (·.kind.isTrivia)
      = s.rest.takeWhile (·.kind.isTrivia) := by
    induction s.rest with
    | nil => simp [heof, isTrivia_eof]
    | cons t ts ih =>
      by_cases htrivia : t.kind.isTrivia
      · simpa [htrivia] using ih
      · simp [htrivia]
  have hkinds : ∀ t ∈ s.rest.takeWhile (·.kind.isTrivia), t.kind ≠ .eof := by
    intro t ht heq
    have htrivia := List.mem_takeWhile_imp ht
    rw [heq] at htrivia
    cases htrivia
  rw [Player.trivia, Grammar.State.shiftTrivia,
    ← tokensAs_playerAt (List.takeWhile_prefix _) hkinds]
  exact congrArg (fun ts => Player.tokensAs ts _) htake

/-- Both find the same place for a complaint. -/
theorem spot_playerAt (heof : eof.kind = .eof) (h : ∀ t ∈ s.rest, t.kind ≠ .eof) :
    (playerAt eof s depth acts events).spot = s.place := by
  -- The first token that is no trivia, or else the end of the text.
  have hfind : (s.rest ++ [eof]).find? (!·.kind.isTrivia)
      = some ((s.rest.dropWhile (·.kind.isTrivia)).headD eof) := by
    induction s.rest with
    | nil => simp [heof, isTrivia_eof]
    | cons t ts ih =>
      by_cases htrivia : t.kind.isTrivia
      · simpa [htrivia] using ih
      · simp [htrivia]
  have hne : ∀ t ∈ s.rest.dropWhile (·.kind.isTrivia), t.kind ≠ .eof :=
    fun t ht => h t ((List.dropWhile_sublist _).subset ht)
  unfold Player.spot Grammar.State.place
  have htokens : (playerAt eof s depth acts events).tokens = s.rest ++ [eof] := rfl
  have hanchor : (playerAt eof s depth acts events).anchor = s.anchor := rfl
  rw [htokens, hanchor, hfind]
  cases hdrop : s.rest.dropWhile (·.kind.isTrivia) with
  | nil => simp [heof]
  | cons t ts =>
    have ht : t.kind ≠ .eof := hne t (by rw [hdrop]; exact List.mem_cons_self ..)
    simp [ht]

/-- What a node of a kind leaves outside: the trivia in front of it, of which a list of
statements leaves none. -/
def outside (kind : NodeKind) (s : Grammar.State) : List Tree :=
  if kind = .stmtList then [] else (s.rest.takeWhile (·.kind.isTrivia)).map .leaf

/-- A node that is opened leaves only trivia in front of itself. -/
theorem toList_out_opened (kind : NodeKind) (s : Grammar.State) :
    (s.opened kind).out.toList = s.out.toList ++ outside kind s := by
  unfold Grammar.State.opened outside
  split
  · rw [List.append_nil]
  · exact toList_out_shiftTrivia s

/-- Nodes that are entered together make the player as many levels deeper. -/
theorem foldl_enter_playerAt (kinds : List NodeKind) :
    kinds.foldl Player.enter (playerAt eof s depth acts events)
      = playerAt eof s (depth + kinds.length) (acts ++ kinds.map .enter) events := by
  induction kinds generalizing acts depth with
  | nil => simp
  | cons kind kinds ih =>
    have hstep : (playerAt eof s depth acts events).enter kind
        = playerAt eof s (depth + 1) (acts ++ [.enter kind]) events := by
      simp [playerAt, Player.enter]
    rw [List.foldl_cons, hstep, ih, List.length_cons, Nat.add_right_comm, ← Nat.add_assoc]
    simp

/-- The nodes that begin at a place are entered behind the trivia, unless one of them is
a list of statements. -/
theorem enterAll_playerAt (heof : eof.kind = .eof) (hdepth : 0 < depth) {kind : NodeKind}
    {kinds : List NodeKind} (hkinds : .stmtList ∉ kinds) :
    (playerAt eof s depth acts events).enterAll (kind :: kinds)
      = playerAt eof (s.opened kind) (depth + (kinds.length + 1))
          (acts ++ actsOfAll (outside kind s) ++ (kind :: kinds).reverse.map .enter) events := by
  have hat : (playerAt eof s depth acts events).depth = depth := rfl
  unfold Player.enterAll Grammar.State.opened outside
  dsimp only
  rw [hat]
  -- A list of statements takes the trivia in. Any other node leaves them outside.
  by_cases hkind : kind = .stmtList
  · have hnot : ¬ (0 < depth && !(kind :: kinds).contains .stmtList) = true := by
      simp [hkind]
    rw [if_neg hnot, if_pos hkind, if_pos hkind, foldl_enter_playerAt]
    simp
  · have hcontains : (0 < depth && !(kind :: kinds).contains .stmtList) = true := by
      simp [hdepth, hkinds, Ne.symm hkind]
    rw [if_pos hcontains, if_neg hkind, if_neg hkind, trivia_playerAt heof, foldl_enter_playerAt]
    simp

/-! ## What events come to -/

/-- **The events lead from one state to the other.** The player that stands as the first
state says comes to stand as the second says; it tells the builder what builds the trees
that the second state has more, and leaves the events behind these as they are. -/
def Plays (eof : Token) (es : List Event) (s t : Grammar.State) : Prop :=
  ∃ new, t.out.toList = s.out.toList ++ new
    ∧ ∀ {depth : Nat} {acts : List Act} {more : List Event}, 0 < depth →
      Player.playMany es.length (playerAt eof s depth acts (es ++ more))
        = .ok (playerAt eof t depth (acts ++ actsOfAll new) more)

/-- Where a node is written down in a number of events up to some others, what its start
may be given later: nothing, or the distance to the others, behind which stand nodes
of the kinds around it. -/
def Continues (length : Nat) (outer? : Option Nat) (more : List Event) (kinds : List NodeKind)
    (more' : List Event) : Prop :=
  (outer? = none ∧ kinds = [] ∧ more' = more)
    ∨ (outer? = some length ∧ outerNodes (some 1) more = .ok (kinds, more'))

/-- **The events lead from one state to the other, and the last of them are those of a
node** whose start is at a place and may still be given the distance to a node around
it. -/
def Builds (eof : Token) (es : List Event) (place : Nat) (s t : Grammar.State) : Prop :=
  ∃ inner front kind span children,
    t.out.toList = s.out.toList ++ front ++ [.node kind span children]
    ∧ es[place]? = some (.start inner none)
    ∧ ∀ {depth : Nat} {acts : List Act} {outer? : Option Nat} {kinds : List NodeKind}
        {more more' : List Event}, 0 < depth → .stmtList ∉ kinds →
        Continues (es.length - place) outer? more kinds more' →
        Player.playMany es.length
            (playerAt eof s depth acts (es.set place (.start inner outer?) ++ more))
          = .ok (playerAt eof t (depth + kinds.length)
              (acts ++ actsOfAll front ++ kinds.reverse.map .enter
                ++ actsOf (.node kind span children)) more')

/-- The two states are the same to the player. -/
structure Same (s t : Grammar.State) : Prop where
  rest : t.rest = s.rest
  out : t.out = s.out
  anchor : t.anchor = s.anchor
  complaints : t.complaints = s.complaints

/-- A state has the tokens, the tree and the complaints of itself. -/
theorem Same.refl (s : Grammar.State) : Same s s := ⟨rfl, rfl, rfl, rfl⟩

/-- The player does not look at what the parser counts. -/
theorem Same.playerAt {s t : Grammar.State} (h : Same s t) :
    playerAt eof t depth acts events = playerAt eof s depth acts events := by
  unfold Record.playerAt
  rw [h.rest, h.anchor, h.complaints]

namespace Plays

variable {es es' : List Event}

/-- Without events nothing happens. -/
theorem nil (s : Grammar.State) : Plays eof [] s s :=
  ⟨[], by simp, fun _ => by simp [Player.playMany]⟩

/-- What events come to is a matter of the text, the tree and the complaints alone. -/
theorem congr {s' : Grammar.State} (h : Plays eof es s t) (hs : Same s s') (ht : Same t u) :
    Plays eof es s' u := by
  obtain ⟨new, hout, hplays⟩ := h
  refine ⟨new, by rw [hs.out, ht.out, hout], fun hdepth => ?_⟩
  rw [hs.playerAt, ht.playerAt]
  exact hplays hdepth

/-- Events behind each other come to one after the other. -/
theorem append (h : Plays eof es s t) (h' : Plays eof es' t u) : Plays eof (es ++ es') s u := by
  obtain ⟨new, hout, hplays⟩ := h
  obtain ⟨new', hout', hplays'⟩ := h'
  refine ⟨new ++ new', by rw [hout', hout, List.append_assoc], fun hdepth => ?_⟩
  rw [List.append_assoc, playMany_append (hplays hdepth), hplays' hdepth, actsOfAll_append,
    List.append_assoc]

/-- A complaint is put at the place that the parser had reached, behind trivia or not. -/
theorem complaint (heof : eof.kind = .eof) (h : ∀ t ∈ s.rest, t.kind ≠ .eof) (p : Problem) :
    Plays eof [.complaint p] s { s with complaints := s.complaints.push ⟨p, s.place⟩ } := by
  refine ⟨[], by simp, fun {depth acts more} _ => ?_⟩
  have hspot : (playerAt eof s depth acts more).spot = s.place := spot_playerAt heof h
  have hplay : (playerAt eof s depth acts ([.complaint p] ++ more)).play
      = .ok (playerAt eof { s with complaints := s.complaints.push ⟨p, s.place⟩ } depth acts
          more) := by
    rw [← hspot]
    rfl
  rw [playMany_cons hplay]
  simp [Player.playMany]

/-- A token that is taken as what it is moves into the node under construction, with the
trivia in front of it. -/
theorem token (heof : eof.kind = .eof) {kind : TokenKind} (hkind : kind ≠ .eof)
    (h : kindAhead 0 s.rest = kind) : Plays eof [.token kind 1] s s.shiftTrivia.shift := by
  obtain ⟨next, rest, hrest, hnext⟩ := exists_next hkind h
  refine ⟨(s.rest.takeWhile (·.kind.isTrivia)).map .leaf ++ [.leaf next], ?_, ?_⟩
  · rw [Grammar.State.shift_of_rest hrest, Array.toList_push, toList_out_shiftTrivia,
      List.append_assoc]
  · intro depth acts more _
    have hplay : (playerAt eof s depth acts ([.token kind 1] ++ more)).play
        = .ok (((playerAt eof s depth acts more).trivia).token kind) := rfl
    rw [playMany_cons hplay, trivia_playerAt heof,
      token_playerAt hrest (by rwa [hnext]) kind, ← hnext]
    simp [Player.playMany]

end Plays

/-! ## Nodes -/

/-- The events up to the next start are passed over and stay. -/
theorem outerNodes_append (front more : List Event) {kinds : List NodeKind} {more' : List Event}
    (h : outerNodes (some 1) more = .ok (kinds, more')) :
    outerNodes (some (front.length + 1)) (front ++ more) = .ok (kinds, front ++ more') := by
  induction front with
  | nil => exact h
  | cons e front ih =>
    rw [List.length_cons, List.cons_append, outerNodes, ih]
    rfl

/-- A start that is not linked has no node around it. -/
@[simp] theorem outerNodes_none (es : List Event) : outerNodes none es = .ok ([], es) := by
  simp [outerNodes]

/-- The nodes around one whose start is written down in front of other events. -/
theorem Continues.outerNodes {front more more' : List Event} {outer? : Option Nat}
    {kinds : List NodeKind} (h : Continues (front.length + 1) outer? more kinds more') :
    outerNodes outer? (front ++ more) = .ok (kinds, front ++ more') := by
  rcases h with ⟨rfl, rfl, rfl⟩ | ⟨rfl, h⟩
  · exact outerNodes_none _
  · exact outerNodes_append front more h

/-- The nodes that begin at a place are entered there, also those found later. -/
theorem start_playerAt {kind : NodeKind} {outer? : Option Nat} {kinds : List NodeKind}
    {events' : List Event} (h : outerNodes outer? events = .ok (kinds, events')) :
    (playerAt eof s depth acts (.start kind outer? :: events)).play
      = .ok ((playerAt eof s depth acts events').enterAll (kind :: kinds)) := by
  have hplay : (playerAt eof s depth acts (.start kind outer? :: events)).play
      = outerNodes outer? events >>= fun r =>
        .ok ((playerAt eof s depth acts r.2).enterAll (kind :: r.1)) := rfl
  rw [hplay, h]
  rfl

/-- The node under construction is left, as long as it is not the root. -/
theorem leave_playerAt (hdepth : 0 < depth) :
    (playerAt eof s (depth + 1) acts (.finish :: events)).play
      = .ok (playerAt eof s depth (acts ++ [.leave]) events) := by
  have hat : (playerAt eof s (depth + 1) acts events).depth = depth + 1 := rfl
  have hplay : (playerAt eof s (depth + 1) acts (.finish :: events)).play
      = (playerAt eof s (depth + 1) acts events).leave := rfl
  rw [hplay, Player.leave, hat, if_neg (Nat.succ_ne_zero depth), if_neg (by omega)]
  simp [playerAt]

/-- The state behind a node is the state inside it to the player, who has left it. -/
theorem playerAt_close (kind : NodeKind) (start : Nat) (outer : Array Tree) :
    playerAt eof (s.close kind start outer) depth acts events = playerAt eof s depth acts events :=
  rfl

/-- The events of a node: its start, what is inside, and its end. -/
def enclosed (first : Event) (body : List Event) : List Event := first :: (body ++ [.finish])

/-- A node adds a start and a finish to the events inside of it. -/
@[simp] theorem length_enclosed (first : Event) (body : List Event) :
    (enclosed first body).length = body.length + 2 := by
  simp [enclosed]

/-- Rewriting the start of a node leaves the rest of it as it is. -/
theorem set_enclosed (es body : List Event) (first first' : Event) :
    (es ++ enclosed first body).set es.length first' = es ++ enclosed first' body := by
  simp [enclosed]

/-- What is inside a node is played, and the node is left. -/
theorem playMany_body {body : List Event} {new : List Tree} (hdepth : 0 < depth)
    (hplays : ∀ {depth : Nat} {acts : List Act} {more : List Event}, 0 < depth →
      Player.playMany body.length (playerAt eof s depth acts (body ++ more))
        = .ok (playerAt eof t depth (acts ++ actsOfAll new) more)) :
    Player.playMany (body.length + 1) (playerAt eof s (depth + 1) acts (body ++ .finish :: more))
      = .ok (playerAt eof t depth (acts ++ actsOfAll new ++ [.leave]) more) := by
  rw [playMany_add, hplays (Nat.succ_pos _)]
  change (playerAt eof t (depth + 1) (acts ++ actsOfAll new) (.finish :: more)).play
    >>= Player.playMany 0 = _
  rw [leave_playerAt hdepth]
  rfl

/-- The events of a node from its start on are played, with the nodes around it. -/
theorem playMany_enclosed {body more more' : List Event} {kind : NodeKind} {outer? : Option Nat}
    {kinds : List NodeKind} {new : List Tree} (heof : eof.kind = .eof) (hdepth : 0 < depth)
    (hkinds : .stmtList ∉ kinds) (hcontinues : Continues (body.length + 2) outer? more kinds more')
    (hplays : ∀ {depth : Nat} {acts : List Act} {more : List Event}, 0 < depth →
      Player.playMany body.length (playerAt eof (s.opened kind) depth acts (body ++ more))
        = .ok (playerAt eof t depth (acts ++ actsOfAll new) more)) :
    Player.playMany (body.length + 2)
        (playerAt eof s depth acts (enclosed (.start kind outer?) body ++ more))
      = .ok (playerAt eof t (depth + kinds.length) (acts ++ actsOfAll (outside kind s)
          ++ kinds.reverse.map .enter ++ .enter kind :: actsOfAll new ++ [.leave]) more') := by
  have hinner : (body ++ [Event.finish]).length + 1 = body.length + 2 := by simp
  rw [← hinner] at hcontinues
  -- Playing the start opens this node inside of those that were linked to it.
  have hstart : (playerAt eof s depth acts (enclosed (.start kind outer?) body ++ more)).play
      = .ok (playerAt eof (s.opened kind) (depth + kinds.length + 1)
          (acts ++ actsOfAll (outside kind s) ++ (kind :: kinds).reverse.map .enter)
          (body ++ .finish :: more')) := by
    rw [enclosed, List.cons_append, start_playerAt hcontinues.outerNodes,
      enterAll_playerAt heof hdepth hkinds, List.append_assoc body, Nat.add_assoc]
    rfl
  rw [Player.playMany, hstart]
  refine (playMany_body (by omega) hplays).trans ?_
  simp

namespace Builds

variable {es body : List Event} {place : Nat}

/-- **A node that is written down.** Its start stands behind all events before it. -/
theorem node (heof : eof.kind = .eof) (kind : NodeKind) (h : Plays eof es s t)
    (hbody : Plays eof body ((t.opened kind).inside #[]) u) :
    Builds eof (es ++ enclosed (.start kind none) body) es.length s
      (u.close kind (t.opened kind).offset (t.opened kind).out) := by
  obtain ⟨new, hout, hplays⟩ := h
  obtain ⟨children, hinside, hplays'⟩ := hbody
  have hchildren : u.out.toList = children := by simpa [Grammar.State.inside] using hinside
  refine ⟨kind, new ++ outside kind t, kind, ⟨(t.opened kind).offset, u.offset⟩, children,
    ?_, by simp [enclosed], ?_⟩
  · simp [Grammar.State.close, toList_out_opened, hout, hchildren]
  · intro depth acts outer? kinds more more' hdepth hkinds hcontinues
    rw [List.length_append, length_enclosed] at hcontinues ⊢
    rw [Nat.add_sub_cancel_left] at hcontinues
    -- What was recorded before is played first, then the node with whatever opens around it.
    rw [set_enclosed, List.append_assoc, playMany_add, hplays hdepth]
    refine (playMany_enclosed heof hdepth hkinds hcontinues hplays').trans ?_
    simp [playerAt_close]

/-- **A node around the one written down last.** The start of that one is given the
distance to the start of the node around it, which stands behind it. -/
theorem around {kind : NodeKind} (hkind : kind ≠ .stmtList) (h : Builds eof es place s t) :
    ∃ inner first span children, es[place]? = some (.start inner none)
      ∧ t.out.back? = some (.node first span children)
      ∧ ∀ {body : List Event} {u : Grammar.State},
        Plays eof body (t.inside #[.node first span children]) u →
          Builds eof (es.set place (.start inner (some (es.length - place)))
              ++ enclosed (.start kind none) body) es.length s
            (u.close kind span.start t.out.pop) := by
  obtain ⟨inner, front, first, span, children, hout, hplace, hplays⟩ := h
  have hback : t.out.back? = some (.node first span children) := by
    rw [← Array.getLast?_toList, hout, List.getLast?_concat]
  have hpop : t.out.toList.dropLast = s.out.toList ++ front := by
    rw [hout, List.dropLast_concat]
  refine ⟨inner, first, span, children, hplace, hback, fun {body u} hbody => ?_⟩
  obtain ⟨new, hinside, hplays'⟩ := hbody
  have hchildren : u.out.toList = .node first span children :: new := by
    simpa [Grammar.State.inside] using hinside
  set linked := es.set place (.start inner (some (es.length - place))) with hlinked
  have hsize : es.length = linked.length := by rw [hlinked, List.length_set]
  refine ⟨kind, front, kind, ⟨span.start, u.offset⟩, .node first span children :: new,
    ?_, by simp [enclosed, hsize], ?_⟩
  · simp [Grammar.State.close, hpop, hchildren]
  · intro depth acts outer? kinds more more' hdepth hkinds hcontinues
    rw [List.length_append, length_enclosed, ← hsize] at hcontinues ⊢
    rw [Nat.add_sub_cancel_left] at hcontinues
    have hinner : (body ++ [Event.finish]).length + 1 = body.length + 2 := by simp
    -- The chain goes on from the start of the inner node to that of the outer one.
    have houter : outerNodes (some 1) (enclosed (.start kind outer?) body ++ more)
        = .ok (kind :: kinds, .tombstone :: (body ++ .finish :: more')) := by
      rw [← hinner] at hcontinues
      rw [enclosed, List.cons_append, Record.outerNodes, hcontinues.outerNodes, List.append_assoc]
      rfl
    have hset : (linked ++ enclosed (.start kind none) body).set es.length (.start kind outer?)
        = linked ++ enclosed (.start kind outer?) body := hsize ▸ set_enclosed ..
    rw [hset, List.append_assoc, playMany_add, hlinked,
      hplays hdepth (by simp [hkinds, Ne.symm hkind]) (.inr ⟨rfl, houter⟩)]
    -- Its own start is used up by now.
    change Player.playMany (body.length + 1) (playerAt eof (t.inside #[.node first span children])
      (depth + (kinds.length + 1)) _ (body ++ .finish :: more')) = _
    refine (playMany_body (Nat.add_pos_left hdepth kinds.length) hplays').trans ?_
    simp [playerAt_close]

/-- The last node may also stay alone. -/
theorem plays (h : Builds eof es place s t) : Plays eof es s t := by
  obtain ⟨inner, front, kind, span, children, hout, hplace, hplays⟩ := h
  refine ⟨front ++ [.node kind span children], by rw [hout, List.append_assoc],
    fun {depth acts more} hdepth => ?_⟩
  have hset : es.set place (.start inner none) = es := by
    obtain ⟨hlt, heq⟩ := List.getElem?_eq_some_iff.1 hplace
    rw [← heq, List.set_getElem_self]
  have hrun : Player.playMany es.length
      (playerAt eof s depth acts (es.set place (.start inner none) ++ more)) = _ :=
    hplays hdepth List.not_mem_nil (.inl ⟨rfl, rfl, rfl⟩)
  rw [hset] at hrun
  rw [hrun]
  simp

/-- What a built node comes to is a matter of the text, the tree and the complaints alone. -/
theorem congr (h : Builds eof es place s t) (ht : Same t u) : Builds eof es place s u := by
  obtain ⟨inner, front, kind, span, children, hout, hplace, hplays⟩ := h
  refine ⟨inner, front, kind, span, children, by rw [ht.out, hout], hplace, ?_⟩
  intro depth acts outer? kinds more more' hdepth hkinds hcontinues
  rw [ht.playerAt]
  exact hplays hdepth hkinds hcontinues

end Builds

/-! ## The root -/

end ScriptSense.Record
