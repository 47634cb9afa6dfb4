/-
The same tokens ahead, further on in the text.

What stands behind a place of a text is read there as it is read further on in another text:
the rules ask for the kinds and the texts of tokens and never for their places. All that is
built and complained about is moved along (`Further`), whatever was complained about before
and however many levels and turns the two readings have left (`coupled_levels`).

The two readings may have read different things before. What they remember of that is the
end of the last word, and of that it is only known where it is if the line ends next: where
a word comes next, it is forgotten before it matters.
-/
import ScriptSense.Proofs.Grammar.TandemRules
import ScriptSense.Proofs.Syntax.Moved

set_option autoImplicit false

namespace ScriptSense.Grammar

variable {bytes : Nat}

/-! ## Moved tokens ahead -/

section Tokens

variable (bytes : Nat) (ts : List Token)

theorem isTrivia_comp_moved : (fun t : Token => t.kind.isTrivia) ∘ Token.moved bytes
    = fun t => t.kind.isTrivia := rfl

theorem breaksAhead_moved : breaksAhead (ts.map (Token.moved bytes)) = breaksAhead ts := by
  induction ts with
  | nil => rfl
  | cons t ts ih => simp only [List.map_cons, breaksAhead, Token.kind_moved, ih]

theorem faces_moved : faces (ts.map (Token.moved bytes)) = faces ts := by
  simp only [faces, List.filter_map, List.map_map]
  rfl

theorem dropWhile_moved : (ts.map (Token.moved bytes)).dropWhile (·.kind.isTrivia)
    = (ts.dropWhile (·.kind.isTrivia)).map (Token.moved bytes) := by
  rw [List.dropWhile_map, isTrivia_comp_moved]

end Tokens

/-! ## The relation -/

/-- **The second state stands further on than the first**, with the same tokens ahead and
the same elements built; its complaints are some of its own, and those of the first. -/
structure Further (bytes : Nat) (earlier : List Complaint) (s s' : State) : Prop where
  rest : s'.rest = s.rest.map (Token.moved bytes)
  offset : s'.offset = s.offset + bytes
  anchor : s'.anchor = s.anchor + bytes ∨ WithinLine (kindAhead 0 s.rest)
  out : s'.out = s.out.map (Tree.moved bytes)
  complaints : s'.complaints.toList = earlier ++ s.complaints.toList.map (Complaint.moved bytes)
  count (c : Counter) : s.count c = s'.count c

namespace Further

variable {earlier : List Complaint} {s s' t t' : State}

/-- Where both states are changed in nothing that matters. -/
theorem congr (h : Further bytes earlier s s') (hs : t.Level s) (hs' : t'.Level s')
    (hout : t.out = s.out) (hout' : t'.out = s'.out) (hcount : ∀ c, t.count c = t'.count c) :
    Further bytes earlier t t' := by
  obtain ⟨hrest, hoffset, hanchor, hcomplaints⟩ := hs
  obtain ⟨hrest', hoffset', hanchor', hcomplaints'⟩ := hs'
  refine ⟨?_, ?_, ?_, ?_, ?_, hcount⟩
  · rw [hrest, hrest', h.rest]
  · rw [hoffset, hoffset', h.offset]
  · rw [hrest, hanchor, hanchor']
    exact h.anchor
  · rw [hout, hout', h.out]
  · rw [hcomplaints, hcomplaints', h.complaints]

/-! ### Moves -/

theorem shift (h : Further bytes earlier s s') : Further bytes earlier s.shift s'.shift := by
  cases hrest : s.rest with
  | nil =>
    have hrest' : s'.rest = [] := by rw [h.rest, hrest, List.map_nil]
    have hstill {u : State} (hu : u.rest = []) : u.shift = u := by simp [State.shift, hu]
    rwa [hstill hrest, hstill hrest']
  | cons u us =>
    have hrest' : s'.rest = u.moved bytes :: us.map (Token.moved bytes) := by
      rw [h.rest, hrest, List.map_cons]
    have hanchor := h.anchor
    rw [hrest] at hanchor
    rw [State.shift_of_rest hrest, State.shift_of_rest hrest']
    refine ⟨rfl, Token.stop_moved .., ?_, ?_, h.complaints, h.count⟩
    -- The place where the last word ended moves only past a significant token.
    · by_cases htrivia : u.kind.isTrivia = true
      · have hsilent : u.kind.isSignificant = false := by
          simp [TokenKind.isSignificant, htrivia]
        simpa [hsilent, kindAhead, htrivia] using hanchor
      · rw [kindAhead, if_neg htrivia] at hanchor
        refine .inl ?_
        cases hword : u.kind.isSignificant with
        | true => simp [hword]
        | false =>
          have hbreak : u.kind = .newline := by
            simpa [TokenKind.isSignificant, htrivia] using hword
          simpa [hword] using hanchor.resolve_right fun hnext => hnext.1 hbreak
    · simp [h.out]

theorem shiftMany (n : Nat) (h : Further bytes earlier s s') :
    Further bytes earlier (s.shiftMany n) (s'.shiftMany n) := by
  induction n generalizing s s' with
  | zero => exact h
  | succ n ih => exact ih h.shift

theorem shiftTrivia (h : Further bytes earlier s s') :
    Further bytes earlier s.shiftTrivia s'.shiftTrivia := by
  have hcount : (s'.rest.takeWhile (·.kind.isTrivia)).length
      = (s.rest.takeWhile (·.kind.isTrivia)).length := by
    rw [h.rest, List.takeWhile_map, List.length_map, isTrivia_comp_moved]
  unfold State.shiftTrivia
  rw [hcount]
  exact h.shiftMany _

theorem consume (h : Further bytes earlier s s') : Further bytes earlier s.consume s'.consume := by
  have hshift := h.shiftTrivia.shift
  have hparens : s.shiftTrivia.shift.parens = s'.shiftTrivia.shift.parens := hshift.count .parens
  have hbreaks : Further bytes earlier s.shiftTrivia.shift.shiftBreaks
      s'.shiftTrivia.shift.shiftBreaks := by
    unfold State.shiftBreaks
    rw [← hparens, hshift.rest, breaksAhead_moved]
    split
    · exact hshift.shiftMany _
    · exact hshift
  exact hbreaks.congr ⟨rfl, rfl, rfl, rfl⟩ ⟨rfl, rfl, rfl, rfl⟩ rfl rfl fun c => hbreaks.count c

/-- A complaint about what is ahead is moved along. -/
theorem place (h : Further bytes earlier s s') : s'.place = s.place.moved bytes := by
  have hahead := State.kindAhead_zero s.rest
  have hanchor := h.anchor
  unfold State.place
  rw [h.rest, dropWhile_moved]
  cases hrest : s.rest.dropWhile (·.kind.isTrivia) with
  | nil =>
    rw [hrest] at hahead
    have hends := hanchor.resolve_right fun hword => hword.2 hahead
    simp [hends]
  | cons t ts =>
    rw [hrest] at hahead
    simp only [List.map_cons, Token.kind_moved, Token.span_moved]
    -- At a line break the place is where the last word ended, else the token itself.
    split
    · next hbreak =>
      have hends := hanchor.resolve_right fun hword => hword.1 (hahead.trans (eq_of_beq hbreak))
      simp [hends]
    · rfl

theorem complain (p : Problem) (h : Further bytes earlier s s') :
    Further bytes earlier { s with complaints := s.complaints.push ⟨p, s.place⟩ }
      { s' with complaints := s'.complaints.push ⟨p, s'.place⟩ } :=
  { h with
    complaints := by simp [h.complaints, h.place, Complaint.moved]
    count := h.count }

/-! ### Counters and nodes -/

theorem setCount (c : Counter) (n : Nat) (h : Further bytes earlier s s') :
    Further bytes earlier (s.setCount c n) (s'.setCount c n) := by
  refine h.congr (State.level_setCount c n s) (State.level_setCount c n s')
    (State.out_setCount ..) (State.out_setCount ..) fun d => ?_
  by_cases hd : d = c
  · rw [hd, State.count_setCount, State.count_setCount]
  · rw [State.count_setCount_of_ne hd, State.count_setCount_of_ne hd, h.count]

/-- Inside a node, with some children already there. -/
theorem inside (h : Further bytes earlier s s') {children children' : Array Tree}
    (hchildren : children' = children.map (Tree.moved bytes)) :
    Further bytes earlier (s.inside children) (s'.inside children') :=
  ⟨h.rest, h.offset, h.anchor, hchildren, h.complaints, h.count⟩

/-- A node over what was built, in front of the same elements. -/
theorem close {kind : NodeKind} {start start' : Nat} {outer outer' : Array Tree}
    (h : Further bytes earlier t t') (hstart : start' = start + bytes)
    (houter : outer' = outer.map (Tree.moved bytes)) :
    Further bytes earlier (t.close kind start outer) (t'.close kind start' outer') := by
  refine ⟨h.rest, h.offset, h.anchor, ?_, h.complaints, h.count⟩
  simp [State.close, hstart, houter, h.out, h.offset, Span.moved]

/-- The elements built last correspond. -/
theorem last (h : Further bytes earlier s s') {outer outer' : Array Tree} {x x' : Tree}
    (hout : s.out = outer.push x) (hout' : s'.out = outer'.push x') :
    outer' = outer.map (Tree.moved bytes) ∧ x' = x.moved bytes := by
  have hboth := h.out
  rw [hout, hout', Array.map_push] at hboth
  exact Array.push_eq_push.1 hboth |>.symm

end Further

variable {earlier : List Complaint}

instance (kind : NodeKind) : Encloses (Further bytes earlier) kind where
  node hs ht _ _ := ht.close hs.offset hs.out
  around hs hout hout' _ _ ht _ _ := by
    obtain ⟨houter, rfl⟩ := hs.last hout hout'
    exact ht.close (by rw [Tree.span_moved]; rfl) houter

instance : Tandem (Further bytes earlier) where
  ahead h := by rw [h.rest, faces_moved]
  count c h := h.count c
  looked h := h.congr ⟨rfl, rfl, rfl, rfl⟩ ⟨rfl, rfl, rfl, rfl⟩ rfl rfl fun c => h.count c
  shiftTrivia h := h.shiftTrivia
  consume h := h.consume
  complain p h := h.complain p
  setCount c n h := h.setCount c n
  inside h := h.inside (by simp)
  takeOver h hout hout' _ _ := by
    obtain ⟨-, rfl⟩ := h.last hout hout'
    exact h.inside (by simp)
  encloses _ _ := inferInstance

end ScriptSense.Grammar
