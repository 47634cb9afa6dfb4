/-
Where the complaints about a text stand, and in which order.

Wherever the reading is, there is one place for a complaint (`State.place`): on the next
word, or behind the last one if the line ends here. That place only moves forward
(`start_place_le_shift`), because a word that is consumed is in front of whatever comes
next and its end is where the next complaint may be. So the complaints of a run begin in
the order in which they are made, between the place in front of the run and the place
behind it (`proceeds_frame`), and each is anchored at a word of the text.
-/
import ScriptSense.Proofs.Grammar.Isolation
import ScriptSense.Proofs.Lexemes

set_option autoImplicit false

namespace ScriptSense

/-- The span of a token that is neither trivia nor a line break nor the end of the text, or
an empty span behind such a token, or the one at the beginning. -/
def Span.Anchored (ts : List Token) (s : Span) : Prop :=
  s = .point 0 ∨ ∃ t ∈ ts, t.kind.isSignificant = true ∧ t.kind ≠ .eof
    ∧ (s = t.span ∨ s = .point t.stop)

namespace Grammar

variable {ts : List Token} {s t u : State}

/-! ## The place of the next complaint -/

theorem State.Level.place_eq (h : s.Level t) : s.place = t.place := by
  obtain ⟨hrest, -, hanchor, -⟩ := h
  unfold State.place
  rw [hrest, hanchor]

theorem State.Placed.anchor_le_place (h : s.Placed) : s.anchor ≤ s.place.start := by
  unfold State.place
  cases hrest : s.rest.dropWhile (·.kind.isTrivia) with
  | nil => exact Nat.le_refl _
  | cons t ts =>
    dsimp only
    split
    · exact Nat.le_refl _
    · have ht : t ∈ s.rest := (List.dropWhile_suffix (·.kind.isTrivia)).subset (by simp [hrest])
      exact h.anchor.trans (chain_le_start h.chain ht)

/-- **The place moves forward.** -/
theorem State.Placed.start_place_le_shift (h : s.Placed) :
    s.place.start ≤ s.shift.place.start := by
  cases hrest : s.rest with
  | nil =>
    have hstill : s.shift = s := by simp [State.shift, hrest]
    rw [hstill]
  | cons t ts =>
    have hforward := h.shift.anchor_le_place
    obtain ⟨hstart, -⟩ := h.cons hrest
    have hanchor := h.anchor
    rw [State.shift_of_rest hrest] at hforward ⊢
    by_cases htrivia : t.kind.isTrivia = true
    · -- Trivia is not looked at.
      have hsilent : t.kind.isSignificant = false := by simp [TokenKind.isSignificant, htrivia]
      simp [State.place, hrest, htrivia, hsilent]
    -- A word is left behind, so the place moves on to what follows it.
    · refine le_trans ?_ hforward
      cases hword : t.kind.isSignificant with
      | true =>
        simp only [State.place, hrest, List.dropWhile_cons, htrivia, Bool.false_eq_true, if_false,
          if_true, Token.stop]
        split
        · simp only [Span.point]
          omega
        · simp only [Token.span]
          omega
      | false =>
        have hbreak : t.kind = .newline := by simpa [TokenKind.isSignificant, htrivia] using hword
        simp [State.place, hrest, hbreak, TokenKind.isTrivia, TokenKind.family, Span.point]

/-! ## Readings of the tokens of a text -/

/-- A place in the reading of the tokens; the last word is one of them. -/
structure Anchorage (ts : List Token) (s : State) : Prop extends Reading ts s where
  last : s.anchor = 0 ∨
    ∃ t ∈ ts, t.kind.isSignificant = true ∧ t.kind ≠ .eof ∧ t.stop = s.anchor

instance : Steady (Anchorage ts) where
  congr h heq := ⟨Steady.congr h.toReading heq, heq.2.2 ▸ h.last⟩
  shift {s} h := by
    refine ⟨Steady.shift h.toReading, ?_⟩
    cases hrest : s.rest with
    | nil =>
      have hstill : s.shift = s := by simp [State.shift, hrest]
      rw [hstill]
      exact h.last
    | cons t ts =>
      have ht : t ∈ s.rest := by simp [hrest]
      rw [State.shift_of_rest hrest]
      dsimp only
      split
      · next hword => exact .inr ⟨t, h.rest.subset ht, hword, h.placed.inner t ht, rfl⟩
      · exact h.last

/-- The place of a complaint is anchored. -/
theorem Anchorage.place (h : Anchorage ts s) : s.place.Anchored ts := by
  -- Where nothing significant is next, the place is where the last word has ended.
  have hlast : (Span.point s.anchor).Anchored ts := by
    rcases h.last with hzero | ⟨t, ht, hword, hend, hstop⟩
    · exact .inl (by rw [hzero])
    · exact .inr ⟨t, ht, hword, hend, .inr (by rw [hstop])⟩
  unfold State.place
  cases hrest : s.rest.dropWhile (·.kind.isTrivia) with
  | nil => exact hlast
  | cons t ts =>
    dsimp only
    split
    · exact hlast
    · next hbreak =>
      have ht : t ∈ s.rest := (List.dropWhile_suffix (·.kind.isTrivia)).subset (by simp [hrest])
      have hvisible : t.kind.isTrivia = false := by
        have hhead := List.head_dropWhile_not (fun u : Token => u.kind.isTrivia) (l := s.rest)
          (by rw [hrest]; exact List.cons_ne_nil _ _)
        simpa only [hrest, List.head_cons] using hhead
      have hword : t.kind.isSignificant = true := by
        simpa [TokenKind.isSignificant, hvisible] using hbreak
      exact .inr ⟨t, h.rest.subset ht, hword, h.placed.inner t ht, .inl rfl⟩

/-! ## Complaints in order -/

/-- The complaints are anchored, and they begin one behind the other between the offsets. -/
structure InOrder (ts : List Token) (first last : Nat) (cs : List Complaint) : Prop where
  anchored : ∀ c ∈ cs, c.span.Anchored ts
  ordered : cs.Pairwise fun c d => c.span.start ≤ d.span.start
  between : ∀ c ∈ cs, first ≤ c.span.start ∧ c.span.start ≤ last

namespace InOrder

variable {first middle last : Nat} {cs ds : List Complaint}

theorem nil : InOrder ts first last [] := ⟨by simp, .nil, by simp⟩

theorem append (hcs : InOrder ts first middle cs) (hds : InOrder ts middle last ds)
    (hfirst : first ≤ middle) (hlast : middle ≤ last) : InOrder ts first last (cs ++ ds) where
  anchored c hc := (List.mem_append.1 hc).elim (hcs.anchored c) (hds.anchored c)
  ordered := List.pairwise_append.2 ⟨hcs.ordered, hds.ordered, fun c hc d hd =>
    (hcs.between c hc).2.trans (hds.between d hd).1⟩
  between c hc := by
    rcases List.mem_append.1 hc with hc | hc
    · exact ⟨(hcs.between c hc).1, (hcs.between c hc).2.trans hlast⟩
    · exact ⟨hfirst.trans (hds.between c hc).1, (hds.between c hc).2⟩

end InOrder

/-- From a place in the reading of the tokens the run goes forward to another one, and its
complaints are in order between the two. -/
def Proceeds (ts : List Token) (s t : State) : Prop :=
  Anchorage ts s → Anchorage ts t ∧ s.place.start ≤ t.place.start
    ∧ ∃ new, t.complaints.toList = s.complaints.toList ++ new
      ∧ InOrder ts s.place.start t.place.start new

namespace Proceeds

theorem trans (hst : Proceeds ts s t) (htu : Proceeds ts t u) : Proceeds ts s u := by
  intro hs
  obtain ⟨ht, hforward, new, hnew, horder⟩ := hst hs
  obtain ⟨hu, hforward', new', hnew', horder'⟩ := htu ht
  refine ⟨hu, hforward.trans hforward', new ++ new', ?_, horder.append horder' hforward hforward'⟩
  rw [hnew', hnew, List.append_assoc]

theorem congr {s' t' : State} (h : Proceeds ts s t) (hs : s.Level s') (ht : t.Level t') :
    Proceeds ts s' t' := by
  intro hplaced
  obtain ⟨hbehind, hforward, new, hnew, horder⟩ :=
    h (Steady.congr hplaced ⟨hs.1, hs.2.1, hs.2.2.1⟩)
  rw [hs.place_eq, ht.place_eq] at hforward horder
  refine ⟨Steady.congr hbehind ⟨ht.1.symm, ht.2.1.symm, ht.2.2.1.symm⟩, hforward, new, ?_, horder⟩
  rw [← ht.2.2.2, hnew, hs.2.2.2]

end Proceeds

/-- **Every run goes forward**, and its complaints are in order. -/
theorem proceeds_frame (ts : List Token) : Frame (Proceeds ts) := by
  refine Remarks.frame ⟨fun s hs => ?_, .trans, .congr, fun s hs => ?_, fun p s hs => ?_⟩
  · exact ⟨hs, Nat.le_refl _, [], (List.append_nil _).symm, .nil⟩
  · refine ⟨Steady.shift hs, hs.placed.start_place_le_shift, [], ?_, .nil⟩
    rw [State.complaints_shift, List.append_nil]
  · refine ⟨Steady.congr hs ⟨rfl, rfl, rfl⟩, Nat.le_refl _, [⟨p, s.place⟩], by simp, ?_⟩
    refine ⟨fun c hc => ?_, List.pairwise_singleton _ _, fun c hc => ?_⟩
    · rw [List.mem_singleton.1 hc]
      exact hs.place
    · rw [List.mem_singleton.1 hc]
      exact ⟨Nat.le_refl _, Nat.le_refl _⟩

/-- In front of a text no word was read. -/
theorem anchorage_initial (text : String) :
    Anchorage (State.initial (tokens text)).rest (State.initial (tokens text)) :=
  ⟨⟨List.suffix_refl _, .initial text⟩, .inl rfl⟩

end Grammar

/-- An anchored span lies between two characters of the text. -/
theorem Span.Anchored.boundary {text : String} {s : Span} (h : s.Anchored (tokens text)) :
    s.start ≤ s.stop ∧ isBoundary s.start text.toList = true
      ∧ isBoundary s.stop text.toList = true := by
  rcases h with rfl | ⟨t, ht, -, -, rfl | rfl⟩
  · have hzero : isBoundary 0 text.toList = true := isBoundary_byteLength [] text.toList
    exact ⟨Nat.le_refl 0, hzero, hzero⟩
  · exact ⟨Nat.le_add_right _ _, (tokens_wellCut text).boundary t ht⟩
  · have hstop := ((tokens_wellCut text).boundary t ht).2
    exact ⟨Nat.le_refl _, hstop, hstop⟩

/-- **What a reading complains about has its place in the text**: at a word or behind one,
between two characters, and in the order of the complaints. -/
structure Parse.Anchored (text : String) (p : Parse) : Prop where
  anchored : ∀ c ∈ p.complaints, c.span.Anchored (tokens text)
  ordered : p.complaints.Pairwise fun c d => c.span.start ≤ d.span.start
  boundary : ∀ c ∈ p.complaints, c.span.start ≤ c.span.stop
    ∧ isBoundary c.span.start text.toList = true ∧ isBoundary c.span.stop text.toList = true

open Grammar in
/-- Whatever is read, as long as it is made of the makings of the grammar. -/
theorem anchored_ofContent {content : Rules → Step Unit} {i : Sync} {o : Unit → Sync}
    (hcontent : ∀ R : Rules, R.Alike R → Alike i o (content R) (content R)) (kind : NodeKind)
    (isFunction : String → Bool) (text : String) :
    (Parse.ofContent kind content isFunction text).Anchored text := by
  set start := State.initial (tokens text)
  have halike := hcontent _ (rules_alike_self isFunction (levelsFor start.rest.length))
  -- Nothing is complained about at the start, so all complaints are new.
  obtain ⟨-, -, new, hnew, horder⟩ :=
    halike.frame (proceeds_frame start.rest) start (anchorage_initial text)
  have hcomplaints : (Parse.ofContent kind content isFunction text).complaints = new := hnew
  have hanchored (c : Complaint) (hc : c ∈ new) : c.span.Anchored (tokens text) :=
    (horder.anchored c hc).imp id fun ⟨t, ht, hword⟩ => ⟨t, List.mem_of_mem_filter ht, hword⟩
  rw [← hcomplaints] at hanchored
  exact ⟨hanchored, hcomplaints ▸ horder.ordered, fun c hc => (hanchored c hc).boundary⟩

/-- **Complaints are anchored and ordered**, about scripts, whatever names are known to be
functions, and about expressions. -/
theorem complaints_anchored (isFunction : String → Bool) (text : String) :
    (parseWith isFunction text).Anchored text ∧ (parseExpression text).Anchored text :=
  ⟨anchored_ofContent (fun _ => Grammar.script_alike) .script isFunction text,
    anchored_ofContent (fun _ => Grammar.onlyExpression_alike) .exprRoot noFunctions text⟩

end ScriptSense
