/-
Where the complaints of a run belong.

A complaint is about the next word, or about the end of the last one if the line ends. So
whatever a run complains about lies in front of where it has come to, but for complaints
about the word that comes next (`SettledAt`); and as soon as that is consumed, they do too.
Where no word comes next, at the end of a line or of the text, all complaints are settled.

Together with the bound from below, which holds from a word on (`pastFrame`), this bounds
the complaints made while a node is built by the span of the node.
-/
import ScriptSense.Proofs.Grammar.Prefix
import ScriptSense.Proofs.Grammar.Tandem

set_option autoImplicit false

namespace ScriptSense.Grammar

variable {c : Complaint} {s t u : State}

/-! ## How far the reading has come -/

/-- The tokens ahead are some that follow each other from the offset on, and the last word
ends in front of it. -/
structure State.Placed (s : State) : Prop where
  chain : Token.Chain s.offset s.rest
  inner : ∀ t ∈ s.rest, t.kind ≠ .eof
  anchor : s.anchor ≤ s.offset

namespace State.Placed

/-- In front of a text nothing was read yet. -/
theorem initial (text : String) : (State.initial (tokens text)).Placed :=
  have htiling := (tokens_tiling text).1
  ⟨htiling.chain, fun t ht => (htiling.significant t ht).1, Nat.le_refl 0⟩

theorem cons {t : Token} {ts : List Token} (h : s.Placed) (hrest : s.rest = t :: ts) :
    t.start = s.offset ∧ Token.Chain t.stop ts := by
  have hchain := h.chain
  rwa [hrest] at hchain

/-- Moving a token does not go back. -/
theorem offset_le_shift (h : s.Placed) : s.offset ≤ s.shift.offset := by
  cases hrest : s.rest with
  | nil => simp [State.shift, hrest]
  | cons t ts =>
    obtain ⟨hstart, -⟩ := h.cons hrest
    rw [State.shift_of_rest hrest]
    simp only [Token.stop]
    omega

theorem shift (h : s.Placed) : s.shift.Placed := by
  cases hrest : s.rest with
  | nil =>
    have hstill : s.shift = s := by simp [State.shift, hrest]
    rwa [hstill]
  | cons t ts =>
    obtain ⟨hstart, hchain⟩ := h.cons hrest
    have hinner := h.inner
    have hanchor := h.anchor
    rw [hrest] at hinner
    rw [State.shift_of_rest hrest]
    refine ⟨hchain, fun u hu => hinner u (List.mem_cons_of_mem _ hu), ?_⟩
    simp only [Token.stop]
    split <;> omega

end State.Placed

instance : Steady State.Placed where
  congr h heq := by
    obtain ⟨hrest, hoffset, hanchor⟩ := heq
    exact ⟨hrest ▸ hoffset ▸ h.chain, hrest ▸ h.inner, hanchor ▸ hoffset ▸ h.anchor⟩
  shift := State.Placed.shift

namespace State.Placed

theorem offset_le_shiftMany (n : Nat) (h : s.Placed) : s.offset ≤ (s.shiftMany n).offset := by
  induction n generalizing s with
  | zero => exact Nat.le_refl _
  | succ n ih => exact h.offset_le_shift.trans (ih h.shift)

theorem offset_le_consume (h : s.Placed) : s.offset ≤ s.consume.offset := by
  have hshift : s.offset ≤ s.shiftTrivia.shift.offset :=
    (h.offset_le_shiftMany _).trans (offset_le_shift (Steady.shiftMany _ h))
  have hbreaks : s.shiftTrivia.shift.offset ≤ s.shiftTrivia.shift.shiftBreaks.offset := by
    unfold State.shiftBreaks
    split
    · exact offset_le_shiftMany _ (Steady.shift (Steady.shiftMany _ h))
    · exact Nat.le_refl _
  exact hshift.trans hbreaks

end State.Placed

theorem chain_le_start {offset : Nat} {ts : List Token} (h : Token.Chain offset ts) {t : Token}
    (ht : t ∈ ts) : offset ≤ t.start := by
  induction ts generalizing offset with
  | nil => cases ht
  | cons u us ih =>
    obtain ⟨hstart, hchain⟩ := h
    rcases List.mem_cons.1 ht with rfl | ht
    · exact hstart.ge
    · have := ih hchain ht
      simp only [Token.stop] at this
      omega

/-- In front of a word, complaints are about places behind the offset. -/
theorem State.Placed.past (h : s.Placed) (hword : WithinLine (kindAhead 0 s.rest)) :
    Past s.offset s :=
  ⟨fun _ ht => chain_le_start h.chain ht, .inr hword⟩

/-! ## Settled complaints -/

/-- The complaint is about what was read, or about the next word. -/
def SettledAt (s : State) (c : Complaint) : Prop :=
  c.span.stop ≤ s.offset ∨ ∃ t ∈ (s.rest.dropWhile (·.kind.isTrivia)).head?, t.kind ≠ .newline
    ∧ c.span = t.span

namespace SettledAt

theorem congr (h : SettledAt s c) (hrest : t.rest = s.rest) (hoffset : t.offset = s.offset) :
    SettledAt t c := by
  unfold SettledAt
  rwa [hrest, hoffset]

/-- What is about the next word is about what was read once that is consumed. -/
theorem shift (hs : s.Placed) (h : SettledAt s c) : SettledAt s.shift c := by
  rcases h with h | ⟨u, hu, hbreak, hspan⟩
  · exact .inl (h.trans hs.offset_le_shift)
  · cases hrest : s.rest with
    | nil => simp [hrest] at hu
    | cons t ts =>
      rw [State.shift_of_rest hrest]
      rw [hrest] at hu
      by_cases ht : t.kind.isTrivia
      · rw [List.dropWhile_cons, if_pos ht] at hu
        exact .inr ⟨u, hu, hbreak, hspan⟩
      -- The break that was complained about is passed now, so the complaint lies behind.
      · rw [List.dropWhile_cons, if_neg ht, List.head?_cons, Option.mem_some_iff] at hu
        refine .inl ?_
        rw [hspan, ← hu]
        exact Nat.le_refl _

/-- Where no word comes next, the complaint is about what was read. -/
theorem stop_le (hs : s.Placed) (h : SettledAt s c) (hword : ¬ WithinLine (kindAhead 0 s.rest)) :
    c.span.stop ≤ s.offset := by
  refine h.resolve_right ?_
  rintro ⟨t, ht, hbreak, -⟩
  refine hword ?_
  have hkind : kindAhead 0 s.rest = t.kind := by
    rw [State.kindAhead_zero, Option.mem_def.1 ht]
    rfl
  rw [hkind]
  exact ⟨hbreak, hs.inner t ((List.dropWhile_suffix _).subset (List.mem_of_mem_head? ht))⟩

/-- A complaint is made about the next word or the end of the last. -/
theorem place (hs : s.Placed) (p : Problem) : SettledAt s ⟨p, s.place⟩ := by
  unfold SettledAt State.place
  cases hrest : s.rest.dropWhile (·.kind.isTrivia) with
  | nil => exact .inl hs.anchor
  | cons t ts =>
    dsimp only
    split
    · exact .inl hs.anchor
    · next hbreak => exact .inr ⟨t, rfl, by simpa using hbreak, rfl⟩

end SettledAt

/-! ## Runs -/

/-- From where it has come to, the run goes on to such a place again, settled complaints
stay settled, and those that are new are settled too. -/
def Settles (s t : State) : Prop :=
  s.Placed → t.Placed ∧ (∀ c, SettledAt s c → SettledAt t c)
    ∧ ∃ new, t.complaints.toList = s.complaints.toList ++ new ∧ ∀ c ∈ new, SettledAt t c

namespace Settles

theorem of_quiet (hplaced : s.Placed → t.Placed) (hcomplaints : t.complaints = s.complaints)
    (hsettled : s.Placed → ∀ c, SettledAt s c → SettledAt t c) : Settles s t :=
  fun hs => ⟨hplaced hs, hsettled hs, [], by rw [hcomplaints, List.append_nil], by simp⟩

theorem trans (hst : Settles s t) (htu : Settles t u) : Settles s u := by
  intro hs
  obtain ⟨ht, hkept, new, hnew, hsettled⟩ := hst hs
  obtain ⟨hu, hkept', new', hnew', hsettled'⟩ := htu ht
  refine ⟨hu, fun c hc => hkept' c (hkept c hc), new ++ new', ?_, fun c hc => ?_⟩
  · rw [hnew', hnew, List.append_assoc]
  · exact (List.mem_append.1 hc).elim (fun hc => hkept' c (hsettled c hc)) (hsettled' c)

/-- What matters are the tokens ahead, where the reading has come to and the complaints. -/
theorem congr {s' t' : State} (h : Settles s t) (hs : s.Level s') (ht : t.Level t') :
    Settles s' t' := by
  obtain ⟨hrest, hoffset, hanchor, hcomplaints⟩ := hs
  obtain ⟨hrest', hoffset', hanchor', hcomplaints'⟩ := ht
  intro hplaced
  obtain ⟨hbehind, hkept, new, hnew, hsettled⟩ := h (Steady.congr hplaced ⟨hrest, hoffset, hanchor⟩)
  refine ⟨Steady.congr hbehind ⟨hrest'.symm, hoffset'.symm, hanchor'.symm⟩, fun c hc => ?_, new, ?_,
    fun c hc => ?_⟩
  · exact (hkept c (hc.congr hrest hoffset)).congr hrest'.symm hoffset'.symm
  · rw [← hcomplaints', hnew, hcomplaints]
  · exact (hsettled c hc).congr hrest'.symm hoffset'.symm

end Settles

/-- **Every run settles its complaints**, but for those about the next word. -/
theorem settles_frame : Frame Settles := by
  refine Remarks.frame ⟨fun s => .of_quiet id rfl fun _ _ => id, .trans, .congr, fun s => ?_,
    fun p s hs => ?_⟩
  · exact .of_quiet .shift (State.complaints_shift s) fun hs _ h => h.shift hs
  · refine ⟨Steady.congr hs ⟨rfl, rfl, rfl⟩, fun c hc => hc.congr rfl rfl, [⟨p, s.place⟩], by simp,
      fun c hc => ?_⟩
    rw [List.mem_singleton.1 hc]
    exact (SettledAt.place hs p).congr rfl rfl

end ScriptSense.Grammar
