/-
A reading does not look past what it leaves.

Put the same tokens behind the ones ahead, and a step does what it did and leaves them
behind, unless it came to the end of the text before (`Alike.blind`). The tokens ahead
end with a line break, so as long as one is left there is a token to look at, and where
a rule looks two tokens ahead the next one is no line break. Only where nothing is left
can the two readings fall apart, in that the longer one goes on.

The judgement on steps carries what is asked of the next token, as for two texts that
differ in their layout; but here both readings see the same token, so of the levels of
agreement only the closest matters.
-/
import Mathlib.Data.List.TakeDrop
import Mathlib.Data.List.TakeWhile
import ScriptSense.Proofs.Grammar.Budget
import ScriptSense.Proofs.Grammar.Headed
import ScriptSense.Proofs.Grammar.Shape

set_option autoImplicit false

namespace ScriptSense.Grammar

variable {α β : Type} {more : List Token}

/-! ## Tokens that end with a line break -/

/-- The tokens of whole lines: the last one, if there is one, is a line break, and none
is the end of the text. -/
structure WholeLines (ts : List Token) : Prop where
  last : ∀ t ∈ ts.getLast?, t.kind = .newline
  inner : ∀ t ∈ ts, t.kind ≠ .eof

/-- The end of a text of whole lines is of whole lines. -/
theorem WholeLines.suffix {ts us : List Token} (h : WholeLines ts) (hsuffix : us <:+ ts) :
    WholeLines us := by
  refine ⟨fun t ht => ?_, fun t ht => h.inner t (hsuffix.subset ht)⟩
  obtain ⟨front, rfl⟩ := hsuffix
  refine h.last t ?_
  rw [Option.mem_def] at ht
  rw [List.getLast?_append, ht]
  rfl

/-- The kinds of the tokens that the grammar sees. -/
def visible (ts : List Token) : List TokenKind := (ts.map Token.kind).filter (!·.isTrivia)

/-- What is visible of two texts behind each other. -/
theorem visible_append (ts us : List Token) : visible (ts ++ us) = visible ts ++ visible us := by
  rw [visible, List.map_append, List.filter_append, visible, visible]

/-- A look reads the visible tokens. -/
theorem kindAhead_visible (n : Nat) (ts : List Token) :
    kindAhead n ts = (visible ts).getD n .eof :=
  kindAhead_eq n ts

/-- What a look sees does not depend on what is further on. -/
theorem kindAhead_append {n : Nat} {ts : List Token} (h : n < (visible ts).length)
    (more : List Token) : kindAhead n (ts ++ more) = kindAhead n ts := by
  rw [kindAhead_visible, kindAhead_visible, visible_append, List.getD_eq_getElem?_getD,
    List.getD_eq_getElem?_getD, List.getElem?_append_left h]

namespace WholeLines

variable {ts : List Token} (h : WholeLines ts) (hsome : ts ≠ [])

include h hsome

/-- Where some token is left, the last one that the grammar sees is a line break. -/
theorem exists_visible : ∃ kinds, visible ts = kinds ++ [.newline] := by
  have hlast : (ts.getLast hsome).kind = .newline :=
    h.last _ (by rw [Option.mem_def, List.getLast?_eq_some_getLast hsome])
  refine ⟨visible ts.dropLast, ?_⟩
  conv_lhs => rw [← List.dropLast_concat_getLast hsome, visible_append]
  refine congrArg _ ?_
  simp [visible, hlast, TokenKind.isTrivia, TokenKind.family]

/-- A text that ends with a line break has a visible token. -/
theorem visible_pos : 0 < (visible ts).length := by
  obtain ⟨kinds, hkinds⟩ := h.exists_visible hsome
  rw [hkinds, List.length_append]
  exact Nat.succ_pos _

/-- As long as a line break is left the text is not over. -/
theorem kindAhead_ne_eof : kindAhead 0 ts ≠ .eof := by
  have hpos := h.visible_pos hsome
  rw [kindAhead_visible, List.getD_eq_getElem?_getD, List.getElem?_eq_getElem hpos,
    Option.getD_some]
  obtain ⟨t, ht, hkind⟩ := List.mem_map.1 (List.mem_filter.1 (List.getElem_mem hpos)).1
  rw [← hkind]
  exact h.inner t ht

/-- Where the next token is no line break, there is one behind it. -/
theorem one_lt_visible (hword : kindAhead 0 ts ≠ .newline) : 1 < (visible ts).length := by
  obtain ⟨kinds, hkinds⟩ := h.exists_visible hsome
  cases kinds with
  | nil =>
    rw [kindAhead_visible, hkinds] at hword
    exact absurd rfl hword
  | cons k kinds =>
    rw [hkinds, List.cons_append, List.length_cons, List.length_append]
    exact Nat.succ_lt_succ (Nat.succ_pos _)

/-- The next token that the grammar sees stands in front of what is further on. -/
theorem exists_split : ∃ front t back, ts = front ++ t :: back ∧ t.kind.isTrivia = false
    ∧ ∀ u ∈ front, u.kind.isTrivia = true := by
  have hlast : ts.getLast hsome ∈ ts := List.getLast_mem hsome
  have hkind : (ts.getLast hsome).kind = .newline :=
    h.last _ (by rw [Option.mem_def, List.getLast?_eq_some_getLast hsome])
  cases hdrop : ts.dropWhile (·.kind.isTrivia) with
  | nil =>
    -- Trivia to the very end cannot be, for the last token is a line break.
    have hall := List.dropWhile_eq_nil_iff.1 hdrop _ hlast
    rw [hkind] at hall
    exact absurd hall (by decide)
  | cons t back =>
    refine ⟨ts.takeWhile (·.kind.isTrivia), t, back, ?_, ?_, ?_⟩
    · rw [← hdrop, List.takeWhile_append_dropWhile]
    · have ht := List.head_dropWhile_not (p := fun u : Token => u.kind.isTrivia) (l := ts)
        (by simp [hdrop])
      simpa [hdrop] using ht
    · exact fun u hu => List.all_eq_true.1 List.all_takeWhile u hu

end WholeLines

/-- Line breaks are counted up to the next word. -/
theorem breaksAhead_append {ts : List Token} (h : WholeLines ts)
    (hleft : ts.drop (breaksAhead ts) ≠ []) (more : List Token) :
    breaksAhead (ts ++ more) = breaksAhead ts := by
  induction ts with
  | nil => exact absurd rfl hleft
  | cons t ts ih =>
    have htail : WholeLines ts := h.suffix (List.suffix_cons t ts)
    rw [List.cons_append]
    unfold breaksAhead at hleft ⊢
    by_cases hbreak : (t.kind == .newline) = true
    · rw [if_pos hbreak, List.drop_succ_cons] at hleft
      rw [if_pos hbreak, if_pos hbreak, ih htail hleft]
    · rw [if_neg hbreak] at hleft
      rw [if_neg hbreak, if_neg hbreak]
      by_cases htrivia : t.kind.isTrivia = true
      · rw [if_pos htrivia] at hleft
        rw [if_pos htrivia, if_pos htrivia]
        have hbehind : ts.drop (breaksAhead ts) ≠ [] := by
          cases hcount : breaksAhead ts with
          | zero =>
            -- The last token is a line break, and the first one is not.
            rintro hnil
            rw [List.drop_zero] at hnil
            subst hnil
            exact hbreak (by simp [h.last t rfl])
          | succ n =>
            rw [hcount] at hleft
            exact hleft
        rw [ih htail hbehind]
      · rw [if_neg htrivia, if_neg htrivia]

/-! ## The same state in front of a longer text -/

/-- The state with more tokens behind those ahead. -/
def State.longer (more : List Token) (s : State) : State := { s with rest := s.rest ++ more }

namespace State

variable {s : State}

/-- A longer text has more tokens behind the others. -/
theorem rest_longer : (s.longer more).rest = s.rest ++ more := rfl

/-- Counters have no part in how long the text is. -/
theorem longer_setCount (c : Counter) (n : Nat) :
    (s.longer more).setCount c n = (s.setCount c n).longer more := by
  cases c <;> rfl

/-- A counter is raised alike in front of a longer text. -/
theorem longer_raise (c : Counter) : (s.longer more).raise c = (s.raise c).longer more := by
  cases c <;> rfl

/-- A counter is lowered alike in front of a longer text. -/
theorem longer_lower (c : Counter) : (s.longer more).lower c = (s.lower c).longer more := by
  have hcount : (s.longer more).count c = s.count c := by cases c <;> rfl
  rw [lower, lower, hcount]
  split
  · rfl
  · exact longer_setCount c _

/-- The same token is taken from a longer text. -/
theorem longer_shift (h : s.rest ≠ []) : (s.longer more).shift = s.shift.longer more := by
  obtain ⟨t, ts, hrest⟩ := List.exists_cons_of_ne_nil h
  have hlonger : (s.longer more).rest = t :: (ts ++ more) := by
    rw [rest_longer, hrest, List.cons_append]
  rw [shift_of_rest hrest, shift_of_rest hlonger]
  rfl

/-- The same tokens are taken from a longer text, as long as they were there before. -/
theorem longer_shiftMany {n : Nat} (h : n ≤ s.rest.length) :
    (s.longer more).shiftMany n = (s.shiftMany n).longer more := by
  induction n generalizing s with
  | zero => rfl
  | succ n ih =>
    obtain ⟨t, ts, hrest⟩ := List.exists_cons_of_length_pos (Nat.lt_of_lt_of_le n.succ_pos h)
    rw [shiftMany, shiftMany, longer_shift (by simp [hrest]), ih]
    rw [shift_of_rest hrest]
    rw [hrest, List.length_cons] at h
    exact Nat.le_of_succ_le_succ h

/-- Trivia is taken up to the next token that the grammar sees. -/
theorem longer_shiftTrivia (h : WholeLines s.rest) (hsome : s.rest ≠ []) :
    (s.longer more).shiftTrivia = s.shiftTrivia.longer more := by
  obtain ⟨front, t, back, hsplit, ht, hfront⟩ := h.exists_split hsome
  have htake (us : List Token) :
      (front ++ t :: us).takeWhile (fun u => u.kind.isTrivia) = front := by
    rw [List.takeWhile_append_of_pos hfront, List.takeWhile_cons_of_neg (by simp [ht]),
      List.append_nil]
  rw [shiftTrivia, shiftTrivia, rest_longer, hsplit, List.append_assoc, List.cons_append, htake,
    htake]
  refine longer_shiftMany ?_
  rw [hsplit, List.length_append]
  omega

/-- Line breaks end at the same token in a longer text, as long as one is left. -/
theorem longer_shiftBreaks (h : WholeLines s.rest) (hleft : s.shiftBreaks.rest ≠ []) :
    (s.longer more).shiftBreaks = s.shiftBreaks.longer more := by
  have hparens : (s.longer more).parens = s.parens := rfl
  unfold shiftBreaks at hleft ⊢
  rw [hparens]
  split
  · next hopen =>
    rw [if_pos hopen, rest_shiftMany] at hleft
    rw [rest_longer, breaksAhead_append h hleft]
    refine longer_shiftMany (Nat.le_of_lt ?_)
    by_contra hall
    exact hleft (List.drop_eq_nil_of_le (Nat.le_of_not_lt hall))
  · rfl

/-- What is left behind is the end of what was ahead. -/
theorem shift_suffix (s : State) : s.shift.rest <:+ s.rest := by
  have hrest := rest_shiftMany 1 s
  change s.shift.rest = s.rest.drop 1 at hrest
  rw [hrest]
  exact List.drop_suffix 1 s.rest

/-- Taking trivia leaves an end of the text. -/
theorem shiftTrivia_suffix (s : State) : s.shiftTrivia.rest <:+ s.rest := by
  rw [rest_shiftTrivia]
  exact List.dropWhile_suffix _

/-- Taking line breaks leaves an end of the text. -/
theorem shiftBreaks_suffix (s : State) : s.shiftBreaks.rest <:+ s.rest := by
  unfold shiftBreaks
  split
  · rw [rest_shiftMany]
    exact List.drop_suffix _ s.rest
  · exact List.suffix_refl _

/-- Opening a node leaves an end of the text. -/
theorem opened_suffix (kind : NodeKind) (s : State) : (s.opened kind).rest <:+ s.rest := by
  unfold opened
  split
  · exact List.suffix_refl _
  · exact shiftTrivia_suffix s

/-- **A token is consumed** in front of a longer text as it is in front of this one, if
something is left behind it. -/
theorem longer_consume (h : WholeLines s.rest) (hleft : s.consume.rest ≠ []) :
    (s.longer more).consume = s.consume.longer more := by
  have hbreaks : s.shiftTrivia.shift.shiftBreaks.rest ≠ [] := hleft
  have hsome {t u : State} (hsuffix : u.rest <:+ t.rest) (hne : u.rest ≠ []) : t.rest ≠ [] := by
    rintro hnil
    rw [hnil] at hsuffix
    exact hne (List.suffix_nil.1 hsuffix)
  have hshifted : s.shiftTrivia.shift.rest ≠ [] := hsome (shiftBreaks_suffix _) hbreaks
  have htrivia : s.shiftTrivia.rest ≠ [] := hsome (shift_suffix _) hshifted
  have hrest : s.rest ≠ [] := hsome (shiftTrivia_suffix s) htrivia
  have hlines : WholeLines s.shiftTrivia.shift.rest :=
    (h.suffix (shiftTrivia_suffix s)).suffix (shift_suffix _)
  rw [consume, longer_shiftTrivia h hrest, longer_shift htrivia, longer_shiftBreaks hlines hbreaks]
  rfl

/-- The same trivia is moved out of a node in front of a longer text. -/
theorem longer_opened (kind : NodeKind) (h : WholeLines s.rest) (hsome : s.rest ≠ []) :
    (s.longer more).opened kind = (s.opened kind).longer more := by
  unfold opened
  split
  · rfl
  · exact longer_shiftTrivia h hsome

/-- A complaint about the next token belongs where it belonged. -/
theorem longer_place (h : WholeLines s.rest) (hsome : s.rest ≠ []) :
    (s.longer more).place = s.place := by
  obtain ⟨front, t, back, hsplit, ht, hfront⟩ := h.exists_split hsome
  have hdrop (us : List Token) :
      (front ++ t :: us).dropWhile (fun u => u.kind.isTrivia) = t :: us := by
    rw [List.dropWhile_append_of_pos hfront, List.dropWhile_cons_of_neg (by simp [ht])]
  unfold place
  rw [rest_longer, hsplit, List.append_assoc, List.cons_append, hdrop, hdrop]
  rfl

/-- The same word is ahead in a longer text. -/
theorem longer_textAhead (h : WholeLines s.rest) (hsome : s.rest ≠ []) (p : String → Bool) :
    textAhead p (s.longer more) = ((textAhead p s).1, s.longer more) := by
  obtain ⟨front, t, back, hsplit, ht, hfront⟩ := h.exists_split hsome
  have hfind (us : List Token) :
      (front ++ t :: us).find? (fun u => !u.kind.isTrivia) = some t := by
    rw [List.find?_append, List.find?_eq_none.2 fun u hu => by simp [hfront u hu],
      List.find?_cons_of_pos (by simp [ht])]
    rfl
  have hrun (u : State) : textAhead p u
      = ((u.rest.find? (!·.kind.isTrivia)).any fun t => p t.text, u) := rfl
  rw [hrun, hrun, rest_longer, hsplit, List.append_assoc, List.cons_append, hfind, hfind]

end State

/-! ## Steps that do not look past what they leave -/

/-- The next token is no line break, if that is asked for. -/
def Sync.Word (i : Sync) (s : State) : Prop := i = .word → kindAhead 0 s.rest ≠ .newline

/-- What is asked of the token ahead in one way is asked in every stricter way. -/
theorem Sync.Word.mono {i j : Sync} {s : State} (h : i.Word s) (hij : i ≤ j) : j.Word s := by
  rintro rfl
  rcases hij with rfl | h' | rfl
  · exact h rfl
  · cases h'
  · exact h rfl

/-- **In front of a longer text the step does the same**, unless one of the two readings is
given up or nothing is left of the shorter text. -/
def Blind (i : Sync) (o : α → Sync) (m m' : Step α) : Prop :=
  ∀ (more : List Token) (s : State), WholeLines s.rest → i.Word s → (m s).2.rest ≠ [] →
    (m s).2.fault = none → (m' (s.longer more)).2.fault = none →
    m' (s.longer more) = ((m s).1, (m s).2.longer more) ∧ (o (m s).1).Word (m s).2

/-- The step takes tokens from the front only, and a reading that was given up stays
given up. -/
structure Onward (m : Step α) : Prop where
  suffix (s : State) : (m s).2.rest <:+ s.rest
  keeps (s : State) : (m s).2.fault = none → s.fault = none

/-- Whatever is put together of the makings goes onward. -/
theorem Alike.onward {i : Sync} {o : α → Sync} {m m' : Step α} (h : Alike i o m m') : Onward m where
  suffix s := by
    obtain ⟨moved, hrest, -⟩ := h.frame advances_frame s
    exact ⟨moved, hrest.symm⟩
  keeps _ := h.fault_eq_none

namespace Onward

variable {m : Step α} {f : α → Step β}

/-- Where something is left behind a step, something was ahead of it. -/
theorem rest_ne_nil (h : Onward m) {s : State} (hleft : (m s).2.rest ≠ []) : s.rest ≠ [] := by
  rintro hnil
  have hsuffix := h.suffix s
  rw [hnil] at hsuffix
  exact hleft (List.suffix_nil.1 hsuffix)

/-- An answer goes nowhere. -/
theorem pure (a : α) : Onward (Pure.pure a : Step α) := ⟨fun _ => List.suffix_refl _, fun _ h => h⟩

/-- Two steps onward, after each other. -/
theorem bind (hm : Onward m) (hf : ∀ a, Onward (f a)) : Onward (m >>= f) where
  suffix s := ((hf _).suffix _).trans (hm.suffix s)
  keeps s h := hm.keeps s ((hf _).keeps _ h)

/-- Raising a counter takes nothing. -/
theorem raise (c : Counter) : Onward (modify (State.raise c) : Step Unit) where
  suffix s := by
    have hrest : (s.raise c).rest = s.rest := State.rest_setCount ..
    exact hrest ▸ List.suffix_refl (s.raise c).rest
  keeps s h := by
    change (s.setCount c (s.count c + 1)).fault = none at h
    rwa [State.fault_setCount] at h

/-- A loop goes onward when its turns do. -/
theorem iterate {σ : Type} {step : σ → Step (Option σ)} (h : ∀ x, Onward (step x)) (n : Nat)
    (x : σ) : Onward (iterate step n x) := by
  induction n generalizing x with
  | zero => exact ⟨fun _ => List.suffix_refl _, fun s hs => absurd hs (State.fault_giveUp_ne_none _ s)⟩
  | succ n ih =>
    refine (h x).bind fun r => ?_
    cases r with
    | none => exact pure ()
    | some y => exact ih y

/-- A turn of a climb. -/
theorem climbTurn {check : Step (Option β)} {act : β → Step Bool} (hcheck : Onward check)
    (hact : ∀ b, Onward (act b)) : Onward (climbTurn check act) := by
  refine hcheck.bind fun r => ?_
  cases r with
  | none => exact pure none
  | some b =>
    refine (raise .nesting).bind fun _ => (hact b).bind fun again => ?_
    cases again <;> exact pure _

end Onward

namespace Blind

variable {i j : Sync} {o : α → Sync} {m m' : Step α}

/-- More may be asked in front of a step, and less behind it. -/
theorem weaken {i' : Sync} {o' : α → Sync} (hi : i' ≤ i) (ho : ∀ a, o a ≤ o' a)
    (h : Blind i o m m') : Blind i' o' m m' := by
  intro more s hlines hword hleft hfault hfault'
  obtain ⟨hrun, hbehind⟩ := h more s hlines (hword.mono hi) hleft hfault hfault'
  exact ⟨hrun, hbehind.mono (ho _)⟩

/-- The same answer in front of both texts. -/
theorem pure (a : α) (h : i ≤ o a) : Blind i o (Pure.pure a) (Pure.pure a) :=
  fun _ _ _ hword _ _ _ => ⟨rfl, hword.mono h⟩

/-- Two blind steps after each other. The first has left something, because the second has. -/
theorem bind {j : α → Sync} {o : β → Sync} {f f' : α → Step β} (hon : Onward m)
    (hfon : ∀ a, Onward (f a)) (hfon' : ∀ a, Onward (f' a)) (hm : Blind i j m m')
    (hf : ∀ a, Blind (j a) o (f a) (f' a)) : Blind i o (m >>= f) (m' >>= f') := by
  intro more s hlines hword hleft hfault hfault'
  rw [run_bind] at hleft hfault hfault' ⊢
  obtain ⟨hrun, hbehind⟩ := hm more s hlines hword ((hfon _).rest_ne_nil hleft)
    ((hfon _).keeps _ hfault) ((hfon' _).keeps _ hfault')
  rw [hrun] at hfault'
  rw [run_bind, hrun]
  exact hf _ more _ (hlines.suffix (hon.suffix s)) hbehind hleft hfault hfault'

/-- A look that does not reach past what is left finds the same in a longer text. -/
theorem look {n : Nat} {o : TokenKind → Sync}
    (hn : ∀ s : State, WholeLines s.rest → i.Word s → s.rest ≠ [] → n < (visible s.rest).length)
    (ho : ∀ s : State, i.Word s → (o (kindAhead n s.rest)).Word s) :
    Blind i o (Grammar.look n) (Grammar.look n) := by
  intro more s hlines hword hleft hfault hfault'
  -- Without a fault the look was not the last one that is allowed.
  have hlook {t : State} (ht : (Grammar.look n t).2.fault = none) :
      Grammar.look n t = (kindAhead n t.rest, t.looked) := by
    rcases run_look_cases n t with ⟨-, -, hlook⟩ | hlost
    · exact hlook
    · rw [hlost] at ht
      exact absurd ht (State.fault_giveUp_ne_none _ _)
  have hsome : s.rest ≠ [] := by
    rw [hlook hfault] at hleft
    exact hleft
  rw [hlook hfault', hlook hfault, State.rest_longer,
    kindAhead_append (hn s hlines hword hsome)]
  exact ⟨rfl, ho s hword⟩

/-- The next token is the same in a longer text. -/
theorem current : Blind .next Sync.seen Grammar.current Grammar.current := by
  refine look (fun s hlines _ hsome => hlines.visible_pos hsome) fun s _ hseen hbreak => ?_
  rw [Sync.seen, if_pos hbreak] at hseen
  cases hseen

/-- So is the one behind a word, since a line break comes after all words. -/
theorem look_word (n : Nat) (hn : n ≤ 1) :
    Blind .word (fun _ => .word) (Grammar.look n) (Grammar.look n) := by
  refine look (fun s hlines hword hsome => ?_) fun _ hword => hword
  exact Nat.lt_of_le_of_lt hn (hlines.one_lt_visible hsome (hword rfl))

/-- The same token is consumed, with the line breaks behind it. -/
theorem consume {o : Unit → Sync} (ho : o () ≠ .word) :
    Blind i o (modify State.consume) (modify State.consume) := by
  intro more s hlines _ hleft _ _
  rw [run_modify, run_modify, State.longer_consume hlines hleft]
  exact ⟨rfl, fun hword => absurd hword ho⟩

/-- A line break is eaten in front of both texts or of neither. -/
theorem eatBreak : Blind .next (fun eaten => if eaten then .fresh else .word)
    (eat .newline) (eat .newline) := by
  intro more s hlines hword hleft hfault hfault'
  have hlooked {t : State} (ht : (eat .newline t).2.fault = none) :
      (Grammar.current t).2.fault = none := by
    rw [run_eat] at ht
    split at ht
    · rwa [State.fault_consume] at ht
    · exact ht
  -- Something is left behind the whole, so something is left behind its look.
  have hahead : (Grammar.current s).2.rest ≠ [] := by
    rw [run_eat] at hleft
    split at hleft
    · exact Alike.consume.onward.rest_ne_nil (s := (Grammar.current s).2) hleft
    · exact hleft
  obtain ⟨hrun, hseen⟩ := current more s hlines hword hahead (hlooked hfault) (hlooked hfault')
  have hsuffix := current_alike.onward.suffix s
  rw [run_eat] at hleft ⊢
  rw [run_eat, hrun]
  split
  · next hbreak =>
    rw [if_pos hbreak] at hleft
    refine ⟨?_, fun h => by cases h⟩
    rw [State.longer_consume (hlines.suffix hsuffix) hleft]
  · next hbreak =>
    refine ⟨rfl, fun _ => hseen ?_⟩
    rw [Sync.seen, if_neg hbreak]

/-- The same complaint at the same place. -/
theorem complain (p : Problem) : Blind i (fun _ => i) (Grammar.complain p) (Grammar.complain p) := by
  intro more s hlines hword hleft _ _
  have hplace : (s.longer more).place = s.place := State.longer_place hlines hleft
  refine ⟨?_, hword⟩
  unfold Grammar.complain
  rw [run_modify, run_modify, hplace]
  rfl

/-- The same word is looked up. -/
theorem atFunction {R R' : Rules} (h : R.isFunction = R'.isFunction) :
    Blind .next (fun _ => .next) (Grammar.atFunction R) (Grammar.atFunction R') := by
  intro more s hlines hword hleft hfault hfault'
  have hlooked {R : Rules} {t : State} (ht : (Grammar.atFunction R t).2.fault = none) :
      (Grammar.current t).2.fault = none := by
    rw [run_atFunction] at ht
    split at ht <;> exact ht
  -- Something is left behind the word, or else it would not be seen that it is the same.
  have hahead : (Grammar.current s).2.rest ≠ [] := by
    rw [run_atFunction] at hleft
    split at hleft <;> exact hleft
  obtain ⟨hrun, -⟩ := current more s hlines hword hahead (hlooked hfault) (hlooked hfault')
  have hlines' : WholeLines (Grammar.current s).2.rest := hlines.suffix (current_alike.onward.suffix s)
  refine ⟨?_, fun h => by cases h⟩
  rw [run_atFunction, run_atFunction, hrun, ← h]
  dsimp only
  split
  · rw [State.longer_textAhead hlines' hahead]
    rfl
  · rfl

/-- A counter is raised around the step in front of both texts. -/
theorem within (c : Counter) (h : Blind i o m m') :
    Blind i o (Grammar.within c m) (Grammar.within c m') := by
  intro more s hlines hword hleft hfault hfault'
  rw [run_within] at hleft hfault hfault' ⊢
  rw [State.longer_raise] at hfault'
  rw [run_within, State.longer_raise]
  have hraised : (s.raise c).rest = s.rest := State.rest_setCount ..
  rw [State.rest_lower] at hleft
  obtain ⟨hrun, hbehind⟩ := h more (s.raise c) (by rwa [hraised])
    (fun hi => by rw [hraised]; exact hword hi) hleft (State.fault_lower hfault)
    (State.fault_lower hfault')
  rw [hrun, State.longer_lower]
  exact ⟨rfl, fun ho => by rw [State.rest_lower]; exact hbehind ho⟩

/-- A counter is put back in front of both texts. -/
theorem restoring (c : Counter) (h : Blind i o m m') :
    Blind i o (Grammar.restoring c m) (Grammar.restoring c m') := by
  intro more s hlines hword hleft hfault hfault'
  rw [run_restoring] at hleft hfault hfault' ⊢
  rw [run_restoring]
  rw [State.rest_setCount] at hleft
  rw [State.fault_setCount] at hfault hfault'
  have hcount : (s.longer more).count c = s.count c := by cases c <;> rfl
  obtain ⟨hrun, hbehind⟩ := h more s hlines hword hleft hfault hfault'
  rw [hrun, hcount, State.longer_setCount]
  exact ⟨rfl, fun ho => by rw [State.rest_setCount]; exact hbehind ho⟩

/-- Open parentheses are put aside in front of both texts. -/
theorem withoutParens (h : Blind i o m m') :
    Blind i o (Grammar.withoutParens m) (Grammar.withoutParens m') :=
  restoring .parens fun more s hlines hword hleft hfault hfault' =>
    h more (s.setCount .parens 0) hlines hword hleft hfault hfault'

/-- A node of the same kind around steps that are blind. -/
theorem node (k : NodeKind) (hon : Onward m) (h : Blind i o m m') :
    Blind i o (Grammar.node k m) (Grammar.node k m') := by
  intro more s hlines hword hleft hfault hfault'
  rw [run_node] at hleft hfault hfault' ⊢
  have hopenedSuffix : (s.opened k).rest <:+ s.rest := State.opened_suffix k s
  -- The node leaves something, so there was something to begin with.
  have hsome : s.rest ≠ [] := by
    rintro hnil
    have hall := (hon.suffix ((s.opened k).inside #[])).trans hopenedSuffix
    rw [hnil] at hall
    exact hleft (List.suffix_nil.1 hall)
  have hopened : (s.longer more).opened k = (s.opened k).longer more :=
    State.longer_opened k hlines hsome
  rw [hopened] at hfault'
  rw [run_node, hopened]
  obtain ⟨hrun, hbehind⟩ := h more ((s.opened k).inside #[]) (hlines.suffix hopenedSuffix)
    (fun hi => by
      change kindAhead 0 (s.opened k).rest ≠ .newline
      rw [State.kindAhead_opened]
      exact hword hi) hleft hfault hfault'
  have hinside : ((s.opened k).longer more).inside #[] = ((s.opened k).inside #[]).longer more := rfl
  rw [hinside, hrun]
  exact ⟨rfl, hbehind⟩

/-- A node around the same last one. -/
theorem nodeAround (k : NodeKind) (hon : Onward m) (h : Blind i o m m') :
    Blind i o (Grammar.nodeAround k m) (Grammar.nodeAround k m') := by
  intro more s hlines hword hleft hfault hfault'
  -- Where there is no node to go around, the fault would have stayed.
  by_cases hlast : ∃ first span children, s.out.back? = some (.node first span children)
  · obtain ⟨first, span, children, hlast⟩ := hlast
    have hlast' : (s.longer more).out.back? = some (.node first span children) := hlast
    rw [run_nodeAround hlast] at hleft hfault ⊢
    rw [run_nodeAround hlast'] at hfault' ⊢
    obtain ⟨hrun, hbehind⟩ :=
      h more (s.inside #[.node first span children]) hlines hword hleft hfault hfault'
    have hinside : (s.longer more).inside #[.node first span children]
        = (s.inside #[.node first span children]).longer more := rfl
    rw [hinside, hrun]
    exact ⟨rfl, hbehind⟩
  · rw [run_nodeAround_none fun first span children hback => hlast ⟨_, _, _, hback⟩, run_node]
      at hfault
    have hopened : ((s.giveUp (.mismatch (.built true) (.built false))).opened k).fault = none :=
      hon.keeps (((s.giveUp _).opened k).inside #[]) hfault
    unfold State.opened at hopened
    split at hopened
    · exact absurd hopened (State.fault_giveUp_ne_none _ s)
    · rw [State.shiftTrivia_eq State.fault_shift] at hopened
      exact absurd hopened (State.fault_giveUp_ne_none _ s)

/-- A turn of a loop that is given up in neither reading. -/
theorem turn {σ : Type} {step : σ → Step (Option σ)} (hon : ∀ x, Onward (step x)) {n : Nat} {x : σ}
    {s : State} (hfault : (iterate step n x s).2.fault = none) :
    ∃ k, n = k + 1 ∧ (step x s).2.fault = none
      ∧ ((iterate step n x s).2.rest ≠ [] → (step x s).2.rest ≠ []) := by
  cases n with
  -- A loop without turns gives up.
  | zero => exact absurd hfault (State.fault_giveUp_ne_none _ s)
  | succ k =>
    refine ⟨k, rfl, ?_⟩
    rw [run_iterate_succ] at hfault ⊢
    cases hanswer : (step x s).1 with
    | none =>
      rw [hanswer] at hfault
      exact ⟨hfault, fun h => h⟩
    | some y =>
      rw [hanswer] at hfault
      have hloop := Onward.iterate hon k y
      exact ⟨hloop.keeps _ hfault, hloop.rest_ne_nil⟩

/-- A loop, by what its turns do. -/
theorem loop {σ : Type} {i : Sync} {o : Unit → Sync} {step step' : σ → Step (Option σ)}
    (hon : ∀ x, Onward (step x)) (hon' : ∀ x, Onward (step' x))
    (h : ∀ x, Blind i (fun r => if r.isSome then i else o ()) (step x) (step' x)) (n n' : Nat)
    (x : σ) : Blind i o (iterate step n x) (iterate step' n' x) := by
  intro more s hlines hword hleft hfault hfault'
  -- Induction on the fuel in front of the shorter text. The other loop has as many turns to
  -- take.
  induction n generalizing n' x s with
  | zero => exact absurd hfault (State.fault_giveUp_ne_none _ s)
  | succ n ih =>
    obtain ⟨-, -, hfirst, hsome⟩ := turn hon hfault
    obtain ⟨n', rfl, hfirst', -⟩ := turn hon' hfault'
    obtain ⟨hrun, hbehind⟩ := h x more s hlines hword (hsome hleft) hfirst hfirst'
    rw [run_iterate_succ] at hleft hfault hfault' ⊢
    rw [run_iterate_succ, hrun]
    rw [hrun] at hfault'
    cases hanswer : (step x s).1 with
    | none =>
      rw [hanswer] at hbehind
      exact ⟨rfl, hbehind⟩
    | some y =>
      rw [hanswer] at hleft hfault hfault' hbehind
      exact ih n' y _ (hlines.suffix ((hon x).suffix s)) hbehind hleft hfault hfault'

/-- A loop that passes over line breaks sees the same ones in both readings. -/
theorem passing {σ : Type} {e : Sync} {step step' : σ → Step (Option σ)}
    (hp : ∀ x, Passes (some x) (step x)) (hp' : ∀ x, Passes (some x) (step' x))
    (hon : ∀ x, Onward (step x)) (hon' : ∀ x, Onward (step' x))
    (h : ∀ x, Blind .word (fun r => if r.isSome then .breaks else e) (step x) (step' x))
    (n n' : Nat) (x : σ) :
    Blind .breaks (fun _ => e) (iterate step n x) (iterate step' n' x) := by
  refine loop hon hon' (fun x more s hlines _ hleft hfault hfault' => ?_) n n' x
  by_cases hbreak : kindAhead 0 s.rest = .newline
  · have hsome : s.rest ≠ [] := (hon x).rest_ne_nil hleft
    have hbreak' : kindAhead 0 (s.longer more).rest = .newline := by
      rw [State.rest_longer, kindAhead_append (hlines.visible_pos hsome), hbreak]
    rw [hp x s hbreak hfault] at hleft ⊢
    rw [hp' x (s.longer more) hbreak' hfault', State.longer_consume hlines hleft]
    exact ⟨rfl, fun h => by cases h⟩
  · exact h x more s hlines (fun _ => hbreak) hleft hfault hfault'

/-- The same counter is raised. -/
theorem raise (c : Counter) :
    Blind i (fun _ => i) (modify (State.raise c)) (modify (State.raise c)) := by
  intro more s _ hword _ _ _
  rw [run_modify, run_modify, State.longer_raise]
  refine ⟨rfl, fun hi => ?_⟩
  change kindAhead 0 (s.setCount c (s.count c + 1)).rest ≠ .newline
  rw [State.rest_setCount]
  exact hword hi

/-- Two steps in turn, each time one level deeper. -/
theorem climb {check check' : Step (Option β)} {act act' : β → Step Bool} {j : Sync}
    (hon : Onward check) (hon' : Onward check') (hact : ∀ b, Onward (act b))
    (hact' : ∀ b, Onward (act' b))
    (h : Blind .next (fun r => if r.isSome then j else .next) check check')
    (hacts : ∀ b, Blind j (fun _ => .next) (act b) (act' b)) (n n' : Nat) :
    Blind .next (fun _ => .next) (Grammar.climb check act n) (Grammar.climb check' act' n') := by
  -- Whether a climb goes on is decided by its act alone.
  have hagain (again : Bool) : Onward (do
      if again then return some () else return none : Step (Option Unit)) := by
    cases again <;> exact .pure _
  refine restoring .nesting (loop (fun _ => .climbTurn hon hact) (fun _ => .climbTurn hon' hact')
    (fun _ => ?_) n n' ())
  refine bind hon (fun r => ?_) (fun r => ?_) h fun r => ?_
  · cases r with
    | none => exact .pure none
    | some b => exact (Onward.raise _).bind fun _ => (hact b).bind hagain
  · cases r with
    | none => exact .pure none
    | some b => exact (Onward.raise _).bind fun _ => (hact' b).bind hagain
  · cases r with
    | none => exact pure none (Sync.le_refl _)
    | some b =>
      refine bind (.raise _) (fun _ => (hact b).bind hagain) (fun _ => (hact' b).bind hagain)
        (raise .nesting) fun _ => ?_
      refine bind (hact b) hagain hagain (hacts b) fun again => ?_
      cases again <;> exact pure _ (Sync.le_refl _)

/-- Too deep down, a block is set aside as it is in front of a shorter text. -/
theorem deepBlock (R R' : Rules)
    (hskip : ∀ opened, Blind .word (fun _ => .next) (skipWord opened) (skipWord opened)) :
    Blind .fresh (fun _ => .next) (Grammar.deepBlock R) (Grammar.deepBlock R') := by
  have hon (opened : Nat) : Onward (skipWord opened) := (skipWord_alike opened).onward
  have hloop (R : Rules) : Onward (R.loopFrom 0 skipWord) := .iterate hon R.turns 0
  have hcomplain : Onward (Grammar.complain .deepBlock) :=
    (Alike.complain (i := .next) .deepBlock).onward
  refine node .error (hcomplain.bind fun _ => hloop R) ?_
  refine bind hcomplain (fun _ => hloop R) (fun _ => hloop R') (complain _) fun _ => ?_
  refine weaken (Sync.le_breaks _) (fun _ => Sync.le_refl _)
    (passing skipWord_passes skipWord_passes hon hon (fun opened => ?_) _ _ _)
  refine (hskip opened).weaken (Sync.le_refl _) fun r => ?_
  cases r with
  | none => exact Sync.le_refl _
  | some _ => exact Sync.le_breaks _

end Blind

/-- **A step that leaves something does not see what is further on.** -/
theorem Alike.blind {i : Sync} {o : α → Sync} {m m' : Step α} (h : Alike i o m m') :
    Blind i o m m' := by
  -- One case for each way in which two steps can be put together alike.
  induction h with
  | pure a h => exact .pure a h
  | bind hm hf ihm ihf =>
    exact .bind hm.onward (fun a => (hf a).onward) (fun a => (hf a).right.onward) ihm ihf
  | weaken hi ho _ ih => exact .weaken hi ho ih
  | current => exact .current
  | look n h => exact .look_word n h
  | consume | consumeBreak => exact .consume (by decide)
  | eatBreak => exact .eatBreak
  | complain p => exact .complain p
  | giveUp f => exact fun _ s _ _ _ hfault _ => absurd hfault (State.fault_giveUp_ne_none f s)
  | lostLeft hlost _ _ _ _ =>
    intro _ s _ _ _ hfault _
    simpa [hfault] using hlost s
  | lostRight hlost _ _ _ _ =>
    intro more s _ _ _ _ hfault'
    simpa [hfault'] using hlost (s.longer more)
  | isTooDeep | isOutside => exact fun _ _ _ hword _ _ _ => ⟨rfl, hword⟩
  | atFunction h => exact .atFunction h
  | within c _ ih => exact .within c ih
  | withoutParens _ ih => exact .withoutParens ih
  | climb n n' hcheck hact ihcheck ihact =>
    exact .climb hcheck.onward hcheck.right.onward (fun b => (hact b).onward)
      (fun b => (hact b).right.onward) ihcheck ihact n n'
  | node k _ _ _ h ih => exact .node k h.onward ih
  | nodeAround k _ _ h ih => exact .nodeAround k h.onward ih
  | passing n n' x hp hp' h ih =>
    exact .passing hp hp' (fun x => (h x).onward) (fun x => (h x).right.onward) ih n n' x
  | block R R' hskip h ihskip ih =>
    have hdeep (R : Rules) : Onward (deepBlock R) := (deepBlock_alike_word R R).onward
    have hbody {R : Rules} {m : Step Unit} (hm : Onward m) (deep : Bool) :
        Onward (if deep then deepBlock R else m) := by
      cases deep with
      | true => exact hdeep R
      | false => exact hm
    have hasked : Onward Grammar.isTooDeep := (Alike.isTooDeep (i := .next)).onward
    refine .node _ (hasked.bind (hbody h.onward)) ?_
    refine .bind (j := fun _ => .fresh) hasked (hbody h.onward) (hbody h.right.onward)
      (fun _ _ _ hword _ _ _ => ⟨rfl, hword⟩) fun deep => ?_
    cases deep with
    | true => exact .deepBlock R R' ihskip
    | false => exact ih.weaken (Sync.le_breaks _) fun _ => Sync.le_refl _

end ScriptSense.Grammar
