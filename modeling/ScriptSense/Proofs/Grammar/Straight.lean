/-
Expressions do not leave their line.

Where no parentheses are open, a line break ends what stands in the line: no rule of
expressions consumes one. Only between parentheses line breaks go along, so what an
expression consumes either holds an opening parenthesis or no line break (`Straight`).
That is so of malformed expressions as well; whatever sets tokens aside looks for the end
of the line first.

A rule is judged by what it adds to any tokens built before (`KeepsLine`). Where a rule begins
with a parenthesis nothing more has to be known of it than that (`Opens`). At the end, the
rule for the end of a line is gone through, which consumes what is left and the line break.
-/
import ScriptSense.Proofs.Grammar.Leads
import ScriptSense.Proofs.Grammar.TandemRules

set_option autoImplicit false

namespace ScriptSense.Grammar

open ScriptSense.Tree (leavesOfAll)

variable {α β σ : Type}

/-! ## Tokens of one line -/

/-- There is no line break among the tokens up to the first parenthesis that is opened. -/
def Straight : List Token → Prop
  | [] => True
  | t :: ts => t.kind = .lParen ∨ t.kind ≠ .newline ∧ Straight ts

namespace Straight

variable {ts us : List Token}

/-- Two straight runs behind each other are straight. -/
theorem append (hts : Straight ts) (hus : Straight us) : Straight (ts ++ us) := by
  induction ts with
  | nil => exact hus
  | cons t ts ih => exact hts.imp_right fun h => ⟨h.1, ih h.2⟩

/-- Tokens without a line break are straight. -/
theorem of_ne_newline (h : ∀ t ∈ ts, t.kind ≠ .newline) : Straight ts := by
  induction ts with
  | nil => trivial
  | cons t ts ih =>
    exact .inr ⟨h t List.mem_cons_self, ih fun u hu => h u (List.mem_cons_of_mem _ hu)⟩

/-- Behind a parenthesis that is opened, anything may come. -/
theorem opened {t : Token} (hts : Straight ts) (ht : t.kind = .lParen) (us : List Token) :
    Straight (ts ++ t :: us) :=
  hts.append (.inl ht)

/-- Where no parenthesis is opened, there is no line break at all. -/
theorem ne_newline (h : Straight ts) (hopen : ∀ t ∈ ts, t.kind ≠ .lParen) :
    ∀ t ∈ ts, t.kind ≠ .newline := by
  induction ts with
  | nil => simp
  | cons t ts ih =>
    obtain ⟨hne, hts⟩ := h.resolve_left (hopen t List.mem_cons_self)
    refine fun u hu => (List.mem_cons.1 hu).elim (fun heq => heq ▸ hne) ?_
    exact ih hts (fun u hu => hopen u (List.mem_cons_of_mem _ hu)) u

/-- Trivia is straight. -/
theorem trivia (h : ∀ t ∈ ts, t.kind.isTrivia = true) : Straight ts :=
  of_ne_newline fun t ht hbreak => by
    simpa [hbreak, TokenKind.isTrivia, TokenKind.family] using h t ht

/-- Where line breaks count, a token is consumed with what stands in front of it. -/
theorem of_bite {kind : TokenKind} (hkind : kind ≠ .newline) (h : Bite true kind ts) :
    Straight ts := by
  obtain ⟨before, t, layout, rfl, hbefore, rfl, -, hlayout⟩ := h
  rw [hlayout rfl]
  exact (trivia hbefore).append (.inr ⟨hkind, trivial⟩)

end Straight

/-! ## Steps within a line -/

/-- The tokens of a row of tokens. -/
theorem leavesOfAll_tokens (ts : List Token) : leavesOfAll (ts.map .leaf) = ts := by
  induction ts with
  | nil => simp
  | cons t ts ih => simp [ih]

/-- Behind the tokens `base`, others of one line were built. -/
def Onto (base : List Token) (ts : List Tree) : Prop :=
  ∃ new, leavesOfAll ts = base ++ new ∧ Straight new

/-- What is built further in the same line stays on it. -/
theorem Onto.add {base : List Token} {ts us : List Tree} (h : Onto base ts)
    (hus : Straight (leavesOfAll us)) : Onto base (ts ++ us) := by
  obtain ⟨new, hts, hnew⟩ := h
  exact ⟨new ++ leavesOfAll us, by simp [hts], hnew.append hus⟩

/-- **Where the next token is of some kinds, the step stays within the line.** -/
def KeepsLine (ahead : TokenKind → Prop) (m : Step α) : Prop :=
  ∀ base, Leads true (fun ts k => Onto base ts ∧ ahead k) m fun _ ts _ => Onto base ts

namespace KeepsLine

variable {ahead ahead' : TokenKind → Prop} {m : Step α} {f : α → Step β}

/-- More may be known of the next token. -/
theorem mono (h : KeepsLine ahead m) (himp : ∀ k, ahead' k → ahead k) : KeepsLine ahead' m :=
  fun base => (h base).given fun _ k hk => ⟨hk.1, himp k hk.2⟩

/-- What stays wherever it begins. -/
theorem anywhere (h : KeepsLine (fun _ => True) m) : KeepsLine ahead m := h.mono fun _ _ => trivial

/-- An answer stays where it is. -/
theorem pure (a : α) : KeepsLine ahead (Pure.pure a : Step α) := fun _ => .pure a fun _ _ h => h.1

/-- Two steps within a line, after each other. Of the token in front of the second nothing is
known. -/
theorem bind (hm : KeepsLine ahead m) (hf : ∀ a, KeepsLine (fun _ => True) (f a)) :
    KeepsLine ahead (m >>= f) :=
  fun base => (hm base).bind fun a => (hf a base).given fun _ _ h => ⟨h, trivial⟩

/-- The answer may be changed. -/
theorem map {g : α → β} (hm : KeepsLine ahead m) : KeepsLine ahead (g <$> m) :=
  fun base => .map (hm base)

/-- The answer may be dropped. -/
theorem discard (hm : KeepsLine ahead m) : KeepsLine ahead (Functor.discard m) :=
  fun base => .discard (hm base)

/-- A choice, of which the condition is known on both ways. -/
theorem ite {c : Prop} [Decidable c] {m' : Step α} (h : c → KeepsLine ahead m)
    (h' : ¬ c → KeepsLine ahead m') : KeepsLine ahead (if c then m else m') :=
  fun base => .ite (fun hc => h hc base) fun hc => h' hc base

/-- A step that changes nothing that is judged. -/
theorem after (hm : ∀ p, Leads true p m fun _ => p) (hf : ∀ a, KeepsLine ahead (f a)) :
    KeepsLine ahead (m >>= f) :=
  fun base => (hm _).bind fun a => hf a base

/-- What is seen of the next token is known in what follows. -/
theorem current {f : TokenKind → Step β}
    (h : ∀ kind, KeepsLine (fun k => ahead k ∧ k = kind) (f kind)) :
    KeepsLine ahead (Grammar.current >>= f) :=
  fun base => Leads.current.bind fun kind =>
    (h kind base).given fun _ _ hk => ⟨hk.1.1, hk.1.2, hk.2.symm⟩

/-- Behind a test of the next token it is known what it was. -/
theorem isAt {kind : TokenKind} {f : Bool → Step β}
    (h : ∀ there, KeepsLine (fun k => ahead k ∧ there = (k == kind)) (f there)) :
    KeepsLine ahead (Grammar.isAt kind >>= f) :=
  fun base => (Leads.isAt kind).bind fun there =>
    (h there base).given fun _ _ hk => ⟨hk.1.1, hk.1.2, hk.2⟩

/-- Behind a test for the end of the line it is known whether it was there. -/
theorem atLineEnd {f : Bool → Step β}
    (h : ∀ ends, KeepsLine (fun k => ahead k ∧ ends = (k == .newline || k == .eof)) (f ends)) :
    KeepsLine ahead (Grammar.atLineEnd >>= f) :=
  fun base => Leads.atLineEnd.bind fun ends =>
    (h ends base).given fun _ _ hk => ⟨hk.1.1, hk.1.2, hk.2⟩

/-! ### Tokens -/

/-- A token consumed that is no line break. -/
theorem of_bite {ts : List Tree} {base : List Token} {moved : List Token} {kind : TokenKind}
    (h : Onto base ts) (hkind : kind ≠ .newline) (hbite : Bite true kind moved) :
    Onto base (ts ++ moved.map .leaf) :=
  h.add (by rw [leavesOfAll_tokens]; exact .of_bite hkind hbite)

/-- A token within the line is consumed. -/
theorem consume (h : ∀ k, ahead k → WithinLine k) : KeepsLine ahead (modify State.consume) := by
  refine fun base => (Leads.consume fun ts k hk => (h k hk.2).2).giving ?_
  rintro _ _ _ ⟨before, k, moved, hk, rfl, hbite⟩
  exact of_bite hk.1 (h k hk.2).1 hbite

/-- Any token but a line break may be taken. -/
theorem bumpAny (h : ∀ k, ahead k → k ≠ .newline) : KeepsLine ahead Grammar.bumpAny := by
  refine current fun kind => .ite (fun _ => .pure _) fun hend => .consume fun k hk => ⟨h k hk.1, ?_⟩
  rintro rfl
  exact hend (by rw [← hk.2]; rfl)

/-- A certain token that is no line break is taken. -/
theorem bump {kind : TokenKind} (hend : kind ≠ .eof) (hbreak : kind ≠ .newline) :
    KeepsLine ahead (Grammar.bump kind) := by
  refine fun base => (Leads.bump hend).giving ?_
  rintro _ _ _ ⟨before, moved, hk, rfl, hbite⟩
  exact of_bite hk.1 hbreak hbite

/-- A certain token that is no line break is eaten. -/
theorem eat {kind : TokenKind} (hend : kind ≠ .eof) (hbreak : kind ≠ .newline) :
    KeepsLine ahead (Grammar.eat kind) := by
  refine fun base => (Leads.eat hend).giving ?_
  rintro _ _ _ (⟨-, before, moved, hk, rfl, hbite⟩ | ⟨-, hk, -⟩)
  · exact of_bite hk.1 hbreak hbite
  · exact hk.1

/-- A certain token that is no line break is expected. -/
theorem expect {kind : TokenKind} (hend : kind ≠ .eof) (hbreak : kind ≠ .newline)
    (wanted : Wanted) : KeepsLine ahead (Grammar.expect kind wanted) := by
  refine fun base => (Leads.expect hend wanted).giving ?_
  rintro _ _ _ (⟨-, before, moved, hk, rfl, hbite⟩ | ⟨-, hk, -⟩)
  · exact of_bite hk.1 hbreak hbite
  · exact hk.1

/-- A complaint builds nothing. -/
theorem complain (p : Problem) : KeepsLine ahead (Grammar.complain p) :=
  fun _ => (Leads.complain p).giving fun _ _ _ h => h.1

/-! ### Nodes, counters and loops -/

/-- A node around a step within the line stays within it. -/
theorem node {kind : NodeKind} (h : KeepsLine ahead m) : KeepsLine ahead (Grammar.node kind m) := by
  intro base
  have hinside : Leads true (fun ts k => ts = [] ∧ ahead k) m fun _ ts _ => Onto [] ts :=
    (h []).given fun ts _ hk => ⟨⟨[], by rw [hk.1]; rfl, trivial⟩, hk.2⟩
  refine (hinside.node (p := Onto base)).giving ?_
  rintro _ _ _ ⟨before, trivia, span, children, hbefore, htrivia, rfl, new, hnew, hstraight⟩
  refine (hbefore.add ?_).add ?_
  · rw [leavesOfAll_tokens]
    exact .trivia htrivia
  · rw [List.nil_append] at hnew
    simpa [hnew] using hstraight

/-- So does a node around the one before. -/
theorem nodeAround {kind : NodeKind} (h : KeepsLine ahead m) :
    KeepsLine ahead (Grammar.nodeAround kind m) := by
  intro base
  -- Inside, what is added is added to the element that is taken over.
  let q (before : List Tree) (x : Tree) : α → Outlook := fun _ children _ =>
    Onto base (before ++ [x]) ∧ Onto x.leaves children
  refine (Leads.nodeAround (q := q) (h base).later fun before x => ⟨(h base).later, ?_⟩).giving ?_
  · rintro s hcalm ⟨hx, hbefore, hahead⟩ hfault
    refine ⟨hbefore, (h x.leaves).run hcalm ⟨⟨[], by simp [hx], trivial⟩, hahead⟩ hfault⟩
  · rintro _ _ _ ⟨before, x, span, children, -, rfl, ⟨new, hnew, hstraight⟩,
      new', hnew', hstraight'⟩
    refine ⟨new ++ new', ?_, hstraight.append hstraight'⟩
    rw [Tree.leavesOfAll_append] at hnew ⊢
    simp only [Tree.leavesOfAll_cons, Tree.leaves_node, Tree.leavesOfAll_nil,
      List.append_nil] at hnew ⊢
    rw [hnew', ← List.append_assoc, hnew, List.append_assoc]

/-- A counter that is raised, other than the one of the parentheses. -/
theorem within {c : Counter} (hc : c ≠ .parens) (h : KeepsLine ahead m) :
    KeepsLine ahead (Grammar.within c m) :=
  fun base => (h base).within c hc

/-- A loop stays within the line when its turns do. -/
theorem iterate {step : σ → Step (Option σ)} (h : ∀ x, KeepsLine (fun _ => True) (step x)) (n : Nat)
    (x : σ) : KeepsLine ahead (Grammar.iterate step n x) := by
  refine fun base => Leads.given (p := fun ts _ => Onto base ts) ?_ fun _ _ hk => hk.1
  refine .iterate (fun x => ?_) n x
  refine (h x base).mono (fun _ _ hk => ⟨hk, trivial⟩) fun found _ _ hk => ?_
  cases found <;> exact hk

/-- What the check has seen of the next token is known where the act begins. -/
theorem climb {check : Step (Option β)} {act : β → Step Bool} (side : β → TokenKind → Prop)
    (hcheck : ∀ base, Leads true (fun ts _ => Onto base ts) check fun found ts k =>
      Onto base ts ∧ ∀ b, found = some b → side b k)
    (hact : ∀ b, KeepsLine (side b) (act b)) (n : Nat) :
    KeepsLine ahead (Grammar.climb check act n) := by
  intro base
  refine (Leads.climb (p := fun ts _ => Onto base ts) (q := fun ts _ => Onto base ts)
    ((hcheck base).giving fun found _ _ hk => ?_)
    (fun b => (hact b base).giving fun again _ _ hk => ?_) n).given fun _ _ hk => hk.1
  · cases found with
    | none => exact hk.1
    | some b => exact ⟨hk.1, hk.2 b rfl⟩
  · cases again <;> exact hk

end KeepsLine

/-! ## Steps that open a parenthesis -/

/-- Behind the tokens `base`, a parenthesis was opened in the same line. -/
def Opened (base : List Token) (ts : List Tree) : Prop :=
  ∃ line t more, leavesOfAll ts = base ++ (line ++ t :: more) ∧ Straight line ∧ t.kind = .lParen

/-- The step opens a parenthesis, wherever it begins. -/
def Opens (calm : Bool) (m : Step α) : Prop :=
  ∀ base, Leads calm (fun ts _ => Onto base ts) m fun _ ts _ => Opened base ts

namespace Opens

variable {calm : Bool} {m : Step α} {f : α → Step β} {ahead : TokenKind → Prop}

/-- A step that opens a parenthesis first is within the line up to there. -/
theorem keepsLine (h : Opens true m) : KeepsLine ahead m :=
  fun base => (h base).mono (fun _ _ hk => hk.1) fun _ _ _ ⟨_, _, more, hts, hline, hopen⟩ =>
    ⟨_, hts, hline.opened hopen more⟩

/-- The parenthesis is opened. -/
theorem bump : Opens calm (Grammar.bump .lParen) := by
  refine fun base => (Leads.bump (by decide)).giving ?_
  rintro _ _ _ ⟨before, moved, ⟨new, hnew, hstraight⟩, rfl, trivia, t, layout, rfl, htrivia, ht, -⟩
  refine ⟨new ++ trivia, t, layout, ?_, hstraight.append (.trivia htrivia), ht⟩
  rw [Tree.leavesOfAll_append, leavesOfAll_tokens, hnew, List.append_assoc, List.append_assoc]

/-- What comes behind does not matter. -/
theorem bind (g : String → Bool) (hm : Opens calm m) [∀ a, Made g (f a)]
    [∀ a, Coupled Eq calm (f a) (f a)] : Opens calm (m >>= f) := by
  refine fun base => (hm base).bind fun a => .grown g (p := fun ts => ∃ line t more,
    ts = base ++ (line ++ t :: more) ∧ Straight line ∧ t.kind = .lParen) ?_
  rintro _ moved ⟨line, t, more, rfl, hline, hopen⟩
  exact ⟨line, t, more ++ moved, by simp, hline, hopen⟩

/-- A node that begins with the parenthesis. -/
theorem node {kind : NodeKind} (h : Opens calm m) : Opens calm (Grammar.node kind m) := by
  intro base
  have hinside : Leads calm (fun ts k => ts = [] ∧ True) m fun _ ts _ => Opened [] ts :=
    (h []).given fun ts _ hk => ⟨[], by rw [hk.1]; rfl, trivial⟩
  refine (hinside.node (p := Onto base)).mono (fun _ _ hk => ⟨hk, trivial⟩) ?_
  rintro _ _ _ ⟨before, trivia, span, children, ⟨new, hnew, hstraight⟩, htrivia, rfl, line, t, more,
    hnew', hline, hopen⟩
  rw [List.nil_append] at hnew'
  refine ⟨new ++ trivia ++ line, t, more, ?_, ?_, hopen⟩
  · simp [hnew, hnew', leavesOfAll_tokens]
  · exact (hstraight.append (.trivia htrivia)).append hline

/-- Between parentheses everything goes, once they are open. -/
theorem withinParens (h : Opens false m) : Opens calm (Grammar.within .parens m) :=
  fun base => (h base).withinParens

/-- With the open parentheses put aside. -/
theorem withoutParens (h : Opens true m) : Opens calm (Grammar.withoutParens m) :=
  fun base => (h base).withoutParens

end Opens

/-! ## Setting aside -/

section Rules

variable {ahead : TokenKind → Prop}

/-- Where the line does not end there is no line break. -/
theorem not_newline {ends : Bool} {k : TokenKind} (hends : ¬ ends = true)
    (h : ends = (k == .newline || k == .eof)) : k ≠ .newline := by
  rintro rfl
  exact hends h

/-- The tokens of a line are passed over up to its end. -/
theorem passInLine_keepsLine : KeepsLine ahead passInLine := by
  refine .atLineEnd fun ends => .ite (fun _ => .pure _) fun hends => ?_
  exact .bind (.bumpAny fun k hk => not_newline hends hk.2) fun _ => .pure _

/-- A token of an expression that is too deep lies on the line or in a parenthesis. -/
theorem skipToken_keepsLine (opened : Nat) : KeepsLine ahead (skipToken opened) := by
  refine .atLineEnd fun ends => .ite (fun _ => .pure _) fun hends => .current fun kind => ?_
  have hon (n : Nat) : KeepsLine
      (fun k => (ahead k ∧ ends = (k == .newline || k == .eof)) ∧ k = kind)
      (do bumpAny; return some n) :=
    .bind (.bumpAny fun k hk => not_newline hends hk.1.2) fun _ => .pure _
  cases kind
  case rParen | rBracket | rBrace => exact .ite (fun _ => .pure _) fun _ => hon _
  all_goals exact hon _

/-- An expression that is too deep is set aside within its line. -/
theorem deepExpression_keepsLine (R : Rules) : KeepsLine ahead (deepExpression R) := by
  refine .node (.after (fun _ => .complain _) fun _ => ?_)
  exact fun base =>
    (KeepsLine.iterate (fun opened => skipToken_keepsLine opened) R.turns 0 base).withoutParens

/-- A missing operand sets aside one token, which is no line break. -/
theorem noOperand_keepsLine : KeepsLine ahead noOperand := by
  have hstop {ahead : TokenKind → Prop} :
      KeepsLine ahead (do complain (.missing .expression); return false) :=
    .bind (.complain _) fun _ => .pure _
  refine .atLineEnd fun ends => ?_
  dsimp only
  cases hends : ends with
  | true => exact hstop
  | false =>
    refine .after (fun _ => .map (Leads.current.giving fun _ _ _ hk => hk.1)) fun stops => ?_
    refine .ite (fun _ => hstop) fun _ => .bind (.node ?_) fun _ => .pure _
    refine .after (fun _ => .complain _) fun _ => .bumpAny fun k hk => ?_
    exact not_newline (by decide : ¬ false = true) hk.2

/-- A declared name is a word of the line. -/
theorem declaredName_keepsLine (wanted : Wanted) : KeepsLine ahead (declaredName wanted) := by
  refine .isAt fun there =>
    .ite (fun hthere => .node (.consume fun k hk => ?_)) fun _ => .complain _
  rw [hthere] at hk
  rw [eq_of_beq hk.2.symm]
  decide

end Rules

/-! ## Expressions -/

/-- The expressions of a level keep to their line. -/
structure Rules.KeepsLine (R : Rules) : Prop where
  expression (floor : Nat) : Grammar.KeepsLine (fun _ => True) (R.expression floor)
  operand (calls : Bool) : Grammar.KeepsLine (fun _ => True) (R.operand calls)

section Expressions

-- The longest rules have more parts than an instance may have otherwise.
set_option synthInstance.maxSize 1000

variable {R : Rules} {ahead : TokenKind → Prop} [R.Made] [R.Coupled Eq R]

/-- Arguments between parentheses begin with one. -/
theorem parenArguments_opens : Opens true (parenArguments R) := by
  refine .bind R.isFunction (.withinParens ?_)
  exact .bind R.isFunction .bump

/-- A lambda begins with a parenthesis. -/
theorem lambda_opens : Opens true (lambda R) := by
  refine .node (.bind R.isFunction (.withoutParens ?_))
  dsimp only
  exact .bind R.isFunction .bump

/-- An expression between parentheses begins with one. -/
theorem parenthesized_opens : Opens true (parenthesized R) := by
  refine .node (.bind R.isFunction (.withinParens ?_))
  exact .bind R.isFunction .bump

omit [R.Made] [R.Coupled Eq R] in
/-- Arguments without parentheses end with the line. -/
theorem bareArguments_keepsLine (hR : R.KeepsLine) : KeepsLine ahead (bareArguments R) := by
  refine .iterate (fun afterComma => ?_) _ _
  refine .bind ?_ fun follows => .ite (fun _ => ?_) fun _ => .pure _
  · refine .current fun kind => .ite (fun _ => .pure _) fun _ => ?_
    exact .ite (fun _ => .current fun _ => .pure _) fun _ => .pure _
  · refine .bind (hR.operand false).anywhere.discard fun _ => ?_
    exact .bind (.eat (by decide) (by decide)) fun _ => .pure _

/-- A name, and a call up to its first parenthesis. -/
theorem nameOrCall_keepsLine (hR : R.KeepsLine) (calls : Bool) :
    KeepsLine ahead (nameOrCall R calls) := by
  -- Arguments with parentheses are straight up to the first one, those without end with the
  -- line.
  have hcall (called : Bool) : KeepsLine (fun _ => True)
      (if called then nodeAround .funcExpr do
          node .argList do
            if ← opensArguments then parenArguments R
            else bareArguments R
        else return) := by
    refine .ite (fun _ => .nodeAround (.node (.bind ?_ fun opens => ?_))) fun _ => .pure _
    · refine .isAt fun there => .ite (fun _ => ?_) fun _ => .pure _
      exact .after (fun _ => .look 1) fun _ => .pure _
    · exact .ite (fun _ => parenArguments_opens.keepsLine) fun _ => bareArguments_keepsLine hR
  refine .after (fun _ => .atFunction R) fun known => ?_
  refine .bind (.node (.bump (by decide) (by decide))) fun _ => .ite (fun _ => ?_) fun _ => .pure _
  dsimp only
  refine .ite (fun _ => .bind (.pure true) hcall) fun _ => .bind (.map ?_) hcall
  exact fun base => Leads.current.giving fun _ _ _ hk => hk.1.1

/-- The innermost operand, by the token it begins with. -/
theorem primary_keepsLine (hR : R.KeepsLine) (calls : Bool) :
    KeepsLine ahead (primary R calls) := by
  refine .current fun kind => ?_
  -- A literal, a name, a parenthesis, or nothing to begin with.
  cases kind
  case number | hexNumber | string =>
    refine .bind (.node (.bumpAny fun k hk => ?_)) fun _ => .pure _
    rw [hk.2]
    decide
  case ident => exact .bind (nameOrCall_keepsLine hR calls) fun _ => .pure _
  case lParen =>
    refine .after (fun _ => .look 1) fun _ => .ite (fun _ => ?_) fun _ => ?_
    · exact .bind lambda_opens.keepsLine fun _ => .pure _
    · exact .bind parenthesized_opens.keepsLine fun _ => .pure _
  all_goals exact noOperand_keepsLine

/-- Accesses go on only behind a dot, an arrow or a bracket of the same line. -/
theorem accesses_keepsLine (hR : R.KeepsLine) (calls : Bool) :
    KeepsLine ahead (accesses R calls) := by
  -- A chain that is too deep is set aside within the line too.
  have hroom {ahead : TokenKind → Prop} (deep : Bool) : KeepsLine ahead
      (if deep then do deepExpression R; return none else return some ()) :=
    .ite (fun _ => .bind (deepExpression_keepsLine R) fun _ => .pure _) fun _ => .pure _
  have hcheck : KeepsLine (fun _ => True) (roomForAccess R) := by
    refine .current fun kind => ?_
    dsimp only
    exact .ite (fun _ => .after (fun _ => .isTooDeep) hroom) fun _ =>
      .after (fun _ => .pure _ fun _ _ h => h) hroom
  refine .climb (fun _ _ => True) (fun base => ?_) (fun _ => ?_) _
  · exact (hcheck base).mono (fun _ _ hk => ⟨hk, trivial⟩) fun _ _ _ hk => ⟨hk, fun _ _ => trivial⟩
  · refine .current fun kind => ?_
    have hmember {word : TokenKind} (hword : word ≠ .newline) :
        KeepsLine (fun k => True ∧ k = word) (do
        nodeAround .memberExpr do
          bumpAny
          if ← isAt .ident then nameOrCall R calls
          else complain (.missing .memberName)
        return true) := by
      refine .bind (.nodeAround (.bind (.bumpAny fun k hk => hk.2 ▸ hword) fun _ => ?_)) fun _ =>
        .pure _
      exact .isAt fun there => .ite (fun _ => nameOrCall_keepsLine hR calls) fun _ => .complain _
    cases kind
    case dot | arrow => exact hmember (by decide)
    case lBracket =>
      refine .bind (.nodeAround (.bind (.bump (by decide) (by decide)) fun _ => ?_)) fun _ =>
        .pure _
      exact .bind (hR.expression 0) fun _ => .discard (.expect (by decide) (by decide) _)
    all_goals exact .pure _

/-- An operand without signs, with its accesses. -/
theorem shallowOperand_keepsLine (hR : R.KeepsLine) (calls : Bool) :
    KeepsLine ahead (shallowOperand R calls) := by
  refine .current fun kind => ?_
  split
  · next power hpower =>
    refine .bind (.node (.bind (.bumpAny fun k hk => ?_) fun _ => ?_)) fun _ => .pure _
    · rintro rfl
      rw [← hk.2] at hpower
      cases hpower
    · exact .ite (fun _ => hR.expression power) fun _ => (hR.operand false).discard
  · refine .bind (primary_keepsLine hR calls) fun there => .ite (fun _ => ?_) fun _ => .pure _
    exact .bind (accesses_keepsLine hR calls) fun _ => .pure _

/-- An operand with its signs. -/
theorem operand_keepsLine (hR : R.KeepsLine) (calls : Bool) :
    KeepsLine ahead (operand R calls) := by
  refine .after (fun _ => .isTooDeep) fun deep => .ite (fun _ => ?_) fun _ => ?_
  · exact .bind (deepExpression_keepsLine R) fun _ => .pure _
  · exact .within (by decide) (shallowOperand_keepsLine hR calls)

omit [R.Made] [R.Coupled Eq R] in
/-- Where an operator is found the next token is the operator, and no line break. -/
theorem roomForOperator_keepsLine (floor : Nat) (base : List Token) :
    Leads true (fun ts _ => Onto base ts) (roomForOperator R floor) fun found ts k =>
      Onto base ts ∧ ∀ power, found = some power → k ≠ .newline := by
  have hnone (k : TokenKind) (power : Nat) (h : none = some power) : k ≠ .newline :=
    (Option.some_ne_none _ h.symm).elim
  unfold roomForOperator
  refine Leads.current.bind fun kind => ?_
  split
  · exact .pure none fun _ _ h => ⟨h.1, hnone _⟩
  · next left right hpower =>
    refine .ite (fun _ => .pure none fun _ _ h => ⟨h.1, hnone _⟩) fun _ => ?_
    refine Leads.isTooDeep.bind fun deep =>
      .ite (fun _ => ?_) fun _ => .pure _ fun _ k h => ⟨h.1, ?_⟩
    · refine ((deepExpression_keepsLine R base).given fun _ _ h => ⟨h.1, trivial⟩).bind fun _ => ?_
      exact .pure none fun _ _ h => ⟨h, hnone _⟩
    -- A line break has no power to bind.
    · rintro power - rfl
      rw [h.2] at hpower
      cases hpower

omit [R.Made] [R.Coupled Eq R] in
/-- An expression stays within its line. -/
theorem expression_keepsLine (hR : R.KeepsLine) (floor : Nat) :
    KeepsLine ahead (expression R floor) := by
  refine .bind (hR.operand true).anywhere fun there => .ite (fun _ => ?_) fun _ => .pure _
  refine .climb (fun _ k => k ≠ .newline) (roomForOperator_keepsLine floor) (fun power => ?_) _
  refine .bind (.nodeAround (.bind (.bumpAny fun _ h => h) fun _ => ?_)) fun _ => .pure _
  exact hR.expression power

end Expressions

/-- **Expressions keep to their line**, unless they open a parenthesis. -/
theorem keepsLine_rules (f : String → Bool) (levels : Nat) : (rules f levels).KeepsLine := by
  induction levels with
  | zero =>
    have hnever : KeepsLine (fun _ => True) (modify (State.giveUp .stuck) : Step Unit) :=
      fun _ => .giveUp _
    exact ⟨fun _ => hnever, fun _ => hnever.bind fun _ => .pure _⟩
  | succ levels ih => exact ⟨expression_keepsLine ih, operand_keepsLine ih⟩

end ScriptSense.Grammar
