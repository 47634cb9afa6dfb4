/-
Expressions of operators, and how they are written.

A formula is what an expression of whole numbers, names, operators and accesses
means, without a word about parentheses. How it is written is decided by the table
of binding powers alone: an operand gets parentheses exactly where the powers would
hand one of its own operands to the operator beside it. The written form is a tree
as well (`Written`), in which parentheses are a construct like any other, so that
what the grammar makes of a text can be said of written forms, with as many
parentheses as one likes, and the table comes in only where they are left out.
-/
import ScriptSense.Proofs.Syntax.Bare
import ScriptSense.Script.Basic

set_option autoImplicit false

namespace ScriptSense

/-! ## Operators as tokens -/

/-- The text of an operator. -/
def TokenKind.sign : TokenKind → String
  | .colonEq => ":="
  | .plusEq => "+="
  | .minusEq => "-="
  | .starEq => "*="
  | .slashEq => "/="
  | .caretEq => "^="
  | .pipeEq => "|="
  | .ampEq => "&="
  | .percentEq => "%="
  | .pipePipe => "||"
  | .ampAmp => "&&"
  | .colon => ":"
  | .eqEq => "=="
  | .bangEq => "!="
  | .lt => "<"
  | .gt => ">"
  | .ltEq => "<="
  | .gtEq => ">="
  | .pipe => "|"
  | .amp => "&"
  | .shl => "<<"
  | .shr => ">>"
  | .plus => "+"
  | .minus => "-"
  | .star => "*"
  | .slash => "/"
  | .percent => "%"
  | .caret => "^"
  | .bang => "!"
  | .dollar => "$"
  | .hash => "#"
  | .dot => "."
  | .arrow => "->"
  | .lParen => "("
  | .rParen => ")"
  | .lBracket => "["
  | .rBracket => "]"
  | _ => ""

/-- The token of an operator in front of an operand. -/
def UnaryOp.token : UnaryOp → TokenKind
  | .not => .bang
  | .neg => .minus
  | .toString => .dollar
  | .toNumber => .hash
  | .deref => .star
  | .box => .amp

theorem UnaryOp.ofToken?_token (op : UnaryOp) : UnaryOp.ofToken? op.token = some op := by
  cases op <;> rfl

namespace BinaryOp

/-- The token of an operator between operands. -/
def token : BinaryOp → TokenKind
  | .assign => .colonEq
  | .addAssign => .plusEq
  | .subAssign => .minusEq
  | .mulAssign => .starEq
  | .divAssign => .slashEq
  | .powAssign => .caretEq
  | .orAssign => .pipeEq
  | .andAssign => .ampEq
  | .modAssign => .percentEq
  | .or => .pipePipe
  | .and => .ampAmp
  | .slice => .colon
  | .eq => .eqEq
  | .ne => .bangEq
  | .lt => .lt
  | .gt => .gt
  | .le => .ltEq
  | .ge => .gtEq
  | .bitOr => .pipe
  | .bitAnd => .amp
  | .shl => .shl
  | .shr => .shr
  | .add => .plus
  | .sub => .minus
  | .mul => .star
  | .div => .slash
  | .mod => .percent
  | .pow => .caret

theorem ofToken?_token (op : BinaryOp) : ofToken? op.token = some op := by
  cases op <;> rfl

/-- The powers with which an operator binds the operands on its two sides. -/
def powers (op : BinaryOp) : Nat × Nat := op.token.binaryPower?.getD (0, 0)

theorem binaryPower?_token (op : BinaryOp) : op.token.binaryPower? = some op.powers := by
  cases op <;> rfl

/-- Whatever has powers is the token of an operator. -/
theorem exists_of_binaryPower? {k : TokenKind} {bounds : Nat × Nat}
    (h : k.binaryPower? = some bounds) : ∃ op : BinaryOp, op.token = k ∧ op.powers = bounds := by
  have hsome : (ofToken? k).isSome = true := by rw [isSome_ofToken?, h, Option.isSome_some]
  obtain ⟨op, hop⟩ := Option.isSome_iff_exists.1 hsome
  have htoken : op.token = k := by
    cases k <;> simp [ofToken?] at hop <;> subst hop <;> rfl
  refine ⟨op, htoken, ?_⟩
  rw [powers, htoken, h, Option.getD_some]

/-- The table: operators go from left to right, but for those that store a value and
the power. -/
theorem powers_cases (op : BinaryOp) :
    op.powers.2 = op.powers.1 + 1 ∨ op.powers = (2, 1) ∨ op.powers = (24, 23) := by
  cases op <;> decide

theorem left_bounds (op : BinaryOp) : 1 < op.powers.1 ∧ op.powers.1 ≠ 23 := by
  cases op <;> decide

theorem right_le_left_succ (op : BinaryOp) : op.powers.2 ≤ op.powers.1 + 1 := by
  rcases op.powers_cases with h | h | h
  · exact Nat.le_of_eq h
  · rw [h]
    decide
  · rw [h]
    decide

/-- What an operator leaves to the right of another is left by all that may stand to
the right of that one. -/
theorem lt_right_of_le_left {op inner outer : BinaryOp} (hinner : op.powers.2 ≤ inner.powers.1)
    (houter : outer.powers.1 < op.powers.2) : outer.powers.1 < inner.powers.2 := by
  obtain ⟨hlow, hgap⟩ := outer.left_bounds
  rcases inner.powers_cases with h | h | h
  · omega
  · rw [h] at hinner
    simp only at hinner
    omega
  · rw [h] at hinner ⊢
    simp only at hinner ⊢
    omega

end BinaryOp

/-! ## Formulas -/

/-- A whole number as a script writes it. -/
inductive Numeral where
  /-- Decimal digits. -/
  | decimal (digits : List Char) (some : digits ≠ []) (digit : ∀ c ∈ digits, c.isDigit = true)
      (small : ofDigits 10 digits < Literal.integerLimit)
  /-- Hexadecimal digits behind `0x` or `0X`. -/
  | hexadecimal (mark : Char) (known : mark = 'x' ∨ mark = 'X') (digits : List Char)
      (some : digits ≠ []) (digit : ∀ c ∈ digits, isHexDigit c = true)
      (small : ofDigits 16 digits < Literal.integerLimit)

namespace Numeral

/-- The characters of the number. -/
def chars : Numeral → List Char
  | .decimal digits _ _ _ => digits
  | .hexadecimal mark _ digits _ _ _ => '0' :: mark :: digits

/-- The kind of its token. -/
def kind : Numeral → TokenKind
  | .decimal .. => .number
  | .hexadecimal .. => .hexNumber

/-- The number. -/
def value : Numeral → Nat
  | .decimal digits _ _ _ => ofDigits 10 digits
  | .hexadecimal _ _ digits _ _ _ => ofDigits 16 digits

end Numeral

/-- A name that begins with a letter or an underscore. -/
structure Name where
  /-- The name as written. -/
  text : String
  /-- It is one identifier. -/
  identifier : isIdentifier text = true
  /-- It does not begin with a digit. -/
  letter : ∀ c ∈ text.toList.head?, c.isDigit = false

/-- Accesses to a member by its name. -/
inductive Reach where
  | dot | arrow
deriving DecidableEq

namespace Reach

/-- The token of the access. -/
def token : Reach → TokenKind
  | .dot => .dot
  | .arrow => .arrow

/-- The access. -/
def memberOp : Reach → MemberOp
  | .dot => .dot
  | .arrow => .arrow

end Reach

/-- **An expression of numbers, names, operators and accesses.** -/
inductive Formula where
  | number (n : Numeral)
  | name (n : Name)
  | unary (op : UnaryOp) (operand : Formula)
  | binary (op : BinaryOp) (left right : Formula)
  | field (reach : Reach) (base : Formula) (member : Name)
  | index (base member : Formula)

/-- A formula with its parentheses. -/
inductive Written where
  | number (n : Numeral)
  | name (n : Name)
  | paren (inner : Written)
  | unary (op : UnaryOp) (operand : Written)
  | binary (op : BinaryOp) (left right : Written)
  | field (reach : Reach) (base : Written) (member : Name)
  | index (base member : Written)

namespace Written

/-- Parentheses where they are needed. -/
def guarded (needed : Bool) (w : Written) : Written := if needed then .paren w else w

/-- An operator in front of an operand comes first. -/
def beginsWithSign : Written → Bool
  | .unary _ _ => true
  | .binary _ left _ => left.beginsWithSign
  | .field _ base _ => base.beginsWithSign
  | .index base _ => base.beginsWithSign
  | .number _ | .name _ | .paren _ => false

/-- What stands between an opening bracket and what is in it: nothing, or a blank in
front of an operator. -/
def lead (blank : String) (w : Written) : String := if w.beginsWithSign then blank else ""

/-- The text, with a space on both sides of an operator; where one comes first behind
a bracket, `blank` stands between the two. -/
def text (blank : String) : Written → String
  | .number n => String.ofList n.chars
  | .name n => n.text
  | .paren inner => "(" ++ inner.lead blank ++ inner.text blank ++ ")"
  | .unary op operand => op.token.sign ++ " " ++ operand.text blank
  | .binary op left right =>
    left.text blank ++ " " ++ op.token.sign ++ " " ++ right.text blank
  | .field reach base member => base.text blank ++ reach.token.sign ++ member.text
  | .index base member =>
    base.text blank ++ "[" ++ member.lead blank ++ member.text blank ++ "]"

/-- The operator between the operands of a formula that has two and no parentheses. -/
def operator? : Written → Option BinaryOp
  | .binary op _ _ => some op
  | _ => none

/-- The formula can be accessed as it is written. -/
def isBase : Written → Bool
  | .name _ | .paren _ | .field _ _ _ | .index _ _ => true
  | .number _ | .unary _ _ | .binary _ _ _ => false

/-- **No parentheses are missing**: the powers hand every operand to the operator it
belongs to, and what is accessed can be. -/
def Fits : Written → Prop
  | .number _ | .name _ => True
  | .paren inner => inner.Fits
  | .unary _ operand => operand.Fits ∧ operand.operator? = none
  | .binary op left right => left.Fits ∧ right.Fits
    ∧ (∀ inner ∈ left.operator?, op.powers.1 < inner.powers.2)
    ∧ ∀ inner ∈ right.operator?, op.powers.2 ≤ inner.powers.1
  | .field _ base _ => base.Fits ∧ base.isBase = true
  | .index base member => base.Fits ∧ member.Fits ∧ base.isBase = true

/-- The levels of nesting that a formula takes. -/
def depth : Written → Nat
  | .number _ | .name _ => 1
  | .paren inner => inner.depth + 1
  | .unary _ operand => operand.depth + 1
  | .binary _ left right => left.depth + right.depth
  | .field _ base _ => base.depth + 1
  | .index base member => base.depth + member.depth + 1

theorem Fits.guarded {w : Written} (h : w.Fits) (needed : Bool) : (guarded needed w).Fits := by
  cases needed <;> exact h

theorem isBase_guarded {w : Written} {needed : Bool} (h : needed = false → w.isBase = true) :
    (guarded needed w).isBase = true := by
  cases needed with
  | true => rfl
  | false => exact h rfl

theorem operator?_guarded (needed : Bool) (w : Written) :
    (guarded needed w).operator? = if needed then none else w.operator? := by
  cases needed <;> rfl

theorem depth_guarded_le (needed : Bool) (w : Written) : (guarded needed w).depth ≤ w.depth + 1 := by
  cases needed
  · exact Nat.le_succ _
  · exact Nat.le_refl _

end Written

namespace Formula

/-- The operators, accesses included. -/
def operators : Formula → Nat
  | .number _ | .name _ => 0
  | .unary _ operand => operand.operators + 1
  | .binary _ left right => left.operators + right.operators + 1
  | .field _ base _ => base.operators + 1
  | .index base member => base.operators + member.operators + 1

/-- The operator between the operands of a formula that has two. -/
def operator? : Formula → Option BinaryOp
  | .binary op _ _ => some op
  | _ => none

/-- The formula is an operator with two operands. -/
def isBinary (e : Formula) : Bool := e.operator?.isSome

/-- The formula can be accessed as it is: it is a name or an access itself. -/
def isBase : Formula → Bool
  | .name _ | .field _ _ _ | .index _ _ => true
  | _ => false

/-- To the left of an operator, a formula needs parentheses if its own operator would
not let go of its right operand. -/
def losesRight (op : BinaryOp) (left : Formula) : Bool :=
  left.operator?.any fun inner => !decide (op.powers.1 < inner.powers.2)

/-- To the right of an operator, a formula needs parentheses if its own operator
would not get its left operand. -/
def losesLeft (op : BinaryOp) (right : Formula) : Bool :=
  right.operator?.any fun inner => decide (inner.powers.1 < op.powers.2)

/-- **The formula with parentheses only where they are needed.** -/
def written : Formula → Written
  | .number n => .number n
  | .name n => .name n
  | .unary op operand => .unary op (.guarded operand.isBinary operand.written)
  | .binary op left right =>
    .binary op (.guarded (left.losesRight op) left.written)
      (.guarded (right.losesLeft op) right.written)
  | .field reach base member => .field reach (.guarded (!base.isBase) base.written) member
  | .index base member => .index (.guarded (!base.isBase) base.written) member.written

theorem operator?_written (e : Formula) : e.written.operator? = e.operator? := by
  cases e <;> rfl

theorem isBase_written (e : Formula) : e.written.isBase = e.isBase := by
  cases e <;> rfl

/-- A formula is written with all the parentheses that are needed. -/
theorem fits_written (e : Formula) : e.written.Fits := by
  induction e with
  | number n => trivial
  | name n => trivial
  | unary op operand ih =>
    refine ⟨ih.guarded _, ?_⟩
    -- An operand that is an operation itself is put in parentheses.
    rw [Written.operator?_guarded, operator?_written, isBinary]
    cases operand.operator? <;> rfl
  | binary op left right ihl ihr =>
    refine ⟨ihl.guarded _, ihr.guarded _, ?_, ?_⟩
    · intro inner hinner
      rw [Written.operator?_guarded, operator?_written] at hinner
      by_cases hneeded : left.losesRight op = true
      · simp [hneeded] at hinner
      · rw [if_neg hneeded] at hinner
        -- Where no parentheses are needed, the left side keeps its own right operand.
        have hkeeps : ¬ (!decide (op.powers.1 < inner.powers.2)) = true := by
          rwa [losesRight, hinner, Option.any_some] at hneeded
        simpa using hkeeps
    · intro inner hinner
      rw [Written.operator?_guarded, operator?_written] at hinner
      by_cases hneeded : right.losesLeft op = true
      · simp [hneeded] at hinner
      · rw [if_neg hneeded] at hinner
        -- Where no parentheses are needed, the right side keeps its own left operand.
        rw [losesLeft, hinner, Option.any_some] at hneeded
        simpa using hneeded
  | field reach base member ih =>
    refine ⟨ih.guarded _, Written.isBase_guarded fun h => ?_⟩
    simpa [isBase_written] using h
  | index base member ihb ihm =>
    refine ⟨ihb.guarded _, ihm, Written.isBase_guarded fun h => ?_⟩
    simpa [isBase_written] using h

/-- Every operator takes at most three levels: its own, and one for the parentheses
around each of two operands. -/
theorem depth_written_le (e : Formula) : e.written.depth ≤ 3 * e.operators + 1 := by
  induction e with
  | number n => exact Nat.le_refl _
  | name n => exact Nat.le_refl _
  | unary op operand ih =>
    have := Written.depth_guarded_le operand.isBinary operand.written
    simp only [written, Written.depth, operators]
    omega
  | binary op left right ihl ihr =>
    have := Written.depth_guarded_le (left.losesRight op) left.written
    have := Written.depth_guarded_le (right.losesLeft op) right.written
    simp only [written, Written.depth, operators]
    omega
  | field reach base member ih =>
    have := Written.depth_guarded_le (!base.isBase) base.written
    simp only [written, Written.depth, operators]
    omega
  | index base member ihb ihm =>
    have := Written.depth_guarded_le (!base.isBase) base.written
    simp only [written, Written.depth, operators]
    omega

/-- The text of a formula. -/
def print (blank : String) (e : Formula) : String := e.written.text blank

/-- **A lowered expression is the formula**, whatever its places, its types and the
symbols of its names. -/
inductive Denotes : Formula → Expr → Prop
  | number (n : Numeral) (ty : Ty) (span : Span) :
      Denotes (.number n) (.mk (.literal (.integer n.value)) ty span)
  | name (n : Name) (symbol : Option SymbolId) (ty : Ty) (span : Span) :
      Denotes (.name n) (.mk (.name n.text symbol) ty span)
  | unary {op : UnaryOp} {operand : Formula} {lowered : Expr} (ty : Ty) (span : Span)
      (h : Denotes operand lowered) : Denotes (.unary op operand) (.mk (.unary op lowered) ty span)
  | binary {op : BinaryOp} {left right : Formula} {left' right' : Expr} (ty : Ty) (span : Span)
      (hleft : Denotes left left') (hright : Denotes right right') :
      Denotes (.binary op left right) (.mk (.binary op left' right') ty span)
  | field {reach : Reach} {base : Formula} {base' : Expr} (member : Name) (ty memberTy : Ty)
      (span memberSpan : Span) (h : Denotes base base') :
      Denotes (.field reach base member)
        (.mk (.member reach.memberOp base' (.mk (.field member.text) memberTy memberSpan)) ty span)
  | index {base member : Formula} {base' member' : Expr} (ty : Ty) (span : Span)
      (hbase : Denotes base base') (hmember : Denotes member member') :
      Denotes (.index base member) (.mk (.member .index base' member') ty span)

end Formula

end ScriptSense
