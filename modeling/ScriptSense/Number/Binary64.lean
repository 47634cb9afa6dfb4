/-
The nearest double of a fraction.

A finite double is a natural number of units, the unit being the smallest
subnormal `2 ^ -1074`. With `m` below `2 ^ 53` every number of units of the form
`m * 2 ^ k` is one, and its bits are `k * 2 ^ 52 + m`: for `k = 0` that is `m`
itself, and for a larger `k`, where `m` has its top bit set, adding it puts the
exponent field one above `k`. If rounding makes `m` reach `2 ^ 53`, the same sum
carries into the exponent field, and from the bits of infinity on all results
are infinity.

So nothing is left to do but to find the least `k` that leaves `m` below
`2 ^ 53`, and to round one quotient of natural numbers to the nearest, a tie
going to the even neighbour.
-/

set_option autoImplicit false

namespace ScriptSense

/-- The quotient rounded to the nearest natural number, a tie to the even one. -/
def roundQuotient (num den : Nat) : Nat :=
  let low := num / den
  let rest := 2 * (num % den)
  if rest < den || (rest == den && low % 2 == 0) then low else low + 1

/-- A double, by its sixty-four bits. -/
structure Binary64 where
  /-- Sign, exponent field and fraction field, from the top down. -/
  bits : UInt64
deriving DecidableEq, Repr

namespace Binary64

/-- The bits of infinity. -/
def infinityBits : Nat := 0x7ff0000000000000

/-- The binary logarithm of what one unit counts of the fraction: the least `k`
for which `m * 2 ^ k` with `m` below `2 ^ 53` reaches the number of units. -/
def scaleOf (units : Nat) : Nat := units.log2 - 52

/-- The bits of the double nearest to `num / den`. -/
def nearestBits (num den : Nat) : Nat :=
  -- The fraction in units of the smallest subnormal, still without `den`.
  let units := num <<< 1074
  let k := scaleOf (units / den)
  min ((k <<< 52) + roundQuotient units (den <<< k)) infinityBits

/-- **The double nearest to `num / den`**; too large a fraction is infinite. -/
def nearest (num den : Nat) : Binary64 := ⟨(nearestBits num den).toUInt64⟩

/-- The bits as sixteen hexadecimal digits. -/
def hexText (x : Binary64) : String :=
  let digits := Nat.toDigits 16 x.bits.toNat
  String.ofList (List.replicate (16 - digits.length) '0' ++ digits)

end Binary64

/-- Rounding is off by at most half the divisor. -/
theorem roundQuotient_near (num den : Nat) (hden : 0 < den) :
    2 * (roundQuotient num den * den) ≤ 2 * num + den
      ∧ 2 * num ≤ 2 * (roundQuotient num den * den) + den := by
  have hdiv : den * (num / den) + num % den = num := Nat.div_add_mod num den
  have hlt : num % den < den := Nat.mod_lt num hden
  have hcomm : num / den * den = den * (num / den) := Nat.mul_comm _ _
  unfold roundQuotient
  simp only
  split
  · next h =>
    have : 2 * (num % den) ≤ den := by
      simp only [Bool.or_eq_true, Bool.and_eq_true, decide_eq_true_eq, beq_iff_eq] at h
      omega
    omega
  · next h =>
    have : den ≤ 2 * (num % den) := by
      simp only [Bool.or_eq_true, decide_eq_true_eq, not_or] at h
      omega
    rw [Nat.add_mul]
    omega

end ScriptSense
