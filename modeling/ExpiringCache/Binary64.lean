/-!
# Binary floating-point numbers of 64 bits

A number is its word: a sign bit over a magnitude. Magnitudes are ordered like the values they
stand for, and every finite one is a whole number of units of `2 ^ -1074`, so that arithmetic is
exact arithmetic on natural numbers followed by one rounding, to the nearest magnitude and to the
even one of two that are equally near.
-/

namespace ExpiringCache

/-- A 64-bit floating-point number, given by its bits. -/
structure Binary64 where
  bits : UInt64
deriving DecidableEq

namespace Binary64

/-- The number of magnitudes that share one exponent. -/
def fractionCount : Nat := 2 ^ 52

/-- The magnitude of infinity. Smaller magnitudes are finite, greater ones are no numbers. -/
def infinity : Nat := 2047 * 2 ^ 52

/-- The number of units in `1`. -/
def unitsOfOne : Nat := 2 ^ 1074

/-- Whether the sign bit is set. -/
def negative (x : Binary64) : Bool := 2 ^ 63 ≤ x.bits.toNat

/-- The word without its sign bit. -/
def magnitude (x : Binary64) : Nat := x.bits.toNat % 2 ^ 63

/-- Whether the value is a number other than an infinity. -/
def isFinite (x : Binary64) : Bool := x.magnitude < infinity

/-- The word with this sign and this magnitude. -/
def ofMagnitude (negative : Bool) (magnitude : Nat) : Binary64 :=
  ⟨UInt64.ofNat ((if negative then 2 ^ 63 else 0) + magnitude)⟩

/-- The value of a finite magnitude in units of `2 ^ -1074`. -/
def units (magnitude : Nat) : Nat :=
  let exponent := magnitude / fractionCount
  let fraction := magnitude % fractionCount
  if exponent = 0 then fraction else (fractionCount + fraction) * 2 ^ (exponent - 1)

/-- The whole number nearest to a quotient, the even one of two that are equally near. -/
def roundQuotient (numerator denominator : Nat) : Nat :=
  let quotient := numerator / denominator
  let rest := numerator % denominator
  if 2 * rest < denominator then quotient
  else if denominator < 2 * rest then quotient + 1
  else quotient + quotient % 2

/-- The magnitude nearest to `numerator / denominator` units; infinity if that is too large. -/
def roundUnits (numerator denominator : Nat) : Nat :=
  let shift := (numerator / denominator).log2 - 52
  let kept := roundQuotient numerator (denominator * 2 ^ shift)
  min infinity (shift * fractionCount + kept)

/-- The magnitude nearest to a natural number. -/
def ofNat (n : Nat) : Nat := roundUnits (n * unitsOfOne) 1

/-- The magnitude nearest to the product of two finite magnitudes. -/
def mul (a b : Nat) : Nat := roundUnits (units a * units b) unitsOfOne

/-- The magnitude nearest to the quotient of two finite magnitudes, the second not zero. -/
def div (a b : Nat) : Nat := roundUnits (units a * unitsOfOne) (units b)

@[simp] theorem units_zero : units 0 = 0 := rfl

/-- Rounding to a whole number moves by at most half of one. -/
theorem roundQuotient_near (numerator : Nat) {denominator : Nat} (h : 0 < denominator) :
    2 * (roundQuotient numerator denominator * denominator) ≤ 2 * numerator + denominator ∧
      2 * numerator ≤ 2 * (roundQuotient numerator denominator * denominator) + denominator := by
  have split := Nat.div_add_mod numerator denominator
  have small := Nat.mod_lt numerator h
  rw [Nat.mul_comm] at split
  unfold roundQuotient
  simp only
  split
  · omega
  · split
    · rw [Nat.add_mul]
      omega
    · rcases Nat.mod_two_eq_zero_or_one (numerator / denominator) with parity | parity <;>
        rw [parity, Nat.add_mul] <;> omega

end Binary64

end ExpiringCache
