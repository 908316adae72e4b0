import ExpiringCache.Binary64

/-!
# Scaling by powers of ten

A magnitude times a power of ten, with one rounding for the power and one for each product or
quotient. Powers beyond `10 ^ 308` are taken in steps of that size; they only ever occur as
divisors, since a product with one is out of range.
-/

namespace ExpiringCache.Binary64

/-- The greatest power of ten that is a finite number has this exponent. -/
def maxPower : Nat := 308

/-- A finite magnitude times `10 ^ exponent`, or nothing if that is out of range. -/
def scale (magnitude : Nat) (exponent : Int) : Option Nat :=
  if exponent.natAbs ≤ maxPower then
    let power := ofNat (10 ^ exponent.natAbs)
    if exponent < 0 then some (div magnitude power)
    else if mul magnitude power < infinity then some (mul magnitude power)
    else none
  else if magnitude = 0 then some 0
  else if 0 ≤ exponent then none
  else scale (div magnitude (ofNat (10 ^ maxPower))) (exponent + maxPower)
termination_by exponent.natAbs
decreasing_by
  simp only [maxPower] at *
  omega

end ExpiringCache.Binary64
