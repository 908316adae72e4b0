import ExpiringCache.Binary64

/-!
# Shortest decimals of floating-point numbers

The decimals that round to a given magnitude fill an interval around its value. The shortest of
them lies on the coarsest power-of-ten grid that has a point in the interval, and of the points on
that grid the nearest to the value is taken.
-/

namespace ExpiringCache.Binary64

/-- The number `coefficient * 10 ^ exponent`. -/
structure Scientific where
  coefficient : Nat
  exponent : Int
deriving DecidableEq

/-- The powers of ten of the grids run from `10 ^ -324` to `10 ^ 308`. -/
def finestGrid : Int := -324

/-- The rank of the coarsest grid, counted from the finest. -/
def coarsestRank : Nat := 632

/-- Twice a value in units, scaled so that every grid has a whole spacing. -/
def scaledTwice (units : Nat) : Nat := 2 * units * 10 ^ 324

/-- Twice the spacing of a grid, on the scale of `scaledTwice`. -/
def spacingTwice (rank : Nat) : Nat := 2 * unitsOfOne * 10 ^ rank

/-- Whether `point`, on the scale of `scaledTwice`, rounds to a positive finite magnitude: it lies
between the midpoints to the two neighbours, and on a midpoint only if the magnitude is even. -/
def roundsTo (magnitude point : Nat) : Bool :=
  let low := (units (magnitude - 1) + units magnitude) * 10 ^ 324
  let high := (units magnitude + units (magnitude + 1)) * 10 ^ 324
  if magnitude % 2 = 0 then low ≤ point && point ≤ high else low < point && point < high

/-- The coefficient, on one grid, of the decimal that is nearest to the magnitude among those that
round to it. Only the two grid points that enclose the value can be nearest; of two equally near
ones the even coefficient is taken. -/
def onGrid? (magnitude rank : Nat) : Option Nat :=
  let value := scaledTwice (units magnitude)
  let spacing := spacingTwice rank
  let below := value / spacing
  let lower := roundsTo magnitude (below * spacing)
  let upper := roundsTo magnitude ((below + 1) * spacing)
  if lower && upper then some (roundQuotient value spacing)
  else if lower then some below
  else if upper then some (below + 1)
  else none

/-- The shortest decimal on the grids up to a rank. -/
def shortestUpTo (magnitude : Nat) : Nat → Scientific
  | 0 => ⟨(onGrid? magnitude 0).getD 0, finestGrid⟩
  | rank + 1 =>
    match onGrid? magnitude (rank + 1) with
    | some coefficient => ⟨coefficient, finestGrid + (rank + 1 : Nat)⟩
    | none => shortestUpTo magnitude rank

/-- The shortest decimal that rounds to a positive finite magnitude, and of several the nearest. -/
def shortest (magnitude : Nat) : Scientific := shortestUpTo magnitude coarsestRank

end ExpiringCache.Binary64
