import ExpiringCache.Binary64.Shortest
import ExpiringCache.Json.Mismatch

/-!
# Text of floating-point numbers

A finite number is written with its shortest digits: in positions from `1e-5` to below `1e16`, with
`.0` if it is whole, and with a signed exponent beyond. Infinities and words that are no numbers are
written `null`, which does not read back.
-/

namespace ExpiringCache.Json.FloatText

/-- An exponent in decimal, always after its sign. -/
def writeExponent (n : Int) : List UInt8 :=
  (if n < 0 then Byte.minus else Byte.plus) :: writeNat n.natAbs

/-- A positive number from its digits and its power of ten. The point stands `place` digits after
the first digit. -/
def writeScientific (number : Binary64.Scientific) : List UInt8 :=
  let digits := Decimal.digits number.coefficient
  let place : Int := digits.length + number.exponent
  if 0 ≤ number.exponent ∧ place ≤ 16 then
    digitBytes (digits ++ List.replicate number.exponent.toNat 0) ++ [Byte.point, Byte.zero]
  else if 0 < place ∧ place ≤ 16 then
    digitBytes (digits.take place.toNat) ++ Byte.point :: digitBytes (digits.drop place.toNat)
  else if -5 < place ∧ place ≤ 0 then
    [Byte.zero, Byte.point] ++ digitBytes (List.replicate (-place).toNat 0 ++ digits)
  else
    let fraction := digits.drop 1
    digitBytes (digits.take 1) ++
      (if fraction.isEmpty then [] else Byte.point :: digitBytes fraction) ++
      Byte.ofChar 'e' :: writeExponent (place - 1)

def write (x : Binary64) : List UInt8 :=
  if x.isFinite then
    (if x.negative then [Byte.minus] else []) ++
      if x.magnitude = 0 then [Byte.zero, Byte.point, Byte.zero]
      else writeScientific (Binary64.shortest x.magnitude)
  else Byte.ofAscii "null"

end ExpiringCache.Json.FloatText
