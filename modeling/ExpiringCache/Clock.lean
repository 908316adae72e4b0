import ExpiringCache.Arithmetic

/-!
# Clocks and narrow timestamps

A clock has a base epoch, which never moves, and a current reading, which moves only when told to.
Both are milliseconds since the Unix epoch. A timestamp is kept as a signed 32-bit offset from the
base epoch: within `2 ^ 31` milliseconds of the base the instant comes back unchanged, farther away
the offset wraps.
-/

namespace ExpiringCache

/-- A base epoch and a current reading, both in milliseconds since the Unix epoch. -/
structure Clock where
  base : Int64
  now : Int64
deriving DecidableEq

namespace Clock

/-- A clock whose base epoch is also its first reading. -/
def startingAt (base : Int64) : Clock := ⟨base, base⟩

/-- The distance from the base epoch to `instant`, cut to its low 32 bits. -/
def offsetOf (clock : Clock) (instant : Int64) : Int32 := (instant - clock.base).toInt32

/-- The instant at a narrow offset from the base epoch. -/
def instantOf (clock : Clock) (offset : Int32) : Except Overflow Int64 :=
  Arithmetic.addChecked clock.base offset.toInt64

/-- The narrow offset of the current reading. -/
def offsetNow (clock : Clock) : Int32 := clock.offsetOf clock.now

/-- Moves the reading by `millis`, round the ends of the 64-bit word if need be. -/
def advance (clock : Clock) (millis : Int64) : Clock := { clock with now := clock.now + millis }

def advanceSeconds (clock : Clock) (seconds : Int64) : Except Overflow Clock :=
  (Arithmetic.mulChecked seconds 1000).map clock.advance

def set (clock : Clock) (millis : Int64) : Clock := { clock with now := millis }

@[simp] theorem base_advance (clock : Clock) (millis : Int64) :
    (clock.advance millis).base = clock.base := rfl

@[simp] theorem base_set (clock : Clock) (millis : Int64) :
    (clock.set millis).base = clock.base := rfl

/-- An offset is the exact distance, reduced to the signed 32-bit range. -/
theorem toInt_offsetOf (clock : Clock) (instant : Int64) :
    (clock.offsetOf instant).toInt = (instant.toInt - clock.base.toInt).bmod (2 ^ 32) := by
  rw [offsetOf, Int64.toInt_toInt32, Int64.toInt_sub]
  exact Int.bmod_bmod_of_dvd (by decide)

/-- An instant is recovered exactly when the base epoch and the offset add up to it. -/
theorem instantOf_eq_ok_iff {clock : Clock} {offset : Int32} {instant : Int64} :
    clock.instantOf offset = .ok instant ↔
      instant.toInt = clock.base.toInt + offset.toInt := by
  rw [instantOf, Arithmetic.addChecked_eq_ok_iff, Int32.toInt_toInt64]

end Clock

end ExpiringCache
