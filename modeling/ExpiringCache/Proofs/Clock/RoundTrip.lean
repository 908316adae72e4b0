import Mathlib.Logic.ExistsUnique
import ExpiringCache.Proofs.Clock.Span

/-!
# The way there and back

An instant is kept as one number of 32 bits, the one that agrees with its distance from the base
epoch but for whole spans of `2 ^ 32` milliseconds. What comes back is the base epoch and that
number added up, or an overflow if the sum does not fit its word. It is the instant itself on the
span of the clock and nowhere else. The way from a timestamp to an instant and back is never lossy.
-/
namespace ExpiringCache.Clock

/-- A signed number of 32 bits that agrees with the distance of an instant from the base epoch but
for whole spans. -/
structure Narrows (clock : Clock) (instant : Int64) (distance : Int) : Prop where
  low : -2 ^ 31 ≤ distance
  high : distance < 2 ^ 31
  congruent : (2 ^ 32 : Int) ∣ instant.toInt - clock.base.toInt - distance

/-- What becomes of an instant that is kept as the number `distance`. -/
structure ComesBack (clock : Clock) (instant : Int64) (distance : Int) : Prop where
  offset : (clock.offsetOf instant).toInt = distance
  overflows : clock.instantOf (clock.offsetOf instant) = .error .add ↔
    ¬ Arithmetic.Fits (clock.base.toInt + distance)
  recovered : Arithmetic.Fits (clock.base.toInt + distance) →
    ∃ since, clock.instantOf (clock.offsetOf instant) = .ok since ∧
      since.toInt = clock.base.toInt + distance
  /-- The instant itself comes back exactly on the span. -/
  onSpan : clock.base.toInt + distance = instant.toInt ↔
    -2 ^ 31 ≤ instant.toInt - clock.base.toInt ∧ instant.toInt - clock.base.toInt < 2 ^ 31
  /-- Past the span an earlier instant comes back, by whole spans. -/
  earlier : 2 ^ 31 ≤ instant.toInt - clock.base.toInt →
    ∃ spans : Nat, 0 < spans ∧ clock.base.toInt + distance = instant.toInt - 2 ^ 32 * spans

variable {clock : Clock} {instant : Int64}

theorem narrows_offsetOf (clock : Clock) (instant : Int64) :
    clock.Narrows instant (clock.offsetOf instant).toInt where
  low := (clock.offsetOf instant).le_toInt
  high := (clock.offsetOf instant).toInt_lt
  congruent := by
    have hlag := clock.lag_eq instant
    rw [lag] at hlag
    omega

/-- Two numbers of 32 bits that differ by whole spans are equal. -/
theorem Narrows.unique {distance other : Int} (h : clock.Narrows instant distance)
    (h' : clock.Narrows instant other) : other = distance := by
  obtain ⟨low, high, congruent⟩ := h
  obtain ⟨low', high', congruent'⟩ := h'
  omega

theorem comesBack_offsetOf (clock : Clock) (instant : Int64) :
    clock.ComesBack instant (clock.offsetOf instant).toInt where
  offset := rfl
  overflows := instantOf_eq_error_iff
  recovered := exists_instantOf
  onSpan := by
    have hzero : clock.lag instant = 0 ↔ clock.Covers instant := lag_eq_zero_iff
    rw [lag, Covers] at hzero
    omega
  earlier := by
    intro past
    have hlag := clock.lag_eq instant
    rw [lag] at hlag
    refine ⟨((instant.toInt - clock.base.toInt + 2 ^ 31) / 2 ^ 32).toNat, ?_, ?_⟩ <;> omega

/-- A timestamp that stands for an instant is the timestamp of that instant. -/
theorem offsetOf_instantOf {offset : Int32} {since : Int64}
    (h : clock.instantOf offset = .ok since) : clock.offsetOf since = offset := by
  have hsum := instantOf_eq_ok_iff.mp h
  have hmin := offset.le_toInt
  have hmax := offset.toInt_lt
  have hcovers : clock.Covers since := by
    unfold Covers
    omega
  rw [← Int32.toInt_inj, toInt_offsetOf_of_covers hcovers]
  omega

/-- For each instant there is one number of 32 bits that agrees with its distance from the base
epoch; it is the timestamp, and with the base epoch it makes what comes back. For each timestamp
that stands for an instant, that instant gives the timestamp again. -/
theorem narrow_timestamps_exact (clock : Clock) :
    (∀ instant, (∃! distance, clock.Narrows instant distance) ∧
      ∀ distance, clock.Narrows instant distance → clock.ComesBack instant distance) ∧
    ∀ offset since, clock.instantOf offset = .ok since → clock.offsetOf since = offset := by
  refine ⟨fun instant => ?_, fun offset since => offsetOf_instantOf⟩
  have hnarrows := clock.narrows_offsetOf instant
  refine ⟨⟨_, hnarrows, fun other hother => hnarrows.unique hother⟩, fun distance h => ?_⟩
  rw [hnarrows.unique h]
  exact clock.comesBack_offsetOf instant

/-- On a clock whose base epoch is the first instant of the word, the first instant past the span
has a timestamp that stands for nothing; on a clock that starts at zero it comes back from before
the base epoch. -/
theorem narrow_timestamps_exact_past_span :
    let first := Clock.startingAt Int64.minValue
    let zero := Clock.startingAt 0
    first.Narrows (Int64.minValue + 2147483648) (-2147483648) ∧
      first.instantOf (first.offsetOf (Int64.minValue + 2147483648)) = .error .add ∧
      zero.Narrows 2147483648 (-2147483648) ∧
      (∃ spans : Nat, 0 < spans ∧ zero.base.toInt + -2147483648 = 2147483648 - 2 ^ 32 * spans) ∧
      zero.instantOf (-2147483648) = .ok (-2147483648) ∧
      zero.offsetOf (-2147483648) = -2147483648 := by
  intro first zero
  have hfirst : first.Narrows (Int64.minValue + 2147483648) (-2147483648) :=
    ⟨by decide, by decide, by decide⟩
  have hzero : zero.Narrows 2147483648 (-2147483648) := ⟨by decide, by decide, by decide⟩
  have hback : zero.instantOf (-2147483648) = .ok (-2147483648) :=
    instantOf_eq_ok_iff.mpr (by decide)
  have lost := ((narrow_timestamps_exact first).1 _).2 _ hfirst
  have late := ((narrow_timestamps_exact zero).1 _).2 _ hzero
  exact ⟨hfirst, lost.overflows.mpr (by decide), hzero, late.earlier (by decide), hback,
    (narrow_timestamps_exact zero).2 _ _ hback⟩

end ExpiringCache.Clock
