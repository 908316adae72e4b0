import ExpiringCache.Clock

/-!
# The span of narrow timestamps

A narrow timestamp stands for an instant of the span of its clock, the `2 ^ 32` milliseconds around
the base epoch. An instant of the span comes back from its timestamp unchanged. Any other instant
comes back moved by a multiple of `2 ^ 32`, so that at or after the base epoch a timestamp lags
behind its instant, and by whole multiples of `2 ^ 32` milliseconds.
-/
namespace ExpiringCache.Clock

/-- The instants that a narrow timestamp of the clock can stand for. -/
def Covers (clock : Clock) (instant : Int64) : Prop :=
  -2 ^ 31 ≤ instant.toInt - clock.base.toInt ∧ instant.toInt - clock.base.toInt < 2 ^ 31

instance (clock : Clock) (instant : Int64) : Decidable (clock.Covers instant) :=
  inferInstanceAs (Decidable (_ ∧ _))

/-- By how much an instant is later than what its narrow timestamp stands for. -/
def lag (clock : Clock) (instant : Int64) : Int :=
  instant.toInt - (clock.base.toInt + (clock.offsetOf instant).toInt)

theorem toInt_offsetOf_of_covers {clock : Clock} {instant : Int64} (h : clock.Covers instant) :
    (clock.offsetOf instant).toInt = instant.toInt - clock.base.toInt := by
  obtain ⟨low, high⟩ := h
  rw [toInt_offsetOf]
  exact Int.bmod_eq_of_le (by omega) (by omega)

theorem instantOf_offsetOf {clock : Clock} {instant : Int64} (h : clock.Covers instant) :
    clock.instantOf (clock.offsetOf instant) = .ok instant := by
  rw [instantOf_eq_ok_iff, toInt_offsetOf_of_covers h]
  omega

/-- A timestamp stands for an instant if the base epoch and the offset add up to one. -/
theorem exists_instantOf {clock : Clock} {offset : Int32}
    (h : Arithmetic.Fits (clock.base.toInt + offset.toInt)) :
    ∃ since, clock.instantOf offset = .ok since ∧
      since.toInt = clock.base.toInt + offset.toInt := by
  have hsum := Int64.toInt_ofInt_of_le h.1 h.2
  exact ⟨_, instantOf_eq_ok_iff.mpr hsum, hsum⟩

/-- A timestamp stands for nothing if the base epoch and the offset add up to no instant. -/
theorem instantOf_eq_error_iff {clock : Clock} {offset : Int32} :
    clock.instantOf offset = .error .add ↔
      ¬ Arithmetic.Fits (clock.base.toInt + offset.toInt) := by
  rw [instantOf, Arithmetic.addChecked_eq_error_iff, Int32.toInt_toInt64]
  exact and_iff_right rfl

/-- What a timestamp stands for does not depend on the reading of the clock. -/
theorem instantOf_of_base_eq {clock moved : Clock} (base : moved.base = clock.base)
    (offset : Int32) : moved.instantOf offset = clock.instantOf offset := by
  rw [instantOf, instantOf, base]

/-- The timestamp of an instant stands for the instant that lies by the lag before it. -/
theorem exists_instantOf_offsetOf {clock : Clock} {instant : Int64}
    (h : Arithmetic.Fits (clock.base.toInt + (clock.offsetOf instant).toInt)) :
    ∃ since, clock.instantOf (clock.offsetOf instant) = .ok since ∧
      instant.toInt - since.toInt = clock.lag instant := by
  obtain ⟨since, hsince, hsum⟩ := exists_instantOf h
  exact ⟨since, hsince, by rw [hsum]; rfl⟩

/-- The lag is a whole number of spans, counted from the end of the span that holds the base. -/
theorem lag_eq (clock : Clock) (instant : Int64) :
    clock.lag instant = 2 ^ 32 * ((instant.toInt - clock.base.toInt + 2 ^ 31) / 2 ^ 32) := by
  rw [lag, toInt_offsetOf, Int.bmod_def]
  split <;> omega

theorem lag_eq_zero_iff {clock : Clock} {instant : Int64} :
    clock.lag instant = 0 ↔ clock.Covers instant := by
  rw [lag_eq, Covers]
  omega

theorem base_of_advanceSeconds {clock moved : Clock} {seconds : Int64}
    (h : clock.advanceSeconds seconds = .ok moved) : moved.base = clock.base := by
  unfold advanceSeconds at h
  cases hmillis : Arithmetic.mulChecked seconds 1000 with
  | error overflow =>
    rw [hmillis] at h
    nomatch h
  | ok millis =>
    rw [hmillis] at h
    obtain rfl : clock.advance millis = moved := Except.ok.inj h
    rfl

/-- A clock whose reading moves within the span moves by the exact amount. -/
theorem toInt_now_advance {clock : Clock} {millis : Int64} (before : clock.Covers clock.now)
    (after : clock.Covers (clock.advance millis).now) :
    (clock.advance millis).now.toInt = clock.now.toInt + millis.toInt := by
  obtain ⟨low, high⟩ := before
  obtain ⟨low', high'⟩ := after
  have hmin := millis.le_toInt
  have hmax := millis.toInt_lt
  have hsum : (clock.advance millis).now.toInt =
      (clock.now.toInt + millis.toInt).bmod (2 ^ 64) := Int64.toInt_add ..
  rw [Int.bmod_def] at hsum
  split at hsum <;> omega

end ExpiringCache.Clock
