import ExpiringCache.Proofs.Clock.Span

/-!
# Clocks on other dates

A clock is moved to another date by adding the same number of milliseconds to its base epoch and to
its reading. Narrow timestamps do not notice: they are differences. What a timestamp stands for is
moved with the clock, exactly and without an overflow as long as both base epochs are far from the
ends of the word; and a saturated difference of two moderate instants is their exact distance.
-/
namespace ExpiringCache

/-- Instants far from the ends of their word: at most `2 ^ 60` milliseconds from the Unix epoch. -/
def Moderate (instant : Int64) : Prop := -2 ^ 60 ≤ instant.toInt ∧ instant.toInt ≤ 2 ^ 60

instance : DecidablePred Moderate := fun _ => inferInstanceAs (Decidable (_ ∧ _))

/-- From one moderate instant to another the addition is exact. -/
theorem Moderate.toInt_add {instant delta : Int64} (h : Moderate instant)
    (h' : Moderate (instant + delta)) :
    (instant + delta).toInt = instant.toInt + delta.toInt := by
  obtain ⟨low, high⟩ := h
  obtain ⟨low', high'⟩ := h'
  have hmin := delta.le_toInt
  have hmax := delta.toInt_lt
  rw [Int64.toInt_add, Int.bmod_def] at low' high' ⊢
  split at low' <;> omega

namespace Clock

def shift (delta : Int64) (clock : Clock) : Clock := ⟨clock.base + delta, clock.now + delta⟩

/-- Clocks whose base epochs and readings are moderate before and after a shift. -/
structure Shiftable (delta : Int64) (clock : Clock) : Prop where
  base : Moderate clock.base
  shiftedBase : Moderate (clock.base + delta)
  now : Moderate clock.now
  shiftedNow : Moderate (clock.now + delta)

variable {delta : Int64} {clock : Clock}

@[simp] theorem offsetNow_shift (delta : Int64) (clock : Clock) :
    (clock.shift delta).offsetNow = clock.offsetNow := by
  have hdistance : clock.now + delta - (clock.base + delta) = clock.now - clock.base := by
    grind
  simp only [offsetNow, offsetOf, Clock.shift, hdistance]

@[simp] theorem advance_shift (delta : Int64) (clock : Clock) (millis : Int64) :
    (clock.shift delta).advance millis = (clock.advance millis).shift delta := by
  simp only [advance, Clock.shift, Int64.add_assoc, Int64.add_comm delta millis]

theorem advanceSeconds_shift (delta : Int64) (clock : Clock) (seconds : Int64) :
    (clock.shift delta).advanceSeconds seconds =
      (clock.advanceSeconds seconds).map (Clock.shift delta) := by
  unfold advanceSeconds
  cases Arithmetic.mulChecked seconds 1000 with
  | error overflow => rfl
  | ok millis => exact congrArg Except.ok (advance_shift delta clock millis)

/-- On a moderate clock every timestamp stands for an instant, and this instant moves with the
clock. -/
theorem exists_instantOf_shift (h : clock.Shiftable delta) (offset : Int32) :
    ∃ since, clock.instantOf offset = .ok since ∧
      (clock.shift delta).instantOf offset = .ok (since + delta) ∧
      (since + delta).toInt = since.toInt + delta.toInt := by
  have hbase := h.base.toInt_add h.shiftedBase
  obtain ⟨low, high⟩ := h.base
  obtain ⟨low', high'⟩ := h.shiftedBase
  have hmin := offset.le_toInt
  have hmax := offset.toInt_lt
  have hfits : Arithmetic.Fits (clock.base.toInt + offset.toInt) := by
    unfold Arithmetic.Fits
    omega
  obtain ⟨since, hsince, hsum⟩ := exists_instantOf hfits
  have hexact : (since + delta).toInt = since.toInt + delta.toInt := by
    rw [Int64.toInt_add, Int.bmod_eq_of_le] <;> omega
  refine ⟨since, hsince, instantOf_eq_ok_iff.mpr ?_, hexact⟩
  change (since + delta).toInt = (clock.base + delta).toInt + offset.toInt
  omega

theorem instantOf_shift (h : clock.Shiftable delta) (offset : Int32) :
    (clock.shift delta).instantOf offset = (clock.instantOf offset).map (· + delta) := by
  obtain ⟨since, hsince, hshifted, -⟩ := exists_instantOf_shift h offset
  rw [hsince, hshifted]
  rfl

end Clock

/-- The saturated difference of two instants does not notice an exact shift of both. -/
theorem Arithmetic.subSaturating_add {instant since delta : Int64}
    (h : (instant + delta).toInt = instant.toInt + delta.toInt)
    (h' : (since + delta).toInt = since.toInt + delta.toInt) :
    subSaturating (instant + delta) (since + delta) = subSaturating instant since := by
  rw [← Int64.toInt_inj, toInt_subSaturating, toInt_subSaturating, h, h']
  congr 2
  omega

end ExpiringCache
