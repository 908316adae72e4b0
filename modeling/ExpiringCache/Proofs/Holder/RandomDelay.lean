import ExpiringCache.Proofs.Holder.ExactLimits
import ExpiringCache.Proofs.Jitter.Stream

/-!
# Random delays as absolute limits

A random delay becomes the absolute limit of a holder if there was none or a longer one, and nothing
else of the holder changes. In other words the new limit is the delay or the shorter one of both.
-/
namespace ExpiringCache.Holder

variable {α : Type}

theorem jitterWithin_of_bound_eq_zero {span : Duration} (h : Jitter.bound span = 0)
    (words : List UInt32) (holder : Holder α) : holder.jitterWithin span words = ⟨holder, 0⟩ :=
  if_pos h

/-- The delay of a draw fits its word. -/
theorem exists_delay_eq_draw {span : Duration} (h : 0 < (Jitter.bound span).toInt)
    (words : List UInt32) :
    ∃ delay : Int32,
      Int32.ofNat (Jitter.draw (Jitter.bound span).toInt.toNat words).delay = delay ∧
        delay.toInt = (Jitter.draw (Jitter.bound span).toInt.toNat words).delay ∧
        1 ≤ delay.toInt ∧ delay.toInt ≤ (Jitter.bound span).toInt := by
  have hlimit := (Jitter.bound span).toInt_lt
  have hrange : 0 < (Jitter.bound span).toInt.toNat := by omega
  obtain ⟨hlow, hhigh⟩ := Jitter.delay_draw_mem hrange words
  have hdelay :
      (Int32.ofNat (Jitter.draw (Jitter.bound span).toInt.toNat words).delay).toInt =
        (Jitter.draw (Jitter.bound span).toInt.toNat words).delay :=
    Int32.toInt_ofNat_of_lt (by omega)
  exact ⟨_, rfl, hdelay, by omega, by omega⟩

/-- A delay is drawn for every span of at least one second, and becomes the absolute limit if there
was none or a longer one. -/
theorem jitterWithin_of_bound_pos {span : Duration} (h : 0 < (Jitter.bound span).toInt)
    (words : List UInt32) (holder : Holder α) :
    ∃ delay : Int32,
      delay.toInt = (Jitter.draw (Jitter.bound span).toInt.toNat words).delay ∧
        1 ≤ delay.toInt ∧ delay.toInt ≤ (Jitter.bound span).toInt ∧
        holder.jitterWithin span words =
          ⟨if holder.maxCache.toInt = 0 ∨ delay.toInt < holder.maxCache.toInt
            then { holder with maxCache := delay } else holder,
            (Jitter.draw (Jitter.bound span).toInt.toNat words).used⟩ := by
  obtain ⟨delay, heq, hdelay, hlow, hhigh⟩ := exists_delay_eq_draw h words
  refine ⟨delay, hdelay, hlow, hhigh, ?_⟩
  have hne : ¬ (Jitter.bound span).toInt = 0 := by omega
  simp only [jitterWithin, if_neg hne, heq, int32_eq_zero_iff, Int32.lt_iff_toInt_lt]
  split <;> rfl

/-- A random delay leaves a holder as it is or becomes its absolute limit, and it becomes the limit
only if there was none or a longer one. -/
theorem jitterWithin_cases (span : Duration) (words : List UInt32) (holder : Holder α) :
    (holder.jitterWithin span words).holder = holder ∨
      ∃ delay : Int32, 0 < delay.toInt ∧ delay.toInt ≤ (Jitter.bound span).toInt ∧
        (holder.maxCache.toInt = 0 ∨ delay.toInt < holder.maxCache.toInt) ∧
        (holder.jitterWithin span words).holder = { holder with maxCache := delay } := by
  have hnonneg : 0 ≤ (Jitter.bound span).toInt := by
    rw [Jitter.toInt_bound]
    omega
  rcases Int.lt_or_eq_of_le hnonneg with hpos | hzero
  · obtain ⟨delay, -, hlow, hhigh, heq⟩ := jitterWithin_of_bound_pos hpos words holder
    rw [heq]
    dsimp only
    split
    next hshorter => exact .inr ⟨delay, hlow, hhigh, hshorter, rfl⟩
    next => exact .inl rfl
  · left
    rw [jitterWithin_of_bound_eq_zero ((int32_eq_zero_iff _).mpr hzero.symm)]

end ExpiringCache.Holder
