import ExpiringCache.Binary64.Shortest
import ExpiringCache.Proofs.Binary64.Range

/-!
# The range of shortest decimals

The shortest decimal of a finite magnitude can be scaled back to a magnitude, also if some of its
last digits are dropped. It lies below the midpoint behind its magnitude, and this is far enough
from the end of the range for all magnitudes but the two greatest, whose decimals are known.
-/
namespace ExpiringCache.Binary64

/-- However many of its last digits are dropped, the decimal can be scaled. -/
def Scientific.Scales (number : Scientific) : Prop :=
  ∀ dropped : Nat, ∃ scaled,
    scale (ofNat (number.coefficient / 10 ^ dropped)) (number.exponent + dropped) = some scaled

/-- The decimal on the grid of a rank. -/
def onRank (coefficient rank : Nat) : Scientific := ⟨coefficient, finestGrid + rank⟩

theorem scales_onRank {coefficient rank : Nat}
    (h : coefficient * 10 ^ rank ≤ safeBound * 10 ^ 324) : (onRank coefficient rank).Scales := by
  intro dropped
  by_cases hneg : (onRank coefficient rank).exponent + dropped < 0
  · exact exists_scale_of_neg _ hneg
  · simp only [onRank, finestGrid] at hneg ⊢
    obtain ⟨exponent, hexponent⟩ : ∃ exponent, rank + dropped = exponent + 324 :=
      ⟨rank + dropped - 324, by omega⟩
    have hcast : (-324 + rank + dropped : Int) = exponent := by omega
    have hscaled :
        coefficient / 10 ^ dropped * 10 ^ exponent * 10 ^ 324 ≤ safeBound * 10 ^ 324 := by
      calc coefficient / 10 ^ dropped * 10 ^ exponent * 10 ^ 324
          = coefficient / 10 ^ dropped * 10 ^ dropped * 10 ^ rank := by
            rw [Nat.mul_assoc, Nat.mul_assoc, ← Nat.pow_add 10 exponent 324, ← hexponent,
              Nat.add_comm, Nat.pow_add]
        _ ≤ coefficient * 10 ^ rank := Nat.mul_le_mul_right _ (Nat.div_mul_le_self _ _)
        _ ≤ safeBound * 10 ^ 324 := h
    rw [hcast]
    generalize 324 = finest at hscaled
    exact exists_scale_of_le (Nat.le_of_mul_le_mul_right hscaled (Nat.pow_pos (by omega)))

/-- A decimal scales if it does as it is and without its last digit. -/
theorem scales_of_shorter {coefficient rank scaled : Nat}
    (h : scale (ofNat coefficient) (onRank coefficient rank).exponent = some scaled)
    (shorter : (onRank (coefficient / 10) (rank + 1)).Scales) :
    (onRank coefficient rank).Scales := by
  rintro (_ | dropped)
  · simpa [onRank] using ⟨scaled, h⟩
  · have hdigits : coefficient / 10 ^ (dropped + 1) = coefficient / 10 / 10 ^ dropped := by
      rw [Nat.div_div_eq_div_mul, Nat.pow_succ']
    have hexponent : (onRank coefficient rank).exponent + (dropped + 1 : Nat) =
        (onRank (coefficient / 10) (rank + 1)).exponent + dropped := by
      simp only [onRank]
      omega
    rw [hexponent]
    simp only [onRank, hdigits]
    exact shorter dropped

theorem roundQuotient_eq_or (numerator denominator : Nat) :
    roundQuotient numerator denominator = numerator / denominator ∨
      roundQuotient numerator denominator = numerator / denominator + 1 := by
  have hlower := le_roundQuotient numerator denominator
  have hupper := roundQuotient_le numerator denominator
  omega

theorem roundsTo_of_onGrid? {magnitude rank coefficient : Nat}
    (h : onGrid? magnitude rank = some coefficient) :
    roundsTo magnitude (coefficient * spacingTwice rank) = true := by
  simp only [onGrid?] at h
  generalize scaledTwice (units magnitude) = value at h
  generalize spacingTwice rank = spacing at h ⊢
  split at h
  next hboth =>
    obtain ⟨hlower, hupper⟩ := Bool.and_eq_true_iff.mp hboth
    rw [← Option.some.inj h]
    rcases roundQuotient_eq_or value spacing with heq | heq <;> rw [heq] <;> assumption
  · split at h
    next hlower => rwa [← Option.some.inj h]
    · split at h
      next hupper => rwa [← Option.some.inj h]
      · cases h

/-- The shortest decimal lies on the grid of some rank, and unless no decimal was found at all it
rounds to its magnitude. -/
theorem exists_shortestUpTo (magnitude last : Nat) :
    ∃ coefficient rank, shortestUpTo magnitude last = onRank coefficient rank ∧
      (roundsTo magnitude (coefficient * spacingTwice rank) = true ∨
        coefficient = 0 ∧ rank = 0) := by
  induction last with
  | zero =>
    cases hgrid : onGrid? magnitude 0 with
    | none => exact ⟨0, 0, by simp [shortestUpTo, hgrid, onRank], .inr ⟨rfl, rfl⟩⟩
    | some coefficient =>
      exact ⟨coefficient, 0, by simp [shortestUpTo, hgrid, onRank],
        .inl (roundsTo_of_onGrid? hgrid)⟩
  | succ last ih =>
    cases hgrid : onGrid? magnitude (last + 1) with
    | none => simpa only [shortestUpTo, hgrid] using ih
    | some coefficient =>
      exact ⟨coefficient, last + 1, by simp [shortestUpTo, hgrid, onRank],
        .inl (roundsTo_of_onGrid? hgrid)⟩

theorem le_of_roundsTo {magnitude point : Nat} (h : roundsTo magnitude point = true) :
    (units (magnitude - 1) + units magnitude) * 10 ^ 324 ≤ point ∧
      point ≤ (units magnitude + units (magnitude + 1)) * 10 ^ 324 := by
  simp only [roundsTo] at h
  split at h <;> simp only [Bool.and_eq_true, decide_eq_true_eq] at h <;> omega

/-- Only the zero magnitude has a decimal that is zero, unless none was found. -/
theorem coefficient_ne_zero {magnitude coefficient rank : Nat} (hpos : magnitude ≠ 0)
    (h : roundsTo magnitude (coefficient * spacingTwice rank) = true) : coefficient ≠ 0 := by
  rintro rfl
  have hlow := (le_of_roundsTo h).1
  have hunits := units_pos hpos
  generalize 324 = finest at hlow
  have hmul : 0 < (units (magnitude - 1) + units magnitude) * 10 ^ finest :=
    Nat.mul_pos (by omega) (Nat.pow_pos (by omega))
  omega

/-- The value of the third of the magnitudes counted from the greatest. -/
theorem units_third : units (infinity - 3) = (2 ^ 53 - 3) * (2 * halfStep) := by
  decide +kernel

theorem units_second : units (infinity - 2) = (2 ^ 53 - 2) * (2 * halfStep) := by
  decide +kernel

theorem coefficient_mul_le {magnitude coefficient rank : Nat} (hle : magnitude ≤ infinity - 3)
    (h : roundsTo magnitude (coefficient * spacingTwice rank) = true) :
    coefficient * 10 ^ rank ≤ safeBound * 10 ^ 324 := by
  have hpoint := (le_of_roundsTo h).2
  have hfirst := units_mono hle
  have hsecond : units (magnitude + 1) ≤ units (infinity - 2) := units_mono (by
    have : 3 ≤ infinity := by decide
    omega)
  rw [units_third] at hfirst
  rw [units_second] at hsecond
  have hsum : units magnitude + units (magnitude + 1) ≤ 2 * (safeBound * unitsOfOne) := by
    rw [safeBound_mul_unitsOfOne]
    omega
  have hscaled : 2 * unitsOfOne * (coefficient * 10 ^ rank) ≤
      2 * unitsOfOne * (safeBound * 10 ^ 324) := by
    calc 2 * unitsOfOne * (coefficient * 10 ^ rank)
        = coefficient * spacingTwice rank := by rw [spacingTwice, Nat.mul_left_comm]
      _ ≤ (units magnitude + units (magnitude + 1)) * 10 ^ 324 := hpoint
      _ ≤ 2 * (safeBound * unitsOfOne) * 10 ^ 324 := Nat.mul_le_mul_right _ hsum
      _ = 2 * unitsOfOne * (safeBound * 10 ^ 324) := by
          rw [Nat.mul_comm safeBound, ← Nat.mul_assoc 2, Nat.mul_assoc]
  exact Nat.le_of_mul_le_mul_left hscaled (Nat.mul_pos (by omega) unitsOfOne_pos)

theorem scales_greatest {coefficient : Nat} (hle : coefficient / 10 ≤ 1797693134862315)
    (hrange : mul (ofNat coefficient) (ofNat (10 ^ 292)) < infinity) :
    (onRank coefficient 616).Scales := by
  have hscale : scale (ofNat coefficient) (onRank coefficient 616).exponent =
      some (mul (ofNat coefficient) (ofNat (10 ^ 292))) :=
    @scale_of_mul_lt _ 292 (by decide) hrange
  have hbound : 1797693134862315 * 10 ^ (616 + 1) ≤ safeBound * 10 ^ 324 := by decide +kernel
  exact scales_of_shorter hscale
    (scales_onRank (Nat.le_trans (Nat.mul_le_mul_right _ hle) hbound))

/-- The shortest decimal of a finite magnitude can be scaled, and it is not zero unless it is on the
finest grid. -/
theorem shortest_scales {magnitude : Nat} (hpos : magnitude ≠ 0) (hfinite : magnitude < infinity) :
    (shortest magnitude).Scales ∧
      ((shortest magnitude).coefficient = 0 → (shortest magnitude).exponent = finestGrid) := by
  obtain ⟨coefficient, rank, hshortest, hfound⟩ := exists_shortestUpTo magnitude coarsestRank
  rw [← shortest] at hshortest
  constructor
  · by_cases hle : magnitude ≤ infinity - 3
    · rw [hshortest]
      rcases hfound with hrounds | ⟨rfl, rfl⟩
      · exact scales_onRank (coefficient_mul_le hle hrounds)
      · exact scales_onRank (by omega)
    · obtain rfl | rfl : magnitude = infinity - 1 ∨ magnitude = infinity - 2 := by omega
      · have hgreatest : shortest (infinity - 1) = onRank 17976931348623157 616 := by decide +kernel
        rw [hgreatest]
        exact scales_greatest (by omega) (by decide +kernel)
      · have hnext : shortest (infinity - 2) = onRank 17976931348623155 616 := by decide +kernel
        rw [hnext]
        exact scales_greatest (by omega) (by decide +kernel)
  · intro hzero
    rw [hshortest] at hzero ⊢
    rcases hfound with hrounds | ⟨-, rfl⟩
    · exact absurd hzero (coefficient_ne_zero hpos hrounds)
    · rfl

end ExpiringCache.Binary64
