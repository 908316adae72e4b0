import ExpiringCache.Binary64

/-!
# The error of rounding

Rounding a natural number to a magnitude moves it by at most one part in `2 ^ 53`, and a quotient
rounds to a finite magnitude if it lies below the midpoint between the greatest one and the next
power of two. A product of two rounded numbers is therefore finite if the exact product stays five
halves of the last step below that power.
-/
namespace ExpiringCache.Binary64

theorem unitsOfOne_pos : 0 < unitsOfOne := by
  unfold unitsOfOne
  generalize 1074 = exponent
  exact Nat.two_pow_pos exponent

theorem two_pow_mul_unitsOfOne (exponent : Nat) :
    2 ^ exponent * unitsOfOne = 2 ^ (exponent + 1074) := by
  unfold unitsOfOne
  generalize 1074 = least
  exact (Nat.pow_add 2 exponent least).symm

/-- The value of a magnitude that is made of a shift and of what is kept. They may come from
rounding, so that what is kept can have grown to the next power of two. -/
theorem units_shifted {shift kept : Nat} (hle : kept ≤ 2 ^ 53)
    (hleast : 2 ^ 52 ≤ kept ∨ shift = 0) : units (shift * 2 ^ 52 + kept) = kept * 2 ^ shift := by
  have hcount : fractionCount = 2 ^ 52 := rfl
  by_cases hsmall : kept < 2 ^ 52
  · obtain rfl : shift = 0 := by omega
    have hfield : (0 * 2 ^ 52 + kept) / 2 ^ 52 = 0 := by omega
    have hfraction : (0 * 2 ^ 52 + kept) % 2 ^ 52 = kept := by omega
    simp only [units, hcount, hfield, hfraction, if_true, Nat.pow_zero, Nat.mul_one]
  · by_cases hlast : kept = 2 ^ 53
    · have hfield : (shift * 2 ^ 52 + kept) / 2 ^ 52 = shift + 2 := by omega
      have hfraction : (shift * 2 ^ 52 + kept) % 2 ^ 52 = 0 := by omega
      simp only [units, hcount, hfield, hfraction]
      rw [if_neg (by omega), hlast, show shift + 2 - 1 = shift + 1 by omega, Nat.pow_succ]
      omega
    · have hfield : (shift * 2 ^ 52 + kept) / 2 ^ 52 = shift + 1 := by omega
      have hfraction : 2 ^ 52 + (shift * 2 ^ 52 + kept) % 2 ^ 52 = kept := by omega
      simp only [units, hcount, hfield, hfraction]
      rw [if_neg (by omega), Nat.add_sub_cancel]

/-- Every magnitude is made of a shift and of at most 53 bits. -/
theorem exists_shifted (magnitude : Nat) :
    ∃ shift kept, magnitude = shift * 2 ^ 52 + kept ∧ kept < 2 ^ 53 ∧
      (2 ^ 52 ≤ kept ∨ shift = 0) := by
  by_cases hzero : magnitude / 2 ^ 52 = 0
  · exact ⟨0, magnitude, by omega, by omega, .inr rfl⟩
  · exact ⟨magnitude / 2 ^ 52 - 1, 2 ^ 52 + magnitude % 2 ^ 52, by omega, by omega, by omega⟩

theorem units_lt_succ (magnitude : Nat) : units magnitude < units (magnitude + 1) := by
  obtain ⟨shift, kept, rfl, hlt, hleast⟩ := exists_shifted magnitude
  rw [Nat.add_assoc, units_shifted (by omega) hleast, units_shifted (by omega) (by omega)]
  exact Nat.mul_lt_mul_of_pos_right (Nat.lt_succ_self kept) (Nat.two_pow_pos shift)

/-- Magnitudes are ordered like their values. -/
theorem units_mono {a b : Nat} (h : a ≤ b) : units a ≤ units b := by
  induction h with
  | refl => exact Nat.le_refl _
  | step _ ih => exact Nat.le_trans ih (Nat.le_of_lt (units_lt_succ _))

theorem units_pos {magnitude : Nat} (h : magnitude ≠ 0) : 0 < units magnitude := by
  have hfirst : units 0 < units 1 := units_lt_succ 0
  have hmono : units 1 ≤ units magnitude := units_mono (by omega)
  omega

theorem roundQuotient_le (numerator denominator : Nat) :
    roundQuotient numerator denominator ≤ numerator / denominator + 1 := by
  simp only [roundQuotient]
  split
  · omega
  · split
    · omega
    · have := Nat.mod_lt (numerator / denominator) (show 0 < 2 by omega)
      omega

theorem le_roundQuotient (numerator denominator : Nat) :
    numerator / denominator ≤ roundQuotient numerator denominator := by
  simp only [roundQuotient]
  split
  · omega
  · split <;> omega

/-- The number of bits that rounding cuts off a quotient. -/
def cut (numerator denominator : Nat) : Nat := (numerator / denominator).log2 - 52

/-- What is kept of a quotient has at most 53 bits, before rounding adds to it. -/
theorem quotient_cut_lt (numerator denominator : Nat) :
    numerator / (denominator * 2 ^ cut numerator denominator) < 2 ^ 53 := by
  have hlog : numerator / denominator < 2 ^ ((numerator / denominator).log2 + 1) :=
    Nat.lt_log2_self
  rw [← Nat.div_div_eq_div_mul, Nat.div_lt_iff_lt_mul (Nat.two_pow_pos _), ← Nat.pow_add]
  refine Nat.lt_of_lt_of_le hlog (Nat.pow_le_pow_right (by omega) ?_)
  unfold cut
  omega

theorem roundUnits_eq_min (numerator denominator : Nat) :
    roundUnits numerator denominator = min infinity (cut numerator denominator * 2 ^ 52 +
      roundQuotient numerator (denominator * 2 ^ cut numerator denominator)) := rfl

theorem kept_le (numerator denominator : Nat) :
    roundQuotient numerator (denominator * 2 ^ cut numerator denominator) ≤ 2 ^ 53 := by
  have hbits := quotient_cut_lt numerator denominator
  have hkept := roundQuotient_le numerator (denominator * 2 ^ cut numerator denominator)
  omega

/-- If anything is cut off, what is kept has all of its 53 bits. -/
theorem two_pow_cut_le {numerator denominator : Nat} (h : cut numerator denominator ≠ 0) :
    2 ^ 52 ≤ numerator / (denominator * 2 ^ cut numerator denominator) := by
  have hquotient : numerator / denominator ≠ 0 := by
    intro hzero
    simp [cut, hzero] at h
  have hlog : 2 ^ (numerator / denominator).log2 ≤ numerator / denominator :=
    Nat.log2_self_le hquotient
  rw [← Nat.div_div_eq_div_mul, Nat.le_div_iff_mul_le (Nat.two_pow_pos _), ← Nat.pow_add]
  rwa [show 52 + cut numerator denominator = (numerator / denominator).log2 by
    unfold cut at *; omega]

theorem le_kept (numerator denominator : Nat) :
    2 ^ 52 ≤ roundQuotient numerator (denominator * 2 ^ cut numerator denominator) ∨
      cut numerator denominator = 0 := by
  by_cases h : cut numerator denominator = 0
  · exact .inr h
  · exact .inl (Nat.le_trans (two_pow_cut_le h) (le_roundQuotient _ _))

theorem units_roundUnits_le (numerator denominator : Nat) :
    units (roundUnits numerator denominator) ≤
      roundQuotient numerator (denominator * 2 ^ cut numerator denominator) *
        2 ^ cut numerator denominator := by
  rw [← units_shifted (kept_le numerator denominator) (le_kept numerator denominator),
    roundUnits_eq_min]
  exact units_mono (Nat.min_le_right _ _)

/-- A natural number is rounded up by at most one part in `2 ^ 53`. -/
theorem units_roundUnits_one_le (n : Nat) :
    units (roundUnits n 1) * 2 ^ 53 ≤ n * (2 ^ 53 + 1) := by
  have hunits := units_roundUnits_le n 1
  by_cases hexact : cut n 1 = 0
  · have hround : roundQuotient n 1 = n := by simp [roundQuotient, Nat.mod_one]
    rw [hexact, Nat.pow_zero, Nat.mul_one, Nat.mul_one, hround] at hunits
    omega
  · have hstep := two_pow_cut_le hexact
    have hnear := (roundQuotient_near n (Nat.mul_pos Nat.one_pos (Nat.two_pow_pos (cut n 1)))).1
    rw [Nat.one_mul] at hstep hnear hunits
    rw [Nat.le_div_iff_mul_le (Nat.two_pow_pos _)] at hstep
    omega

theorem units_ofNat_le (n : Nat) :
    units (ofNat n) * 2 ^ 53 ≤ n * unitsOfOne * (2 ^ 53 + 1) :=
  units_roundUnits_one_le (n * unitsOfOne)

/-- Half of the distance between the greatest finite magnitudes, in units: the value `2 ^ 970`. -/
def halfStep : Nat := 2 ^ 970 * unitsOfOne

theorem halfStep_pos : 0 < halfStep := by
  unfold halfStep
  generalize 970 = exponent
  exact Nat.mul_pos (Nat.two_pow_pos exponent) unitsOfOne_pos

theorem two_pow_mul_halfStep (exponent : Nat) :
    2 ^ exponent * halfStep = 2 ^ (exponent + 970 + 1074) := by
  unfold halfStep
  generalize 970 = middle
  rw [← Nat.mul_assoc, ← Nat.pow_add, two_pow_mul_unitsOfOne]

/-- Whatever lies below the midpoint behind the greatest finite magnitude rounds to a finite one. -/
theorem roundUnits_lt_infinity {numerator denominator : Nat} (hpos : 0 < denominator)
    (h : numerator < (2 ^ 54 - 1) * (halfStep * denominator)) :
    roundUnits numerator denominator < infinity := by
  have hunit : 0 < halfStep * denominator := Nat.mul_pos halfStep_pos hpos
  have hquotient : numerator / denominator < 2 ^ (54 + 970 + 1074) := by
    rw [Nat.div_lt_iff_lt_mul hpos, ← two_pow_mul_halfStep 54, Nat.mul_assoc]
    omega
  have hcut : cut numerator denominator ≤ 2045 := by
    by_cases hzero : numerator / denominator = 0
    · simp [cut, hzero]
    · have hlog := (Nat.log2_lt hzero).mpr hquotient
      unfold cut
      omega
  have hkept := kept_le numerator denominator
  have hinfinity : infinity = 2047 * 2 ^ 52 := rfl
  rw [roundUnits_eq_min]
  refine Nat.lt_of_le_of_lt (Nat.min_le_right _ _) ?_
  by_cases hlast : cut numerator denominator = 1 + 970 + 1074
  · have hdouble : denominator * 2 ^ cut numerator denominator = 2 * (halfStep * denominator) := by
      rw [hlast, ← two_pow_mul_halfStep 1, Nat.mul_comm, Nat.mul_assoc, Nat.pow_one]
    have hnear := (roundQuotient_near numerator (Nat.mul_pos hpos
      (Nat.two_pow_pos (cut numerator denominator)))).1
    rw [hdouble] at hkept hnear ⊢
    generalize halfStep * denominator = unit at *
    generalize roundQuotient numerator (2 * unit) = kept at *
    rw [Nat.mul_left_comm _ 2] at hnear
    have hlt : kept < 2 ^ 53 := by
      refine Decidable.byContradiction fun hge => ?_
      have hscaled : 2 ^ 53 * unit ≤ kept * unit := Nat.mul_le_mul_right _ (by omega)
      omega
    omega
  · omega

/-- If the exact product of two numbers is at most this, the product of their magnitudes is finite:
each of the three roundings adds half of the last step at most. -/
def safeBound : Nat := (2 ^ 54 - 5) * 2 ^ 970

theorem safeBound_mul_unitsOfOne : safeBound * unitsOfOne = (2 ^ 54 - 5) * halfStep := by
  unfold safeBound halfStep
  generalize (2 : Nat) ^ 970 = step
  exact Nat.mul_assoc ..

theorem mul_ofNat_lt_infinity {a b : Nat} (h : a * b ≤ safeBound) :
    mul (ofNat a) (ofNat b) < infinity := by
  refine roundUnits_lt_infinity unitsOfOne_pos ?_
  have hunit : 0 < halfStep * unitsOfOne := Nat.mul_pos halfStep_pos unitsOfOne_pos
  have herrors : units (ofNat a) * units (ofNat b) * (2 ^ 53 * 2 ^ 53) ≤
      (2 ^ 53 + 1) * (2 ^ 53 + 1) * ((2 ^ 54 - 5) * (halfStep * unitsOfOne)) := by
    calc units (ofNat a) * units (ofNat b) * (2 ^ 53 * 2 ^ 53)
        = units (ofNat a) * 2 ^ 53 * (units (ofNat b) * 2 ^ 53) := Nat.mul_mul_mul_comm ..
      _ ≤ a * unitsOfOne * (2 ^ 53 + 1) * (b * unitsOfOne * (2 ^ 53 + 1)) :=
          Nat.mul_le_mul (units_ofNat_le a) (units_ofNat_le b)
      _ = (2 ^ 53 + 1) * (2 ^ 53 + 1) * (a * b * (unitsOfOne * unitsOfOne)) := by
          rw [Nat.mul_mul_mul_comm, Nat.mul_mul_mul_comm a unitsOfOne b unitsOfOne, Nat.mul_comm]
      _ ≤ (2 ^ 53 + 1) * (2 ^ 53 + 1) * (safeBound * (unitsOfOne * unitsOfOne)) :=
          Nat.mul_le_mul_left _ (Nat.mul_le_mul_right _ h)
      _ = (2 ^ 53 + 1) * (2 ^ 53 + 1) * ((2 ^ 54 - 5) * (halfStep * unitsOfOne)) := by
          rw [← Nat.mul_assoc safeBound, safeBound_mul_unitsOfOne, Nat.mul_assoc (2 ^ 54 - 5)]
  generalize halfStep * unitsOfOne = unit at *
  omega

end ExpiringCache.Binary64
