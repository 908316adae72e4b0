import ExpiringCache.Binary64.Scaling
import ExpiringCache.Proofs.Binary64.Rounding

/-!
# The range of scaled magnitudes

A coefficient times a negative power of ten is always a magnitude, and so is its product with a
power of ten if the exact product is not too large, as it is for every natural number of at most 64
bits.
-/
namespace ExpiringCache.Binary64

/-- Scaling by a negative power of ten never leaves the range. -/
theorem exists_scale_of_neg (magnitude : Nat) {exponent : Int} (h : exponent < 0) :
    ∃ scaled, scale magnitude exponent = some scaled := by
  fun_induction scale magnitude exponent with
  | case1 => exact ⟨_, rfl⟩
  | case2 | case3 => contradiction
  | case4 => exact ⟨_, rfl⟩
  | case5 => omega
  | case6 magnitude exponent hlarge _ _ ih =>
    refine ih ?_
    simp only [maxPower] at *
    omega

theorem scale_of_mul_lt {magnitude exponent : Nat} (hpower : exponent ≤ maxPower)
    (hrange : mul magnitude (ofNat (10 ^ exponent)) < infinity) :
    scale magnitude (exponent : Int) = some (mul magnitude (ofNat (10 ^ exponent))) := by
  rw [scale]
  simp only [Int.natAbs_natCast]
  rw [if_pos hpower, if_neg (by omega), if_pos hrange]

theorem safeBound_lt_ten_pow {exponent : Nat} (h : maxPower < exponent) :
    safeBound < 10 ^ exponent := by
  have hbound : safeBound < 10 ^ (maxPower + 1) := by decide +kernel
  exact Nat.lt_of_lt_of_le hbound (Nat.pow_le_pow_right (by omega) h)

theorem exists_scale_of_le {coefficient exponent : Nat}
    (h : coefficient * 10 ^ exponent ≤ safeBound) :
    ∃ scaled, scale (ofNat coefficient) (exponent : Int) = some scaled := by
  by_cases hpower : exponent ≤ maxPower
  · exact ⟨_, scale_of_mul_lt hpower (mul_ofNat_lt_infinity h)⟩
  · have hbound : safeBound < 10 ^ exponent := safeBound_lt_ten_pow (by omega)
    have hzero : coefficient = 0 := by
      refine Decidable.byContradiction fun hne => ?_
      have hone : 1 * 10 ^ exponent ≤ coefficient * 10 ^ exponent :=
        Nat.mul_le_mul_right _ (by omega)
      omega
    have hofNat : ofNat coefficient = 0 := by
      rw [hzero]
      decide +kernel
    rw [scale]
    simp only [Int.natAbs_natCast]
    rw [if_neg hpower, if_pos hofNat]
    exact ⟨_, rfl⟩

/-- A natural number of at most 64 bits is in the range. -/
theorem exists_scale_ofNat {n : Nat} (h : n < 2 ^ 64) :
    ∃ magnitude, scale (ofNat n) 0 = some magnitude := by
  have hbound : 2 ^ 64 ≤ safeBound := by decide +kernel
  have hle : n * 10 ^ 0 ≤ safeBound := by omega
  exact exists_scale_of_le hle

end ExpiringCache.Binary64
