import Mathlib.Algebra.BigOperators.Group.Finset.Basic
import Mathlib.Data.FinEnum
import Mathlib.Order.Interval.Finset.Nat
import ExpiringCache.Jitter

/-!
# How many words give a delay

The products of the words with a range of `r` are the multiples of `r` below `2 ^ 32 * r`. A word
counts and gives the delay `d` if its product is less than `r * 2 ^ k` past `(d - 1) * 2 ^ 32`,
where `k` is the number of leading zeros of `r`. A stretch of that length holds `2 ^ k` multiples of
`r` wherever it begins, so that every delay has the same number of words, and these follow each
other.
-/
namespace ExpiringCache.Jitter

theorem log2_le_of_lt {range : Nat} (h : range < 2 ^ 32) : range.log2 ≤ 31 := by
  by_cases hzero : range = 0
  · rw [hzero]
    decide
  · exact Nat.le_of_lt_succ ((Nat.log2_lt hzero).mpr h)

/-- A range that is shifted by its leading zeros has no leading zeros. -/
theorem scaled_mem {range : Nat} (pos : 0 < range) (fits : range < 2 ^ 32) :
    2 ^ 31 ≤ range * 2 ^ leadingZeros range ∧ range * 2 ^ leadingZeros range < 2 ^ 32 := by
  have hlog := log2_le_of_lt fits
  have hlow : 2 ^ range.log2 ≤ range := Nat.log2_self_le (Nat.ne_of_gt pos)
  have hhigh : range < 2 ^ (range.log2 + 1) := Nat.lt_log2_self
  constructor
  · calc 2 ^ 31 = 2 ^ range.log2 * 2 ^ leadingZeros range := by
          rw [← Nat.pow_add, leadingZeros]
          congr 1
          omega
      _ ≤ range * 2 ^ leadingZeros range := Nat.mul_le_mul_right _ hlow
  · calc range * 2 ^ leadingZeros range
        < 2 ^ (range.log2 + 1) * 2 ^ leadingZeros range :=
          Nat.mul_lt_mul_of_pos_right hhigh (Nat.two_pow_pos _)
      _ = 2 ^ 32 := by
          rw [← Nat.pow_add, leadingZeros]
          congr 1
          omega

/-- The number of leading zeros is that of the 32 bits of the range. -/
theorem leadingZeros_eq_clz {range : Nat} (pos : 0 < range) (fits : range < 2 ^ 32) :
    leadingZeros range = (BitVec.ofNat 32 range).clz.toNat := by
  have hvalue : (BitVec.ofNat 32 range).toNat = range := by
    rw [BitVec.toNat_ofNat, Nat.mod_eq_of_lt fits]
  have hne : BitVec.ofNat 32 range ≠ 0#32 := by
    intro hzero
    rw [hzero] at hvalue
    exact Nat.ne_of_gt pos hvalue.symm
  have hclz : (BitVec.ofNat 32 range).clz.toNat < 32 :=
    BitVec.lt_def.mp (BitVec.clz_lt_iff_ne_zero.mpr hne)
  have hlow := BitVec.two_pow_sub_clz_le_toNat_of_ne_zero (by decide) hne
  have hhigh := BitVec.toNat_lt_two_pow_sub_clz (x := BitVec.ofNat 32 range)
  rw [hvalue] at hlow hhigh
  have hlog : range.log2 = 31 - (BitVec.ofNat 32 range).clz.toNat := by
    rw [Nat.log2_eq_iff (Nat.ne_of_gt pos)]
    refine ⟨hlow, ?_⟩
    rwa [show 31 - (BitVec.ofNat 32 range).clz.toNat + 1 =
      32 - (BitVec.ofNat 32 range).clz.toNat by omega]
  rw [leadingZeros, hlog]
  omega

/-- The first word whose product is not below that of the smallest product of a delay. -/
def firstWord (range delay : Nat) : Nat := ((delay - 1) * 2 ^ 32 + range - 1) / range

theorem firstWord_le_iff {range : Nat} (pos : 0 < range) (delay word : Nat) :
    firstWord range delay ≤ word ↔ (delay - 1) * 2 ^ 32 ≤ word * range := by
  rw [firstWord, ← Nat.lt_succ_iff, Nat.div_lt_iff_lt_mul pos, Nat.succ_mul]
  omega

/-- A stretch of `count` ranges holds `count` multiples of the range. -/
theorem lt_firstWord_add_iff {range : Nat} (pos : 0 < range) (delay count word : Nat) :
    word < firstWord range delay + count ↔
      word * range < (delay - 1) * 2 ^ 32 + range * count := by
  by_cases hlow : word < count
  · have hproduct : word * range < range * count := by
      rw [Nat.mul_comm range]
      exact Nat.mul_lt_mul_of_pos_right hlow pos
    omega
  · obtain ⟨more, rfl⟩ := Nat.exists_eq_add_of_le (Nat.le_of_not_lt hlow)
    have hmore := firstWord_le_iff pos delay more
    rw [Nat.add_mul, Nat.mul_comm range count]
    omega

/-- A word counts and gives a delay if its product lies in the stretch of the delay. -/
theorem accepts_and_delay_eq_iff {range : Nat} (pos : 0 < range) (fits : range < 2 ^ 32)
    {d : Nat} (hd : 1 ≤ d) (word : UInt32) :
    accepts range word = true ∧ delay range word = d ↔
      firstWord range d ≤ word.toNat ∧
        word.toNat < firstWord range d + 2 ^ leadingZeros range := by
  obtain ⟨hlow, hhigh⟩ := scaled_mem pos fits
  rw [firstWord_le_iff pos, lt_firstWord_add_iff pos, accepts, delay, zone, decide_eq_true_eq]
  omega

/-- The stretch of a delay ends before the words do. -/
theorem firstWord_add_le {range : Nat} (pos : 0 < range) (fits : range < 2 ^ 32) {d : Nat}
    (hd : d ≤ range) : firstWord range d + 2 ^ leadingZeros range ≤ 2 ^ 32 := by
  obtain ⟨hlow, hhigh⟩ := scaled_mem pos fits
  refine Nat.le_of_not_lt fun hlast => ?_
  have hproduct := (lt_firstWord_add_iff pos d _ (2 ^ 32)).mp hlast
  have hdelay : (d - 1) * 2 ^ 32 ≤ (range - 1) * 2 ^ 32 :=
    Nat.mul_le_mul_right _ (Nat.sub_le_sub_right hd 1)
  omega

/-- The words that count and give a delay. -/
def wordsOf (range d : Nat) : Finset UInt32 :=
  Finset.univ.filter fun word => accepts range word = true ∧ delay range word = d

theorem wordsOf_eq_image {range : Nat} (pos : 0 < range) (fits : range < 2 ^ 32) {d : Nat}
    (hd : 1 ≤ d) (hle : d ≤ range) :
    wordsOf range d =
      (Finset.Ico (firstWord range d) (firstWord range d + 2 ^ leadingZeros range)).image
        UInt32.ofNat := by
  have hlast := firstWord_add_le pos fits hle
  ext word
  simp only [wordsOf, Finset.mem_filter, Finset.mem_univ, true_and, Finset.mem_image,
    Finset.mem_Ico, accepts_and_delay_eq_iff pos fits hd]
  constructor
  · intro hmem
    exact ⟨word.toNat, hmem, UInt32.ofNat_toNat⟩
  · rintro ⟨number, hmem, rfl⟩
    rwa [UInt32.toNat_ofNat_of_lt' (Nat.lt_of_lt_of_le hmem.2 hlast)]

/-- Every delay has as many words as the leading zeros of the range say. -/
theorem card_wordsOf {range : Nat} (pos : 0 < range) (fits : range < 2 ^ 32) {d : Nat}
    (hd : 1 ≤ d) (hle : d ≤ range) : (wordsOf range d).card = 2 ^ leadingZeros range := by
  have hlast := firstWord_add_le pos fits hle
  rw [wordsOf_eq_image pos fits hd hle, Finset.card_image_of_injOn, Nat.card_Ico,
    Nat.add_sub_cancel_left]
  intro number hnumber other hother heq
  rw [Finset.coe_Ico, Set.mem_Ico] at hnumber hother
  have hwords := congrArg UInt32.toNat heq
  rwa [UInt32.toNat_ofNat_of_lt' (Nat.lt_of_lt_of_le hnumber.2 hlast),
    UInt32.toNat_ofNat_of_lt' (Nat.lt_of_lt_of_le hother.2 hlast)] at hwords

/-- The words that count are those of the delays of the range. -/
theorem card_accepted {range : Nat} (pos : 0 < range) (fits : range < 2 ^ 32) :
    (Finset.univ.filter fun word : UInt32 => accepts range word = true).card =
      range * 2 ^ leadingZeros range := by
  have hmaps : Set.MapsTo (delay range)
      (Finset.univ.filter fun word : UInt32 => accepts range word = true)
      (Finset.Icc 1 range) := by
    intro word _
    exact Finset.mem_coe.mpr (Finset.mem_Icc.mpr ⟨delay_pos range word, delay_le pos word⟩)
  rw [Finset.card_eq_sum_card_fiberwise hmaps]
  have hfiber : ∀ d ∈ Finset.Icc 1 range,
      ((Finset.univ.filter fun word : UInt32 => accepts range word = true).filter
        fun word => delay range word = d).card = 2 ^ leadingZeros range := by
    intro d hd
    obtain ⟨hlow, hhigh⟩ := Finset.mem_Icc.mp hd
    rw [Finset.filter_filter]
    exact card_wordsOf pos fits hlow hhigh
  rw [Finset.sum_const_nat hfiber, Nat.card_Icc, Nat.add_sub_cancel]

end ExpiringCache.Jitter
