import ExpiringCache.Json.Format
import ExpiringCache.Proofs.Json.NumeralText

/-!
# Floating-point numbers read back

What is written for a finite number is a numeral, which reads back as a number. It need not be the
same one: the reader rounds the power of ten before it rounds the product. Infinities and words that
are no numbers are written as a word instead, which is refused.
-/
namespace ExpiringCache.Json

namespace FloatText

open Binary64 (Scientific shortest)

/-- The parts in which a decimal is written. -/
def numeral (negative : Bool) (number : Scientific) : Numeral :=
  let digits := Decimal.digits number.coefficient
  let place : Int := digits.length + number.exponent
  if 0 ≤ number.exponent ∧ place ≤ 16 then
    ⟨negative, digits ++ List.replicate number.exponent.toNat 0, [0], none⟩
  else if 0 < place ∧ place ≤ 16 then
    ⟨negative, digits.take place.toNat, digits.drop place.toNat, none⟩
  else if -5 < place ∧ place ≤ 0 then
    ⟨negative, [0], List.replicate (-place).toNat 0 ++ digits, none⟩
  else ⟨negative, digits.take 1, digits.drop 1, some (place - 1)⟩

def numeralOf (x : Binary64) : Numeral :=
  if x.magnitude = 0 then ⟨x.negative, [0], [0], none⟩
  else numeral x.negative (shortest x.magnitude)

theorem text_numeral (negative : Bool) (number : Scientific) :
    (numeral negative number).text = Numeral.signText negative ++ writeScientific number := by
  have hne := Decimal.digits_ne_nil number.coefficient
  simp only [numeral, writeScientific]
  generalize Decimal.digits number.coefficient = digits at *
  have hlength : 0 < digits.length := List.length_pos_iff.mpr hne
  split
  · simp [Numeral.text, Numeral.fractionText, Numeral.exponentText, digitBytes]
  · split
    · have hdrop : digits.drop (digits.length + number.exponent).toNat ≠ [] := by
        intro hempty
        rw [List.drop_eq_nil_iff] at hempty
        omega
      simp [Numeral.text, Numeral.fractionText, Numeral.exponentText, hdrop]
    · split
      · simp [Numeral.text, Numeral.fractionText, Numeral.exponentText, digitBytes, hne]
      · simp [Numeral.text, Numeral.fractionText, Numeral.exponentText]

theorem write_eq_text {x : Binary64} (h : x.isFinite = true) : write x = (numeralOf x).text := by
  by_cases hzero : x.magnitude = 0
  · rw [write, if_pos h, if_pos hzero, numeralOf, if_pos hzero]
    simp [Numeral.text, Numeral.signText, Numeral.fractionText, Numeral.exponentText, digitBytes]
  · rw [write, if_pos h, if_neg hzero, numeralOf, if_neg hzero, text_numeral, Numeral.signText]

/-- The first of some whole digits are whole digits, too. -/
theorem isWhole_take {digits : List Nat} (h : Numeral.IsWhole digits) {count : Nat}
    (hpos : 0 < count) : Numeral.IsWhole (digits.take count) := by
  obtain ⟨count, rfl⟩ := Nat.exists_eq_add_one_of_ne_zero (Nat.ne_of_gt hpos)
  cases h with
  | zero =>
    rw [List.take_succ_cons, List.take_nil]
    exact .zero
  | nonzero ds hd => exact .nonzero _ hd

/-- A decimal is written as a numeral if it is not a zero with a positive power of ten. -/
theorem wellFormed_numeral (negative : Bool) {number : Scientific}
    (hzero : number.coefficient = 0 → number.exponent < 0) :
    (numeral negative number).WellFormed := by
  have hdigits : ∀ d ∈ Decimal.digits number.coefficient, d < 10 :=
    fun _ => Decimal.lt_ten_of_mem_digits
  have hwhole := Numeral.isWhole_digits number.coefficient
  have hzeros : ∀ count, ∀ d ∈ List.replicate count 0, d < 10 := by
    intro count d hd
    rw [List.eq_of_mem_replicate hd]
    decide
  simp only [numeral]
  split
  next hplain =>
    have hne : number.coefficient ≠ 0 := fun h => by
      have := hzero h
      omega
    obtain ⟨d, ds, hds, hd⟩ := Decimal.exists_digits_eq_cons hne
    refine ⟨?_, ?_, by simp⟩
    · rw [hds]
      exact .nonzero _ hd
    · exact List.forall_mem_append.mpr ⟨hdigits, hzeros _⟩
  · split
    next hpoint =>
      exact ⟨isWhole_take hwhole (by omega), fun d hd => hdigits d (List.mem_of_mem_take hd),
        fun d hd => hdigits d (List.mem_of_mem_drop hd)⟩
    · split
      · exact ⟨.zero, by simp, List.forall_mem_append.mpr ⟨hzeros _, hdigits⟩⟩
      · exact ⟨isWhole_take hwhole (by omega), fun d hd => hdigits d (List.mem_of_mem_take hd),
          fun d hd => hdigits d (List.mem_of_mem_drop hd)⟩

/-- A decimal is written either with few digits before a point, or with one digit before it and an
exponent. -/
theorem numeral_layout (negative : Bool) (number : Scientific) :
    (numeral negative number).exponent = none ∧ (numeral negative number).fraction ≠ [] ∧
        (numeral negative number).whole.length ≤ 16 ∨
      (numeral negative number).whole.length = 1 ∧
        (numeral negative number).whole ++ (numeral negative number).fraction =
          Decimal.digits number.coefficient ∧
        (numeral negative number).exponent =
          some ((numeral negative number).fraction.length + number.exponent) := by
  have hne := Decimal.digits_ne_nil number.coefficient
  simp only [numeral]
  generalize Decimal.digits number.coefficient = digits at *
  have hlength := List.length_pos_iff.mpr hne
  split
  · refine .inl ⟨rfl, by simp, ?_⟩
    simp only [List.length_append, List.length_replicate]
    omega
  · split
    · refine .inl ⟨rfl, ?_, ?_⟩
      · simp only [ne_eq, List.drop_eq_nil_iff]
        omega
      · simp only [List.length_take]
        omega
    · split
      · exact .inl ⟨rfl, by simp [hne], by simp⟩
      · refine .inr ⟨?_, List.take_append_drop 1 digits, ?_⟩
        · simp only [List.length_take]
          omega
        · simp only [List.length_drop, Option.some.injEq]
          omega

/-- A decimal that can be scaled, whatever digits are dropped from it, is written as a numeral that
is in the range. -/
theorem exists_toBinary64?_numeral (negative : Bool) {number : Scientific}
    (hzero : number.coefficient = 0 → number.exponent < 0) (hscales : number.Scales) :
    ∃ value, (numeral negative number).toBinary64? = some value := by
  have hwell := wellFormed_numeral negative hzero
  rcases numeral_layout negative number with
    ⟨hexponent, hfraction, hlength⟩ | ⟨hlength, hdigits, hexponent⟩
  · exact Numeral.exists_toBinary64?_of_fraction hwell hexponent hfraction hlength
  · generalize numeral negative number = written at *
    have hwhole : Decimal.value written.whole < 10 ^ 1 := hlength ▸ Decimal.value_lt hwell.whole
    obtain ⟨dropped, full, -, hscaled⟩ := Numeral.exists_scaled hwell.fraction (by omega)
    have hsum : (written.fraction.length + number.exponent : Int) - written.fraction.length +
        dropped = number.exponent + dropped := by omega
    rw [hdigits, Decimal.value_digits, hexponent, Option.getD_some, hsum] at hscaled
    obtain ⟨magnitude, hmagnitude⟩ := hscales dropped
    exact ⟨_, by rw [Numeral.toBinary64?, hscaled]; simp only; rw [hmagnitude]; rfl⟩

theorem wellFormed_numeralOf {x : Binary64} (h : x.isFinite = true) :
    (numeralOf x).WellFormed ∧ ∃ value, (numeralOf x).toBinary64? = some value := by
  by_cases hzero : x.magnitude = 0
  · have hwell : (numeralOf x).WellFormed := by
      rw [numeralOf, if_pos hzero]
      exact ⟨.zero, by simp, by simp⟩
    refine ⟨hwell, Numeral.exists_toBinary64?_of_fraction hwell ?_ ?_ ?_⟩ <;>
      simp [numeralOf, hzero]
  · obtain ⟨hscales, hfinest⟩ := Binary64.shortest_scales hzero (of_decide_eq_true h)
    have hnegative : (shortest x.magnitude).coefficient = 0 →
        (shortest x.magnitude).exponent < 0 := by
      intro hcoefficient
      rw [hfinest hcoefficient]
      decide
    rw [numeralOf, if_neg hzero]
    exact ⟨wellFormed_numeral x.negative hnegative,
      exists_toBinary64?_numeral x.negative hnegative hscales⟩

/-- A finite number reads back as some number, unless its numeral goes on. -/
theorem exists_readBinary64_write {x : Binary64} (h : x.isFinite = true) {rest : List UInt8}
    (ends : EndsNumeral rest) :
    ∃ value, readBinary64 (write x ++ rest) = .ok (value, rest) := by
  obtain ⟨hwell, value, hvalue⟩ := wellFormed_numeralOf h
  have hnumber : readNumber (write x ++ rest) = .ok (⟨numeralOf x, value⟩, rest) := by
    rw [write_eq_text h]
    simp only [readNumber, Numeral.read_text .truncated hwell ends, hvalue]
  obtain ⟨b, bytes, hbytes, hfirst⟩ := Numeral.exists_text_eq_cons hwell
  have hblank : isBlank b = false := by
    rcases hfirst with rfl | hdigit
    · decide
    · exact isBlank_of_isDigit hdigit
  have hnumeric : readNumeric (write x ++ rest) = .ok (⟨numeralOf x, value⟩, rest) := by
    rw [write_eq_text h, hbytes, List.cons_append] at hnumber ⊢
    simp only [readNumeric, skipBlank_cons hblank, hfirst, if_true, hnumber]
  exact ⟨value, by simp only [readBinary64, hnumeric]⟩

end FloatText

namespace Format

theorem exists_decode_binary64 {x : Binary64} (h : x.isFinite = true) :
    ∃ value, binary64.decode (binary64.write x) = .ok value := by
  obtain ⟨value, hvalue⟩ := FloatText.exists_readBinary64_write h (show EndsNumeral [] by
    intro b hb
    cases hb)
  rw [List.append_nil] at hvalue
  refine ⟨value, ?_⟩
  show readAll readBinary64 (FloatText.write x) = .ok value
  rw [readAll, hvalue]
  rfl

/-- An infinity or a word that is no number is written, but what is written is not read. -/
theorem decode_binary64_of_not_finite {x : Binary64} (h : x.isFinite = false) :
    binary64.decode (binary64.write x) = .error .mismatched := by
  have hwrite : FloatText.write x = Byte.ofAscii "null" := if_neg (by simp [h])
  show readAll readBinary64 (FloatText.write x) = .error .mismatched
  rw [hwrite]
  rfl

end Format

end ExpiringCache.Json
