import ExpiringCache.Json.FloatText
import ExpiringCache.Proofs.Binary64.ShortestRange
import ExpiringCache.Proofs.Json.NumberText

/-!
# Numerals read back

A numeral is determined by its parts: sign, whole digits, digits after a point, exponent. The text
that is put together from the parts is read back into them, unless what follows would go on with
the numeral. Of its digits the reader takes as many as fit 64 bits into the coefficient, and the
others behind the point it drops.
-/
namespace ExpiringCache

namespace Decimal

theorem foldl_lt {ds : List Nat} (h : ∀ d ∈ ds, d < 10) (total : Nat) :
    ds.foldl (fun total d => total * 10 + d) total < (total + 1) * 10 ^ ds.length := by
  induction ds generalizing total with
  | nil => simp
  | cons d ds ih =>
    have hd := h d List.mem_cons_self
    have hnext := ih (fun e he => h e (List.mem_cons_of_mem _ he)) (total * 10 + d)
    have hscaled : (total * 10 + d + 1) * 10 ^ ds.length ≤ (total + 1) * 10 * 10 ^ ds.length :=
      Nat.mul_le_mul_right _ (by omega)
    rw [List.foldl_cons, List.length_cons, Nat.pow_succ', ← Nat.mul_assoc]
    exact Nat.lt_of_lt_of_le hnext hscaled

theorem le_foldl_mul (ds : List Nat) (total : Nat) :
    total * 10 ^ ds.length ≤ ds.foldl (fun total d => total * 10 + d) total := by
  induction ds generalizing total with
  | nil => simp
  | cons d ds ih =>
    have hnext := ih (total * 10 + d)
    have hscaled : total * 10 * 10 ^ ds.length ≤ (total * 10 + d) * 10 ^ ds.length :=
      Nat.mul_le_mul_right _ (by omega)
    rw [List.foldl_cons, List.length_cons, Nat.pow_succ', ← Nat.mul_assoc]
    exact Nat.le_trans hscaled hnext

/-- Dropping the digits that were appended gives back what they were appended to. -/
theorem foldl_div {ds : List Nat} (h : ∀ d ∈ ds, d < 10) (total : Nat) :
    ds.foldl (fun total d => total * 10 + d) total / 10 ^ ds.length = total := by
  have hlower := le_foldl_mul ds total
  have hupper := foldl_lt h total
  exact Nat.div_eq_of_lt_le hlower hupper

theorem value_lt {ds : List Nat} (h : ∀ d ∈ ds, d < 10) : value ds < 10 ^ ds.length := by
  simpa [value] using foldl_lt h 0

end Decimal

namespace Json

namespace Numeral

/-- The parts of a numeral that can be written. -/
structure WellFormed (numeral : Numeral) : Prop where
  isWhole : IsWhole numeral.whole
  whole : ∀ d ∈ numeral.whole, d < 10
  fraction : ∀ d ∈ numeral.fraction, d < 10

/-- The sign, which is only written if it is a minus. -/
def signText (negative : Bool) : List UInt8 := if negative then [Byte.minus] else []

def fractionText (fraction : List Nat) : List UInt8 :=
  if fraction.isEmpty then [] else Byte.point :: digitBytes fraction

def exponentText : Option Int → List UInt8
  | none => []
  | some exponent => Byte.ofChar 'e' :: FloatText.writeExponent exponent

def text (numeral : Numeral) : List UInt8 :=
  signText numeral.negative ++ digitBytes numeral.whole ++ fractionText numeral.fraction ++
    exponentText numeral.exponent

theorem readDigits_digitBytes (ending : Fault) {digits : List Nat} (hne : digits ≠ [])
    (h : ∀ d ∈ digits, d < 10) {rest : List UInt8} (ends : EndsDigits rest) :
    readDigits ending (digitBytes digits ++ rest) = .ok (digits, rest) := by
  have htake := takeDigits_digitBytes h ends
  obtain ⟨d, ds, rfl⟩ := List.exists_cons_of_ne_nil hne
  have hdigit := (isDigit_digitByte (h d List.mem_cons_self)).1
  have hbytes : digitBytes (d :: ds) ++ rest =
      (Byte.zero + UInt8.ofNat d) :: (digitBytes ds ++ rest) := by
    simp [digitBytes]
  rw [hbytes] at htake ⊢
  rw [readDigits, if_pos hdigit, htake]

theorem readExponent_exponentText (ending : Fault) (exponent : Option Int) {rest : List UInt8}
    (ends : EndsNumeral rest) :
    readExponent ending (exponentText exponent ++ rest) = .ok (exponent, rest) := by
  cases exponent with
  | none => exact readExponent_of_endsNumeral ending ends
  | some exponent =>
    have hdigits : readDigits ending (writeNat exponent.natAbs ++ rest) =
        .ok (Decimal.digits exponent.natAbs, rest) :=
      readDigits_digitBytes ending (Decimal.digits_ne_nil _)
        (fun _ => Decimal.lt_ten_of_mem_digits) ends.endsDigits
    rw [exponentText, List.cons_append, readExponent, if_pos (.inl rfl)]
    by_cases hneg : exponent < 0
    · have hsign : readSign (FloatText.writeExponent exponent ++ rest) =
          (true, writeNat exponent.natAbs ++ rest) := by
        simp [FloatText.writeExponent, hneg, readSign]
      have hvalue : -(exponent.natAbs : Int) = exponent := by omega
      simp only [hsign, hdigits, Decimal.value_digits, if_true, hvalue]
    · have hsign : readSign (FloatText.writeExponent exponent ++ rest) =
          (false, writeNat exponent.natAbs ++ rest) := by
        have hplus : Byte.plus ≠ Byte.minus := by decide
        simp [FloatText.writeExponent, hneg, readSign, hplus]
      have hvalue : (exponent.natAbs : Int) = exponent := by omega
      simp only [hsign, hdigits, Decimal.value_digits, Bool.false_eq_true, if_false, hvalue]

/-- Neither a digit nor a point stands at the front of what follows the digits of a numeral. -/
theorem head_exponentText (exponent : Option Int) {rest : List UInt8} (ends : EndsNumeral rest) :
    ∀ b ∈ (exponentText exponent ++ rest).head?, isDigit b = false ∧ b ≠ Byte.point := by
  cases exponent with
  | none => exact fun b hb => ⟨(ends b hb).1, (ends b hb).2.1⟩
  | some exponent =>
    intro b hb
    obtain rfl : Byte.ofChar 'e' = b := by simpa [exponentText] using hb
    decide

theorem readFraction_fractionText (ending : Fault) {fraction : List Nat}
    (h : ∀ d ∈ fraction, d < 10) {rest : List UInt8}
    (ends : ∀ b ∈ rest.head?, isDigit b = false ∧ b ≠ Byte.point) :
    readFraction ending (fractionText fraction ++ rest) = .ok (fraction, rest) := by
  have hdigits : EndsDigits rest := fun b hb => (ends b hb).1
  by_cases hempty : fraction = []
  · subst hempty
    cases rest with
    | nil => rfl
    | cons b rest => simp [fractionText, readFraction, (ends b rfl).2]
  · have hread := readDigits_digitBytes ending hempty h hdigits
    simp [fractionText, hempty, readFraction, hread]

theorem endsDigits_fractionText (fraction : List Nat) {rest : List UInt8}
    (ends : EndsDigits rest) : EndsDigits (fractionText fraction ++ rest) := by
  by_cases hempty : fraction = []
  · simpa [fractionText, hempty] using ends
  · intro b hb
    obtain rfl : Byte.point = b := by simpa [fractionText, hempty] using hb
    decide

theorem readUnsigned_text (ending : Fault) {numeral : Numeral} (h : numeral.WellFormed)
    {rest : List UInt8} (ends : EndsNumeral rest) :
    readUnsigned ending numeral.negative (digitBytes numeral.whole ++
      (fractionText numeral.fraction ++ (exponentText numeral.exponent ++ rest))) =
        .ok (numeral, rest) := by
  have hhead := head_exponentText numeral.exponent ends
  have hwhole := readWhole_digitBytes ending h.isWhole h.whole
    (endsDigits_fractionText numeral.fraction fun b hb => (hhead b hb).1)
  simp only [readUnsigned, hwhole, readFraction_fractionText ending h.fraction hhead,
    readExponent_exponentText ending numeral.exponent ends]

/-- The whole digits start with a digit. -/
theorem exists_digitBytes_eq_cons {digits : List Nat} (hwhole : IsWhole digits)
    (h : ∀ d ∈ digits, d < 10) :
    ∃ b bytes, digitBytes digits = b :: bytes ∧ isDigit b = true := by
  cases hwhole with
  | zero => exact ⟨_, [], rfl, by decide⟩
  | nonzero ds _ => exact ⟨_, digitBytes ds, rfl, (isDigit_digitByte (h _ List.mem_cons_self)).1⟩

/-- The text of a numeral starts with a minus or a digit. -/
theorem exists_text_eq_cons {numeral : Numeral} (h : numeral.WellFormed) :
    ∃ b bytes, numeral.text = b :: bytes ∧ (b = Byte.minus ∨ isDigit b = true) := by
  obtain ⟨b, bytes, hbytes, hdigit⟩ := exists_digitBytes_eq_cons h.isWhole h.whole
  cases hneg : numeral.negative with
  | true => exact ⟨Byte.minus, _, by simp [text, signText, hneg]; rfl, .inl rfl⟩
  | false => exact ⟨b, _, by simp [text, signText, hneg, hbytes]; rfl, .inr hdigit⟩

theorem read_text (ending : Fault) {numeral : Numeral} (h : numeral.WellFormed)
    {rest : List UInt8} (ends : EndsNumeral rest) :
    Numeral.read ending (numeral.text ++ rest) = .ok (numeral, rest) := by
  have hunsigned := readUnsigned_text ending h ends
  cases hneg : numeral.negative with
  | true =>
    rw [hneg] at hunsigned
    simpa [text, signText, hneg, Numeral.read] using hunsigned
  | false =>
    obtain ⟨b, bytes, hbytes, hdigit⟩ := exists_digitBytes_eq_cons h.isWhole h.whole
    have hminus : b ≠ Byte.minus := ne_of_isDigit hdigit (by decide)
    rw [hneg, hbytes] at hunsigned
    simpa [text, signText, hneg, hbytes, Numeral.read, hminus] using hunsigned

/-- Once a digit behind the point did not fit, the others are dropped too. -/
theorem foldl_pushFraction_full (digits : List Nat) (coefficient : Nat) (exponent : Int) :
    digits.foldl Scaled.pushFraction ⟨coefficient, exponent, true⟩ =
      ⟨coefficient, exponent, true⟩ := by
  induction digits with
  | nil => rfl
  | cons d digits ih => rw [List.foldl_cons]; exact ih

/-- Digits behind the point go into the coefficient, but for some of the last. The first of them
does if there is room for any digit. -/
theorem exists_foldl_pushFraction {digits : List Nat} (h : ∀ d ∈ digits, d < 10)
    (coefficient : Nat) (exponent : Int) :
    ∃ dropped full, dropped ≤ digits.length ∧
      (digits ≠ [] → coefficient * 10 + 9 < 2 ^ 64 → dropped < digits.length) ∧
      digits.foldl Scaled.pushFraction ⟨coefficient, exponent, false⟩ =
        ⟨digits.foldl (fun total d => total * 10 + d) coefficient / 10 ^ dropped,
          exponent - digits.length + dropped, full⟩ := by
  induction digits generalizing coefficient exponent with
  | nil => exact ⟨0, false, by simp⟩
  | cons d digits ih =>
    have hd := h d List.mem_cons_self
    by_cases hfits : coefficient * 10 + d < 2 ^ 64
    · obtain ⟨dropped, full, hle, -, hfold⟩ := ih (fun e he => h e (List.mem_cons_of_mem _ he))
        (coefficient * 10 + d) (exponent - 1)
      have hpush : Scaled.pushFraction ⟨coefficient, exponent, false⟩ d =
          ⟨coefficient * 10 + d, exponent - 1, false⟩ := if_pos (by simpa using hfits)
      refine ⟨dropped, full, Nat.le_succ_of_le hle, fun _ _ => Nat.lt_succ_of_le hle, ?_⟩
      rw [List.foldl_cons, hpush, hfold, List.foldl_cons, List.length_cons]
      congr 1
      omega
    · have hpush : Scaled.pushFraction ⟨coefficient, exponent, false⟩ d =
          ⟨coefficient, exponent, true⟩ := if_neg (by simpa using hfits)
      refine ⟨(d :: digits).length, true, Nat.le_refl _, fun _ _ => by omega, ?_⟩
      rw [List.foldl_cons, hpush, foldl_pushFraction_full, Decimal.foldl_div h]
      congr 1
      omega

/-- The coefficient of a numeral has all of its digits but some of the last behind the point. -/
theorem exists_scaled {numeral : Numeral} (h : ∀ d ∈ numeral.fraction, d < 10)
    (hwhole : Decimal.value numeral.whole < 2 ^ 64) :
    ∃ dropped full,
      (numeral.fraction ≠ [] → Decimal.value numeral.whole * 10 + 9 < 2 ^ 64 →
        dropped < numeral.fraction.length) ∧
      numeral.scaled = ⟨Decimal.value (numeral.whole ++ numeral.fraction) / 10 ^ dropped,
        numeral.exponent.getD 0 - numeral.fraction.length + dropped, full⟩ := by
  obtain ⟨dropped, full, -, hlt, hfold⟩ :=
    exists_foldl_pushFraction h (Decimal.value numeral.whole) 0
  have hvalue : Decimal.value (numeral.whole ++ numeral.fraction) =
      numeral.fraction.foldl (fun total d => total * 10 + d) (Decimal.value numeral.whole) :=
    List.foldl_append ..
  have hscaled : numeral.scaled =
      { numeral.fraction.foldl Scaled.pushFraction ⟨Decimal.value numeral.whole, 0, false⟩ with
        exponent := (numeral.fraction.foldl Scaled.pushFraction
          ⟨Decimal.value numeral.whole, 0, false⟩).exponent + numeral.exponent.getD 0 } := by
    rw [scaled, foldl_pushWhole hwhole, Decimal.value]
  refine ⟨dropped, full, hlt, ?_⟩
  rw [hscaled, hfold, hvalue, Scaled.mk.injEq]
  exact ⟨rfl, by simp only; omega, rfl⟩

/-- A numeral of few whole digits, with a point and without an exponent, is in the range. -/
theorem exists_toBinary64?_of_fraction {numeral : Numeral} (h : numeral.WellFormed)
    (hexponent : numeral.exponent = none) (hfraction : numeral.fraction ≠ [])
    (hlength : numeral.whole.length ≤ 16) : ∃ value, numeral.toBinary64? = some value := by
  have hvalue : Decimal.value numeral.whole < 10 ^ 16 :=
    Nat.lt_of_lt_of_le (Decimal.value_lt h.whole) (Nat.pow_le_pow_right (by omega) hlength)
  obtain ⟨dropped, full, hlt, hscaled⟩ := exists_scaled h.fraction (by omega)
  have hdropped := hlt hfraction (by omega)
  have hnegative : numeral.scaled.exponent < 0 := by
    rw [hscaled, hexponent]
    simp only [Option.getD_none]
    omega
  obtain ⟨magnitude, hmagnitude⟩ :=
    Binary64.exists_scale_of_neg (Binary64.ofNat numeral.scaled.coefficient) hnegative
  exact ⟨_, by rw [toBinary64?, hmagnitude]; rfl⟩

end Numeral

end Json

end ExpiringCache
