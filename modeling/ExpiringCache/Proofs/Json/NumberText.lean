import ExpiringCache.Json.Mismatch
import ExpiringCache.Proofs.Binary64.Range

/-!
# Natural numbers read back

The decimal digits of a natural number of at most 32 bits read back as this number, unless what
follows them would go on with the numeral. The reader also asks for the floating-point number of
the same numeral, which exists, since the number is far inside the range.
-/
namespace ExpiringCache

namespace Decimal

/-- Only the number zero is written with a leading zero. -/
theorem exists_digits_eq_cons {n : Nat} (h : n ≠ 0) : ∃ d ds, digits n = d :: ds ∧ d ≠ 0 := by
  fun_induction digits n with
  | case1 n hn => exact ⟨n, [], rfl, h⟩
  | case2 n hn ih =>
    obtain ⟨d, ds, hds, hd⟩ := ih (by omega)
    exact ⟨d, ds ++ [n % 10], by rw [hds]; rfl, hd⟩

theorem digits_zero : digits 0 = [0] := by
  rw [digits, if_pos (by omega)]

theorem le_foldl (ds : List Nat) (total : Nat) :
    total ≤ ds.foldl (fun total d => total * 10 + d) total := by
  induction ds generalizing total with
  | nil => exact Nat.le_refl _
  | cons d ds ih =>
    have hnext := ih (total * 10 + d)
    simp only [List.foldl_cons]
    omega

end Decimal

namespace Json

/-- A text that does not go on with a numeral. -/
def EndsNumeral (rest : List UInt8) : Prop :=
  ∀ b ∈ rest.head?, isDigit b = false ∧ b ≠ Byte.point ∧ b ≠ Byte.ofChar 'e' ∧ b ≠ Byte.ofChar 'E'

def EndsDigits (rest : List UInt8) : Prop := ∀ b ∈ rest.head?, isDigit b = false

theorem EndsNumeral.endsDigits {rest : List UInt8} (ends : EndsNumeral rest) : EndsDigits rest :=
  fun b hb => (ends b hb).1

/-- The byte of a digit below ten. -/
theorem isDigit_digitByte {d : Nat} (h : d < 10) :
    isDigit (Byte.zero + UInt8.ofNat d) = true ∧ digitValue (Byte.zero + UInt8.ofNat d) = d := by
  have hall : ∀ d, d < 10 → isDigit (Byte.zero + UInt8.ofNat d) = true ∧
      digitValue (Byte.zero + UInt8.ofNat d) = d := by decide
  exact hall d h

theorem digitByte_ne_zero {d : Nat} (h : d < 10) (hd : d ≠ 0) :
    Byte.zero + UInt8.ofNat d ≠ Byte.zero := by
  have hall : ∀ d, d < 10 → d ≠ 0 → Byte.zero + UInt8.ofNat d ≠ Byte.zero := by decide
  exact hall d h hd

theorem ne_of_isDigit {b other : UInt8} (h : isDigit b = true) (hother : isDigit other = false) :
    b ≠ other := by
  rintro rfl
  simp [h] at hother

theorem isBlank_of_isDigit {b : UInt8} (h : isDigit b = true) : isBlank b = false := by
  have hne : ∀ other, isDigit other = false → b ≠ other := fun _ => ne_of_isDigit h
  simp [isBlank, hne 0x20 (by decide), hne 0x09 (by decide), hne 0x0A (by decide),
    hne 0x0D (by decide)]

theorem takeDigits_digitBytes {digits : List Nat} (h : ∀ d ∈ digits, d < 10) {rest : List UInt8}
    (ends : EndsDigits rest) : takeDigits (digitBytes digits ++ rest) = (digits, rest) := by
  induction digits with
  | nil =>
    cases rest with
    | nil => rfl
    | cons b rest =>
      have hb := ends b rfl
      simp [takeDigits, digitBytes, hb]
  | cons d digits ih =>
    obtain ⟨hdigit, hvalue⟩ := isDigit_digitByte (h d List.mem_cons_self)
    have hrest := ih fun e he => h e (List.mem_cons_of_mem _ he)
    rw [takeDigits, Prod.mk.injEq] at hrest
    simp only [takeDigits, digitBytes, List.map_cons, List.cons_append, List.takeWhile_cons,
      List.dropWhile_cons, hdigit, if_true, hvalue]
    rw [← digitBytes, hrest.1, hrest.2]

namespace Numeral

/-- Digits that may stand before a point: a single zero, or digits that do not start with one. -/
inductive IsWhole : List Nat → Prop
  | zero : IsWhole [0]
  | nonzero {d : Nat} (ds : List Nat) : d ≠ 0 → IsWhole (d :: ds)

theorem isWhole_digits (n : Nat) : IsWhole (Decimal.digits n) := by
  by_cases hzero : n = 0
  · rw [hzero, Decimal.digits_zero]
    exact .zero
  · obtain ⟨d, ds, hds, hd⟩ := Decimal.exists_digits_eq_cons hzero
    rw [hds]
    exact .nonzero ds hd

theorem readWhole_digitBytes (ending : Fault) {digits : List Nat} (hwhole : IsWhole digits)
    (h : ∀ d ∈ digits, d < 10) {rest : List UInt8} (ends : EndsDigits rest) :
    readWhole ending (digitBytes digits ++ rest) = .ok (digits, rest) := by
  have htake := takeDigits_digitBytes h ends
  cases hwhole with
  | zero =>
    have hbytes : digitBytes [0] ++ rest = Byte.zero :: rest := by simp [digitBytes]
    rw [hbytes]
    cases rest with
    | nil => rfl
    | cons b rest => simp [readWhole, ends b rfl]
  | @nonzero d ds hd =>
    have hlt : d < 10 := h d List.mem_cons_self
    have hbytes : digitBytes (d :: ds) ++ rest =
        (Byte.zero + UInt8.ofNat d) :: (digitBytes ds ++ rest) := by
      simp [digitBytes]
    rw [hbytes] at htake ⊢
    simp only [readWhole, if_neg (digitByte_ne_zero hlt hd), if_pos (isDigit_digitByte hlt).1,
      htake]

theorem readWhole_writeNat (ending : Fault) (n : Nat) {rest : List UInt8}
    (ends : EndsNumeral rest) :
    readWhole ending (writeNat n ++ rest) = .ok (Decimal.digits n, rest) :=
  readWhole_digitBytes ending (isWhole_digits n) (fun _ => Decimal.lt_ten_of_mem_digits)
    ends.endsDigits

theorem readFraction_of_endsNumeral (ending : Fault) {rest : List UInt8}
    (ends : EndsNumeral rest) : readFraction ending rest = .ok ([], rest) := by
  cases rest with
  | nil => rfl
  | cons b rest => rw [readFraction, if_neg (ends b rfl).2.1]

theorem readExponent_of_endsNumeral (ending : Fault) {rest : List UInt8}
    (ends : EndsNumeral rest) : readExponent ending rest = .ok (none, rest) := by
  cases rest with
  | nil => rfl
  | cons b rest =>
    obtain ⟨-, -, hsmall, hcapital⟩ := ends b rfl
    rw [readExponent, if_neg (by simp [hsmall, hcapital])]

/-- The numeral of a natural number: its digits and nothing else. -/
def ofNat (n : Nat) : Numeral := ⟨false, Decimal.digits n, [], none⟩

/-- A natural number is written with at least one digit. -/
theorem exists_writeNat_eq_cons (n : Nat) :
    ∃ b bytes, writeNat n = b :: bytes ∧ isDigit b = true := by
  obtain ⟨d, ds, hds⟩ := List.exists_cons_of_ne_nil (Decimal.digits_ne_nil n)
  have hlt : d < 10 := Decimal.lt_ten_of_mem_digits (hds ▸ List.mem_cons_self)
  exact ⟨_, _, by rw [writeNat, hds]; rfl, (isDigit_digitByte hlt).1⟩

theorem read_writeNat (ending : Fault) (n : Nat) {rest : List UInt8} (ends : EndsNumeral rest) :
    Numeral.read ending (writeNat n ++ rest) = .ok (ofNat n, rest) := by
  have hunsigned : readUnsigned ending false (writeNat n ++ rest) = .ok (ofNat n, rest) := by
    rw [readUnsigned, readWhole_writeNat ending n ends]
    simp only [readFraction_of_endsNumeral ending ends, readExponent_of_endsNumeral ending ends]
    rfl
  obtain ⟨b, bytes, hbytes, hdigit⟩ := exists_writeNat_eq_cons n
  rw [hbytes, List.cons_append] at hunsigned ⊢
  rw [Numeral.read, if_neg (ne_of_isDigit hdigit (by decide)), hunsigned]

theorem natural?_ofNat (n : Nat) : (ofNat n).natural? = some n := by
  simp [ofNat, natural?]

/-- Digits whose number fits 64 bits are all taken into the coefficient. -/
theorem foldl_pushWhole {digits : List Nat} {total : Nat}
    (h : digits.foldl (fun total d => total * 10 + d) total < 2 ^ 64) :
    digits.foldl Scaled.pushWhole ⟨total, 0, false⟩ =
      ⟨digits.foldl (fun total d => total * 10 + d) total, 0, false⟩ := by
  induction digits generalizing total with
  | nil => rfl
  | cons d digits ih =>
    have hle := Decimal.le_foldl digits (total * 10 + d)
    rw [List.foldl_cons] at h
    have hpush : Scaled.pushWhole ⟨total, 0, false⟩ d = ⟨total * 10 + d, 0, false⟩ := by
      have hfits : total * 10 + d < 2 ^ 64 := Nat.lt_of_le_of_lt hle h
      exact if_pos (by simpa using hfits)
    rw [List.foldl_cons, hpush, ih h, List.foldl_cons]

theorem exists_toBinary64?_ofNat {n : Nat} (h : n < 2 ^ 64) :
    ∃ value, (ofNat n).toBinary64? = some value := by
  have hvalue : (Decimal.digits n).foldl (fun total d => total * 10 + d) 0 = n :=
    Decimal.value_digits n
  have hfold := foldl_pushWhole (by rw [hvalue]; exact h : (Decimal.digits n).foldl
    (fun total d => total * 10 + d) 0 < 2 ^ 64)
  rw [hvalue] at hfold
  have hscaled : (ofNat n).scaled = ⟨n, 0, false⟩ := by
    simp [scaled, ofNat, hfold]
  obtain ⟨magnitude, hmagnitude⟩ := Binary64.exists_scale_ofNat h
  rw [toBinary64?, hscaled]
  simp [hmagnitude]

end Numeral

/-- A natural number of at most 32 bits reads back, unless its numeral goes on. -/
theorem readUInt32_writeNat (n : UInt32) {rest : List UInt8} (ends : EndsNumeral rest) :
    readUInt32 (writeNat n.toNat ++ rest) = .ok (n, rest) := by
  have hlt := n.toNat_lt
  obtain ⟨value, hvalue⟩ := Numeral.exists_toBinary64?_ofNat (show n.toNat < 2 ^ 64 by omega)
  have hnumber : readNumber (writeNat n.toNat ++ rest) =
      .ok (⟨Numeral.ofNat n.toNat, value⟩, rest) := by
    simp only [readNumber, Numeral.read_writeNat .truncated n.toNat ends, hvalue]
  have hnumeric : readNumeric (writeNat n.toNat ++ rest) =
      .ok (⟨Numeral.ofNat n.toNat, value⟩, rest) := by
    obtain ⟨b, bytes, hbytes, hdigit⟩ := Numeral.exists_writeNat_eq_cons n.toNat
    have hblank := skipBlank_cons (isBlank_of_isDigit hdigit) (bytes ++ rest)
    rw [hbytes, List.cons_append] at hnumber ⊢
    simp only [readNumeric, hblank, hdigit, or_true, if_true, hnumber]
  simp [readUInt32, hnumeric, Numeral.natural?_ofNat, hlt]

end Json

end ExpiringCache
