import Mathlib.Data.List.Induction
import Mathlib.Data.Nat.Digits.Defs
import ExpiringCache.Text.Decimal

/-!
# Which texts are decimal numerals

A natural number is read from one or more ASCII digits, and is their value in base ten however many
of them are zeros in front. A number may have a plus, and a signed one a minus. Reading accepts
these texts and no others.
-/
namespace ExpiringCache.Decimal

/-- One or more ASCII digits and the number that they denote in base ten. -/
structure IsNatural (digits : List Char) (n : Nat) : Prop where
  nonempty : digits ≠ []
  ascii : ∀ c ∈ digits, c.isDigit = true
  value : n = Nat.ofDigits 10 (digits.reverse.map fun c => c.toNat - '0'.toNat)

/-- A text and the number that it denotes, after an optional plus or, if numbers are signed, an
optional minus. -/
inductive Denotes (signed : Bool) : List Char → Int → Prop where
  | bare {digits : List Char} {n : Nat} (h : IsNatural digits n) : Denotes signed digits n
  | plus {digits : List Char} {n : Nat} (h : IsNatural digits n) : Denotes signed ('+' :: digits) n
  | minus {digits : List Char} {n : Nat} (negative : signed = true) (h : IsNatural digits n) :
      Denotes signed ('-' :: digits) (-n)

theorem digit?_eq_some_iff {c : Char} {d : Nat} :
    digit? c = some d ↔ c.isDigit = true ∧ d = c.toNat - '0'.toNat := by
  have hascii : c.isDigit = true ↔ 48 ≤ c.toNat ∧ c.toNat ≤ 57 := by
    simp only [Char.isDigit, Bool.and_eq_true, decide_eq_true_eq, ge_iff_le, UInt32.le_iff_toNat_le]
    rfl
  rw [digit?, hascii]
  split
  next h =>
    rw [Option.some.injEq]
    constructor
    · intro hd
      exact ⟨h, hd.symm⟩
    · intro hdigit
      exact hdigit.2.symm
  next h =>
    constructor
    · intro hnone
      cases hnone
    · intro hdigit
      exact absurd hdigit.1 h

theorem mapM_digit?_eq_some_iff {chars : List Char} {ds : List Nat} :
    chars.mapM digit? = some ds ↔
      (∀ c ∈ chars, c.isDigit = true) ∧ ds = chars.map fun c => c.toNat - '0'.toNat := by
  induction chars generalizing ds with
  | nil =>
    constructor
    · rintro ⟨⟩
      exact ⟨by simp, rfl⟩
    · rintro ⟨-, rfl⟩
      rfl
  | cons c rest ih =>
    rw [List.mapM_cons]
    simp only [Option.bind_eq_bind, Option.bind_eq_some_iff, digit?_eq_some_iff, ih]
    constructor
    · rintro ⟨d, ⟨hc, rfl⟩, later, ⟨hrest, rfl⟩, hds⟩
      obtain rfl := Option.some.inj hds
      exact ⟨List.forall_mem_cons.mpr ⟨hc, hrest⟩, rfl⟩
    · rintro ⟨hall, rfl⟩
      obtain ⟨hc, hrest⟩ := List.forall_mem_cons.mp hall
      exact ⟨_, ⟨hc, rfl⟩, _, ⟨hrest, rfl⟩, rfl⟩

/-- Digits from the left are summed up as digits from the right. -/
theorem value_eq_ofDigits (ds : List Nat) : value ds = Nat.ofDigits 10 ds.reverse := by
  induction ds using List.reverseRecOn with
  | nil => rfl
  | append_singleton ds d ih =>
    rw [value_append_singleton, List.reverse_append, List.reverse_singleton, List.singleton_append,
      Nat.ofDigits_cons, ih]
    omega

theorem natural?_eq_some_iff {chars : List Char} {n : Nat} :
    natural? chars = some n ↔ IsNatural chars n := by
  cases chars with
  | nil =>
    constructor
    · nofun
    · intro h
      exact absurd rfl h.nonempty
  | cons c rest =>
    change ((c :: rest).mapM digit?).map value = some n ↔ _
    simp only [Option.map_eq_some_iff, mapM_digit?_eq_some_iff]
    constructor
    · rintro ⟨ds, ⟨hascii, rfl⟩, rfl⟩
      exact ⟨by simp, hascii, by rw [value_eq_ofDigits, List.map_reverse]⟩
    · intro h
      exact ⟨_, ⟨h.ascii, rfl⟩, by rw [value_eq_ofDigits, h.value, List.map_reverse]⟩

/-- A sign is no digit. -/
theorem not_isNatural_of_not_isDigit {c : Char} (h : c.isDigit = false) {rest : List Char}
    {n : Nat} : ¬ IsNatural (c :: rest) n := by
  intro hnatural
  have hc := hnatural.ascii c List.mem_cons_self
  rw [h] at hc
  cases hc

theorem exists_unsigned?_eq_some_iff {chars : List Char} {z : Int} :
    (∃ n : Nat, unsigned? chars = some n ∧ (n : Int) = z) ↔ Denotes false chars z := by
  constructor
  · rintro ⟨n, hn, rfl⟩
    unfold unsigned? at hn
    split at hn
    next => exact .plus (natural?_eq_some_iff.mp hn)
    next => exact .bare (natural?_eq_some_iff.mp hn)
  · intro h
    cases h with
    | bare h =>
      refine ⟨_, ?_, rfl⟩
      unfold unsigned?
      split
      next => exact absurd h (not_isNatural_of_not_isDigit rfl)
      next => exact natural?_eq_some_iff.mpr h
    | plus h => exact ⟨_, natural?_eq_some_iff.mpr h, rfl⟩
    | minus negative => cases negative

theorem signed?_minus (rest : List Char) :
    signed? ('-' :: rest) = (natural? rest).map fun n => -Int.ofNat n := by
  cases h : natural? rest <;> simp [signed?, h]

theorem signed?_of_no_minus {chars : List Char} (h : ∀ rest, chars ≠ '-' :: rest) :
    signed? chars = (unsigned? chars).map Int.ofNat := by
  unfold signed?
  split
  next rest => exact absurd rfl (h rest)
  next => rfl

theorem signed?_eq_some_iff {chars : List Char} {z : Int} :
    signed? chars = some z ↔ Denotes true chars z := by
  by_cases hminus : ∃ rest, chars = '-' :: rest
  · obtain ⟨rest, rfl⟩ := hminus
    rw [signed?_minus, Option.map_eq_some_iff]
    constructor
    · rintro ⟨n, hn, rfl⟩
      exact .minus rfl (natural?_eq_some_iff.mp hn)
    · intro h
      cases h with
      | bare h => exact absurd h (not_isNatural_of_not_isDigit rfl)
      | minus _ h => exact ⟨_, natural?_eq_some_iff.mpr h, rfl⟩
  · rw [not_exists] at hminus
    rw [signed?_of_no_minus hminus, Option.map_eq_some_iff]
    constructor
    · intro hread
      cases exists_unsigned?_eq_some_iff.mp hread with
      | bare h => exact .bare h
      | plus h => exact .plus h
      | minus negative => cases negative
    · intro h
      cases h with
      | bare h => exact exists_unsigned?_eq_some_iff.mpr (.bare h)
      | plus h => exact exists_unsigned?_eq_some_iff.mpr (.plus h)
      | minus _ h => exact absurd rfl (hminus _)

theorem isNatural_ofNat (n : Nat) : IsNatural (ofNat n).toList n := by
  rw [ofNat, String.toList_ofList]
  exact natural?_eq_some_iff.mp (natural?_digits n)

theorem denotes_ofNat (signed : Bool) (n : Nat) : Denotes signed (ofNat n).toList n :=
  .bare (isNatural_ofNat n)

theorem denotes_ofInt (z : Int) : Denotes true (ofInt z).toList z := by
  unfold ofInt
  split
  next h =>
    have hminus : Denotes true ('-' :: (ofNat z.natAbs).toList) (-z.natAbs) :=
      .minus rfl (isNatural_ofNat z.natAbs)
    rw [String.toList_append]
    rwa [show -(z.natAbs : Int) = z by omega] at hminus
  next h =>
    have hbare := denotes_ofNat true z.natAbs
    rwa [show (z.natAbs : Int) = z by omega] at hbare

end ExpiringCache.Decimal
