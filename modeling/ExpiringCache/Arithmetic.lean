/-!
# Bounded arithmetic

Signed 64-bit sums and products that report a result outside the word, differences that stop at
the ends of the word, and the clamp of a count of seconds to the non-negative 32-bit range. One
lemma for each operation says what it is in the unbounded integers.
-/

namespace ExpiringCache

-- A power of numbers is the one of the core library, whatever else is in scope where it is written.
attribute [instance (2000)] instPowNat
attribute [default_instance 20000] instPowNat

/-- The kind of operation whose exact result did not fit in its word. -/
inductive Overflow where
  | add
  | multiply
deriving DecidableEq

def Overflow.message : Overflow → String
  | .add => "attempt to add with overflow"
  | .multiply => "attempt to multiply with overflow"

namespace Arithmetic

/-- The integers that a signed 64-bit word holds. -/
def Fits (n : Int) : Prop := -2 ^ 63 ≤ n ∧ n < 2 ^ 63

instance : DecidablePred Fits := fun _ => inferInstanceAs (Decidable (_ ∧ _))

theorem fits_toInt (a : Int64) : Fits a.toInt := ⟨a.le_toInt, a.toInt_lt⟩

/-- The exact sum, or a report that it does not fit. -/
def addChecked (a b : Int64) : Except Overflow Int64 :=
  if Fits (a.toInt + b.toInt) then .ok (Int64.ofInt (a.toInt + b.toInt)) else .error .add

/-- The exact product, or a report that it does not fit. -/
def mulChecked (a b : Int64) : Except Overflow Int64 :=
  if Fits (a.toInt * b.toInt) then .ok (Int64.ofInt (a.toInt * b.toInt)) else .error .multiply

/-- The difference, held at the end of the word that it would pass. -/
def subSaturating (a b : Int64) : Int64 :=
  if a.toInt - b.toInt < -2 ^ 63 then Int64.minValue
  else if 2 ^ 63 ≤ a.toInt - b.toInt then Int64.maxValue
  else a - b

/-- The nearest count of seconds that a limit can have: at least `0`, at most `2147483647`. -/
def limitSeconds (n : Int64) : Int32 :=
  if n ≤ 0 then 0 else if 2147483647 ≤ n then Int32.maxValue else n.toInt32

theorem addChecked_eq_ok_iff {a b c : Int64} :
    addChecked a b = .ok c ↔ c.toInt = a.toInt + b.toInt := by
  have hc := fits_toInt c
  unfold addChecked
  split
  next h =>
    have hs := Int64.toInt_ofInt_of_le h.1 h.2
    constructor
    · rintro ⟨⟩
      exact hs
    · intro e
      rw [← e, Int64.ofInt_toInt]
  next h =>
    constructor
    · nofun
    · intro e
      exact absurd (e ▸ hc) h

theorem addChecked_eq_error_iff {a b : Int64} {o : Overflow} :
    addChecked a b = .error o ↔ o = .add ∧ ¬ Fits (a.toInt + b.toInt) := by
  unfold addChecked
  split <;> simp_all [eq_comm]

theorem toInt_subSaturating (a b : Int64) :
    (subSaturating a b).toInt = max (-2 ^ 63) (min (2 ^ 63 - 1) (a.toInt - b.toInt)) := by
  unfold subSaturating
  split
  next h => rw [Int64.toInt_minValue]; omega
  next h =>
    split
    next h' => rw [Int64.toInt_maxValue]; omega
    next h' =>
      rw [Int64.toInt_sub, Int.bmod_eq_of_le (by omega) (by omega)]
      omega

theorem toInt_limitSeconds (n : Int64) :
    (limitSeconds n).toInt = max 0 (min 2147483647 n.toInt) := by
  unfold limitSeconds
  have hzero : (0 : Int64).toInt = 0 := rfl
  have htop : (2147483647 : Int64).toInt = 2147483647 := rfl
  split
  next h =>
    rw [Int64.le_iff_toInt_le, hzero] at h
    have : (0 : Int32).toInt = 0 := rfl
    omega
  next h =>
    rw [Int64.le_iff_toInt_le, hzero] at h
    split
    next h' =>
      rw [Int64.le_iff_toInt_le, htop] at h'
      have : Int32.maxValue.toInt = 2147483647 := rfl
      omega
    next h' =>
      rw [Int64.le_iff_toInt_le, htop] at h'
      rw [Int64.toInt_toInt32, Int.bmod_eq_of_le (by omega) (by omega)]
      omega

end Arithmetic

end ExpiringCache
