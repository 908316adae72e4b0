/-!
# Decimal numerals

Natural numbers and integers as ASCII decimal digits. Reading takes any number of leading zeros;
writing gives the shortest form, and reads back as the number written.
-/

namespace ExpiringCache.Decimal

/-- The decimal digits of a number, most significant first; `0` has one digit. -/
def digits (n : Nat) : List Nat :=
  if n < 10 then [n] else digits (n / 10) ++ [n % 10]

/-- The number that a list of digits denotes, most significant first. -/
def value (ds : List Nat) : Nat := ds.foldl (fun total d => total * 10 + d) 0

theorem value_append_singleton (ds : List Nat) (d : Nat) :
    value (ds ++ [d]) = value ds * 10 + d := by
  simp [value]

@[simp] theorem value_digits (n : Nat) : value (digits n) = n := by
  fun_induction digits n with
  | case1 n h => simp [value]
  | case2 n h ih => rw [value_append_singleton, ih]; omega

theorem digits_ne_nil (n : Nat) : digits n ≠ [] := by
  fun_cases digits n <;> simp

theorem lt_ten_of_mem_digits {n d : Nat} (h : d ∈ digits n) : d < 10 := by
  fun_induction digits n with
  | case1 n hn => simp_all
  | case2 n hn ih =>
    rcases List.mem_append.mp h with h | h
    · exact ih h
    · simp only [List.mem_singleton] at h
      omega

def digit? (c : Char) : Option Nat :=
  if 48 ≤ c.toNat ∧ c.toNat ≤ 57 then some (c.toNat - 48) else none

def digitChar (d : Nat) : Char := Char.ofNat (48 + d)

/-- The digits of a text that has at least one character and nothing but digits. -/
def natural? : List Char → Option Nat
  | [] => none
  | chars => (chars.mapM digit?).map value

/-- A number without sign or after a plus. -/
def unsigned? : List Char → Option Nat
  | '+' :: rest => natural? rest
  | chars => natural? chars

/-- A number without sign, after a plus, or after a minus. -/
def signed? : List Char → Option Int
  | '-' :: rest => (natural? rest).map fun n => -(n : Int)
  | chars => (unsigned? chars).map Int.ofNat

def ofNat (n : Nat) : String := String.ofList ((digits n).map digitChar)

/-- The numeral of an integer, after a minus if it is negative. -/
def ofInt (n : Int) : String :=
  if n < 0 then "-" ++ ofNat n.natAbs else ofNat n.natAbs

theorem digit?_digitChar {d : Nat} (h : d < 10) : digit? (digitChar d) = some d := by
  have : (digitChar d).toNat = 48 + d := by
    have valid : (48 + d).isValidChar := by left; omega
    rw [digitChar, Char.ofNat, dif_pos valid]
    exact UInt32.toNat_ofNatLT ..
  simp [digit?, this]
  omega

theorem natural?_digits (n : Nat) : natural? ((digits n).map digitChar) = some n := by
  have all : ∀ ds : List Nat, (∀ d ∈ ds, d < 10) → (ds.map digitChar).mapM digit? = some ds := by
    intro ds
    induction ds with
    | nil => intro _; rfl
    | cons d rest ih =>
      intro h
      rw [List.map_cons, List.mapM_cons, digit?_digitChar (h d (by simp)),
        ih fun e he => h e (by simp [he])]
      rfl
  have shape : natural? ((digits n).map digitChar) =
      (((digits n).map digitChar).mapM digit?).map value := by
    cases hd : digits n with
    | nil => exact absurd hd (digits_ne_nil n)
    | cons d rest => rfl
  rw [shape, all _ fun d hd => lt_ten_of_mem_digits hd, Option.map_some, value_digits]

end ExpiringCache.Decimal
