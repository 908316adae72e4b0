import ExpiringCache.Arithmetic

/-!
# Random delays

A delay in whole seconds, drawn uniformly between `1` and a bound from a stream of random 32-bit
words. A word is multiplied with the bound; the upper half of the product gives the delay, and the
lower half decides whether the word counts, so that every delay has the same number of words. The
stream is a finite list of words followed by zeros, and a zero always counts.
-/

namespace ExpiringCache

/-- A span of time, in seconds or in milliseconds. -/
inductive Duration where
  | seconds (count : UInt64)
  | millis (count : UInt64)

def Duration.wholeSeconds : Duration → UInt64
  | .seconds count => count
  | .millis count => count / 1000

namespace Jitter

/-- The greatest delay of a span: its whole seconds, as far as a limit can have that many. -/
def bound (span : Duration) : Int32 :=
  Arithmetic.limitSeconds (Int64.ofNat (min span.wholeSeconds.toNat (2 ^ 63 - 1)))

/-- The number of zero bits in front of a positive number of 32 bits. -/
def leadingZeros (n : Nat) : Nat := 31 - n.log2

/-- The greatest lower half of a product for which a word counts. -/
def zone (range : Nat) : Nat := range * 2 ^ leadingZeros range - 1

def accepts (range : Nat) (word : UInt32) : Bool :=
  word.toNat * range % 2 ^ 32 ≤ zone range

/-- The delay of a word that counts. -/
def delay (range : Nat) (word : UInt32) : Nat := 1 + word.toNat * range / 2 ^ 32

/-- A delay and the number of words that it took. -/
structure Draw where
  delay : Nat
  used : Nat
deriving DecidableEq

/-- The delay of the first word that counts, among the given words and the zeros behind them. -/
def draw (range : Nat) : List UInt32 → Draw
  | [] => ⟨delay range 0, 1⟩
  | word :: words =>
    if accepts range word then ⟨delay range word, 1⟩
    else
      let later := draw range words
      ⟨later.delay, later.used + 1⟩

/-- The zeros behind the given words end every draw. -/
theorem accepts_zero (range : Nat) : accepts range 0 = true := by simp [accepts]

theorem delay_pos (range : Nat) (word : UInt32) : 1 ≤ delay range word := Nat.le_add_right _ _

theorem delay_le {range : Nat} (h : 0 < range) (word : UInt32) : delay range word ≤ range := by
  have product : word.toNat * range < 2 ^ 32 * range :=
    Nat.mul_lt_mul_of_pos_right word.toNat_lt h
  have : word.toNat * range / 2 ^ 32 < range := Nat.div_lt_of_lt_mul product
  unfold delay
  omega

end Jitter

end ExpiringCache
