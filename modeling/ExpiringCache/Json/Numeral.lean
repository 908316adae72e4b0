import ExpiringCache.Binary64.Scaling
import ExpiringCache.Json.Reader
import ExpiringCache.Text.Decimal

/-!
# JSON numbers

A natural number is written with its decimal digits. A numeral is read into its parts: sign, whole
digits, digits after a point, exponent. The parts decide which natural number it is, if it is one,
and which floating-point number stands for it.
-/

namespace ExpiringCache.Json

/-- The parts of a number as it is written. -/
structure Numeral where
  negative : Bool
  whole : List Nat
  /-- The digits after the point; none if there is no point. -/
  fraction : List Nat
  exponent : Option Int

def isDigit (b : UInt8) : Bool := Byte.zero ≤ b && b ≤ Byte.nine

def digitValue (b : UInt8) : Nat := (b - Byte.zero).toNat

def digitBytes (digits : List Nat) : List UInt8 := digits.map fun d => Byte.zero + UInt8.ofNat d

def writeNat (n : Nat) : List UInt8 := digitBytes (Decimal.digits n)

/-- The digits at the front of a text and the rest. -/
def takeDigits (bytes : List UInt8) : List Nat × List UInt8 :=
  ((bytes.takeWhile isDigit).map digitValue, bytes.dropWhile isDigit)

namespace Numeral

/-- At least one digit; `ending` is the fault if the text ends instead. -/
def readDigits (ending : Fault) : Reader (List Nat)
  | [] => .error ending
  | b :: rest =>
    if isDigit b then .ok (takeDigits (b :: rest)) else .error .malformed

/-- The whole digits: a single zero, or digits of which the first is not zero. -/
def readWhole (ending : Fault) : Reader (List Nat)
  | [] => .error ending
  | b :: rest =>
    if b = Byte.zero then
      match rest with
      | [] => .ok ([0], [])
      | c :: _ => if isDigit c then .error .malformed else .ok ([0], rest)
    else if isDigit b then .ok (takeDigits (b :: rest))
    else .error .malformed

/-- The digits after a point, if there is a point. -/
def readFraction (ending : Fault) : Reader (List Nat)
  | [] => .ok ([], [])
  | b :: rest => if b = Byte.point then readDigits ending rest else .ok ([], b :: rest)

/-- The sign of an exponent, which may be left out. -/
def readSign : List UInt8 → Bool × List UInt8
  | [] => (false, [])
  | b :: rest =>
    if b = Byte.minus then (true, rest)
    else if b = Byte.plus then (false, rest)
    else (false, b :: rest)

/-- The exponent after a letter `e`, if there is one. -/
def readExponent (ending : Fault) : Reader (Option Int)
  | [] => .ok (none, [])
  | b :: rest =>
    if b = Byte.ofChar 'e' ∨ b = Byte.ofChar 'E' then
      let (negative, rest) := readSign rest
      match readDigits ending rest with
      | .error fault => .error fault
      | .ok (digits, rest) =>
        let size : Int := Decimal.value digits
        .ok (some (if negative then -size else size), rest)
    else .ok (none, b :: rest)

def readUnsigned (ending : Fault) (negative : Bool) (bytes : List UInt8) :
    Except Fault (Numeral × List UInt8) :=
  match readWhole ending bytes with
  | .error fault => .error fault
  | .ok (whole, rest) =>
    match readFraction ending rest with
    | .error fault => .error fault
    | .ok (fraction, rest) =>
      match readExponent ending rest with
      | .error fault => .error fault
      | .ok (exponent, rest) => .ok (⟨negative, whole, fraction, exponent⟩, rest)

/-- A numeral; `ending` is the fault if the text ends inside it. -/
def read (ending : Fault) : Reader Numeral
  | [] => .error ending
  | b :: rest =>
    if b = Byte.minus then readUnsigned ending true rest
    else readUnsigned ending false (b :: rest)

/-- The natural number that is written, if there is neither a minus nor a point nor an exponent. -/
def natural? (numeral : Numeral) : Option Nat :=
  if numeral.negative || !numeral.fraction.isEmpty || numeral.exponent.isSome then none
  else some (Decimal.value numeral.whole)

/-- A coefficient of at most 64 bits with a power of ten. Once a digit does not fit, the run of
digits that it belongs to is `full` and adds nothing more to the coefficient. -/
structure Scaled where
  coefficient : Nat
  exponent : Int
  full : Bool

/-- Takes a digit before the point: one that does not fit scales by ten. -/
def Scaled.pushWhole (s : Scaled) (d : Nat) : Scaled :=
  if !s.full && s.coefficient * 10 + d < 2 ^ 64 then
    { s with coefficient := s.coefficient * 10 + d }
  else { s with exponent := s.exponent + 1, full := true }

/-- Takes a digit after the point: one that does not fit is dropped. -/
def Scaled.pushFraction (s : Scaled) (d : Nat) : Scaled :=
  if !s.full && s.coefficient * 10 + d < 2 ^ 64 then
    { s with coefficient := s.coefficient * 10 + d, exponent := s.exponent - 1 }
  else { s with full := true }

/-- The coefficient and the power of ten that a numeral is computed from. -/
def scaled (numeral : Numeral) : Scaled :=
  let whole := numeral.whole.foldl Scaled.pushWhole ⟨0, 0, false⟩
  let all := numeral.fraction.foldl Scaled.pushFraction { whole with full := false }
  { all with exponent := all.exponent + numeral.exponent.getD 0 }

/-- The floating-point number of a numeral, unless it is out of range. -/
def toBinary64? (numeral : Numeral) : Option Binary64 :=
  let parts := numeral.scaled
  (Binary64.scale (Binary64.ofNat parts.coefficient) parts.exponent).map
    (Binary64.ofMagnitude numeral.negative)

theorem length_dropDigits_lt {b : UInt8} (h : isDigit b = true) (rest : List UInt8) :
    (takeDigits (b :: rest)).2.length < (b :: rest).length := by
  have := (List.dropWhile_sublist isDigit (l := rest)).length_le
  simp only [takeDigits, List.dropWhile_cons, h, if_true, List.length_cons]
  omega

theorem length_lt_of_readDigits {ending : Fault} {bytes rest : List UInt8} {digits : List Nat}
    (h : readDigits ending bytes = .ok (digits, rest)) : rest.length < bytes.length := by
  unfold readDigits at h
  split at h
  · cases h
  next b tail =>
    split at h
    next hd =>
      have := length_dropDigits_lt hd tail
      cases h
      exact this
    · cases h

theorem length_lt_of_readWhole {ending : Fault} {bytes rest : List UInt8} {digits : List Nat}
    (h : readWhole ending bytes = .ok (digits, rest)) : rest.length < bytes.length := by
  unfold readWhole at h
  split at h
  · cases h
  next b tail =>
    split at h
    · split at h
      · cases h; simp
      · split at h
        · cases h
        · cases h; simp
    · split at h
      next hd =>
        have := length_dropDigits_lt hd tail
        cases h
        exact this
      · cases h

theorem length_le_of_readFraction {ending : Fault} {bytes rest : List UInt8} {digits : List Nat}
    (h : readFraction ending bytes = .ok (digits, rest)) : rest.length ≤ bytes.length := by
  unfold readFraction at h
  split at h
  · cases h; simp
  · split at h
    · have := length_lt_of_readDigits h
      rw [List.length_cons]
      omega
    · cases h; simp

theorem length_readSign_le (bytes : List UInt8) : (readSign bytes).2.length ≤ bytes.length := by
  fun_cases readSign bytes <;> simp

theorem length_le_of_readExponent {ending : Fault} {bytes rest : List UInt8}
    {exponent : Option Int} (h : readExponent ending bytes = .ok (exponent, rest)) :
    rest.length ≤ bytes.length := by
  unfold readExponent at h
  split at h
  · cases h; simp
  next b tail =>
    have signed := length_readSign_le tail
    split at h
    · simp only at h
      split at h
      · cases h
      next digits tail' hd =>
        have := length_lt_of_readDigits hd
        cases h
        rw [List.length_cons]
        omega
    · cases h; simp

theorem length_lt_of_readUnsigned {ending : Fault} {negative : Bool} {bytes rest : List UInt8}
    {numeral : Numeral} (h : readUnsigned ending negative bytes = .ok (numeral, rest)) :
    rest.length < bytes.length := by
  unfold readUnsigned at h
  split at h
  · cases h
  next hw =>
    have whole := length_lt_of_readWhole hw
    split at h
    · cases h
    next hf =>
      have fraction := length_le_of_readFraction hf
      split at h
      · cases h
      next he =>
        have exponent := length_le_of_readExponent he
        cases h
        omega

theorem length_lt_of_read {ending : Fault} {bytes rest : List UInt8} {numeral : Numeral}
    (h : read ending bytes = .ok (numeral, rest)) : rest.length < bytes.length := by
  unfold read at h
  split at h
  · cases h
  · split at h
    · have := length_lt_of_readUnsigned h
      rw [List.length_cons]
      omega
    · exact length_lt_of_readUnsigned h

end Numeral

/-- A number that is read: how it is written, and the floating-point number it stands for. -/
structure Number where
  numeral : Numeral
  value : Binary64

/-- A number that is in the range of floating-point numbers. -/
def readNumber : Reader Number := fun bytes =>
  match Numeral.read .truncated bytes with
  | .error fault => .error fault
  | .ok (numeral, rest) =>
    match numeral.toBinary64? with
    | some value => .ok (⟨numeral, value⟩, rest)
    | none => .error .malformed

theorem length_lt_of_readNumber {bytes rest : List UInt8} {number : Number}
    (h : readNumber bytes = .ok (number, rest)) : rest.length < bytes.length := by
  unfold readNumber at h
  split at h
  · cases h
  next hr =>
    have := Numeral.length_lt_of_read hr
    split at h
    · cases h; exact this
    · cases h

end ExpiringCache.Json
