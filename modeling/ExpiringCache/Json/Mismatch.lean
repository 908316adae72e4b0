import ExpiringCache.Json.Numeral
import ExpiringCache.Json.Quoted

/-!
# Values of the wrong type

What is reported where a value of another type stands. A word, a number or a quoted text is read
whole first, and its own fault goes before; a list or a record is refused at its bracket.
-/

namespace ExpiringCache.Json

/-- The fault of a value that was read, although it is not wanted. -/
def unwanted {α : Type} : Except Fault α → Fault
  | .error fault => fault
  | .ok _ => .mismatched

/-- The fault of a text that does not start with a value of the type that is due. -/
def mismatch : List UInt8 → Fault
  | [] => .truncated
  | b :: rest =>
    match wordAfter? b with
    | some word => unwanted (expectWord word rest)
    | none =>
      if b = Byte.minus ∨ isDigit b then unwanted (readNumber (b :: rest))
      else if b = Byte.quote then unwanted (Quoted.readText rest)
      else if b = Byte.openList ∨ b = Byte.openRecord then .mismatched
      else .malformed

def readString : Reader String := fun bytes =>
  match skipBlank bytes with
  | [] => .error .truncated
  | b :: rest => if b = Byte.quote then Quoted.readText rest else .error (mismatch (b :: rest))

/-- A number, in the range of floating-point numbers. -/
def readNumeric : Reader Number := fun bytes =>
  match skipBlank bytes with
  | [] => .error .truncated
  | b :: rest =>
    if b = Byte.minus ∨ isDigit b then readNumber (b :: rest)
    else .error (mismatch (b :: rest))

def readNull (bytes : List UInt8) : Except Fault (List UInt8) :=
  match skipBlank bytes with
  | [] => .error .truncated
  | b :: rest =>
    if b = Byte.ofChar 'n' then expectWord (Byte.ofAscii "ull") rest
    else .error (mismatch (b :: rest))

/-- A natural number of at most 32 bits, written without sign, point and exponent. -/
def readUInt32 : Reader UInt32 := fun bytes =>
  match readNumeric bytes with
  | .error fault => .error fault
  | .ok (number, rest) =>
    match number.numeral.natural? with
    | some n => if n < 2 ^ 32 then .ok (UInt32.ofNat n, rest) else .error .mismatched
    | none => .error .mismatched

def readBinary64 : Reader Binary64 := fun bytes =>
  match readNumeric bytes with
  | .error fault => .error fault
  | .ok (number, rest) => .ok (number.value, rest)

theorem length_lt_of_readString {bytes rest : List UInt8} {text : String}
    (h : readString bytes = .ok (text, rest)) : rest.length < bytes.length := by
  have shorter := length_skipBlank_le bytes
  unfold readString at h
  split at h
  · cases h
  next b tail heq =>
    rw [heq, List.length_cons] at shorter
    split at h
    · have := Quoted.length_lt_of_readText h
      omega
    · cases h

theorem length_lt_of_readNumeric {bytes rest : List UInt8} {number : Number}
    (h : readNumeric bytes = .ok (number, rest)) : rest.length < bytes.length := by
  have shorter := length_skipBlank_le bytes
  unfold readNumeric at h
  split at h
  · cases h
  next b tail heq =>
    rw [heq] at shorter
    split at h
    · have := length_lt_of_readNumber h
      omega
    · cases h

theorem length_lt_of_readUInt32 {bytes rest : List UInt8} {n : UInt32}
    (h : readUInt32 bytes = .ok (n, rest)) : rest.length < bytes.length := by
  unfold readUInt32 at h
  split at h
  · cases h
  next hn =>
    have := length_lt_of_readNumeric hn
    split at h
    · split at h
      · simp only [Except.ok.injEq, Prod.mk.injEq] at h
        obtain ⟨_, rfl⟩ := h
        exact this
      · cases h
    · cases h

end ExpiringCache.Json
