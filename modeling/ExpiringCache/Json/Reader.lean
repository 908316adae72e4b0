/-!
# Reading JSON text

The reasons for which a text is refused, and the small steps that every reader shares: blanks,
words, commas and brackets. A text is a list of bytes and is read from left to right; the first
fault met is the one reported.
-/

namespace ExpiringCache.Json

/-- Why a text is refused. -/
inductive Fault where
  /-- The text ends inside a value, or where one is due. -/
  | truncated
  /-- The text is no JSON. -/
  | malformed
  /-- The value has the wrong type, is out of range, or lacks or repeats a field. -/
  | mismatched
deriving DecidableEq

/-- A reader takes a value from the front of a text and leaves the rest. -/
abbrev Reader (α : Type) := List UInt8 → Except Fault (α × List UInt8)

namespace Byte

abbrev quote : UInt8 := 0x22
abbrev plus : UInt8 := 0x2B
abbrev comma : UInt8 := 0x2C
abbrev minus : UInt8 := 0x2D
abbrev point : UInt8 := 0x2E
abbrev slash : UInt8 := 0x2F
abbrev zero : UInt8 := 0x30
abbrev nine : UInt8 := 0x39
abbrev colon : UInt8 := 0x3A
abbrev openList : UInt8 := 0x5B
abbrev backslash : UInt8 := 0x5C
abbrev closeList : UInt8 := 0x5D
abbrev openRecord : UInt8 := 0x7B
abbrev closeRecord : UInt8 := 0x7D

def ofChar (c : Char) : UInt8 := UInt8.ofNat c.toNat

/-- The bytes of an ASCII text. -/
def ofAscii (text : String) : List UInt8 := text.toList.map ofChar

end Byte

/-- Space, tab, line feed and carriage return. -/
def isBlank (b : UInt8) : Bool := b == 0x20 || b == 0x09 || b == 0x0A || b == 0x0D

/-- A text without the blanks at its front. -/
def skipBlank (bytes : List UInt8) : List UInt8 := bytes.dropWhile isBlank

theorem length_skipBlank_le (bytes : List UInt8) : (skipBlank bytes).length ≤ bytes.length :=
  (List.dropWhile_sublist _).length_le

theorem length_lt_of_skipBlank {bytes rest : List UInt8} {b : UInt8}
    (h : skipBlank bytes = b :: rest) : rest.length < bytes.length := by
  have := length_skipBlank_le bytes
  rw [h, List.length_cons] at this
  omega

/-- A text that does not start with a blank has none to skip. -/
theorem skipBlank_cons {b : UInt8} (h : isBlank b = false) (rest : List UInt8) :
    skipBlank (b :: rest) = b :: rest := by
  simp [skipBlank, h]

/-- The rest of a text that starts with `word`. -/
def expectWord : List UInt8 → List UInt8 → Except Fault (List UInt8)
  | [], bytes => .ok bytes
  | _ :: _, [] => .error .truncated
  | w :: word, b :: bytes => if b = w then expectWord word bytes else .error .malformed

theorem length_le_of_expectWord {word bytes rest : List UInt8}
    (h : expectWord word bytes = .ok rest) : rest.length ≤ bytes.length := by
  fun_induction expectWord word bytes with
  | case1 bytes => cases h; exact Nat.le_refl _
  | case2 => cases h
  | case3 word b bytes ih => exact Nat.le_succ_of_le (ih h)
  | case4 => cases h

/-- What follows the first letter of `null`, `true` and `false`. -/
def wordAfter? (b : UInt8) : Option (List UInt8) :=
  if b = Byte.ofChar 'n' then some (Byte.ofAscii "ull")
  else if b = Byte.ofChar 't' then some (Byte.ofAscii "rue")
  else if b = Byte.ofChar 'f' then some (Byte.ofAscii "alse")
  else none

/-- The rest of a text after a colon and the blanks before it. -/
def expectColon (bytes : List UInt8) : Except Fault (List UInt8) :=
  match skipBlank bytes with
  | [] => .error .truncated
  | b :: rest => if b = Byte.colon then .ok rest else .error .malformed

theorem length_lt_of_expectColon {bytes rest : List UInt8} (h : expectColon bytes = .ok rest) :
    rest.length < bytes.length := by
  have shorter := length_skipBlank_le bytes
  unfold expectColon at h
  split at h
  · cases h
  next b tail heq =>
    rw [heq, List.length_cons] at shorter
    split at h
    · cases h; omega
    · cases h

/-- What comes next inside brackets. -/
inductive Item where
  /-- One more item, which starts here. -/
  | starts (rest : List UInt8)
  /-- Nothing: this follows the closing bracket. -/
  | ends (rest : List UInt8)

/-- The next item of a list. Every item but the first comes after a comma, and a comma has an item
after it. -/
def nextItem (first : Bool) (bytes : List UInt8) : Except Fault Item :=
  match skipBlank bytes with
  | [] => .error .truncated
  | b :: rest =>
    if b = Byte.closeList then .ok (.ends rest)
    else if first then .ok (.starts (b :: rest))
    else if b = Byte.comma then
      match skipBlank rest with
      | [] => .error .truncated
      | c :: rest => if c = Byte.closeList then .error .malformed else .ok (.starts (c :: rest))
    else .error .malformed

theorem length_le_of_nextItem {first : Bool} {bytes rest : List UInt8}
    (h : nextItem first bytes = .ok (.starts rest)) : rest.length ≤ bytes.length := by
  have shorter := length_skipBlank_le bytes
  unfold nextItem at h
  split at h
  · cases h
  next b tail heq =>
    have shorter' := length_skipBlank_le tail
    rw [heq] at shorter
    split at h
    · cases h
    · split at h
      · cases h; exact shorter
      · split at h
        · split at h
          · cases h
          next c tail' heq' =>
            rw [heq'] at shorter'
            split at h
            · cases h
            · cases h
              rw [List.length_cons] at shorter
              omega
        · cases h

/-- The next key of a record, from behind its opening quotation mark. -/
def nextKey (first : Bool) (bytes : List UInt8) : Except Fault Item :=
  match skipBlank bytes with
  | [] => .error .truncated
  | b :: rest =>
    if b = Byte.closeRecord then .ok (.ends rest)
    else if first then if b = Byte.quote then .ok (.starts rest) else .error .malformed
    else if b = Byte.comma then
      match skipBlank rest with
      | [] => .error .truncated
      | c :: rest => if c = Byte.quote then .ok (.starts rest) else .error .malformed
    else .error .malformed

theorem length_lt_of_nextKey {first : Bool} {bytes rest : List UInt8}
    (h : nextKey first bytes = .ok (.starts rest)) : rest.length < bytes.length := by
  have shorter := length_skipBlank_le bytes
  unfold nextKey at h
  split at h
  · cases h
  next b tail heq =>
    have shorter' := length_skipBlank_le tail
    rw [heq, List.length_cons] at shorter
    split at h
    · cases h
    · split at h
      · split at h
        · cases h; omega
        · cases h
      · split at h
        · split at h
          · cases h
          next c tail' heq' =>
            rw [heq', List.length_cons] at shorter'
            split at h
            · cases h; omega
            · cases h
        · cases h

/-- The value of a text that holds one value and blanks. -/
def readAll {α : Type} (reader : Reader α) (bytes : List UInt8) : Except Fault α :=
  match reader bytes with
  | .error fault => .error fault
  | .ok (value, rest) => if skipBlank rest = [] then .ok value else .error .malformed

end ExpiringCache.Json
