import ExpiringCache.Json.Numeral
import ExpiringCache.Json.Quoted

/-!
# Skipping values

The value of a field that nobody asks for is passed over, at any depth. Its shape is checked, but
not its content: bytes that are no text, halves of surrogate pairs and numbers out of range pass.
A number that the text cuts off is malformed here, since no value is wanted.
-/

namespace ExpiringCache.Json.Skip

/-- The rest after an escape, from behind its backslash. -/
def escape : List UInt8 → Except Fault (List UInt8)
  | [] => .error .truncated
  | letter :: rest =>
    if letter = Byte.ofChar 'u' then
      match Quoted.readUnit rest with
      | .error fault => .error fault
      | .ok (_, rest) => .ok rest
    else if (Quoted.shortEscape? letter).isSome then .ok rest
    else .error .malformed

theorem length_lt_of_escape {bytes rest : List UInt8} (h : escape bytes = .ok rest) :
    rest.length < bytes.length := by
  unfold escape at h
  split at h
  · cases h
  · split at h
    · split at h
      · cases h
      next hu =>
        have := Quoted.length_lt_of_readUnit hu
        cases h
        rw [List.length_cons]
        omega
    · split at h
      · cases h
        simp
      · cases h

/-- The rest after the closing quotation mark. -/
def quoted (bytes : List UInt8) : Except Fault (List UInt8) :=
  match bytes with
  | [] => .error .truncated
  | b :: rest =>
    if b = Byte.quote then .ok rest
    else if b = Byte.backslash then
      match h : escape rest with
      | .error fault => .error fault
      | .ok rest' =>
        have := length_lt_of_escape h
        quoted rest'
    else if b < 0x20 then .error .malformed
    else quoted rest
termination_by bytes.length
decreasing_by
  · rw [List.length_cons]
    omega
  · exact Nat.lt_succ_self _

theorem length_lt_of_quoted {bytes rest : List UInt8} (h : quoted bytes = .ok rest) :
    rest.length < bytes.length := by
  fun_induction quoted bytes with
  | case1 => cases h
  | case2 => cases h; simp
  | case3 => cases h
  | case4 tail tail' _ shorter _ ih =>
    have := ih h
    rw [List.length_cons]
    omega
  | case5 => cases h
  | case6 b tail _ _ _ ih =>
    have := ih h
    rw [List.length_cons]
    omega

/-- The rest after a word, a number or a quoted text. -/
def scalar : List UInt8 → Except Fault (List UInt8)
  | [] => .error .truncated
  | b :: rest =>
    match wordAfter? b with
    | some word => expectWord word rest
    | none =>
      if b = Byte.minus ∨ isDigit b then
        match Numeral.read .malformed (b :: rest) with
        | .error fault => .error fault
        | .ok (_, rest) => .ok rest
      else if b = Byte.quote then quoted rest
      else .error .malformed

theorem length_lt_of_scalar {bytes rest : List UInt8} (h : scalar bytes = .ok rest) :
    rest.length < bytes.length := by
  unfold scalar at h
  split at h
  · cases h
  · split at h
    · have := length_le_of_expectWord h
      rw [List.length_cons]
      omega
    · split at h
      · split at h
        · cases h
        next hn =>
          have := Numeral.length_lt_of_read hn
          cases h
          exact this
      · split at h
        · have := length_lt_of_quoted h
          rw [List.length_cons]
          omega
        · cases h

/-- A pair of brackets that is open. -/
inductive Frame where
  | list
  | record

def Frame.close : Frame → UInt8
  | .list => Byte.closeList
  | .record => Byte.closeRecord

/-- The rest in front of the next value of a frame: a record has a key and a colon there. -/
def Frame.toValue : Frame → List UInt8 → Except Fault (List UInt8)
  | .list, bytes => .ok bytes
  | .record, bytes =>
    match skipBlank bytes with
    | [] => .error .truncated
    | b :: rest =>
      if b = Byte.quote then
        match quoted rest with
        | .error fault => .error fault
        | .ok rest => expectColon rest
      else .error .malformed

theorem Frame.length_le_of_toValue {frame : Frame} {bytes rest : List UInt8}
    (h : frame.toValue bytes = .ok rest) : rest.length ≤ bytes.length := by
  have shorter := length_skipBlank_le bytes
  unfold Frame.toValue at h
  split at h
  · cases h
    exact Nat.le_refl _
  · split at h
    · cases h
    next b tail heq =>
      rw [heq, List.length_cons] at shorter
      split at h
      · split at h
        · cases h
        next hq =>
          have := length_lt_of_quoted hq
          have := length_lt_of_expectColon h
          omega
      · cases h

/-- Where a skipping stands: before a value, behind an opening bracket, or behind a value. -/
inductive Place where
  | before
  | opened (frame : Frame)
  | behind

/-- An order on the places that can follow one another without taking a byte. -/
def Place.rank : Place → Nat
  | .before => 0
  | .opened _ => 1
  | .behind => 0

/-- The rest after the value that starts, or goes on, at a place inside open frames. -/
def go (place : Place) (frames : List Frame) (bytes : List UInt8) : Except Fault (List UInt8) :=
  match place, frames with
  | .before, frames =>
    match hb : skipBlank bytes with
    | [] => .error .truncated
    | b :: rest =>
      have := length_lt_of_skipBlank hb
      if b = Byte.openList then go (.opened .list) frames rest
      else if b = Byte.openRecord then go (.opened .record) frames rest
      else
        match hs : scalar (b :: rest) with
        | .error fault => .error fault
        | .ok rest =>
          have := length_lt_of_scalar hs
          go .behind frames rest
  | .opened frame, frames =>
    match hb : skipBlank bytes with
    | [] => .error .truncated
    | b :: rest =>
      have := length_lt_of_skipBlank hb
      if b = frame.close then go .behind frames rest
      else
        match hv : frame.toValue (b :: rest) with
        | .error fault => .error fault
        | .ok rest =>
          have := Frame.length_le_of_toValue hv
          go .before (frame :: frames) rest
  | .behind, [] => .ok bytes
  | .behind, frame :: frames =>
    match hb : skipBlank bytes with
    | [] => .error .truncated
    | b :: rest =>
      have := length_lt_of_skipBlank hb
      if b = frame.close then go .behind frames rest
      else if b = Byte.comma then
        match hv : frame.toValue rest with
        | .error fault => .error fault
        | .ok rest =>
          have := Frame.length_le_of_toValue hv
          go .before (frame :: frames) rest
      else .error .malformed
termination_by (bytes.length, place.rank)
decreasing_by
  · exact Prod.Lex.left _ _ this
  · exact Prod.Lex.left _ _ this
  · exact Prod.Lex.left _ _ (Nat.lt_of_lt_of_le this ‹_›)
  · exact Prod.Lex.left _ _ this
  · rcases Nat.lt_or_eq_of_le (Nat.le_trans this ‹_›) with less | same
    · exact Prod.Lex.left _ _ less
    · rw [same]
      exact Prod.Lex.right _ Nat.zero_lt_one
  · exact Prod.Lex.left _ _ this
  · exact Prod.Lex.left _ _ (Nat.lt_of_le_of_lt this ‹_›)

theorem length_le_of_go {place : Place} {frames : List Frame} {bytes rest : List UInt8}
    (h : go place frames bytes = .ok rest) : rest.length ≤ bytes.length := by
  fun_induction go place frames bytes with
  | case1 | case4 | case6 | case8 | case11 | case13 | case15 => cases h
  | case2 | case3 | case7 | case12 => grind
  | case5 | case9 | case14 => grind
  | case10 => cases h; exact Nat.le_refl _

/-- The rest after a value of any type. -/
def value (bytes : List UInt8) : Except Fault (List UInt8) := go .before [] bytes

theorem length_le_of_value {bytes rest : List UInt8} (h : value bytes = .ok rest) :
    rest.length ≤ bytes.length :=
  length_le_of_go h

end ExpiringCache.Json.Skip
