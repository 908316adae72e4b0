import ExpiringCache.Json.Reader
import ExpiringCache.Text.Utf8

/-!
# Quoted text

A text between quotation marks. Writing escapes the quotation mark, the backslash and the
characters below the space, and nothing else. Reading collects the bytes up to the closing mark
and decodes them there, so that a text without closing mark is cut off whatever its bytes are.
-/

namespace ExpiringCache.Json

namespace Quoted

/-- The lower-case hexadecimal digit of a value below sixteen. -/
def hexDigit (n : Nat) : UInt8 := UInt8.ofNat (if n < 10 then 48 + n else 87 + n)

/-- The letter after the backslash in the short escape of a character below the space. -/
def shortLetter? (c : Char) : Option Char :=
  if c = '\x08' then some 'b'
  else if c = '\t' then some 't'
  else if c = '\n' then some 'n'
  else if c = '\x0c' then some 'f'
  else if c = '\r' then some 'r'
  else none

def writeChar (c : Char) : List UInt8 :=
  if c = '"' ∨ c = '\\' then [Byte.backslash, Byte.ofChar c]
  else if c.toNat < 0x20 then
    match shortLetter? c with
    | some letter => [Byte.backslash, Byte.ofChar letter]
    | none =>
      [Byte.backslash, Byte.ofChar 'u', Byte.zero, Byte.zero,
        hexDigit (c.toNat / 16), hexDigit (c.toNat % 16)]
  else String.utf8EncodeChar c

def write (text : String) : List UInt8 :=
  Byte.quote :: text.toList.flatMap writeChar ++ [Byte.quote]

/-- The value of a hexadecimal digit in either case. -/
def hexValue? (b : UInt8) : Option Nat :=
  let n := b.toNat
  if 48 ≤ n ∧ n ≤ 57 then some (n - 48)
  else if 97 ≤ n ∧ n ≤ 102 then some (n - 87)
  else if 65 ≤ n ∧ n ≤ 70 then some (n - 55)
  else none

/-- The value of four hexadecimal digits. A text with fewer than four bytes left is cut off,
whatever they are. -/
def readUnit : Reader Nat
  | a :: b :: c :: d :: rest =>
    match hexValue? a, hexValue? b, hexValue? c, hexValue? d with
    | some a, some b, some c, some d => .ok (((a * 16 + b) * 16 + c) * 16 + d, rest)
    | _, _, _, _ => .error .malformed
  | _ => .error .truncated

/-- Whether a value is the first half of a surrogate pair. -/
def isLeading (unit : Nat) : Bool := 0xD800 ≤ unit && unit ≤ 0xDBFF

/-- Whether a value is the second half of a surrogate pair. -/
def isTrailing (unit : Nat) : Bool := 0xDC00 ≤ unit && unit ≤ 0xDFFF

/-- The second half of a surrogate pair, with its backslash and its letter. -/
def readTrailing : Reader Nat
  | [] => .error .truncated
  | b :: rest =>
    if b = Byte.backslash then
      match rest with
      | [] => .error .truncated
      | letter :: rest =>
        if letter = Byte.ofChar 'u' then
          match readUnit rest with
          | .error fault => .error fault
          | .ok (unit, rest) => if isTrailing unit then .ok (unit, rest) else .error .malformed
        else .error .malformed
    else .error .malformed

/-- The character of a hexadecimal escape, from behind the letter `u`. -/
def readHex : Reader Char := fun bytes =>
  match readUnit bytes with
  | .error fault => .error fault
  | .ok (unit, rest) =>
    if isTrailing unit then .error .malformed
    else if isLeading unit then
      match readTrailing rest with
      | .error fault => .error fault
      | .ok (trailing, rest) =>
        .ok (Char.ofNat (0x10000 + (unit - 0xD800) * 0x400 + (trailing - 0xDC00)), rest)
    else .ok (Char.ofNat unit, rest)

/-- The character of a short escape, by the letter after the backslash. -/
def shortEscape? (letter : UInt8) : Option Char :=
  if letter = Byte.quote then some '"'
  else if letter = Byte.backslash then some '\\'
  else if letter = Byte.slash then some '/'
  else if letter = Byte.ofChar 'b' then some '\x08'
  else if letter = Byte.ofChar 'f' then some '\x0c'
  else if letter = Byte.ofChar 'n' then some '\n'
  else if letter = Byte.ofChar 'r' then some '\r'
  else if letter = Byte.ofChar 't' then some '\t'
  else none

/-- The character of an escape, from behind the backslash. -/
def readEscape : Reader Char
  | [] => .error .truncated
  | letter :: rest =>
    if letter = Byte.ofChar 'u' then readHex rest
    else
      match shortEscape? letter with
      | some c => .ok (c, rest)
      | none => .error .malformed

theorem length_lt_of_readUnit {bytes rest : List UInt8} {unit : Nat}
    (h : readUnit bytes = .ok (unit, rest)) : rest.length < bytes.length := by
  unfold readUnit at h
  split at h
  · split at h
    · cases h
      simp only [List.length_cons]
      omega
    · cases h
  · cases h

theorem length_lt_of_readTrailing {bytes rest : List UInt8} {unit : Nat}
    (h : readTrailing bytes = .ok (unit, rest)) : rest.length < bytes.length := by
  unfold readTrailing at h
  split at h
  · cases h
  · split at h
    · split at h
      · cases h
      · split at h
        · split at h
          · cases h
          next hu =>
            have := length_lt_of_readUnit hu
            split at h
            · cases h
              simp only [List.length_cons]
              omega
            · cases h
        · cases h
    · cases h

theorem length_lt_of_readHex {bytes rest : List UInt8} {c : Char}
    (h : readHex bytes = .ok (c, rest)) : rest.length < bytes.length := by
  unfold readHex at h
  split at h
  · cases h
  next hu =>
    have unit := length_lt_of_readUnit hu
    split at h
    · cases h
    · split at h
      · split at h
        · cases h
        next ht =>
          have trailing := length_lt_of_readTrailing ht
          simp only [Except.ok.injEq, Prod.mk.injEq] at h
          obtain ⟨_, rfl⟩ := h
          omega
      · cases h
        exact unit

theorem length_lt_of_readEscape {bytes rest : List UInt8} {c : Char}
    (h : readEscape bytes = .ok (c, rest)) : rest.length < bytes.length := by
  unfold readEscape at h
  split at h
  · cases h
  · split at h
    · have := length_lt_of_readHex h
      rw [List.length_cons]
      omega
    · split at h
      · cases h
        simp
      · cases h

/-- The bytes up to the closing mark, with each escape replaced by the bytes of its character. -/
def readContent (bytes : List UInt8) : Except Fault (List UInt8 × List UInt8) :=
  match bytes with
  | [] => .error .truncated
  | b :: rest =>
    if b = Byte.quote then .ok ([], rest)
    else if b = Byte.backslash then
      match h : readEscape rest with
      | .error fault => .error fault
      | .ok (c, rest') =>
        have := length_lt_of_readEscape h
        match readContent rest' with
        | .error fault => .error fault
        | .ok (content, rest'') => .ok (String.utf8EncodeChar c ++ content, rest'')
    else if b < 0x20 then .error .malformed
    else
      match readContent rest with
      | .error fault => .error fault
      | .ok (content, rest') => .ok (b :: content, rest')
termination_by bytes.length
decreasing_by
  · rw [List.length_cons]
    omega
  · exact Nat.lt_succ_self _

theorem length_lt_of_readContent {bytes content rest : List UInt8}
    (h : readContent bytes = .ok (content, rest)) : rest.length < bytes.length := by
  fun_induction readContent bytes generalizing content rest with
  | case1 => cases h
  | case2 rest => cases h; simp
  | case3 => cases h
  | case4 => cases h
  | case5 tail c tail' _ shorter content' tail'' hc _ ih =>
    cases h
    have := ih hc
    rw [List.length_cons]
    omega
  | case6 => cases h
  | case7 => cases h
  | case8 b tail _ _ _ content' tail' hc ih =>
    cases h
    have := ih hc
    rw [List.length_cons]
    omega

/-- A text from behind its opening quotation mark. -/
def readText : Reader String := fun bytes =>
  match readContent bytes with
  | .error fault => .error fault
  | .ok (content, rest) =>
    match Utf8.decode content with
    | some text => .ok (text, rest)
    | none => .error .malformed

theorem length_lt_of_readText {bytes rest : List UInt8} {text : String}
    (h : readText bytes = .ok (text, rest)) : rest.length < bytes.length := by
  unfold readText at h
  split at h
  · cases h
  next hc =>
    have := length_lt_of_readContent hc
    split at h
    · cases h
      exact this
    · cases h

end Quoted

end ExpiringCache.Json
