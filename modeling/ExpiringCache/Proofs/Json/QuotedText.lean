import ExpiringCache.Json.Mismatch
import Mathlib.Tactic.SplitIfs

/-!
# Quoted text reads back

Whatever the characters of a text are, reading it from behind its opening quotation mark gives the
text and what follows the closing mark. A character is written either as one escape, which reads
back as that character, or as its own bytes, none of which is a mark, a backslash or below the
space.
-/
namespace ExpiringCache.Json.Quoted

/-- A byte that stands for itself between quotation marks. -/
structure IsPlain (b : UInt8) : Prop where
  ne_quote : b ≠ Byte.quote
  ne_backslash : b ≠ Byte.backslash
  le : ¬b < 0x20

theorem isPlain_of_toNat {b : UInt8} (hquote : b.toNat ≠ 0x22) (hbackslash : b.toNat ≠ 0x5C)
    (hspace : 0x20 ≤ b.toNat) : IsPlain b where
  ne_quote := fun h => hquote (by rw [h]; rfl)
  ne_backslash := fun h => hbackslash (by rw [h]; rfl)
  le := by
    rw [UInt8.lt_iff_toNat_lt, show (0x20 : UInt8).toNat = 0x20 from rfl]
    omega

theorem toNat_ne_of_ne {c other : Char} (h : c ≠ other) : c.toNat ≠ other.toNat :=
  fun heq => h (Char.ext (UInt32.toNat_inj.mp heq))

/-- The bytes of a character that is not escaped stand for themselves. -/
theorem isPlain_of_mem_utf8EncodeChar {c : Char} (hquote : c ≠ '"') (hbackslash : c ≠ '\\')
    (hspace : ¬c.toNat < 0x20) : ∀ b ∈ String.utf8EncodeChar c, IsPlain b := by
  have hq : c.val.toNat ≠ 0x22 := toNat_ne_of_ne hquote
  have hb : c.val.toNat ≠ 0x5C := toNat_ne_of_ne hbackslash
  have hs : ¬c.val.toNat < 0x20 := hspace
  intro b hmem
  simp only [String.utf8EncodeChar] at hmem
  split at hmem
  · obtain rfl := List.mem_singleton.mp hmem
    apply isPlain_of_toNat <;> rw [UInt8.toNat_ofNat'] <;> omega
  · have hhigh : 0x80 ≤ b.toNat := by
      split at hmem
      · simp only [List.mem_cons, List.not_mem_nil, or_false] at hmem
        rcases hmem with rfl | rfl <;> rw [UInt8.toNat_ofNat'] <;> omega
      · split at hmem
        · simp only [List.mem_cons, List.not_mem_nil, or_false] at hmem
          rcases hmem with rfl | rfl | rfl <;> rw [UInt8.toNat_ofNat'] <;> omega
        · simp only [List.mem_cons, List.not_mem_nil, or_false] at hmem
          rcases hmem with rfl | rfl | rfl | rfl <;> rw [UInt8.toNat_ofNat'] <;> omega
    apply isPlain_of_toNat <;> omega

theorem readContent_quote (rest : List UInt8) :
    readContent (Byte.quote :: rest) = .ok ([], rest) := by
  rw [readContent, if_pos rfl]

/-- What is read of a content after some bytes that stand for `front`. -/
def prepend (front : List UInt8) (read : List UInt8 × List UInt8) : List UInt8 × List UInt8 :=
  (front ++ read.1, read.2)

theorem readContent_of_isPlain {b : UInt8} (h : IsPlain b) (rest : List UInt8) :
    readContent (b :: rest) = (readContent rest).map (prepend [b]) := by
  rw [readContent, if_neg h.ne_quote, if_neg h.ne_backslash, if_neg h.le]
  cases readContent rest <;> rfl

theorem readContent_of_escape {rest rest' : List UInt8} {c : Char}
    (h : readEscape rest = .ok (c, rest')) :
    readContent (Byte.backslash :: rest) =
      (readContent rest').map (prepend (String.utf8EncodeChar c)) := by
  rw [readContent, if_neg (by decide), if_pos rfl]
  split
  next hfault => simp [h] at hfault
  next found tail hfound =>
    obtain ⟨rfl, rfl⟩ : c = found ∧ rest' = tail := by simpa [h] using hfound
    cases readContent rest' <;> rfl

theorem readContent_append {bytes : List UInt8} (h : ∀ b ∈ bytes, IsPlain b)
    (rest : List UInt8) :
    readContent (bytes ++ rest) = (readContent rest).map (prepend bytes) := by
  induction bytes with
  | nil => cases hrest : readContent rest <;> simp [hrest, Except.map, prepend]
  | cons b bytes ih =>
    have htail := ih fun b hb => h b (List.mem_cons_of_mem _ hb)
    rw [List.cons_append, readContent_of_isPlain (h b List.mem_cons_self), htail]
    cases readContent rest <;> rfl

theorem hexValue?_hexDigit {n : Nat} (h : n < 16) : hexValue? (hexDigit n) = some n := by
  have hall : ∀ n, n < 16 → hexValue? (hexDigit n) = some n := by decide
  exact hall n h

theorem readEscape_unicode {c : Char} (h : c.toNat < 0x20) (rest : List UInt8) :
    readEscape (Byte.ofChar 'u' :: Byte.zero :: Byte.zero :: hexDigit (c.toNat / 16) ::
      hexDigit (c.toNat % 16) :: rest) = .ok (c, rest) := by
  have hunit : readUnit (Byte.zero :: Byte.zero :: hexDigit (c.toNat / 16) ::
      hexDigit (c.toNat % 16) :: rest) = .ok (c.toNat, rest) := by
    have hzero : hexValue? Byte.zero = some 0 := by decide
    rw [readUnit, hzero, hexValue?_hexDigit (by omega), hexValue?_hexDigit (by omega)]
    simp only [Except.ok.injEq, Prod.mk.injEq, and_true]
    omega
  have htrailing : isTrailing c.toNat = false := by
    simp only [isTrailing, Bool.and_eq_false_iff, decide_eq_false_iff_not]
    omega
  have hleading : isLeading c.toNat = false := by
    simp only [isLeading, Bool.and_eq_false_iff, decide_eq_false_iff_not]
    omega
  rw [readEscape, if_pos rfl, readHex, hunit]
  simp [htrailing, hleading, Char.ofNat_toNat]

theorem readEscape_short {c letter : Char} (h : shortLetter? c = some letter)
    (rest : List UInt8) : readEscape (Byte.ofChar letter :: rest) = .ok (c, rest) := by
  simp only [shortLetter?] at h
  split_ifs at h with hb ht hn hf hr
  all_goals
    subst c
    obtain rfl := Option.some.inj h
    rfl

/-- A character that is written reads back as its bytes. -/
theorem readContent_writeChar (c : Char) (rest : List UInt8) :
    readContent (writeChar c ++ rest) =
      (readContent rest).map (prepend (String.utf8EncodeChar c)) := by
  unfold writeChar
  split
  next hmark =>
    refine readContent_of_escape ?_
    rcases hmark with rfl | rfl <;> rfl
  next hmark =>
    split
    next hlow =>
      split
      next letter hletter => exact readContent_of_escape (readEscape_short hletter rest)
      next => exact readContent_of_escape (readEscape_unicode hlow rest)
    next hspace =>
      rw [not_or] at hmark
      exact readContent_append (isPlain_of_mem_utf8EncodeChar hmark.1 hmark.2 hspace) rest

theorem readContent_write (chars : List Char) (rest : List UInt8) :
    readContent (chars.flatMap writeChar ++ Byte.quote :: rest) =
      .ok (chars.flatMap String.utf8EncodeChar, rest) := by
  induction chars with
  | nil => exact readContent_quote rest
  | cons c chars ih =>
    rw [List.flatMap_cons, List.append_assoc, readContent_writeChar, ih]
    rfl

theorem write_append (text : String) (rest : List UInt8) :
    write text ++ rest =
      Byte.quote :: (text.toList.flatMap writeChar ++ Byte.quote :: rest) := by
  simp [write]

theorem readText_write (text : String) (rest : List UInt8) :
    readText (text.toList.flatMap writeChar ++ Byte.quote :: rest) = .ok (text, rest) := by
  have hcontent : readContent (text.toList.flatMap writeChar ++ Byte.quote :: rest) =
      .ok (Utf8.encode text, rest) := readContent_write text.toList rest
  simp [readText, hcontent]

end ExpiringCache.Json.Quoted

namespace ExpiringCache.Json

/-- A quoted text reads back, whatever follows it. -/
theorem readString_write (text : String) (rest : List UInt8) :
    readString (Quoted.write text ++ rest) = .ok (text, rest) := by
  rw [Quoted.write_append, readString, skipBlank_cons (by decide)]
  exact Quoted.readText_write text rest

end ExpiringCache.Json
