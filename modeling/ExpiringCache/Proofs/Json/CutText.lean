import ExpiringCache.Proofs.Json.RoundTrip

/-!
# Texts that are cut off

A text that was written and lost its end is no text of any value, and a reader says so whatever the
place of the cut: inside a character of several bytes, inside an escape, inside a numeral, or
between two parts of a record. A reader of one part either meets the cut itself or takes its part
and leaves a text that is cut off further behind, so that the readers of all parts can be put one
behind another.

A numeral is the one part whose beginning is a whole part again: the cut is then met by what comes
next, which has to be more than nothing.
-/
namespace ExpiringCache.Json

/-- A text that ends before the whole of it. -/
def CutOff (part whole : List UInt8) : Prop := part <+: whole ∧ part ≠ whole

namespace CutOff

variable {part whole front behind : List UInt8} {b : UInt8}

theorem length_lt (cut : CutOff part whole) : part.length < whole.length := by
  have hle := cut.1.length_le
  have hne : part.length ≠ whole.length := fun h => cut.2 (cut.1.eq_of_length h)
  omega

theorem of_cons (cut : CutOff part (b :: whole)) :
    part = [] ∨ ∃ rest, part = b :: rest ∧ CutOff rest whole := by
  obtain rfl | ⟨rest, rfl, hrest⟩ := List.prefix_cons_iff.mp cut.1
  · exact .inl rfl
  · exact .inr ⟨rest, rfl, hrest, fun h => cut.2 (by rw [h])⟩

/-- A cut stands in the front of a text or behind it. -/
theorem of_append (cut : CutOff part (front ++ behind)) :
    CutOff part front ∨ ∃ rest, part = front ++ rest ∧ CutOff rest behind := by
  by_cases hfront : front <+: part
  · obtain ⟨rest, rfl⟩ := hfront
    exact .inr ⟨rest, rfl, (List.prefix_append_right_inj front).mp cut.1,
      fun h => cut.2 (by rw [h])⟩
  · have hpart := List.prefix_or_prefix_of_prefix cut.1 (List.prefix_append front behind)
    refine .inl ⟨hpart.resolve_right hfront, ?_⟩
    rintro rfl
    exact hfront List.prefix_rfl

theorem eq_nil (cut : CutOff part [b]) : part = [] := by
  have hlt := cut.length_lt
  rw [List.length_singleton] at hlt
  exact List.eq_nil_of_length_eq_zero (by omega)

end CutOff

/-- A reader that says of each beginning of a text that it is cut off. -/
def Truncates {β : Type} (reader : List UInt8 → Except Fault β) (whole : List UInt8) : Prop :=
  ∀ part, CutOff part whole → reader part = .error .truncated

/-- A reader of one part of a text: where the text is cut off, the reader says so, or takes a value
and leaves what is behind the part, which is then cut off. -/
def Passes {α : Type} (reader : Reader α) (written behind : List UInt8) : Prop :=
  ∀ part, CutOff part (written ++ behind) →
    reader part = .error .truncated ∨
      ∃ value rest, reader part = .ok (value, rest) ∧ CutOff rest behind

section

variable {α β : Type} {reader : List UInt8 → Except Fault β} {written behind : List UInt8}

theorem Truncates.cons {b : UInt8} (hnil : reader [] = .error .truncated)
    (h : ∀ rest, CutOff rest behind → reader (b :: rest) = .error .truncated) :
    Truncates reader (b :: behind) := by
  intro part cut
  obtain rfl | ⟨rest, rfl, hrest⟩ := cut.of_cons
  · exact hnil
  · exact h rest hrest

theorem Truncates.append (hwritten : Truncates reader written)
    (h : ∀ rest, CutOff rest behind → reader (written ++ rest) = .error .truncated) :
    Truncates reader (written ++ behind) := by
  intro part cut
  obtain hpart | ⟨rest, rfl, hrest⟩ := cut.of_append
  · exact hwritten part hpart
  · exact h rest hrest

/-- A reader that takes its part, whatever follows it, passes the cut on. -/
theorem Truncates.passes {reader : Reader α} {value : α} (hwritten : Truncates reader written)
    (h : ∀ rest, reader (written ++ rest) = .ok (value, rest)) : Passes reader written behind := by
  intro part cut
  obtain hpart | ⟨rest, rfl, hrest⟩ := cut.of_append
  · exact .inl (hwritten part hpart)
  · exact .inr ⟨value, rest, h rest, hrest⟩

/-- What is read next meets the cut that a reader has passed on. -/
theorem Passes.truncates {reader : Reader α} {next : α × List UInt8 → Except Fault β}
    (hreader : Passes reader written behind)
    (h : ∀ value rest, CutOff rest behind → next (value, rest) = .error .truncated) :
    Truncates (fun bytes => (reader bytes).bind next) (written ++ behind) := by
  intro part cut
  obtain hpart | ⟨value, rest, hpart, hrest⟩ := hreader part cut
  · exact bind_of_error hpart
  · exact (bind_of_ok hpart).trans (h value rest hrest)

end

namespace Quoted

theorem readContent_nil : readContent [] = .error .truncated := by
  rw [readContent]

theorem readContent_of_fault {rest : List UInt8} {fault : Fault}
    (h : readEscape rest = .error fault) :
    readContent (Byte.backslash :: rest) = .error fault := by
  rw [readContent, if_neg (by decide), if_pos rfl]
  split
  next hfault => simpa [h] using hfault.symm
  next hfound => simp [h] at hfound

theorem readUnit_of_length {bytes : List UInt8} (h : bytes.length < 4) :
    readUnit bytes = .error .truncated := by
  unfold readUnit
  split
  next => simp only [List.length_cons] at h; omega
  next => rfl

/-- The four digits behind the letter of a hexadecimal escape are waited for. -/
theorem truncates_readEscape_unicode {digits : List UInt8} (h : digits.length = 4) :
    Truncates readEscape (Byte.ofChar 'u' :: digits) := by
  refine .cons rfl fun rest cut => ?_
  have hlt := cut.length_lt
  rw [readEscape, if_pos rfl, readHex, readUnit_of_length (by omega)]

theorem truncates_readContent_escape {escape : List UInt8} (h : Truncates readEscape escape) :
    Truncates readContent (Byte.backslash :: escape) :=
  .cons readContent_nil fun rest cut => readContent_of_fault (h rest cut)

theorem truncates_readEscape_letter (letter : UInt8) : Truncates readEscape [letter] := by
  intro part cut
  rw [cut.eq_nil]
  rfl

/-- A cut inside the bytes of a character, or in front of them, is met. -/
theorem truncates_readContent_writeChar (c : Char) : Truncates readContent (writeChar c) := by
  unfold writeChar
  split
  next => exact truncates_readContent_escape (truncates_readEscape_letter _)
  next hmark =>
    split
    next =>
      split
      next => exact truncates_readContent_escape (truncates_readEscape_letter _)
      next => exact truncates_readContent_escape (truncates_readEscape_unicode rfl)
    next hspace =>
      rw [not_or] at hmark
      intro part cut
      have hplain := isPlain_of_mem_utf8EncodeChar hmark.1 hmark.2 hspace
      have hpart := readContent_append (fun b hb => hplain b (cut.1.subset hb)) []
      rw [List.append_nil, readContent_nil] at hpart
      exact hpart

theorem truncates_readContent (chars : List Char) :
    Truncates readContent (chars.flatMap writeChar ++ [Byte.quote]) := by
  induction chars with
  | nil =>
    intro part cut
    rw [cut.eq_nil]
    exact readContent_nil
  | cons c chars ih =>
    rw [List.flatMap_cons, List.append_assoc]
    refine (truncates_readContent_writeChar c).append fun rest cut => ?_
    rw [readContent_writeChar, ih rest cut]
    rfl

theorem truncates_readText (text : String) :
    Truncates readText (text.toList.flatMap writeChar ++ [Byte.quote]) := by
  intro part cut
  rw [readText, truncates_readContent text.toList part cut]

end Quoted

theorem truncates_readString (text : String) : Truncates readString (Quoted.write text) := by
  refine .cons rfl fun rest cut => ?_
  rw [readString, skipBlank_cons (by decide)]
  exact Quoted.truncates_readText text rest cut

theorem passes_readString (text : String) (behind : List UInt8) :
    Passes readString (Quoted.write text) behind :=
  (truncates_readString text).passes (readString_write text)

/-- The first digits of a number are the digits of one that is no greater. -/
theorem exists_digits_of_beginning {n : Nat} {ds : List Nat} (h : ds <+: Decimal.digits n) :
    ds = [] ∨ ∃ m, m ≤ n ∧ ds = Decimal.digits m := by
  induction n using Decimal.digits.induct with
  | case1 n hn =>
    have hdigits : Decimal.digits n = [n] := by rw [Decimal.digits, if_pos hn]
    rw [hdigits, List.prefix_cons_iff] at h
    obtain rfl | ⟨rest, rfl, hrest⟩ := h
    · exact .inl rfl
    · exact .inr ⟨n, Nat.le_refl n, by rw [List.prefix_nil.mp hrest, hdigits]⟩
  | case2 n hn ih =>
    have hdigits : Decimal.digits n = Decimal.digits (n / 10) ++ [n % 10] := by
      rw [Decimal.digits, if_neg hn]
    rw [hdigits, List.prefix_concat_iff] at h
    obtain rfl | h := h
    · exact .inr ⟨n, Nat.le_refl n, hdigits.symm⟩
    · obtain rfl | ⟨m, hm, rfl⟩ := ih h
      · exact .inl rfl
      · exact .inr ⟨m, by omega, rfl⟩

theorem exists_writeNat_of_beginning {n : UInt32} {part : List UInt8}
    (h : part <+: writeNat n.toNat) : part = [] ∨ ∃ m : UInt32, part = writeNat m.toNat := by
  obtain ⟨ds, hds, rfl⟩ := List.prefix_map_iff.mp h
  obtain rfl | ⟨m, hm, rfl⟩ := exists_digits_of_beginning hds
  · exact .inl rfl
  · have hlt := n.toNat_lt
    have hback : (UInt32.ofNat m).toNat = m := UInt32.toNat_ofNat_of_lt' (show m < 2 ^ 32 by omega)
    exact .inr ⟨UInt32.ofNat m, by rw [hback]; rfl⟩

theorem EndsNumeral.of_beginning {rest whole : List UInt8} (ends : EndsNumeral whole)
    (h : rest <+: whole) : EndsNumeral rest := by
  cases rest with
  | nil => exact fun b hb => by cases hb
  | cons b rest =>
    obtain ⟨tail, rfl⟩ := h
    exact ends

/-- A numeral that is cut off is a whole one, so that the reader takes it: what is behind it, which
is more than nothing, is then missing. -/
theorem passes_readUInt32 (n : UInt32) {behind : List UInt8} (ends : EndsNumeral behind)
    (hbehind : behind ≠ []) : Passes readUInt32 (writeNat n.toNat) behind := by
  have hcut : CutOff [] behind := ⟨List.nil_prefix, hbehind.symm⟩
  intro part cut
  obtain hpart | ⟨rest, rfl, hrest⟩ := cut.of_append
  · obtain rfl | ⟨m, rfl⟩ := exists_writeNat_of_beginning hpart.1
    · exact .inl rfl
    · have hread := readUInt32_writeNat m (ends.of_beginning hcut.1)
      rw [List.append_nil] at hread
      exact .inr ⟨m, [], hread, hcut⟩
  · exact .inr ⟨n, rest, readUInt32_writeNat n (ends.of_beginning hrest.1), hrest⟩

end ExpiringCache.Json
