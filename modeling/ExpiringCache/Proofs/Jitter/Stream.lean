import ExpiringCache.Jitter

/-!
# Streams of random words

A draw takes the words of a list one after the other, and zeros when the list is used up. It ends at
the first word that counts, which is at the latest the first zero behind the list, and its delay is
the one of that word. A delay is at least one second and at most the bound.
-/
namespace ExpiringCache.Jitter

/-- A word of the stream that is made of a list and of the zeros behind it. -/
def wordAt (words : List UInt32) (index : Nat) : UInt32 := words.getD index 0

/-- The word of a stream that counts first. -/
structure CountsFirst (range : Nat) (words : List UInt32) (index : Nat) : Prop where
  counts : accepts range (wordAt words index) = true
  skipped : ∀ earlier < index, accepts range (wordAt words earlier) = false

theorem CountsFirst.cons {range : Nat} {words : List UInt32} {index : Nat} {word : UInt32}
    (h : CountsFirst range words index) (refused : accepts range word = false) :
    CountsFirst range (word :: words) (index + 1) where
  counts := h.counts
  skipped := by
    rintro (_ | earlier) hlt
    · exact refused
    · exact h.skipped earlier (Nat.lt_of_succ_lt_succ hlt)

/-- A draw ends at the first word that counts, at most one word behind the list. -/
theorem exists_countsFirst_draw (range : Nat) (words : List UInt32) :
    ∃ index ≤ words.length, CountsFirst range words index ∧
      draw range words = ⟨delay range (wordAt words index), index + 1⟩ := by
  induction words with
  | nil => exact ⟨0, Nat.le_refl 0, ⟨accepts_zero range, nofun⟩, rfl⟩
  | cons word words ih =>
    by_cases counts : accepts range word = true
    · exact ⟨0, Nat.zero_le _, ⟨counts, nofun⟩, by rw [draw, if_pos counts]; rfl⟩
    · obtain ⟨index, hle, hfirst, hdraw⟩ := ih
      refine ⟨index + 1, Nat.succ_le_succ hle, hfirst.cons (by simpa using counts), ?_⟩
      rw [draw, if_neg counts, hdraw]
      rfl

/-- Whatever the words, a delay is at least one second and at most the bound. -/
theorem delay_draw_mem {range : Nat} (h : 0 < range) (words : List UInt32) :
    1 ≤ (draw range words).delay ∧ (draw range words).delay ≤ range := by
  obtain ⟨index, -, -, hdraw⟩ := exists_countsFirst_draw range words
  rw [hdraw]
  exact ⟨delay_pos range _, delay_le h _⟩

/-- The first word of a list decides about the number of words that a draw takes. -/
theorem used_draw_cons (range : Nat) (word : UInt32) (words : List UInt32) :
    (draw range (word :: words)).used = 1 ↔ accepts range word = true := by
  obtain ⟨index, -, -, hdraw⟩ := exists_countsFirst_draw range words
  rw [draw]
  split
  next counts => simp [counts]
  next refused => simp [refused, hdraw]

/-- The greatest delay of a span in unbounded integers. -/
theorem toInt_bound (span : Duration) :
    (bound span).toInt = min span.wholeSeconds.toNat 2147483647 := by
  have hfits : min span.wholeSeconds.toNat (2 ^ 63 - 1) < 2 ^ 63 := by omega
  rw [bound, Arithmetic.toInt_limitSeconds, Int64.toInt_ofNat_of_lt hfits]
  omega

end ExpiringCache.Jitter
