import ExpiringCache.Proofs.Holder.RandomDelay
import ExpiringCache.Proofs.Jitter.AcceptedWords

/-!
# Random delays are uniform

A random word is either taken at once or given up for the next one. For a holder without absolute
limit, every delay from one second to the bound is set by the same number of the words that are
taken at once, a power of two, and these are at least half of all words.
-/
namespace ExpiringCache.Holder

variable {α : Type}

/-- What a random delay makes of a holder if `word` is the next word of the stream. -/
def jitteredBy (span : Duration) (rest : List UInt32) (holder : Holder α) (word : UInt32) :
    Jittered α :=
  holder.jitterWithin span (word :: rest)

/-- A word that is taken at once is one that counts, and sets its delay. -/
theorem jitteredBy_of_unlimited {span : Duration} {range : Nat}
    (bound : (Jitter.bound span).toInt = range) (pos : 0 < range) {holder : Holder α}
    (unlimited : holder.maxCache = 0) (rest : List UInt32) (word : UInt32) :
    ((holder.jitteredBy span rest word).drawn = 1 ↔ Jitter.accepts range word = true) ∧
      (Jitter.accepts range word = true →
        (holder.jitteredBy span rest word).holder.maxCache.toInt = Jitter.delay range word) := by
  have hrange : (Jitter.bound span).toInt.toNat = range := by omega
  have hpos : 0 < (Jitter.bound span).toInt := by omega
  obtain ⟨delay, hdelay, -, -, heq⟩ := jitterWithin_of_bound_pos hpos (word :: rest) holder
  rw [int32_eq_zero_iff] at unlimited
  rw [hrange] at hdelay heq
  rw [jitteredBy, heq, if_pos (.inl unlimited)]
  refine ⟨Jitter.used_draw_cons range word rest, fun counts => ?_⟩
  rw [hdelay, Jitter.draw, if_pos counts]

/-- For the words of a stream, of which `rest` comes after the first: every delay up to the bound is
set by as many of the words that are taken at once, no other delay is, and at least half of the
words are taken at once. -/
structure UniformDelays (span : Duration) (range : Nat) (rest : List UInt32) (holder : Holder α) :
    Prop where
  each : ∀ delay : Nat, 1 ≤ delay → delay ≤ range →
    (Finset.univ.filter fun word : UInt32 => (holder.jitteredBy span rest word).drawn = 1 ∧
      (holder.jitteredBy span rest word).holder.maxCache.toInt = delay).card =
        2 ^ (BitVec.ofNat 32 range).clz.toNat
  inside : ∀ word : UInt32, (holder.jitteredBy span rest word).drawn = 1 →
    1 ≤ (holder.jitteredBy span rest word).holder.maxCache.toInt ∧
      (holder.jitteredBy span rest word).holder.maxCache.toInt ≤ range
  half : 2 ^ 32 ≤ 2 * (Finset.univ.filter fun word : UInt32 =>
    (holder.jitteredBy span rest word).drawn = 1).card

theorem uniformDelays_of_bound {span : Duration} {range : Nat}
    (bound : (Jitter.bound span).toInt = range) (pos : 0 < range) {holder : Holder α}
    (unlimited : holder.maxCache = 0) (rest : List UInt32) :
    UniformDelays span range rest holder := by
  have hhigh := (Jitter.bound span).toInt_lt
  have fits : range < 2 ^ 32 := by omega
  have hword := jitteredBy_of_unlimited bound pos unlimited rest
  refine ⟨fun delay hlow hle => ?_, fun word hdrawn => ?_, ?_⟩
  · rw [← Jitter.leadingZeros_eq_clz pos fits, ← Jitter.card_wordsOf pos fits hlow hle,
      Jitter.wordsOf]
    refine congrArg Finset.card (Finset.filter_congr fun word _ => ?_)
    rw [(hword word).1]
    refine and_congr_right fun counts => ?_
    rw [(hword word).2 counts, Int.ofNat_inj]
  · have counts := (hword word).1.mp hdrawn
    have hlow := Jitter.delay_pos range word
    have hle := Jitter.delay_le pos word
    rw [(hword word).2 counts]
    omega
  · have hall : (Finset.univ.filter fun word : UInt32 =>
        (holder.jitteredBy span rest word).drawn = 1) =
          Finset.univ.filter fun word : UInt32 => Jitter.accepts range word = true :=
      Finset.filter_congr fun word _ => (hword word).1
    rw [hall, Jitter.card_accepted pos fits]
    have hscaled := (Jitter.scaled_mem pos fits).1
    omega

/-- Every number of seconds that a limit can have is the bound of a span; and whatever span has it
as its bound and whatever words come next, a random delay of a holder without absolute limit is
uniform between one second and the bound. -/
theorem delays_equally_likely {range : Nat} (pos : 0 < range) (fits : range ≤ 2147483647) :
    (Jitter.bound (.seconds (UInt64.ofNat range))).toInt = range ∧
      ∀ (span : Duration) (holder : Holder α) (rest : List UInt32),
        (Jitter.bound span).toInt = range → holder.maxCache = 0 →
          UniformDelays span range rest holder := by
  constructor
  · have hvalue : (UInt64.ofNat range).toNat = range :=
      UInt64.toNat_ofNat_of_lt' (Nat.lt_of_le_of_lt fits (by decide))
    rw [Jitter.toInt_bound, Duration.wholeSeconds, hvalue]
    omega
  · intro span holder rest bound unlimited
    exact uniformDelays_of_bound bound pos unlimited rest

/-- Each delay between one second and a minute is set by `2 ^ 26` words. -/
theorem delays_equally_likely_of_minute :
    let span : Duration := .millis 60999
    let holder : Holder String :=
      { payload := some (.live "v"), form := .plain, created := 0, accessed := 0,
        maxIdle := 300, maxCache := 0, uses := 0, isComplete := true }
    (Jitter.bound span).toInt = (60 : Nat) ∧ holder.maxCache = 0 ∧
      ∀ delay : Nat, 1 ≤ delay → delay ≤ 60 →
        (Finset.univ.filter fun word : UInt32 => (holder.jitteredBy span [] word).drawn = 1 ∧
          (holder.jitteredBy span [] word).holder.maxCache.toInt = delay).card = 2 ^ 26 := by
  intro span holder
  have pos : 0 < 60 := by decide
  have fits : 60 ≤ 2147483647 := by decide
  have bound : (Jitter.bound span).toInt = (60 : Nat) := by decide
  have uniform := (@delays_equally_likely String 60 pos fits).2 span holder [] bound rfl
  refine ⟨bound, rfl, fun delay hlow hle => ?_⟩
  rw [uniform.each delay hlow hle]
  decide

end ExpiringCache.Holder
