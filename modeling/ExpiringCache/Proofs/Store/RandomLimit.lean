import ExpiringCache.Proofs.Holder.RandomDelay
import ExpiringCache.Proofs.Store.Evolution

/-!
# Bounds on random limits

Whatever words a random stream is made of, the draw for a span ends at the first word that counts,
at most one word behind the list, and the delay lies between one second and the whole seconds of the
span. It becomes the absolute limit of a holder, or shortens it. A store that is told to draw delays
therefore publishes no entry without an absolute limit, and none with a limit that is longer than
the greatest delay or than the limit in its settings.
-/
namespace ExpiringCache

variable {α : Type}

namespace Holder

/-- What a random delay of at most `bound` seconds does to a holder, if the stream has the word that
counts first at `index`. -/
structure DrawsAt (bound : Nat) (words : List UInt32) (index : Nat) (holder : Holder α)
    (jittered : Jittered α) : Prop where
  first : Jitter.CountsFirst bound words index
  /-- At most one word behind the list is taken. -/
  ends : index ≤ words.length
  drawn : jittered.drawn = index + 1
  delay_pos : 1 ≤ Jitter.delay bound (Jitter.wordAt words index)
  delay_le : Jitter.delay bound (Jitter.wordAt words index) ≤ bound
  /-- The limit becomes the delay if there was none, else the shorter one of both. -/
  limit : jittered.holder.maxCache.toInt =
    if holder.maxCache.toInt = 0 then (Jitter.delay bound (Jitter.wordAt words index) : Int)
    else min holder.maxCache.toInt (Jitter.delay bound (Jitter.wordAt words index))
  /-- Nothing else changes. -/
  same : jittered.holder = { holder with maxCache := jittered.holder.maxCache }

theorem exists_drawsAt {span : Duration} {bound : Nat}
    (h : bound = min span.wholeSeconds.toNat 2147483647) (positive : 0 < bound)
    (words : List UInt32) (holder : Holder α) :
    ∃ index, DrawsAt bound words index holder (holder.jitterWithin span words) := by
  have hbound : (Jitter.bound span).toInt = bound := by
    rw [Jitter.toInt_bound, h]
  have hrange : (Jitter.bound span).toInt.toNat = bound := by omega
  have hpos : 0 < (Jitter.bound span).toInt := by omega
  obtain ⟨delay, hdelay, hlow, hhigh, heq⟩ := jitterWithin_of_bound_pos hpos words holder
  obtain ⟨index, hends, hfirst, hdraw⟩ := Jitter.exists_countsFirst_draw bound words
  rw [hrange] at hdelay heq
  rw [hdraw] at hdelay heq
  rw [hbound, hdelay] at hhigh
  rw [heq]
  refine ⟨index, hfirst, hends, rfl, Jitter.delay_pos bound _, Int.ofNat_le.mp hhigh, ?_, ?_⟩
  · rw [← hdelay]
    dsimp only
    split
    next hshorter =>
      dsimp only
      split <;> omega
    next hlonger =>
      rw [if_neg fun hnone => hlonger (.inl hnone)]
      omega
  · dsimp only
    split <;> rfl

end Holder

namespace Store

variable {codec : Codec α} {store : Store α} {key : String} {value : α} {words : List UInt32}

/-- A put that succeeds has published the holder that it made. -/
theorem exists_find?_of_put_eq_ok (h : (store.put codec key value words).1 = .ok ()) :
    ∃ holder, store.MakesFor codec key value words holder ∧
      (store.put codec key value words).2.find? key = some (store.pool.size, holder) := by
  unfold put at h ⊢
  rw [Holder.new_eq] at h ⊢
  cases hstore : Holder.store codec store.mode value with
  | error reason =>
    rw [hstore] at h
    nomatch h
  | ok kept => exact ⟨_, ⟨kept.1, kept.2, hstore, rfl⟩, find?_publish_self store key _⟩

/-- With randomness a delay is drawn for a holder that has the absolute limit of the settings. -/
theorem MakesFor.exists_jitterWithin {holder : Holder α}
    (h : store.MakesFor codec key value words holder) (random : store.jitter ≠ 0) :
    ∃ complete : Holder α, complete.maxCache = Arithmetic.limitSeconds store.maxCache ∧
      holder = (complete.jitterWithin (.seconds store.jitter) words).holder := by
  obtain ⟨form, payload, -, rfl⟩ := h
  rw [assignLimits]
  simp only [if_neg random]
  exact ⟨_, rfl, rfl⟩

/-- A holder that a put makes with randomness has an absolute limit, no longer than the greatest
delay and no longer than the limit of the settings, if they have one. -/
theorem MakesFor.maxCache_mem {holder : Holder α}
    (h : store.MakesFor codec key value words holder) (random : store.jitter ≠ 0) :
    1 ≤ holder.maxCache.toInt ∧
      holder.maxCache.toInt ≤ min (store.jitter.toNat : Int) 2147483647 ∧
      (0 < store.maxCache → holder.maxCache.toInt ≤ min store.maxCache.toInt 2147483647) := by
  obtain ⟨complete, hcomplete, rfl⟩ := h.exists_jitterWithin random
  have hpositive : 0 < store.jitter.toNat := by
    have hne : store.jitter.toNat ≠ 0 := fun heq => random (UInt64.toNat_inj.mp heq)
    omega
  obtain ⟨index, hdraws⟩ := Holder.exists_drawsAt rfl
    (show 0 < min (Duration.seconds store.jitter).wholeSeconds.toNat 2147483647 by
      rw [Duration.wholeSeconds]
      omega) words complete
  have hlow := hdraws.delay_pos
  have hhigh := hdraws.delay_le
  have hlimit := hdraws.limit
  have hcap : complete.maxCache.toInt = max 0 (min 2147483647 store.maxCache.toInt) := by
    rw [hcomplete, Arithmetic.toInt_limitSeconds]
  rw [Duration.wholeSeconds] at hlow hhigh hlimit
  rw [Int64.lt_iff_toInt_lt, show (0 : Int64).toInt = 0 from rfl]
  split at hlimit <;> omega

/-- For every holder, span and list of words: a span below one second draws nothing and changes
nothing, and any other one draws as `Holder.DrawsAt` says. Every holder that a put publishes in a
store with randomness has an absolute limit within both bounds. -/
theorem random_limit_within_bounds :
    (∀ (span : Duration) (words : List UInt32) (holder : Holder α),
      (span.wholeSeconds.toNat = 0 → holder.jitterWithin span words = ⟨holder, 0⟩) ∧
        (0 < span.wholeSeconds.toNat → ∃ index,
          Holder.DrawsAt (min span.wholeSeconds.toNat 2147483647) words index holder
            (holder.jitterWithin span words))) ∧
      ∀ (codec : Codec α) (store : Store α) (key : String) (value : α) (words : List UInt32),
        store.jitter ≠ 0 → (store.put codec key value words).1 = .ok () →
          ∃ handle holder, (store.put codec key value words).2.find? key = some (handle, holder) ∧
            1 ≤ holder.maxCache.toInt ∧
            holder.maxCache.toInt ≤ min (store.jitter.toNat : Int) 2147483647 ∧
            (0 < store.maxCache →
              holder.maxCache.toInt ≤ min store.maxCache.toInt 2147483647) := by
  refine ⟨fun span words holder => ⟨fun short => ?_, fun long => ?_⟩, ?_⟩
  · refine Holder.jitterWithin_of_bound_eq_zero ?_ words holder
    rw [Holder.int32_eq_zero_iff, Jitter.toInt_bound, short]
    rfl
  · exact Holder.exists_drawsAt rfl (by omega) words holder
  · intro codec store key value words random ok
    obtain ⟨holder, hmade, hfind⟩ := exists_find?_of_put_eq_ok ok
    exact ⟨_, holder, hfind, hmade.maxCache_mem random⟩

/-- A delay of at most `1073741825` seconds, for which half of all words do not count, among them
the only one of the list: the draw ends at the zero behind it. -/
theorem random_limit_within_bounds_of_refused_word :
    let span : Duration := .seconds 1073741825
    let holder : Holder String :=
      { payload := some (.live "v"), form := .plain, created := 0, accessed := 0,
        maxIdle := 300, maxCache := 60, uses := 0, isComplete := true }
    let codec : Codec String := Codec.json .string
    let settings : Settings :=
      { Settings.standard with maxCache := 60, expireJitter := 1073741825 }
    let store : Store String := Store.empty settings ⟨0, 0⟩
    (0 < span.wholeSeconds.toNat ∧ ∃ index,
        Holder.DrawsAt 1073741825 [3] index holder (holder.jitterWithin span [3])) ∧
      store.jitter ≠ 0 ∧ (store.put codec "k" "v" [3]).1 = .ok () ∧
      ∃ handle holder, (store.put codec "k" "v" [3]).2.find? "k" = some (handle, holder) ∧
        1 ≤ holder.maxCache.toInt ∧ holder.maxCache.toInt ≤ 60 := by
  intro span holder codec settings store
  obtain ⟨draws, limits⟩ := @random_limit_within_bounds String
  have long : 0 < span.wholeSeconds.toNat := by decide
  have random : store.jitter ≠ 0 := by decide
  have ok : (store.put codec "k" "v" [3]).1 = .ok () := rfl
  obtain ⟨handle, published, hfind, hlow, -, hlimit⟩ := limits codec store "k" "v" [3] random ok
  exact ⟨⟨long, (draws span [3] holder).2 long⟩, random, ok, handle, published, hfind, hlow,
    hlimit (by decide)⟩

end Store

end ExpiringCache
