import ExpiringCache.Proofs.Clock.Span
import ExpiringCache.Proofs.Holder.ExactLimits
import ExpiringCache.Proofs.Store.NewEntry

/-!
# Reading an entry at the instant at which it was written or read

At the instant of a write or of a read the recorded access lags behind the reading of the clock by
a whole number of spans. That lag counts as age: the entry is still valid at that very instant
exactly if no limit is shorter than the lag. Within the first span after the base epoch the lag is
zero and every entry is fresh; once the clock has left it, a limit has to be longer than a span.
-/
namespace ExpiringCache

variable {α : Type}

namespace Holder

/-- The check of a holder that was accessed at the reading of the clock and whose absolute limit
has not passed: only the lag of the reading counts against the idle limit. -/
theorem isInvalid_of_accessed_now {clock : Clock} {holder : Holder α}
    (sums : Arithmetic.Fits (clock.base.toInt + clock.offsetNow.toInt))
    (complete : holder.isComplete = true) (live : holder.isReleased = false)
    (accessed : holder.accessed = clock.offsetNow) (positive : holder.maxIdle.toInt ≠ 0)
    (capOpen : holder.cachePassed clock clock.now = .ok false) :
    holder.isInvalid clock =
      .ok (decide (1000 * holder.maxIdle.toInt < clock.lag clock.now)) := by
  obtain ⟨since, hinstant, hlag⟩ := Clock.exists_instantOf_offsetOf sums
  rw [isInvalid, isInvalidAt_eq_limitPassed complete live, limitPassed, capOpen]
  simp only
  rw [idlePassed_eq fun _ => by rw [accessed]; exact hinstant, hlag]
  simp [positive]

/-- A holder made at the reading of the clock has passed its absolute limit if the lag is longer. -/
theorem cachePassed_of_created_now {clock : Clock} {holder : Holder α}
    (sums : Arithmetic.Fits (clock.base.toInt + clock.offsetNow.toInt))
    (created : holder.created = clock.offsetNow) :
    holder.cachePassed clock clock.now = .ok (decide (0 < holder.maxCache.toInt ∧
      1000 * holder.maxCache.toInt < clock.lag clock.now)) := by
  obtain ⟨since, hinstant, hlag⟩ := Clock.exists_instantOf_offsetOf sums
  rw [cachePassed_eq fun _ => by rw [created]; exact hinstant, hlag]

theorem isReleased_of_peek {codec : Codec α} {holder : Holder α}
    (h : holder.peek codec = .ok none) : holder.isReleased = true := by
  unfold peek at h
  split at h
  next hpayload => simp [isReleased, hpayload]
  next => simp at h
  next => split at h <;> simp at h

/-- What a valid holder has passed: none of the checks. -/
theorem of_isInvalid_eq_ok_false {clock : Clock} {holder : Holder α}
    (h : holder.isInvalid clock = .ok false) :
    holder.isComplete = true ∧ holder.isReleased = false ∧ holder.maxIdle.toInt ≠ 0 ∧
      holder.cachePassed clock clock.now = .ok false := by
  unfold isInvalid isInvalidAt at h
  split at h
  · simp at h
  next hopen =>
    have hlive : holder.isComplete = true ∧ holder.isReleased = false := by simpa using hopen
    unfold limitPassed at h
    cases hc : holder.cachePassed clock clock.now with
    | error overflow => simp [hc] at h
    | ok passed =>
      cases passed with
      | true => simp [hc] at h
      | false =>
        refine ⟨hlive.1, hlive.2, ?_, rfl⟩
        intro hzero
        simp [hc, idlePassed, (int32_eq_zero_iff _).mpr hzero] at h

end Holder

namespace Store

/-- A put of a store that keeps values as they are always succeeds. -/
theorem put_of_identity (codec : Codec α) {store : Store α} (steady : store.jitter = 0)
    (identity : store.mode = .identity) (key : String) (value : α) (words : List UInt32) :
    store.put codec key value words =
      (.ok (), (store.publish key (store.newEntry ((store.find? key).map Prod.snd) .plain
        (.live value))).record .put) := by
  rw [put_eq codec steady, identity]
  rfl

theorem get_put_same_instant (codec : Codec α) {store : Store α} (key : String)
    (sums : Arithmetic.Fits (store.clock.base.toInt + store.clock.offsetNow.toInt))
    (steady : store.jitter = 0) (identity : store.mode = .identity) (value : α)
    (words : List UInt32) {idle : Int} (positive : 0 < idle)
    (decided : Holder.decidedIdle (store.policy.decision (store.find? key).isSome)
      ((store.find? key).map Prod.snd) = idle) :
    ((store.put codec key value words).2.get codec key).1 =
      if store.clock.lag store.clock.now ≤ 1000 * idle ∧
          (store.maxCache.toInt ≤ 0 ∨
            store.clock.lag store.clock.now ≤ 1000 * min 2147483647 store.maxCache.toInt)
        then .ok value else .error (.expired key) := by
  rw [put_of_identity codec steady identity]
  let holder := store.newEntry ((store.find? key).map Prod.snd) .plain (.live value)
  have hfind : ((store.publish key holder).record .put).find? key =
      some (store.pool.size, holder) := find?_publish_self store key holder
  have hclock : ((store.publish key holder).record .put).clock = store.clock :=
    clock_publish store key holder
  have hnew : holder = { Holder.fresh store.clock .plain (.live value) with
      maxIdle := holder.maxIdle
      maxCache := Arithmetic.limitSeconds store.maxCache
      isComplete := true } := newEntry_eq steady _ _ _
  have hidle : holder.maxIdle.toInt = idle := by
    rw [← decided, toInt_maxIdle_newEntry steady, Option.isSome_map]
  have hcap : holder.maxCache.toInt = max 0 (min 2147483647 store.maxCache.toInt) := by
    rw [hnew, Arithmetic.toInt_limitSeconds]
  have hpeek : holder.peek codec = .ok (some value) := by rw [hnew]; rfl
  have hcheck := Holder.cachePassed_of_created_now sums (show holder.created = _ by rw [hnew]; rfl)
  rw [get_of_find? codec hfind, hclock]
  by_cases hopen : 0 < holder.maxCache.toInt ∧
      1000 * holder.maxCache.toInt < store.clock.lag store.clock.now
  · have hinvalid : holder.isInvalid store.clock = .ok true := by
      rw [Holder.isInvalid, Holder.isInvalidAt_eq_limitPassed (by rw [hnew]) (by rw [hnew]; rfl),
        Holder.limitPassed, hcheck]
      simp [hopen]
    rw [hinvalid, if_neg (by omega)]
  · rw [decide_eq_false hopen] at hcheck
    rw [Holder.isInvalid_of_accessed_now sums (by rw [hnew]) (by rw [hnew]; rfl)
      (by rw [hnew]; rfl) (by omega) hcheck, hidle, hpeek]
    by_cases hshort : 1000 * idle < store.clock.lag store.clock.now
    · rw [decide_eq_true hshort, if_neg (by omega)]
    · rw [decide_eq_false hshort, if_pos (by omega)]

/-- After a read that gave a value back, the same read again depends on the lag and on the idle
limit of the entry alone: its absolute limit was open at this very reading. -/
theorem get_get_same_instant {codec : Codec α} {store : Store α} {key : String} {value : α}
    (sums : Arithmetic.Fits (store.clock.base.toInt + store.clock.offsetNow.toInt))
    (h : (store.get codec key).1 = .ok value) :
    ∃ handle holder, store.find? key = some (handle, holder) ∧
      ((store.get codec key).2.get codec key).1 =
        if store.clock.lag store.clock.now ≤ 1000 * holder.maxIdle.toInt then .ok value
        else .error (.expired key) := by
  obtain ⟨handle, holder, hk, hvalid, hpeek, hafter⟩ := exists_of_get_eq_ok h
  obtain ⟨complete, live, positive, capOpen⟩ := Holder.of_isInvalid_eq_ok_false hvalid
  refine ⟨handle, holder, hk, ?_⟩
  let again := (holder.access store.clock).addUses 1
  have hfind : (((store.modify handle (Holder.access store.clock)).modify handle
      (Holder.addUses 1)).record .hit).find? key = some (handle, again) :=
    find?_modify_self (find?_modify_self hk _) _
  have hagain : again.peek codec = .ok (some value) := hpeek
  have hcheck : again.isInvalid store.clock =
      .ok (decide (1000 * holder.maxIdle.toInt < store.clock.lag store.clock.now)) :=
    Holder.isInvalid_of_accessed_now sums complete live rfl positive capOpen
  have hclock : (((store.modify handle (Holder.access store.clock)).modify handle
      (Holder.addUses 1)).record .hit).clock = store.clock := rfl
  rw [hafter, get_of_find? codec hfind, hclock, hcheck, hagain]
  by_cases hshort : 1000 * holder.maxIdle.toInt < store.clock.lag store.clock.now
  · rw [decide_eq_true hshort, if_neg (by omega)]
  · rw [decide_eq_false hshort, if_pos (by omega)]

/-- At the reading of the clock at which an entry was put, or read with success, a read gives its
value exactly if no limit of the entry is shorter than the whole spans of `2 ^ 32` milliseconds by
which the reading has left the span around the base epoch; else the entry has expired at once. -/
theorem get_at_instant_of_access (codec : Codec α) (store : Store α) (key : String)
    (sums : Arithmetic.Fits (store.clock.base.toInt + store.clock.offsetNow.toInt)) :
    let lag := 2 ^ 32 * ((store.clock.now.toInt - store.clock.base.toInt + 2 ^ 31) / 2 ^ 32)
    (∀ (value : α) (words : List UInt32) (create update : Int32), store.jitter = 0 →
      store.mode = .identity → store.policy = ⟨.seconds create, .seconds update⟩ →
      0 < create → 0 < update →
        let idle := if (store.find? key).isSome then update.toInt else create.toInt
        (store.put codec key value words).1 = .ok () ∧
          ((store.put codec key value words).2.get codec key).1 =
            if lag ≤ 1000 * idle ∧ (store.maxCache.toInt ≤ 0 ∨
                lag ≤ 1000 * min 2147483647 store.maxCache.toInt)
              then .ok value else .error (.expired key)) ∧
      ∀ value : α, (store.get codec key).1 = .ok value →
        ∃ handle holder, store.find? key = some (handle, holder) ∧
          ((store.get codec key).2.get codec key).1 =
            if lag ≤ 1000 * holder.maxIdle.toInt then .ok value else .error (.expired key) := by
  intro lag
  have hlag : store.clock.lag store.clock.now = lag := Clock.lag_eq ..
  refine ⟨?_, fun value h => ?_⟩
  · intro value words create update steady identity policy hcreate hupdate idle
    rw [Holder.int32_pos_iff] at hcreate hupdate
    refine ⟨by rw [put_of_identity codec steady identity], ?_⟩
    have positive : 0 < idle := by
      dsimp only [idle]
      split <;> assumption
    have decided : Holder.decidedIdle (store.policy.decision (store.find? key).isSome)
        ((store.find? key).map Prod.snd) = idle := by
      rw [policy]
      dsimp only [idle, ExpiryPolicy.decision]
      split
      · exact Int.max_eq_right (Int.le_of_lt hupdate)
      · exact Int.max_eq_right (Int.le_of_lt hcreate)
    rw [← hlag]
    exact get_put_same_instant codec key sums steady identity value words positive decided
  · rw [← hlag]
    exact get_get_same_instant sums h

/-- A limit longer than a span keeps an entry fresh when the clock has left the first span. -/
theorem get_at_instant_of_access_past_span :
    let codec : Codec String := Codec.json .string
    let store : Store String :=
      { Store.empty Settings.standard ⟨0, 5000000000⟩ with policy := .modified 4294968 }
    let written := (store.put codec "k" "v" []).2
    Arithmetic.Fits (store.clock.base.toInt + store.clock.offsetNow.toInt) ∧
      (written.get codec "k").1 = .ok "v" ∧
      ∃ handle holder, written.find? "k" = some (handle, holder) ∧
        ((written.get codec "k").2.get codec "k").1 =
          if 2 ^ 32 ≤ 1000 * holder.maxIdle.toInt then .ok "v" else .error (.expired "k") := by
  intro codec store written
  have sums : Arithmetic.Fits (store.clock.base.toInt + store.clock.offsetNow.toInt) := by decide
  have hput := (get_at_instant_of_access codec store "k" sums).1 "v" [] 4294968 4294968 rfl rfl rfl
    (by decide) (by decide)
  have hget : (written.get codec "k").1 = .ok "v" := hput.2.trans (if_pos (by decide))
  have hlag : 2 ^ 32 * ((written.clock.now.toInt - written.clock.base.toInt + 2 ^ 31) / 2 ^ 32) =
      (2 ^ 32 : Int) := by decide
  obtain ⟨handle, holder, hk, hread⟩ :=
    (get_at_instant_of_access codec written "k" sums).2 "v" hget
  rw [hlag] at hread
  exact ⟨sums, hget, handle, holder, hk, hread⟩

/-- Once the clock has left the span, a limit of five minutes is shorter than the lag: a value
expires at the instant at which it is put, and at the instant at which it is read. -/
theorem expired_at_instant_of_access :
    let codec : Codec String := Codec.json .string
    let store : Store String :=
      { Store.empty Settings.standard ⟨0, 2147483647⟩ with policy := .modified 300 }
    let written := (store.put codec "k" "v" []).2
    let later := { written with clock := ⟨0, 2147483648⟩ }
    (later.put codec "k" "w" []).1 = .ok () ∧
      ((later.put codec "k" "w" []).2.get codec "k").1 = .error (.expired "k") ∧
      (later.get codec "k").1 = .ok "v" ∧
      ((later.get codec "k").2.get codec "k").1 = .error (.expired "k") := by
  exact ⟨rfl, rfl, rfl, rfl⟩

end Store

end ExpiringCache
