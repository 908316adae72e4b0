import ExpiringCache.Proofs.Store.Freshness

/-!
# Reads that race with a release

The other party of a racing read releases the holder while its check is under way: the check has
seen the value and has yet to compare a limit. Limits do not depend on the value, so the check ends
as it would have ended, and the read finds nothing. It can be told in a sequential order, the
release first and the read after it; all that it may leave besides is the time of an access, which
a recorded read notes if no limit has passed. If the check ends before it compares a limit, nothing
is released and nobody has raced.
-/
namespace ExpiringCache

variable {α : Type}

namespace Holder

variable {clock : Clock} {holder : Holder α}

/-- Whether a limit has passed at the reading of the clock, in unbounded integers. -/
def Elapsed (clock : Clock) (holder : Holder α) : Prop :=
  Passed holder.maxCache.toInt holder.maxIdle.toInt (clock.base.toInt + holder.created.toInt)
    (clock.base.toInt + holder.accessed.toInt) clock.now.toInt

instance (clock : Clock) (holder : Holder α) : Decidable (holder.Elapsed clock) :=
  inferInstanceAs (Decidable (Passed ..))

/-- A check that gets as far as a limit does not notice that the value is taken away meanwhile. -/
theorem isInvalid_of_consultsBase (h : holder.consultsBase = true) :
    holder.isInvalid clock = holder.release.limitPassed clock clock.now := by
  simp only [consultsBase, Bool.and_eq_true, Bool.not_eq_true'] at h
  exact isInvalidAt_eq_limitPassed h.1.1 h.1.2

/-- A check that ends before it gets to a limit finds the holder invalid. -/
theorem isInvalid_of_not_consultsBase (h : holder.consultsBase = false) :
    holder.isInvalid clock = .ok true := by
  unfold isInvalid isInvalidAt
  split
  next => rfl
  next hopen =>
    have hlimits : ¬ 0 < holder.maxCache ∧ holder.maxIdle = 0 := by
      simp only [Bool.or_eq_true, Bool.not_eq_true', not_or, Bool.not_eq_false,
        Bool.not_eq_true] at hopen
      simpa [consultsBase, hopen] using h
    simp [limitPassed, cachePassed, idlePassed, hlimits]

theorem consultsBase_of_valid (h : holder.isInvalid clock = .ok false) :
    holder.consultsBase = true := by
  cases hearly : holder.consultsBase with
  | true => rfl
  | false =>
    rw [isInvalid_of_not_consultsBase hearly] at h
    cases h

/-- A check that gets as far as a limit, and goes through, says whether a limit has passed. -/
theorem eq_elapsed_of_isInvalid (h : holder.consultsBase = true) {invalid : Bool}
    (check : holder.isInvalid clock = .ok invalid) : invalid = decide (holder.Elapsed clock) := by
  rw [isInvalid_of_consultsBase h] at check
  exact eq_passed_of_limitPassed check

end Holder

namespace Store

variable {store : Store α} {key : String} {handle : Handle} {holder : Holder α}

theorem interfere_of_consultsBase (h : holder.consultsBase = true) :
    store.interfere handle holder = store.release handle := if_pos h

theorem interfere_of_not_consultsBase (h : holder.consultsBase = false) :
    store.interfere handle holder = store := if_neg (by simp [h])

theorem racingPeek_of_find? (codec : Codec α) (hk : store.find? key = some (handle, holder)) :
    store.racingPeek codec key =
      match holder.isInvalid store.clock with
      | .error overflow => (.error (.overflow overflow), store.interfere handle holder)
      | .ok _ => (.error (.expired key), store.interfere handle holder) := by
  have hpool := (find?_eq_some_iff.mp hk).2
  simp only [racingPeek, hk]
  cases hcheck : holder.isInvalid store.clock with
  | error overflow => rfl
  | ok invalid =>
    cases invalid with
    | true => rfl
    | false =>
      have hgone : (store.release handle).pool[handle]? = some holder.release := by
        rw [release, pool_modify, if_pos rfl, hpool, Option.map_some]
      rw [interfere_of_consultsBase (Holder.consultsBase_of_valid hcheck)]
      simp only [peekHolder, hgone, Holder.peek_release]

theorem racingGet_of_find? (codec : Codec α) (hk : store.find? key = some (handle, holder)) :
    store.racingGet codec key =
      match holder.isInvalid store.clock with
      | .error overflow => (.error (.overflow overflow), store.interfere handle holder)
      | .ok true => (.error (.expired key), (store.interfere handle holder).record .miss)
      | .ok false => (.error (.expired key),
          ((store.release handle).modify handle (Holder.access store.clock)).record .miss) := by
  have hpool := (find?_eq_some_iff.mp hk).2
  simp only [racingGet, hk]
  cases hcheck : holder.isInvalid store.clock with
  | error overflow => rfl
  | ok invalid =>
    cases invalid with
    | true => rfl
    | false =>
      have haccessed : ((store.release handle).modify handle
          (Holder.access store.clock)).pool[handle]? =
            some (holder.release.access store.clock) := by
        rw [pool_modify, if_pos rfl, release, pool_modify, if_pos rfl, hpool]
        rfl
      have hclock : (store.release handle).clock = store.clock := rfl
      rw [interfere_of_consultsBase (Holder.consultsBase_of_valid hcheck)]
      simp only [getHolder, peekHolder, hclock, haccessed, Holder.peek_access,
        Holder.peek_release]

theorem find?_release_self (hk : store.find? key = some (handle, holder)) :
    (store.release handle).find? key = some (handle, holder.release) :=
  find?_modify_self hk Holder.release

theorem peek_of_isInvalid (codec : Codec α) (hk : store.find? key = some (handle, holder))
    (invalid : holder.isInvalid store.clock = .ok true) :
    store.peek codec key = .error (.expired key) := by
  rw [peek_of_find? codec hk, invalid]

theorem get_of_isInvalid (codec : Codec α) (hk : store.find? key = some (handle, holder))
    (invalid : holder.isInvalid store.clock = .ok true) :
    store.get codec key = (.error (.expired key), store.record .miss) := by
  rw [get_of_find? codec hk, invalid]

theorem peek_release_self (codec : Codec α) (hk : store.find? key = some (handle, holder)) :
    (store.release handle).peek codec key = .error (.expired key) :=
  peek_of_isInvalid codec (find?_release_self hk) (Holder.isInvalidAt_of_isReleased rfl)

theorem get_release_self (codec : Codec α) (hk : store.find? key = some (handle, holder)) :
    (store.release handle).get codec key =
      (.error (.expired key), (store.release handle).record .miss) :=
  get_of_isInvalid codec (find?_release_self hk) (Holder.isInvalidAt_of_isReleased rfl)

/-- Every read of a key ends for the same reason, whether it is recorded or not and whether it races
with a release or not. -/
structure Refuses (codec : Codec α) (store : Store α) (key : String) (reason : StoreError) :
    Prop where
  get : (store.get codec key).1 = .error reason
  peek : store.peek codec key = .error reason
  racingGet : (store.racingGet codec key).1 = .error reason
  racingPeek : (store.racingPeek codec key).1 = .error reason

theorem refuses_of_isInvalid (codec : Codec α) (hk : store.find? key = some (handle, holder))
    (invalid : holder.isInvalid store.clock = .ok true) :
    store.Refuses codec key (.expired key) where
  get := by rw [get_of_isInvalid codec hk invalid]
  peek := peek_of_isInvalid codec hk invalid
  racingGet := by rw [racingGet_of_find? codec hk, invalid]
  racingPeek := by rw [racingPeek_of_find? codec hk, invalid]

theorem refuses_of_find?_eq_none (codec : Codec α) (hk : store.find? key = none) :
    store.Refuses codec key (.notFound key) := by
  constructor <;> simp only [get, peek, racingGet, racingPeek, hk]

end Store

end ExpiringCache
