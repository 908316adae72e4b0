import Mathlib
import ExpiringCache.Proofs.Session.Accounts
import ExpiringCache.Proofs.Session.Evolution
import ExpiringCache.Proofs.Session.SweepAndReaders

/-!
# Racing reads can be told in order

A read during which another party releases the holder looks like a read that comes after the
release. The one difference is the time of an access: a recorded read that no limit stops notes the
access before it finds the value gone. If the check of the read does not get as far as a limit,
nothing is released and the read is like any other. Whoever wins, a racing read gives no value.
-/
namespace ExpiringCache

variable {α : Type}

/-- Other parties get the time to release a complete holder if it has a value and a limit. -/
theorem Holder.consultsBase_iff {holder : Holder α} (complete : holder.isComplete = true)
    (inRange : holder.InRange) : holder.consultsBase = true ↔
      holder.isReleased = false ∧ (0 < holder.maxCache ∨ 0 < holder.maxIdle) := by
  have hidle : holder.maxIdle ≠ 0 ↔ 0 < holder.maxIdle := by
    have hnonneg := inRange.idle
    rw [Ne, int32_eq_zero_iff, int32_pos_iff]
    omega
  simp only [consultsBase, complete, Bool.true_and, Bool.and_eq_true, Bool.not_eq_true',
    Bool.or_eq_true, decide_eq_true_eq, bne_iff_ne, hidle]

namespace Store

variable {store : Store α} {key : String} {handle : Handle} {holder : Holder α}

/-- A racing read that has released the holder, told in order: the release first. -/
structure ReleasedFirst (codec : Codec α) (store : Store α) (key : String) (handle : Handle)
    (holder : Holder α) : Prop where
  peek : (∀ reason, (store.racingPeek codec key).1 ≠ .error (.overflow reason)) →
    store.racingPeek codec key = (.error (.expired key), store.release handle) ∧
      (store.release handle).peek codec key = .error (.expired key)
  /-- The access is recorded besides exactly if no limit has passed. -/
  get : (∀ reason, (store.racingGet codec key).1 ≠ .error (.overflow reason)) →
    (store.racingGet codec key).1 = .error (.expired key) ∧
      ((store.release handle).get codec key).1 = .error (.expired key) ∧
      (store.racingGet codec key).2 =
        let after := ((store.release handle).get codec key).2
        if holder.Elapsed store.clock then after
        else { after with pool := after.pool.setIfInBounds handle { holder with
          payload := none
          accessed := store.clock.offsetOf store.clock.now } }

/-- How racing reads of a key stand to the reads of a sequential order. -/
structure RacesInOrder (codec : Codec α) (store : Store α) (key : String) : Prop where
  /-- A holder that has a value and a limit is released, and the read comes after that. -/
  released : ∀ handle holder, store.find? key = some (handle, holder) →
    holder.isReleased = false → (0 < holder.maxCache ∨ 0 < holder.maxIdle) →
      store.ReleasedFirst codec key handle holder
  /-- In any other case nobody releases anything, and the read is like any other. -/
  alone : (∀ handle holder, store.find? key = some (handle, holder) →
      holder.isReleased = true ∨ ¬ (0 < holder.maxCache ∨ 0 < holder.maxIdle)) →
    store.racingPeek codec key = (store.peek codec key, store) ∧
      store.racingGet codec key = store.get codec key
  /-- No racing read gives a value or reports one that cannot be decoded. -/
  refuses : ∀ result, result = (store.racingPeek codec key).1 ∨
      result = (store.racingGet codec key).1 →
    result = .error (.notFound key) ∨ result = .error (.expired key) ∨
      ∃ reason, result = .error (.overflow reason)
  /-- No racing read counts a hit or a use. -/
  uncounted : ∀ next, next = (store.racingPeek codec key).2 ∨
      next = (store.racingGet codec key).2 →
    next.counters.hits = store.counters.hits ∧
      ∀ handle, next.usesOf handle = store.usesOf handle

theorem refused_racingPeek (codec : Codec α) (store : Store α) (key : String) :
    (store.racingPeek codec key).1 = .error (.notFound key) ∨
      (store.racingPeek codec key).1 = .error (.expired key) ∨
      ∃ reason, (store.racingPeek codec key).1 = .error (.overflow reason) := by
  cases hk : store.find? key with
  | none => exact .inl (by simp [racingPeek, hk])
  | some found =>
    right
    rw [racingPeek_of_find? codec hk]
    cases found.2.isInvalid store.clock with
    | error reason => exact .inr ⟨reason, rfl⟩
    | ok invalid => exact .inl rfl

theorem refused_racingGet (codec : Codec α) (store : Store α) (key : String) :
    (store.racingGet codec key).1 = .error (.notFound key) ∨
      (store.racingGet codec key).1 = .error (.expired key) ∨
      ∃ reason, (store.racingGet codec key).1 = .error (.overflow reason) := by
  cases hk : store.find? key with
  | none => exact .inl (by simp [racingGet, hk])
  | some found =>
    right
    rw [racingGet_of_find? codec hk]
    cases found.2.isInvalid store.clock with
    | error reason => exact .inr ⟨reason, rfl⟩
    | ok invalid => cases invalid <;> exact .inl rfl

/-- A read that gives no value counts neither a hit nor a use. -/
theorem Accounts.of_refused {next : Store α} {linked : Option Handle} {reason : StoreError}
    (h : store.Accounts next (Tally.ofGet linked (.storeError reason : Answer α))) :
    next.counters.hits = store.counters.hits ∧
      ∀ handle, next.usesOf handle = store.usesOf handle := by
  have hcounters := h.counters
  have huses := h.uses
  cases reason <;> simp_all [Tally.ofGet, Counters.plus]

theorem releasedFirst (codec : Codec α) (hk : store.find? key = some (handle, holder))
    (consults : holder.consultsBase = true) : store.ReleasedFirst codec key handle holder := by
  constructor
  case peek =>
    intro ends
    refine ⟨?_, peek_release_self codec hk⟩
    rw [racingPeek_of_find? codec hk, interfere_of_consultsBase consults] at ends ⊢
    cases hcheck : holder.isInvalid store.clock with
    | error reason => exact absurd (by rw [hcheck]) (ends reason)
    | ok invalid => rfl
  case get =>
    intro ends
    rw [racingGet_of_find? codec hk, interfere_of_consultsBase consults] at ends ⊢
    rw [get_release_self codec hk]
    have hgone : (store.release handle).pool[handle]? = some holder.release :=
      (find?_eq_some_iff.mp (find?_release_self hk)).2
    cases hcheck : holder.isInvalid store.clock with
    | error reason => exact absurd (by rw [hcheck]) (ends reason)
    | ok invalid =>
      have helapsed := Holder.eq_elapsed_of_isInvalid consults hcheck
      cases invalid with
      | true =>
        dsimp only
        rw [if_pos (of_decide_eq_true helapsed.symm)]
        exact ⟨rfl, rfl, rfl⟩
      | false =>
        dsimp only
        rw [if_neg (of_decide_eq_false helapsed.symm), modify_eq_set hgone]
        exact ⟨rfl, rfl, rfl⟩

/-- Where no release takes place, a racing read is the read itself. -/
theorem racing_of_not_consultsBase (codec : Codec α)
    (h : ∀ handle holder, store.find? key = some (handle, holder) → holder.consultsBase = false) :
    store.racingPeek codec key = (store.peek codec key, store) ∧
      store.racingGet codec key = store.get codec key := by
  cases hk : store.find? key with
  | none => simp only [racingPeek, racingGet, peek, get, hk, and_self]
  | some found =>
    obtain ⟨handle, holder⟩ := found
    have hearly := h handle holder hk
    have hinvalid : holder.isInvalid store.clock = .ok true :=
      Holder.isInvalid_of_not_consultsBase hearly
    rw [racingPeek_of_find? codec hk, racingGet_of_find? codec hk,
      interfere_of_not_consultsBase hearly, peek_of_isInvalid codec hk hinvalid,
      get_of_isInvalid codec hk hinvalid, hinvalid]
    exact ⟨rfl, rfl⟩

theorem racesInOrder (codec : Codec α) (sound : store.Sound)
    (inRange : ∀ holder ∈ store.pool, holder.InRange) (key : String) :
    store.RacesInOrder codec key := by
  have hconsults : ∀ handle holder, store.find? key = some (handle, holder) →
      (holder.consultsBase = true ↔
        holder.isReleased = false ∧ (0 < holder.maxCache ∨ 0 < holder.maxIdle)) := by
    intro handle holder hk
    obtain ⟨hkey, hpool⟩ := find?_eq_some_iff.mp hk
    obtain ⟨same, hsame, complete⟩ := sound.complete key handle hkey
    obtain rfl := Option.some.inj (hpool.symm.trans hsame)
    exact Holder.consultsBase_iff complete (inRange holder (Array.mem_of_getElem? hpool))
  constructor
  case released =>
    intro handle holder hk live limited
    exact releasedFirst codec hk ((hconsults handle holder hk).mpr ⟨live, limited⟩)
  case alone =>
    intro nobody
    refine racing_of_not_consultsBase codec fun handle holder hk => ?_
    rw [← Bool.not_eq_true, hconsults handle holder hk]
    rintro ⟨live, limited⟩
    rcases nobody handle holder hk with hreleased | hunlimited
    · rw [live] at hreleased
      cases hreleased
    · exact hunlimited limited
  case refuses =>
    rintro result (rfl | rfl)
    · exact store.refused_racingPeek codec key
    · exact store.refused_racingGet codec key
  case uncounted =>
    rintro next (rfl | rfl)
    · have hpeek := store.accounts_racingPeek codec key
      exact ⟨by simp [hpeek.counters, Counters.plus], by simp [hpeek.uses]⟩
    · have hget := store.accounts_racingGet codec key
      rcases store.refused_racingGet codec key with hanswer | hanswer | ⟨reason, hanswer⟩ <;>
        exact Accounts.of_refused (hanswer ▸ hget)

end Store

namespace Session

/-- In every session that can be reached and for every key: a read that races with a release by
another party is like the read after that release, or like the read alone if there is nothing to
release or no limit to look at; it gives no value and counts no hit. -/
theorem racing_reads_in_order (codec : Codec α) (settings : Settings)
    (policy : Option ExpiryPolicy) (base : Int64) (requests : List (Request α)) (key : String) :
    ((start settings policy base).after codec requests).store.RacesInOrder codec key :=
  Store.racesInOrder codec (sound_after codec settings policy base requests)
    (inRange_after codec settings policy base requests) key

/-- A recorded read of a valid entry, five seconds after it was written, loses the race: it finds
the key expired, and has noted the access of the holder that the other party released. -/
theorem racing_reads_in_order_of_valid_entry :
    let codec : Codec String := Codec.json .string
    let store := ((start Settings.standard none 0).after codec
      [⟨.put "k" "v" [], none⟩, ⟨.advanceSeconds 5, none⟩]).store
    ∃ handle holder, store.find? "k" = some (handle, holder) ∧ ¬ holder.Elapsed store.clock ∧
      (store.racingGet codec "k").1 = .error (.expired "k") ∧
      let after := ((store.release handle).get codec "k").2
      (store.racingGet codec "k").2 =
        { after with pool := after.pool.setIfInBounds handle { holder with
          payload := none
          accessed := store.clock.offsetOf store.clock.now } } := by
  intro codec store
  have hentry : (store.find? "k").map (fun found => (found.2.isReleased,
      decide (0 < found.2.maxIdle), decide (found.2.Elapsed store.clock))) =
        some (false, true, false) := by decide +kernel
  have hanswer : (store.racingGet codec "k").1 = .error (.expired "k") := by cbv
  obtain ⟨⟨handle, holder⟩, hk, hflags⟩ := Option.map_eq_some_iff.mp hentry
  simp only [Prod.mk.injEq, decide_eq_true_eq, decide_eq_false_iff_not] at hflags
  obtain ⟨live, limited, hopen⟩ := hflags
  have ends : ∀ reason, (store.racingGet codec "k").1 ≠ .error (.overflow reason) := by
    intro reason hoverflow
    cases hanswer.symm.trans hoverflow
  have order := racing_reads_in_order codec Settings.standard none 0
    [⟨.put "k" "v" [], none⟩, ⟨.advanceSeconds 5, none⟩] "k"
  have hget := (order.released handle holder hk live (.inr limited)).get ends
  dsimp only at hget
  rw [if_neg hopen] at hget
  exact ⟨handle, holder, hk, hopen, hget.1, hget.2.2⟩

end Session

end ExpiringCache
