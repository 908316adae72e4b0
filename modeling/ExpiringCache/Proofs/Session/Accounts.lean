import ExpiringCache.Proofs.Session.Tally

/-!
# The operations of a store account for their tallies

Each operation of a store moves the counters, the size and the use counts by the tally that is read
off its answer. A sweep does so entry by entry: each entry that it takes out is either counted as
an expiration or was released before.
-/
namespace ExpiringCache

variable {α : Type}

/-- An operation on a holder moves its use count by the increments that it asks for. -/
theorem Holder.Undergoes.uses {clock : Clock} {pool : Array (Holder α)} {holder later : Holder α}
    {operation : HolderOperation} (h : holder.Undergoes clock pool operation later)
    (handle : Handle) :
    later.uses = holder.uses + UInt32.ofNat ((Tally.ofHolder handle operation).uses handle) := by
  have hlimits := h.exists_limits
  cases h with
  | complete | get | release | releaseRacing => exact (UInt32.add_zero _).symm
  | setIdle | prolong | followPolicy | jitter =>
    obtain ⟨idle, cache, hlater, -⟩ := hlimits rfl
    rw [hlater]
    exact (UInt32.add_zero _).symm
  | addUses | addUsesRacing => simp [Tally.ofHolder, Tally.ofUses, Holder.addUses]

namespace Store

variable {store : Store α}

theorem accounts_getHolder (codec : Codec α) (store : Store α) (key : String) (handle : Handle) :
    store.Accounts (store.getHolder codec key handle).2
      (Tally.ofGet (some handle) (Session.ofValue (store.getHolder codec key handle).1)) := by
  have haccess : store.Accounts (store.modify handle (Holder.access store.clock)) {} :=
    accounts_modify fun _ _ => rfl
  have hmiss := haccess.trans (accounts_miss _)
  cases hpool : store.pool[handle]? with
  | none =>
    have haccessed : (store.modify handle (Holder.access store.clock)).pool[handle]? = none := by
      simp [pool_modify, hpool]
    simp only [getHolder, peekHolder, haccessed]
    exact hmiss
  | some holder =>
    have haccessed : (store.modify handle (Holder.access store.clock)).pool[handle]? =
        some (holder.access store.clock) := by simp [pool_modify, hpool]
    simp only [getHolder, peekHolder, haccessed, Holder.peek_access]
    cases holder.peek codec with
    | error reason => exact haccess
    | ok read =>
      cases read with
      | none => exact hmiss
      | some value =>
        have huse : (store.modify handle (Holder.access store.clock)).Accounts
            ((store.modify handle (Holder.access store.clock)).modify handle (Holder.addUses 1))
            (Tally.ofUses handle 1) := accounts_uses haccessed rfl
        have htally : (Tally.add {} (Tally.ofUses handle 1)).add { hits := 1 } =
            Tally.ofGet (some handle) (.value value) := by
          simp [Tally.add, Tally.ofUses, Tally.ofGet, eq_comm]
        exact htally ▸ (haccess.trans huse).trans (accounts_hit _)

theorem accounts_interfere (store : Store α) (handle : Handle) (holder : Holder α) :
    store.Accounts (store.interfere handle holder) {} := by
  unfold interfere
  split
  next => exact accounts_release store handle
  next => exact .refl store

theorem accounts_racingPeek (codec : Codec α) (store : Store α) (key : String) :
    store.Accounts (store.racingPeek codec key).2 {} := by
  unfold racingPeek
  split
  next => exact .refl store
  next handle holder hk =>
    simp only
    split <;> exact accounts_interfere store handle holder

theorem accounts_racingGet (codec : Codec α) (store : Store α) (key : String) :
    store.Accounts (store.racingGet codec key).2
      (Tally.ofGet (store.entries.get? key) (Session.ofValue (store.racingGet codec key).1)) := by
  unfold racingGet
  split
  next => exact accounts_miss store
  next handle holder hk =>
    have hraced := accounts_interfere store handle holder
    simp only
    split
    next => exact hraced
    next => exact hraced.trans (accounts_miss _)
    next =>
      rw [(find?_eq_some_iff.mp hk).1]
      exact (accounts_getHolder codec _ key handle).after hraced

end Store

end ExpiringCache
