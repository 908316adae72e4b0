import ExpiringCache.Store.Put
import ExpiringCache.Store.Read
import ExpiringCache.Store.Sweep

/-!
# What the operations of a store leave alone

No operation of a store moves its clock or changes its settings. Only its pool, its entries and its
counters change.
-/
namespace ExpiringCache.Store

variable {α : Type}

/-- A store with the same clock and the same settings. -/
structure Kept (store next : Store α) : Prop where
  clock : next.clock = store.clock
  policy : next.policy = store.policy
  mode : next.mode = store.mode
  maxCache : next.maxCache = store.maxCache
  jitter : next.jitter = store.jitter

theorem Kept.refl (store : Store α) : store.Kept store := ⟨rfl, rfl, rfl, rfl, rfl⟩

theorem Kept.symm {store next : Store α} (h : store.Kept next) : next.Kept store :=
  ⟨h.clock.symm, h.policy.symm, h.mode.symm, h.maxCache.symm, h.jitter.symm⟩

theorem Kept.trans {store next last : Store α} (h : store.Kept next) (h' : next.Kept last) :
    store.Kept last :=
  ⟨h'.clock.trans h.clock, h'.policy.trans h.policy, h'.mode.trans h.mode,
    h'.maxCache.trans h.maxCache, h'.jitter.trans h.jitter⟩

theorem kept_publish (store : Store α) (key : String) (holder : Holder α) :
    store.Kept (store.publish key holder) := by
  unfold publish
  split <;> exact ⟨rfl, rfl, rfl, rfl, rfl⟩

theorem kept_put (codec : Codec α) (store : Store α) (key : String) (value : α)
    (words : List UInt32) : store.Kept (store.put codec key value words).2 := by
  unfold put
  split
  next => exact Kept.refl store
  next fresh _ =>
    have hpublish := store.kept_publish key
      (store.assignLimits ((store.find? key).map Prod.snd) words fresh)
    exact ⟨hpublish.clock, hpublish.policy, hpublish.mode, hpublish.maxCache, hpublish.jitter⟩

theorem kept_getHolder (codec : Codec α) (store : Store α) (key : String) (handle : Handle) :
    store.Kept (store.getHolder codec key handle).2 := by
  simp only [getHolder]
  split <;> exact ⟨rfl, rfl, rfl, rfl, rfl⟩

theorem kept_get (codec : Codec α) (store : Store α) (key : String) :
    store.Kept (store.get codec key).2 := by
  unfold get
  split
  next => exact ⟨rfl, rfl, rfl, rfl, rfl⟩
  next =>
    split
    next => exact Kept.refl store
    next => exact ⟨rfl, rfl, rfl, rfl, rfl⟩
    next => exact store.kept_getHolder codec key _

theorem kept_remove (store : Store α) (key : String) : store.Kept (store.remove key).2 := by
  unfold remove
  split
  next => exact Kept.refl store
  next =>
    simp only
    split <;> exact ⟨rfl, rfl, rfl, rfl, rfl⟩

theorem kept_discardAll (found : List (String × Handle)) (store : Store α) :
    store.Kept (discardAll found store).store := by
  induction found generalizing store with
  | nil => exact Kept.refl store
  | cons entry found ih =>
    rw [discardAll]
    split
    next =>
      have hlater := ih ((store.discard entry.1 entry.2).store.record .expiration)
      exact ⟨hlater.clock, hlater.policy, hlater.mode, hlater.maxCache, hlater.jitter⟩
    next =>
      have hlater := ih (store.discard entry.1 entry.2).store
      exact ⟨hlater.clock, hlater.policy, hlater.mode, hlater.maxCache, hlater.jitter⟩

theorem kept_sweep (store : Store α) : store.Kept store.sweep.2 := by
  unfold sweep
  split
  next => exact Kept.refl store
  next found _ => exact kept_discardAll found store

end ExpiringCache.Store
