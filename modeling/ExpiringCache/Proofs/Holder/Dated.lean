import ExpiringCache.Proofs.Clock.Span
import ExpiringCache.Proofs.Holder.ExactLimits
import ExpiringCache.Proofs.Store.Lookup

/-!
# Holders whose timestamps stand for instants

The check of a holder can overflow only where a timestamp does not stand for an instant. If both
timestamps do, the check is a comparison of ages with limits. Whatever a store makes or accesses
while its clock is within its span has such timestamps.
-/
namespace ExpiringCache

variable {α : Type}

/-- Every instant of the span of a clock has a timestamp that stands for it. -/
theorem Clock.fits_offsetNow {clock : Clock} (covers : clock.Covers clock.now) :
    Arithmetic.Fits (clock.base.toInt + clock.offsetNow.toInt) := by
  have hnow : clock.base.toInt + clock.offsetNow.toInt = clock.now.toInt := by
    rw [offsetNow, toInt_offsetOf_of_covers covers]
    omega
  exact hnow ▸ Arithmetic.fits_toInt _

namespace Holder

/-- A holder that was created and accessed at instants. -/
structure Dated (base : Int64) (holder : Holder α) : Prop where
  created : Arithmetic.Fits (base.toInt + holder.created.toInt)
  accessed : Arithmetic.Fits (base.toInt + holder.accessed.toInt)

variable {clock : Clock} {holder : Holder α}

theorem Dated.isInvalidAt (h : holder.Dated clock.base) (instant : Int64) :
    holder.isInvalidAt clock instant = .ok (!holder.isComplete || holder.isReleased ||
      decide (Passed holder.maxCache.toInt holder.maxIdle.toInt
        (clock.base.toInt + holder.created.toInt) (clock.base.toInt + holder.accessed.toInt)
        instant.toInt)) := by
  obtain ⟨created, hcreated, hc⟩ := Clock.exists_instantOf h.created
  obtain ⟨accessed, haccessed, ha⟩ := Clock.exists_instantOf h.accessed
  unfold Holder.isInvalidAt
  split
  next hgone => simp [hgone]
  next hopen =>
    rw [limitPassed_eq (fun _ => hcreated) (fun _ => haccessed), hc, ha]
    simp [hopen]

theorem Dated.access (h : holder.Dated clock.base) (covers : clock.Covers clock.now) :
    (holder.access clock).Dated clock.base :=
  ⟨h.created, Clock.fits_offsetNow covers⟩

theorem Dated.addUses (h : holder.Dated clock.base) (count : UInt32) :
    (holder.addUses count).Dated clock.base :=
  ⟨h.created, h.accessed⟩

theorem Dated.followPolicy {base : Int64} (h : holder.Dated base) (policy : ExpiryPolicy)
    (update : Bool) (previous : Option (Holder α)) :
    (holder.followPolicy policy update previous).Dated base := by
  unfold Holder.followPolicy
  split <;> exact ⟨h.created, h.accessed⟩

theorem Dated.jitterWithin {base : Int64} (h : holder.Dated base) (span : Duration)
    (words : List UInt32) : (holder.jitterWithin span words).holder.Dated base := by
  simp only [Holder.jitterWithin]
  split
  next => exact h
  next => split <;> exact ⟨h.created, h.accessed⟩

theorem Dated.assignLimits {base : Int64} (h : holder.Dated base) (store : Store α)
    (previous : Option (Holder α)) (words : List UInt32) :
    (store.assignLimits previous words holder).Dated base := by
  let followed := holder.followPolicy store.policy previous.isSome previous
  have hfollowed : followed.Dated base := h.followPolicy store.policy previous.isSome previous
  have hcomplete : (followed.complete followed.maxIdle.toInt64 store.maxCache).Dated base :=
    ⟨hfollowed.created, hfollowed.accessed⟩
  simp only [Store.assignLimits]
  split
  next => exact hcomplete
  next => exact hcomplete.jitterWithin _ words

end Holder

end ExpiringCache
