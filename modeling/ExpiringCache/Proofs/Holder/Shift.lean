import ExpiringCache.Holder.View
import ExpiringCache.Proofs.Clock.Shift

/-!
# Holders on other dates

A holder keeps offsets and limits, and no instant. On a moderate clock its checks, its prolongings
and its views are therefore the same on every date, but that the instants that a view shows move
with the clock.
-/
namespace ExpiringCache

variable {α : Type}

def HolderView.shift (delta : Int64) (view : HolderView) : HolderView :=
  { view with
    created := view.created.map (· + delta)
    accessed := view.accessed.map (· + delta) }

namespace Holder

variable {delta : Int64} {clock : Clock}

@[simp] theorem new_shift (codec : Codec α) (mode : WriteMode) (delta : Int64) (clock : Clock)
    (value : α) : new codec mode (clock.shift delta) value = new codec mode clock value := by
  simp only [new, Clock.offsetNow_shift]

@[simp] theorem access_shift (delta : Int64) (clock : Clock) (holder : Holder α) :
    holder.access (clock.shift delta) = holder.access clock := by
  simp only [access, Clock.offsetNow_shift]

theorem cachePassed_shift (h : clock.Shiftable delta) {instant : Int64}
    (hinstant : (instant + delta).toInt = instant.toInt + delta.toInt) (holder : Holder α) :
    holder.cachePassed (clock.shift delta) (instant + delta) =
      holder.cachePassed clock instant := by
  obtain ⟨since, hsince, hshifted, hexact⟩ := Clock.exists_instantOf_shift h holder.created
  unfold cachePassed
  rw [hsince, hshifted]
  simp only [Except.map, exceeds, Arithmetic.subSaturating_add hinstant hexact]

theorem idlePassed_shift (h : clock.Shiftable delta) {instant : Int64}
    (hinstant : (instant + delta).toInt = instant.toInt + delta.toInt) (holder : Holder α) :
    holder.idlePassed (clock.shift delta) (instant + delta) =
      holder.idlePassed clock instant := by
  obtain ⟨since, hsince, hshifted, hexact⟩ := Clock.exists_instantOf_shift h holder.accessed
  unfold idlePassed
  rw [hsince, hshifted]
  simp only [Except.map, exceeds, Arithmetic.subSaturating_add hinstant hexact]

/-- A check at a moderate instant is the same on every date. -/
theorem isInvalidAt_shift (h : clock.Shiftable delta) {instant : Int64}
    (moderate : Moderate instant) (moderate' : Moderate (instant + delta)) (holder : Holder α) :
    holder.isInvalidAt (clock.shift delta) (instant + delta) =
      holder.isInvalidAt clock instant := by
  have hexact := moderate.toInt_add moderate'
  simp only [isInvalidAt, limitPassed, cachePassed_shift h hexact, idlePassed_shift h hexact]

theorem isInvalid_shift (h : clock.Shiftable delta) (holder : Holder α) :
    holder.isInvalid (clock.shift delta) = holder.isInvalid clock :=
  isInvalidAt_shift h h.now h.shiftedNow holder

theorem prolong_shift (h : clock.Shiftable delta) (seconds : Int32) (holder : Holder α) :
    holder.prolong (clock.shift delta) seconds = holder.prolong clock seconds := by
  obtain ⟨since, hsince, hshifted, hexact⟩ := Clock.exists_instantOf_shift h holder.created
  have hage : Arithmetic.subSaturating (clock.shift delta).now (since + delta) =
      Arithmetic.subSaturating clock.now since :=
    Arithmetic.subSaturating_add (h.now.toInt_add h.shiftedNow) hexact
  unfold prolong
  simp only [hsince, hshifted, hage]

theorem view_shift (h : clock.Shiftable delta) (holder : Holder α) :
    holder.view (clock.shift delta) = (holder.view clock).shift delta := by
  simp only [view, HolderView.shift, Clock.instantOf_shift h, isInvalid_shift h]

end Holder

end ExpiringCache
