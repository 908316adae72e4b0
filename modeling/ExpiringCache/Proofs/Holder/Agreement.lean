import ExpiringCache.Holder.View
import ExpiringCache.Proofs.Json.RoundTrip
import ExpiringCache.Proofs.Store.NewEntry

/-!
# Holders that keep one value in two forms

Two holders agree if all their fields agree but the payload and its form, and if both give the same
answer when they are read. No operation looks at the payload except to read it or to take it away,
so holders that agree still do after it, and a view or a description tells them apart by the form
alone.
-/
namespace ExpiringCache

/-- Views that differ in the form alone. -/
def HolderView.Alike (view other : HolderView) : Prop := { view with form := other.form } = other

namespace Holder

variable {α : Type} {codec : Codec α} {clock : Clock} {first second : Holder α}

/-- A holder without what it keeps. -/
def frame (holder : Holder α) : Holder α := { holder with payload := none, form := .plain }

/-- Holders that differ in nothing but the form in which they keep one value. -/
structure Agrees (codec : Codec α) (first second : Holder α) : Prop where
  frame : first.frame = second.frame
  released : first.isReleased = second.isReleased
  peek : first.peek codec = second.peek codec

theorem Agrees.refl (codec : Codec α) (holder : Holder α) : holder.Agrees codec holder :=
  ⟨rfl, rfl, rfl⟩

theorem Agrees.release (h : first.Agrees codec second) :
    first.release.Agrees codec second.release := ⟨h.frame, rfl, rfl⟩

theorem Agrees.access (h : first.Agrees codec second) (clock : Clock) :
    (first.access clock).Agrees codec (second.access clock) :=
  ⟨congrArg (Holder.access clock) h.frame, h.released, h.peek⟩

theorem Agrees.addUses (h : first.Agrees codec second) (count : UInt32) :
    (first.addUses count).Agrees codec (second.addUses count) :=
  ⟨congrArg (Holder.addUses count) h.frame, h.released, h.peek⟩

theorem Agrees.complete (h : first.Agrees codec second) (idle cache : Int64) :
    (first.complete idle cache).Agrees codec (second.complete idle cache) :=
  ⟨congrArg (fun holder => holder.complete idle cache) h.frame, h.released, h.peek⟩

theorem Agrees.setIdle (h : first.Agrees codec second) (seconds : Int32) :
    (first.setIdle seconds).Agrees codec (second.setIdle seconds) :=
  ⟨congrArg (Holder.setIdle seconds) h.frame, h.released, h.peek⟩

theorem Agrees.setMaxCache (h : first.Agrees codec second) (seconds : Int32) :
    ({ first with maxCache := seconds } : Holder α).Agrees codec
      { second with maxCache := seconds } :=
  ⟨congrArg (fun holder => { holder with maxCache := seconds }) h.frame, h.released, h.peek⟩

theorem Agrees.setMaxIdle (h : first.Agrees codec second) (seconds : Int32) :
    ({ first with maxIdle := seconds } : Holder α).Agrees codec
      { second with maxIdle := seconds } :=
  ⟨congrArg (fun holder => { holder with maxIdle := seconds }) h.frame, h.released, h.peek⟩

theorem Agrees.created (h : first.Agrees codec second) : first.created = second.created :=
  (congrArg Holder.created h.frame :)

theorem Agrees.accessed (h : first.Agrees codec second) : first.accessed = second.accessed :=
  (congrArg Holder.accessed h.frame :)

theorem Agrees.maxIdle (h : first.Agrees codec second) : first.maxIdle = second.maxIdle :=
  (congrArg Holder.maxIdle h.frame :)

theorem Agrees.maxCache (h : first.Agrees codec second) : first.maxCache = second.maxCache :=
  (congrArg Holder.maxCache h.frame :)

theorem Agrees.uses (h : first.Agrees codec second) : first.uses = second.uses :=
  (congrArg Holder.uses h.frame :)

theorem Agrees.isComplete (h : first.Agrees codec second) :
    first.isComplete = second.isComplete := (congrArg Holder.isComplete h.frame :)

theorem Agrees.prolong (h : first.Agrees codec second) (clock : Clock) (seconds : Int32) :
    (∃ overflow, first.prolong clock seconds = .error overflow ∧
      second.prolong clock seconds = .error overflow) ∨
      ∃ prolonged other, first.prolong clock seconds = .ok prolonged ∧
        second.prolong clock seconds = .ok other ∧ prolonged.Agrees codec other := by
  have hcreated : clock.instantOf first.created = clock.instantOf second.created := by
    rw [h.created]
  unfold Holder.prolong
  rw [hcreated]
  split
  · exact .inr ⟨_, _, rfl, rfl, h.setMaxIdle 0⟩
  · split
    · cases clock.instantOf second.created with
      | error overflow => exact .inl ⟨overflow, rfl, rfl⟩
      | ok created => exact .inr ⟨_, _, rfl, rfl, h.setMaxIdle _⟩
    · exact .inr ⟨first, second, rfl, rfl, h⟩

theorem Agrees.followPolicy (h : first.Agrees codec second) (policy : ExpiryPolicy)
    (update : Bool) {previous other : Option (Holder α)}
    (hprevious : Option.Rel (Holder.Agrees codec) previous other) :
    (first.followPolicy policy update previous).Agrees codec
      (second.followPolicy policy update other) := by
  unfold Holder.followPolicy
  cases policy.decision update with
  | seconds count => exact h.setIdle count
  | keep =>
    cases hprevious with
    | some hkept =>
      simp only [hkept.maxIdle]
      exact h.setMaxIdle _
    | none => exact h

theorem Agrees.jitterWithin (h : first.Agrees codec second) (span : Duration)
    (words : List UInt32) :
    (first.jitterWithin span words).drawn = (second.jitterWithin span words).drawn ∧
      (first.jitterWithin span words).holder.Agrees codec
        (second.jitterWithin span words).holder := by
  simp only [Holder.jitterWithin, h.maxCache]
  split
  · exact ⟨rfl, h⟩
  · split
    · exact ⟨rfl, h.setMaxCache _⟩
    · exact ⟨rfl, h⟩

theorem Agrees.isInvalidAt (h : first.Agrees codec second) (clock : Clock) (instant : Int64) :
    first.isInvalidAt clock instant = second.isInvalidAt clock instant := by
  have hlimits : first.limitPassed clock instant = second.limitPassed clock instant :=
    (congrArg (Holder.limitPassed clock instant) h.frame :)
  rw [Holder.isInvalidAt, Holder.isInvalidAt, h.isComplete, h.released, hlimits]

theorem Agrees.isInvalid (h : first.Agrees codec second) (clock : Clock) :
    first.isInvalid clock = second.isInvalid clock := h.isInvalidAt clock clock.now

theorem Agrees.consultsBase (h : first.Agrees codec second) :
    first.consultsBase = second.consultsBase := by
  rw [Holder.consultsBase, Holder.consultsBase, h.isComplete, h.released, h.maxCache, h.maxIdle]

theorem Agrees.view (h : first.Agrees codec second) (clock : Clock) :
    (first.view clock).Alike (second.view clock) := by
  simp only [HolderView.Alike, Holder.view, h.maxIdle, h.maxCache, h.created, h.accessed, h.uses,
    h.isComplete, h.released, h.isInvalid clock]

/-- The description of one holder is that of the other with its own form. -/
theorem Agrees.describe (h : first.Agrees codec second) :
    second.describe = ({ first with form := second.form } : Holder α).describe := by
  have hreleased : ({ first with form := second.form } : Holder α).isReleased =
      second.isReleased := h.released
  unfold Holder.describe
  rw [hreleased]
  simp only [h.created, h.accessed, h.maxIdle, h.maxCache, h.uses, h.isComplete]

/-- Fresh holders of one value agree if one keeps the value and the other what reads back as it. -/
theorem agrees_fresh (clock : Clock) {value : α} {bytes : List UInt8}
    (h : codec.decode bytes = .ok value) :
    (fresh clock .serialized (.written bytes)).Agrees codec
      (fresh clock .plain (.live value)) where
  frame := rfl
  released := rfl
  peek := by simp [Holder.peek, fresh, h]

/-- A faithful codec stores every value in both write modes. -/
theorem exists_store_of_faithful (faithful : codec.Faithful) (value : α) :
    ∃ bytes, store codec .serialize value = .ok (.serialized, .written bytes) ∧
      store codec .identity value = .ok (.plain, .live value) ∧
        codec.decode bytes = .ok value := by
  obtain ⟨bytes, hencode, hdecode⟩ := faithful.readsBack value
  refine ⟨bytes, ?_, rfl, hdecode⟩
  simp [store, faithful.serializable, hencode]

end Holder

end ExpiringCache
