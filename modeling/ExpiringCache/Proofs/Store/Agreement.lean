import ExpiringCache.Proofs.Holder.Agreement
import ExpiringCache.Proofs.SweepSchedule.Simulation
import ExpiringCache.Store.Sweep

/-!
# Stores of the two write modes

A store that writes its values and one that keeps them as they are agree if all that they have
agrees but the forms of their holders. Every operation then gives the same result on both, an error
included, and leaves stores that agree.
-/
namespace ExpiringCache.Store

variable {α : Type} {codec : Codec α} {first second : Store α}

/-- A store that writes values and a store that keeps them, with holders that agree. -/
structure Agrees (codec : Codec α) (first second : Store α) : Prop where
  clock : first.clock = second.clock
  policy : first.policy = second.policy
  serialize : first.mode = .serialize
  identity : second.mode = .identity
  maxCache : first.maxCache = second.maxCache
  jitter : first.jitter = second.jitter
  entries : first.entries = second.entries
  counters : first.counters = second.counters
  size : first.pool.size = second.pool.size
  pool : ∀ handle : Handle,
    Option.Rel (Holder.Agrees codec) first.pool[handle]? second.pool[handle]?

theorem Agrees.record (h : first.Agrees codec second) (event : Event) :
    (first.record event).Agrees codec (second.record event) :=
  { h with counters := by rw [Store.record, Store.record, h.counters] }

theorem Agrees.setEntries (h : first.Agrees codec second) (table : KeyTable Handle) :
    ({ first with entries := table } : Store α).Agrees codec { second with entries := table } :=
  { h with entries := rfl }

theorem Agrees.setClock (h : first.Agrees codec second) (clock : Clock) :
    ({ first with clock := clock } : Store α).Agrees codec { second with clock := clock } :=
  { h with clock := rfl }

theorem Agrees.modify (h : first.Agrees codec second) (handle : Handle)
    {change other : Holder α → Holder α}
    (hchange : ∀ holder found, holder.Agrees codec found →
      (change holder).Agrees codec (other found)) :
    (first.modify handle change).Agrees codec (second.modify handle other) := by
  refine { h with size := ?_, pool := ?_ }
  · simpa [Store.modify] using h.size
  · intro place
    rw [pool_modify, pool_modify]
    split
    · rcases cases_of_rel (h.pool place) with ⟨hfirst, hsecond⟩ | ⟨_, _, hfirst, hsecond, hagrees⟩
      · rw [hfirst, hsecond]
        exact .none
      · rw [hfirst, hsecond]
        exact .some (hchange _ _ hagrees)
    · exact h.pool place

theorem Agrees.add (h : first.Agrees codec second) {holder other : Holder α}
    (hagrees : holder.Agrees codec other) :
    (first.add holder).Agrees codec (second.add other) := by
  refine { h with size := ?_, pool := ?_ }
  · simpa [Store.add] using h.size
  · intro place
    simp only [Store.add, Array.getElem?_push, h.size]
    split
    · exact .some hagrees
    · exact h.pool place

theorem Agrees.release (h : first.Agrees codec second) (handle : Handle) :
    (first.release handle).Agrees codec (second.release handle) :=
  h.modify handle fun _ _ hagrees => hagrees.release

/-- What stores that agree find under a key. -/
theorem Agrees.find (h : first.Agrees codec second) (key : String) :
    (first.find? key = none ∧ second.find? key = none) ∨
      ∃ handle holder other, first.find? key = some (handle, holder) ∧
        second.find? key = some (handle, other) ∧ holder.Agrees codec other := by
  unfold find?
  rw [h.entries]
  cases second.entries.get? key with
  | none => exact .inl ⟨rfl, rfl⟩
  | some handle =>
    rcases cases_of_rel (h.pool handle) with
      ⟨hfirst, hsecond⟩ | ⟨holder, other, hfirst, hsecond, hagrees⟩
    · exact .inl ⟨by simp [hfirst], by simp [hsecond]⟩
    · exact .inr ⟨handle, holder, other, by simp [hfirst], by simp [hsecond], hagrees⟩

theorem Agrees.publish (h : first.Agrees codec second) (key : String) {holder other : Holder α}
    (hagrees : holder.Agrees codec other) :
    (first.publish key holder).Agrees codec (second.publish key other) := by
  unfold Store.publish
  rw [h.entries, h.size]
  cases second.entries.get? key with
  | none => exact (h.add hagrees).setEntries _
  | some replaced => exact ((h.release replaced).add hagrees).setEntries _

theorem Agrees.assignLimits (h : first.Agrees codec second) {previous old : Option (Holder α)}
    (hprevious : Option.Rel (Holder.Agrees codec) previous old) (words : List UInt32)
    {fresh other : Holder α} (hagrees : fresh.Agrees codec other) :
    (first.assignLimits previous words fresh).Agrees codec
      (second.assignLimits old words other) := by
  have hsome : previous.isSome = old.isSome := by
    rcases hprevious with _ | _ <;> rfl
  have hfollowed := hagrees.followPolicy second.policy old.isSome hprevious
  have hcomplete := hfollowed.complete
    (other.followPolicy second.policy old.isSome old).maxIdle.toInt64 second.maxCache
  simp only [Store.assignLimits, h.policy, h.maxCache, h.jitter, hsome, hfollowed.maxIdle]
  split
  · exact hcomplete
  · exact (hcomplete.jitterWithin _ words).2

theorem Agrees.put (h : first.Agrees codec second) (faithful : codec.Faithful) (key : String)
    (value : α) (words : List UInt32) :
    (first.put codec key value words).1 = (second.put codec key value words).1 ∧
      (first.put codec key value words).2.Agrees codec
        (second.put codec key value words).2 := by
  obtain ⟨bytes, hwritten, hkept, hdecode⟩ := Holder.exists_store_of_faithful faithful value
  have hprevious : Option.Rel (Holder.Agrees codec) ((first.find? key).map Prod.snd)
      ((second.find? key).map Prod.snd) := by
    rcases h.find key with ⟨hfirst, hsecond⟩ | ⟨handle, holder, other, hfirst, hsecond, hagrees⟩
    · rw [hfirst, hsecond]
      exact .none
    · rw [hfirst, hsecond]
      exact .some hagrees
  have hfresh := h.assignLimits hprevious words (Holder.agrees_fresh second.clock hdecode)
  unfold Store.put
  rw [h.serialize, h.identity, Holder.new_eq, Holder.new_eq, hwritten, hkept, h.clock]
  exact ⟨rfl, (h.publish key hfresh).record .put⟩

theorem Agrees.touch (h : first.Agrees codec second) (key : String) (seconds : Int32) :
    (first.touch key seconds).1 = (second.touch key seconds).1 ∧
      (first.touch key seconds).2.Agrees codec (second.touch key seconds).2 := by
  unfold Store.touch
  rcases h.find key with ⟨hfirst, hsecond⟩ | ⟨handle, holder, other, hfirst, hsecond, hagrees⟩
  · rw [hfirst, hsecond]
    exact ⟨rfl, h⟩
  · rw [hfirst, hsecond, h.clock]
    rcases hagrees.prolong second.clock seconds with
      ⟨overflow, hfails, hfails'⟩ | ⟨prolonged, longer, hprolong, hprolong', hprolonged⟩
    · simp only [hfails, hfails']
      exact ⟨trivial, h⟩
    · simp only [hprolong, hprolong']
      exact ⟨trivial, h.modify handle fun _ _ _ => hprolonged⟩

theorem Agrees.won_discard (h : first.Agrees codec second) (key : String) (handle : Handle) :
    (first.discard key handle).won = (second.discard key handle).won := by
  simp only [Store.discard]
  rcases cases_of_rel (h.pool handle) with ⟨hfirst, hsecond⟩ | ⟨_, _, hfirst, hsecond, hagrees⟩
  · rw [hfirst, hsecond]
  · rw [hfirst, hsecond, Option.any_some, Option.any_some, hagrees.released]

theorem Agrees.discard (h : first.Agrees codec second) (key : String) (handle : Handle) :
    (first.discard key handle).store.Agrees codec (second.discard key handle).store := by
  simp only [Store.discard, h.entries]
  exact (h.release handle).setEntries _

theorem Agrees.remove (h : first.Agrees codec second) (key : String) :
    (first.remove key).1 = (second.remove key).1 ∧
      (first.remove key).2.Agrees codec (second.remove key).2 := by
  unfold Store.remove
  rcases h.find key with ⟨hfirst, hsecond⟩ | ⟨handle, holder, other, hfirst, hsecond, hagrees⟩
  · rw [hfirst, hsecond]
    exact ⟨rfl, h⟩
  · simp only [hfirst, hsecond, h.won_discard]
    refine ⟨trivial, ?_⟩
    split
    · exact (h.discard key handle).record .removal
    · exact h.discard key handle

theorem Agrees.peekHolder (h : first.Agrees codec second) (key : String) (handle : Handle) :
    first.peekHolder codec key handle = second.peekHolder codec key handle := by
  unfold Store.peekHolder
  rcases cases_of_rel (h.pool handle) with ⟨hfirst, hsecond⟩ | ⟨_, _, hfirst, hsecond, hagrees⟩
  · rw [hfirst, hsecond]
  · simp only [hfirst, hsecond, hagrees.peek]

theorem Agrees.getHolder (h : first.Agrees codec second) (key : String) (handle : Handle) :
    (first.getHolder codec key handle).1 = (second.getHolder codec key handle).1 ∧
      (first.getHolder codec key handle).2.Agrees codec
        (second.getHolder codec key handle).2 := by
  have haccessed : (first.modify handle (Holder.access second.clock)).Agrees codec
      (second.modify handle (Holder.access second.clock)) :=
    h.modify handle fun _ _ hagrees => hagrees.access second.clock
  simp only [Store.getHolder, h.clock, haccessed.peekHolder key handle]
  split
  · refine ⟨rfl, Agrees.record ?_ .hit⟩
    exact haccessed.modify handle fun _ _ hagrees => hagrees.addUses 1
  · exact ⟨rfl, haccessed.record .miss⟩
  · exact ⟨rfl, haccessed⟩

theorem Agrees.peek (h : first.Agrees codec second) (key : String) :
    first.peek codec key = second.peek codec key := by
  unfold Store.peek
  rcases h.find key with ⟨hfirst, hsecond⟩ | ⟨handle, holder, other, hfirst, hsecond, hagrees⟩
  · rw [hfirst, hsecond]
  · simp only [hfirst, hsecond, h.clock, hagrees.isInvalid, h.peekHolder]

theorem Agrees.get (h : first.Agrees codec second) (key : String) :
    (first.get codec key).1 = (second.get codec key).1 ∧
      (first.get codec key).2.Agrees codec (second.get codec key).2 := by
  unfold Store.get
  rcases h.find key with ⟨hfirst, hsecond⟩ | ⟨handle, holder, other, hfirst, hsecond, hagrees⟩
  · rw [hfirst, hsecond]
    exact ⟨rfl, h.record .miss⟩
  · simp only [hfirst, hsecond, h.clock, hagrees.isInvalid]
    split
    · exact ⟨rfl, h⟩
    · exact ⟨rfl, h.record .miss⟩
    · exact h.getHolder key handle

theorem Agrees.interfere (h : first.Agrees codec second) (handle : Handle)
    {holder other : Holder α} (hagrees : holder.Agrees codec other) :
    (first.interfere handle holder).Agrees codec (second.interfere handle other) := by
  simp only [Store.interfere, hagrees.consultsBase]
  split
  · exact h.release handle
  · exact h

theorem Agrees.racingPeek (h : first.Agrees codec second) (key : String) :
    (first.racingPeek codec key).1 = (second.racingPeek codec key).1 ∧
      (first.racingPeek codec key).2.Agrees codec (second.racingPeek codec key).2 := by
  unfold Store.racingPeek
  rcases h.find key with ⟨hfirst, hsecond⟩ | ⟨handle, holder, other, hfirst, hsecond, hagrees⟩
  · rw [hfirst, hsecond]
    exact ⟨rfl, h⟩
  · have hraced := h.interfere handle hagrees
    simp only [hfirst, hsecond, h.clock, hagrees.isInvalid, hraced.peekHolder]
    split <;> exact ⟨rfl, hraced⟩

theorem Agrees.racingGet (h : first.Agrees codec second) (key : String) :
    (first.racingGet codec key).1 = (second.racingGet codec key).1 ∧
      (first.racingGet codec key).2.Agrees codec (second.racingGet codec key).2 := by
  unfold Store.racingGet
  rcases h.find key with ⟨hfirst, hsecond⟩ | ⟨handle, holder, other, hfirst, hsecond, hagrees⟩
  · rw [hfirst, hsecond]
    exact ⟨rfl, h.record .miss⟩
  · have hraced := h.interfere handle hagrees
    simp only [hfirst, hsecond, h.clock, hagrees.isInvalid]
    split
    · exact ⟨rfl, hraced⟩
    · exact ⟨rfl, hraced.record .miss⟩
    · exact hraced.getHolder key handle

theorem Agrees.expiredAmong (h : first.Agrees codec second) (entries : List (String × Handle)) :
    first.expiredAmong entries = second.expiredAmong entries := by
  induction entries with
  | nil => rfl
  | cons entry entries ih =>
    simp only [Store.expiredAmong, ih, h.clock]
    rcases cases_of_rel (h.pool entry.2) with ⟨hfirst, hsecond⟩ | ⟨_, _, hfirst, hsecond, hagrees⟩
    · simp only [hfirst, hsecond]
    · simp only [hfirst, hsecond, hagrees.isInvalid]

theorem Agrees.discardAll (h : first.Agrees codec second) (found : List (String × Handle)) :
    (discardAll found first).released = (discardAll found second).released ∧
      (discardAll found first).store.Agrees codec (discardAll found second).store := by
  induction found generalizing first second with
  | nil => exact ⟨rfl, h⟩
  | cons entry found ih =>
    simp only [Store.discardAll, h.won_discard]
    split
    next =>
      have hlater := ih ((h.discard entry.1 entry.2).record .expiration)
      exact ⟨congrArg (· + 1) hlater.1, hlater.2⟩
    next => exact ih (h.discard entry.1 entry.2)

theorem Agrees.sweep (h : first.Agrees codec second) :
    first.sweep.1 = second.sweep.1 ∧ first.sweep.2.Agrees codec second.sweep.2 := by
  unfold Store.sweep
  rw [h.entries, h.expiredAmong]
  cases second.expiredAmong second.entries.entries with
  | error overflow => exact ⟨rfl, h⟩
  | ok found =>
    have hdiscarded := h.discardAll found
    exact ⟨congrArg Except.ok hdiscarded.1, hdiscarded.2⟩

end ExpiringCache.Store
