import ExpiringCache.Proofs.Clock.Span
import ExpiringCache.Proofs.Store.Decomposition
import ExpiringCache.Proofs.SweepSchedule.Simulation
import ExpiringCache.Session

/-!
# The operations of a session as moves

Whatever a session is asked for, its store makes moves, and the marks of these moves are read off
the session before. While time elapses the sweeps leave their marks one after the other; they are
gathered by the same schedule that runs the sweeps.
-/
namespace ExpiringCache.Session

variable {α : Type}

/-- The marks of an operation on a holder: only a release leaves one, and parties that race to
release it leave one each. -/
def holderMarks (store : Store α) (handle : Handle) : HolderOperation → List (Mark α)
  | .release => store.releaseMarks [handle]
  | .releaseRacing parties => store.releaseMarks (List.replicate parties handle)
  | _ => []

theorem holderMarks_of_not_releases (store : Store α) (handle : Handle)
    {operation : HolderOperation} (keeps : operation.releases = false) :
    holderMarks store handle operation = [] := by
  cases operation with
  | release | releaseRacing => cases keeps
  | _ => rfl

def slotMarks (codec : Codec α) (session : Session α) (slot : String) :
    SlotOperation α → List (Mark α)
  | .take _ => []
  | .make mode value => Store.madeMarks codec mode value
  | .makeComplete mode value _ _ => Store.madeMarks codec mode value
  | .onHolder operation =>
    match session.slot? slot with
    | some (handle, _) => holderMarks session.store handle operation
    | none => []

/-- A store that sweep tasks work on, and the marks of their sweeps. -/
structure Noted (α : Type) where
  sweeping : Sweeping α
  marks : List (Mark α)

/-- One run of a sweep task with its marks. -/
def noteSweep (noted : Noted α) : Option (Noted α) :=
  (sweepOnce noted.sweeping).map fun sweeping =>
    ⟨sweeping, noted.marks ++
      noted.sweeping.store.releaseMarks noted.sweeping.store.sweptHandles⟩

def marks (codec : Codec α) (session : Session α) : Operation α → List (Mark α)
  | .put key value _ => session.store.putMarks codec key value
  | .racingGet key => session.store.raceMarks key
  | .racingPeek key => session.store.raceMarks key
  | .remove key => session.store.releaseMarks ((session.store.find? key).map Prod.fst).toList
  | .sweep => session.store.releaseMarks session.store.sweptHandles
  | .elapse millis =>
    (session.schedule.elapse noteSweep millis ⟨⟨session.store, #[]⟩, []⟩).state.marks
  | .onSlot slot operation => session.slotMarks codec slot operation
  | _ => []

def after (codec : Codec α) (session : Session α) (requests : List (Request α)) : Session α :=
  (session.run codec requests).2

def marksOf (codec : Codec α) (session : Session α) : List (Request α) → List (Mark α)
  | [] => []
  | request :: requests =>
    session.marks codec request.operation ++
      (session.step codec request).2.marksOf codec requests

theorem after_append (codec : Codec α) (session : Session α) (before rest : List (Request α)) :
    session.after codec (before ++ rest) = (session.after codec before).after codec rest := by
  induction before generalizing session with
  | nil => rfl
  | cons request before ih => exact ih _

/-- Sweeps with and without their marks, from one store on. -/
def Gathers (store : Store α) (sweeping : Sweeping α) (noted : Noted α) : Prop :=
  noted.sweeping = sweeping ∧ store.Moves noted.marks sweeping.store

theorem sweepOnce_eq (sweeping : Sweeping α) :
    sweepOnce sweeping = match sweeping.store.sweep.1 with
      | .ok released => some ⟨sweeping.store.sweep.2, sweeping.released.push released⟩
      | .error _ => none := by
  unfold sweepOnce
  split
  next h => rw [h]
  next h => rw [h]

theorem gathers_sweep (store : Store α) (sweeping : Sweeping α) (noted : Noted α)
    (h : Gathers store sweeping noted) :
    Option.Rel (Gathers store) (sweepOnce sweeping) (noteSweep noted) := by
  obtain ⟨rfl, hmoves⟩ := h
  rw [noteSweep, sweepOnce_eq]
  cases noted.sweeping.store.sweep.1 with
  | error overflow => exact .none
  | ok released => exact .some ⟨rfl, hmoves.trans noted.sweeping.store.moves_sweep⟩

theorem moves_elapse (session : Session α) (millis : Nat) :
    session.store.Moves
      (session.schedule.elapse noteSweep millis ⟨⟨session.store, #[]⟩, []⟩).state.marks
      (session.elapse millis).session.store := by
  have hgathers : Gathers session.store ⟨session.store, #[]⟩ ⟨⟨session.store, #[]⟩, []⟩ :=
    ⟨rfl, .rest session.store⟩
  have helapsed := SweepSchedule.elapse_related (gathers_sweep session.store) millis
    session.schedule hgathers
  exact helapsed.2.2

theorem slot?_eq_some_iff {session : Session α} {slot : String} {handle : Handle}
    {holder : Holder α} : session.slot? slot = some (handle, holder) ↔
      session.slots.get? slot = some handle ∧ session.store.pool[handle]? = some holder := by
  unfold slot?
  split
  next other hother =>
    rw [hother, Option.map_eq_some_iff]
    constructor
    · rintro ⟨found, hfound, heq⟩
      obtain ⟨rfl, rfl⟩ := Prod.mk.inj heq
      exact ⟨rfl, hfound⟩
    · rintro ⟨heq, hfound⟩
      obtain rfl := Option.some.inj heq
      exact ⟨holder, hfound, rfl⟩
  next hnone => simp [hnone]

theorem moves_replicate_release (store : Store α) (handle : Handle) (parties : Nat) :
    store.Moves (store.releaseMarks (List.replicate (parties + 1) handle))
      (store.release handle) := by
  induction parties generalizing store with
  | zero => exact Store.Move.moves (.release handle)
  | succ parties ih =>
    have hrest := ih (store.release handle)
    rw [Store.release_release] at hrest
    exact .step (.release handle) hrest

/-- An operation on a holder that is in a slot leaves the session as it is or changes the holder to
what it turns into by this operation. -/
theorem undergoes_stepHolder (codec : Codec α) (session : Session α) (handle : Handle)
    (holder : Holder α) (operation : HolderOperation) :
    (session.stepHolder codec handle holder operation).session = session ∨
      ∃ changed, holder.Undergoes session.store.clock session.store.pool operation changed ∧
        (session.stepHolder codec handle holder operation).session =
          session.change handle changed := by
  cases operation with
  | complete idle cache => exact .inr ⟨_, .complete idle cache, rfl⟩
  | get => exact .inr ⟨_, .get, rfl⟩
  | peek | isInvalid | isInvalidAt | describe | look => exact .inl rfl
  | setIdle seconds => exact .inr ⟨_, .setIdle seconds, rfl⟩
  | prolong seconds =>
    simp only [stepHolder]
    split
    next prolonged hprolong => exact .inr ⟨prolonged, .prolong hprolong, rfl⟩
    next => exact .inl rfl
  | followPolicy policy update previous =>
    refine .inr ⟨_, .followPolicy policy update previous _ ?_, rfl⟩
    intro other hother
    obtain ⟨found, hslot, rfl⟩ := Option.map_eq_some_iff.mp hother
    obtain ⟨slot, -, hfound⟩ := Option.bind_eq_some_iff.mp hslot
    exact Array.mem_of_getElem? (slot?_eq_some_iff.mp hfound).2
  | jitter span words => exact .inr ⟨_, .jitter span words, rfl⟩
  | addUses count => exact .inr ⟨_, .addUses count, rfl⟩
  | addUsesRacing parties count => exact .inr ⟨_, .addUsesRacing parties count, rfl⟩
  | release => exact .inr ⟨_, .release, rfl⟩
  | releaseRacing parties =>
    simp only [stepHolder]
    split
    next => exact .inl rfl
    next => exact .inr ⟨_, .releaseRacing parties, rfl⟩

theorem moves_stepHolder (codec : Codec α) {session : Session α} {handle : Handle}
    {holder : Holder α} (found : session.store.pool[handle]? = some holder)
    (operation : HolderOperation) :
    session.store.Moves (holderMarks session.store handle operation)
      (session.stepHolder codec handle holder operation).session.store := by
  have hrelease : (session.change handle holder.release).store = session.store.release handle :=
    Store.modify_const found Holder.release
  cases hreleases : operation.releases with
  | false =>
    rw [holderMarks_of_not_releases session.store handle hreleases]
    rcases undergoes_stepHolder codec session handle holder operation with
      hsame | ⟨changed, hundergoes, hchange⟩
    · rw [hsame]
      exact .rest session.store
    · rw [hchange]
      exact Store.moves_modify found ⟨operation, hreleases, hundergoes⟩
  | true =>
    cases operation with
    | release =>
      simp only [stepHolder, hrelease]
      exact Store.Move.moves (.release handle)
    | releaseRacing parties =>
      simp only [stepHolder]
      cases parties with
      | zero => exact .rest session.store
      | succ parties =>
        rw [if_neg (Nat.succ_ne_zero parties), hrelease]
        exact moves_replicate_release session.store handle parties
    | _ => cases hreleases

theorem moves_stepSlot (codec : Codec α) (session : Session α) (slot : String)
    (operation : SlotOperation α) :
    session.store.Moves (session.slotMarks codec slot operation)
      (session.stepSlot codec slot operation).session.store := by
  cases operation with
  | take key =>
    simp only [stepSlot]
    split <;> exact .rest session.store
  | make mode value =>
    simp only [slotMarks, Store.madeMarks, stepSlot, Holder.new_eq]
    cases Holder.store codec mode value with
    | error reason => exact .rest session.store
    | ok kept => exact Store.Move.moves (.make _ rfl)
  | makeComplete mode value idle cache =>
    simp only [slotMarks, Store.madeMarks, stepSlot, Holder.newComplete, Holder.new_eq]
    cases Holder.store codec mode value with
    | error reason => exact .rest session.store
    | ok kept => exact Store.Move.moves (.make _ rfl)
  | onHolder operation =>
    simp only [slotMarks, stepSlot]
    cases hslot : session.slot? slot with
    | none => exact .rest session.store
    | some found =>
      obtain ⟨handle, holder⟩ := found
      exact moves_stepHolder codec (slot?_eq_some_iff.mp hslot).2 operation

/-- Every operation makes the moves that its marks tell of. -/
theorem moves_act (codec : Codec α) {session : Session α} (sound : session.store.Sound)
    (operation : Operation α) :
    session.store.Moves (session.marks codec operation)
      (session.act codec operation).session.store := by
  have htick : ∀ clock : Clock, clock.base = session.store.clock.base →
      session.store.Moves [] (session.moveClock clock).session.store :=
    fun clock h => Store.Move.moves (.tick clock h)
  cases operation with
  | advanceMillis millis => exact htick _ rfl
  | advanceSeconds seconds =>
    simp only [act]
    split
    next clock hclock => exact htick clock (Clock.base_of_advanceSeconds hclock)
    next => exact .rest session.store
  | setMillis millis => exact htick _ rfl
  | now | peek | size | statistics | spawnSweep | stopSweeps | sweepsFinished =>
    exact .rest session.store
  | put key value words => exact session.store.moves_put codec sound key value words
  | get key => exact session.store.moves_get codec key
  | racingGet key => exact session.store.moves_racingGet codec key
  | racingPeek key => exact session.store.moves_racingPeek codec key
  | touch key seconds => exact session.store.moves_touch key seconds
  | remove key => exact session.store.moves_remove key
  | sweep =>
    have hsweep := session.store.moves_sweep
    simp only [act]
    split
    next h =>
      rw [h] at hsweep
      exact hsweep
    next h =>
      rw [h] at hsweep
      exact hsweep
  | inspect key | cacheWithin key low high =>
    simp only [act]
    split <;> exact .rest session.store
  | elapse millis => exact session.moves_elapse millis
  | onSlot slot operation => exact session.moves_stepSlot codec slot operation

/-- A run makes the moves that its marks tell of. -/
theorem moves_after (codec : Codec α) {session : Session α} (sound : session.store.Sound)
    (requests : List (Request α)) :
    session.store.Moves (session.marksOf codec requests)
      (session.after codec requests).store := by
  induction requests generalizing session with
  | nil => exact .rest session.store
  | cons request requests ih =>
    have hact := moves_act codec sound request.operation
    exact hact.trans (ih (hact.sound sound))

end ExpiringCache.Session
