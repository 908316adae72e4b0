import ExpiringCache.Proofs.Session.Releases

/-!
# Publication and release

What a session publishes is complete and is published once. A holder that has lost its key is
released, whoever still keeps it. Of all releases of one holder at most one wins and is told so, and
until it does the holder keeps the value it was made with.
-/
namespace ExpiringCache.Session

variable {α : Type}

theorem sound_start (settings : Settings) (policy : Option ExpiryPolicy) (base : Int64) :
    (start settings policy base : Session α).store.Sound :=
  ⟨fun _ _ hkey => by simp [start, Store.empty] at hkey,
    fun _ _ _ hkey => by simp [start, Store.empty] at hkey⟩

/-- What a party that keeps a handle in a slot reads from it: nothing, and at no instant a valid
holder. -/
structure ReadsNothing (codec : Codec α) (session : Session α) (slot : String) : Prop where
  get : (session.stepSlot codec slot (.onHolder .get)).answer = .absent
  peek : (session.stepSlot codec slot (.onHolder .peek)).answer = .absent
  isInvalidAt : ∀ instant,
    (session.stepSlot codec slot (.onHolder (.isInvalidAt instant))).answer = .flag true

theorem readsNothing_of_isReleased (codec : Codec α) {session : Session α} {slot : String}
    {handle : Handle} {holder : Holder α} (found : session.slot? slot = some (handle, holder))
    (released : holder.isReleased = true) : session.ReadsNothing codec slot := by
  have hpayload : holder.payload = none := by
    simpa [Holder.isReleased] using released
  constructor
  · simp [stepSlot, found, stepHolder, Holder.peek, Holder.access, hpayload, ofRead]
  · simp [stepSlot, found, stepHolder, Holder.peek, hpayload, ofRead, unchanged]
  · intro instant
    simp [stepSlot, found, stepHolder, Holder.isInvalidAt_of_isReleased released, ofFlag,
      unchanged]

/-- How a session stands to an earlier one, and to the marks of the whole run up to now. -/
structure Publication (codec : Codec α) (earlier now : Session α) (marks : List (Mark α)) :
    Prop where
  /-- What is published is complete. -/
  complete : ∀ key handle, now.store.entries.get? key = some handle →
    ∃ holder, now.store.pool[handle]? = some holder ∧ holder.isComplete = true
  /-- No two keys share a holder. -/
  unique : ∀ key name handle, now.store.entries.get? key = some handle →
    now.store.entries.get? name = some handle → key = name
  /-- A holder that was published and has no key any more is released. -/
  gone : ∀ key handle, earlier.store.entries.get? key = some handle →
    (∀ name, now.store.entries.get? name ≠ some handle) →
      now.store.isReleased handle = true ∧
        ∀ slot, now.slots.get? slot = some handle → now.ReadsNothing codec slot
  /-- At most one release of a holder has won. -/
  wins_le : ∀ handle, Mark.wins handle marks ≤ 1
  /-- One release has won exactly if the holder is released. -/
  wins_eq_one_iff : ∀ handle,
    Mark.wins handle marks = 1 ↔ now.store.isReleased handle = true
  /-- Who releases a holder next is told of the releases that win, and of no other. -/
  told : now.TellsWins codec
  /-- A released holder stays released. -/
  stays : ∀ handle, earlier.store.isReleased handle = true → now.store.isReleased handle = true
  /-- The holders of the pool are those that were made, in this order. -/
  made : now.store.pool.size = (Mark.payloads marks).length
  /-- A holder that is not released keeps the payload that it was made with. -/
  kept : ∀ (handle : Handle) (holder : Holder α) (payload : Payload α),
    now.store.pool[handle]? = some holder → holder.payload = some payload →
      (Mark.payloads marks)[handle]? = some payload

theorem recorded_start (settings : Settings) (policy : Option ExpiryPolicy) (base : Int64) :
    (start settings policy base : Session α).store.Recorded [] :=
  ⟨rfl, fun handle _ _ found => by simp [start, Store.empty] at found⟩

/-- A holder without a key now, that had one earlier, has lost it by being released. -/
theorem isReleased_of_unlinked (codec : Codec α) {session : Session α}
    (sound : session.store.Sound) (rest : List (Request α)) {key : String} {handle : Handle}
    (hkey : session.store.entries.get? key = some handle)
    (hgone : ∀ name, (session.after codec rest).store.entries.get? name ≠ some handle) :
    (session.after codec rest).store.isReleased handle = true := by
  rcases (moves_after codec sound rest).linked sound hkey with hstays | hreleased
  · exact absurd hstays (hgone key)
  · exact hreleased

theorem readsNothing_of_slot (codec : Codec α) {session : Session α} {slot : String}
    {handle : Handle} (hslot : session.slots.get? slot = some handle)
    (hreleased : session.store.isReleased handle = true) : session.ReadsNothing codec slot := by
  rw [Store.isReleased, Option.any_eq_true] at hreleased
  obtain ⟨holder, found, released⟩ := hreleased
  exact readsNothing_of_isReleased codec (slot?_eq_some_iff.mpr ⟨hslot, found⟩) released

/-- Over every run, cut in two anywhere: what is published is complete and published once; what was
published and has lost its key is released, and reads as nothing; a holder is released by one
release and for good, and keeps its payload until then; and who calls a release is told whether it
has won. -/
theorem publication_over_runs (codec : Codec α) (settings : Settings)
    (policy : Option ExpiryPolicy) (base : Int64) (before rest : List (Request α)) :
    Publication codec ((start settings policy base).after codec before)
      ((start settings policy base).after codec (before ++ rest))
      ((start settings policy base).marksOf codec (before ++ rest)) := by
  have hsound : (start settings policy base : Session α).store.Sound :=
    sound_start settings policy base
  have hbefore := moves_after codec hsound before
  have hall := moves_after codec hsound (before ++ rest)
  have hearlier := hbefore.sound hsound
  have hrest := moves_after codec hearlier rest
  have hnow := hall.sound hsound
  have hrecorded := hall.recorded (recorded_start settings policy base)
  have hwins : ∀ handle, Mark.wins handle ((start settings policy base).marksOf codec
      (before ++ rest)) = (((start settings policy base).after codec
        (before ++ rest)).store.isReleased handle).toNat := by
    intro handle
    have hcount := hall.wins handle
    rw [show (start settings policy base : Session α).store.isReleased handle = false by
      simp [Store.isReleased, start, Store.empty]] at hcount
    simpa using hcount
  rw [after_append] at hall hnow hrecorded hwins ⊢
  constructor
  case complete => exact hnow.complete
  case unique => exact hnow.unique
  case gone =>
    intro key handle hkey hgone
    have hreleased := isReleased_of_unlinked codec hearlier rest hkey hgone
    exact ⟨hreleased, fun slot hslot => readsNothing_of_slot codec hslot hreleased⟩
  case wins_le =>
    intro handle
    rw [hwins]
    exact Bool.toNat_le _
  case wins_eq_one_iff =>
    intro handle
    rw [hwins]
    exact Bool.toNat_eq_one
  case told => exact tellsWins codec _
  case stays => exact fun handle hreleased => hrest.released hreleased
  case made => exact hrecorded.1
  case kept => exact hrecorded.2

end ExpiringCache.Session
