import ExpiringCache.Proofs.Session.Publication
import ExpiringCache.Proofs.Store.Evolution

/-!
# What a session does to the holders of its pool

Every operation of a session applies operations of holders to the handles it reaches, by a key or by
a slot, and may make one holder. The base epoch stays, and a key that is not put keeps its holder or
loses it. What is to hold over a run is therefore shown for holders, one operation after another;
which operations a run may contain is said of the session that each of them finds.
-/
namespace ExpiringCache

/-- What every run of a task keeps is kept however much time elapses. -/
theorem SweepSchedule.elapse_keeps {σ : Type} {run : σ → Option σ} {P : σ → Prop}
    (h : ∀ s s', run s = some s' → P s → P s') (millis : Nat) (schedule : SweepSchedule) {s : σ}
    (start : P s) : P (schedule.elapse run millis s).state := by
  have hstep : ∀ s t, s = t ∧ P s → Option.Rel (fun s t => s = t ∧ P s) (run s) (run t) := by
    rintro s t ⟨rfl, hs⟩
    cases hrun : run s with
    | none => exact .none
    | some s' => exact .some ⟨rfl, h s s' hrun hs⟩
  exact (elapse_related hstep millis schedule ⟨rfl, start⟩).2.2

namespace Session

variable {α : Type}

/-- The operations of holders that an operation of a session may apply to a handle. -/
def Applies (session : Session α) (operation : Operation α) (handle : Handle)
    (applied : HolderOperation) : Prop :=
  match operation with
  | .put key _ _ | .remove key | .racingPeek key =>
    applied = .release ∧ session.store.Links key handle
  | .get key => (applied = .get ∨ applied = .addUses 1) ∧ session.store.Opens key handle
  | .racingGet key =>
    applied = .release ∧ session.store.Links key handle ∨
      applied = .get ∧ session.store.Opens key handle
  | .touch key seconds => applied = .prolong seconds ∧ session.store.Links key handle
  | .sweep | .elapse _ => applied = .release
  | .onSlot slot (.onHolder operation) =>
    applied = operation ∧ session.slots.get? slot = some handle
  | _ => False

def Makes (codec : Codec α) (session : Session α) (operation : Operation α)
    (holder : Holder α) : Prop :=
  match operation with
  | .put key value words => session.store.MakesFor codec key value words holder
  | .onSlot _ (.make mode value) =>
    ∃ form payload, Holder.store codec mode value = .ok (form, payload) ∧
      holder = .fresh session.store.clock form payload
  | .onSlot _ (.makeComplete mode value idle cache) =>
    ∃ form payload, Holder.store codec mode value = .ok (form, payload) ∧
      holder = (Holder.fresh session.store.clock form payload).complete idle cache
  | _ => False

theorem sweptTo_of_sweepOnce {sweeping next : Sweeping α} (h : sweepOnce sweeping = some next) :
    sweeping.store.SweptTo next.store := by
  rw [sweepOnce_eq] at h
  cases hreleased : sweeping.store.sweep.1 with
  | error overflow => simp [hreleased] at h
  | ok released =>
    rw [hreleased] at h
    obtain rfl := Option.some.inj h
    exact sweeping.store.sweptTo_sweep

theorem sweptTo_elapse (session : Session α) (millis : Nat) :
    session.store.SweptTo (session.elapse millis).session.store := by
  have hstep : ∀ sweeping next, sweepOnce sweeping = some next →
      session.store.SweptTo sweeping.store → session.store.SweptTo next.store :=
    fun sweeping next hrun hswept => hswept.trans (sweptTo_of_sweepOnce hrun)
  exact SweepSchedule.elapse_keeps hstep millis session.schedule (.refl session.store)

theorem store_sweep (codec : Codec α) (session : Session α) :
    (session.act codec .sweep).session.store = session.store.sweep.2 := by
  simp only [act]
  split
  next h => rw [h]; rfl
  next h => rw [h]; rfl

theorem evolves_stepHolder (codec : Codec α) {session : Session α} {handle : Handle}
    {holder : Holder α} (found : session.store.pool[handle]? = some holder)
    (operation : HolderOperation) {applied : Handle → HolderOperation → Prop}
    (mem : applied handle operation) {made : Holder α → Prop} :
    session.store.Evolves (session.stepHolder codec handle holder operation).session.store
      applied made := by
  rcases undergoes_stepHolder codec session handle holder operation with
    hsame | ⟨changed, hundergoes, hchange⟩
  · rw [hsame]
    exact .refl session.store _ _
  · rw [hchange]
    exact Store.evolves_modify found (hundergoes.reaches mem)

theorem evolves_stepSlot (codec : Codec α) (session : Session α) (slot : String)
    (operation : SlotOperation α) :
    session.store.Evolves (session.stepSlot codec slot operation).session.store
      (session.Applies (.onSlot slot operation))
      (session.Makes codec (.onSlot slot operation)) := by
  cases operation with
  | take key =>
    simp only [stepSlot]
    split <;> exact .refl session.store _ _
  | make mode value =>
    simp only [stepSlot, Holder.new_eq]
    cases hstore : Holder.store codec mode value with
    | error reason => exact .refl session.store _ _
    | ok kept => exact (Store.Evolves.refl session.store _ _).add ⟨kept.1, kept.2, hstore, rfl⟩
  | makeComplete mode value idle cache =>
    simp only [stepSlot, Holder.newComplete, Holder.new_eq]
    cases hstore : Holder.store codec mode value with
    | error reason => exact .refl session.store _ _
    | ok kept => exact (Store.Evolves.refl session.store _ _).add ⟨kept.1, kept.2, hstore, rfl⟩
  | onHolder operation =>
    simp only [stepSlot]
    cases hslot : session.slot? slot with
    | none => exact .refl session.store _ _
    | some found =>
      obtain ⟨handle, holder⟩ := found
      obtain ⟨hhandle, hpool⟩ := slot?_eq_some_iff.mp hslot
      exact evolves_stepHolder codec hpool operation ⟨rfl, hhandle⟩

/-- Every holder that is there after an operation was there before and has undergone what the
operation applies to its handle, or the operation has made it. -/
theorem evolves_act (codec : Codec α) (session : Session α) (operation : Operation α) :
    session.store.Evolves (session.act codec operation).session.store
      (session.Applies operation) (session.Makes codec operation) := by
  cases operation with
  | advanceMillis | setMillis => exact (Store.Evolves.refl session.store _ _).of_pool_eq rfl
  | advanceSeconds seconds =>
    simp only [act]
    split
    next => exact (Store.Evolves.refl session.store _ _).of_pool_eq rfl
    next => exact .refl session.store _ _
  | now | peek | size | statistics | spawnSweep | stopSweeps | sweepsFinished =>
    exact .refl session.store _ _
  | inspect key | cacheWithin key low high =>
    simp only [act]
    split <;> exact .refl session.store _ _
  | put key value words => exact session.store.evolves_put codec key value words
  | get key => exact session.store.evolves_get codec key
  | racingGet key => exact session.store.evolves_racingGet codec key
  | racingPeek key => exact session.store.evolves_racingPeek codec key
  | touch key seconds => exact session.store.evolves_touch key seconds
  | remove key => exact session.store.evolves_remove key
  | sweep =>
    rw [store_sweep]
    exact session.store.sweptTo_sweep.evolves
  | elapse millis => exact (session.sweptTo_elapse millis).evolves
  | onSlot slot operation => exact session.evolves_stepSlot codec slot operation

/-- A holder that an operation makes has been created at the reading of the clock. -/
theorem Makes.reaches {codec : Codec α} {session : Session α} {operation : Operation α}
    {holder : Holder α} (h : session.Makes codec operation holder) :
    ∃ form payload, (Holder.fresh session.store.clock form payload).Reaches session.store.clock
      session.store.pool (fun _ => True) holder := by
  unfold Makes at h
  split at h
  next => exact h.reaches
  next =>
    obtain ⟨form, payload, -, rfl⟩ := h
    exact ⟨form, payload, .rest _ _ _ _⟩
  next =>
    obtain ⟨form, payload, -, rfl⟩ := h
    exact ⟨form, payload, (Holder.Undergoes.complete _ _).reaches trivial⟩
  next => exact h.elim

theorem entries_stepHolder (codec : Codec α) (session : Session α) (handle : Handle)
    (holder : Holder α) (operation : HolderOperation) :
    (session.stepHolder codec handle holder operation).session.store.entries =
      session.store.entries := by
  rcases undergoes_stepHolder codec session handle holder operation with
    hsame | ⟨changed, -, hchange⟩
  · rw [hsame]
  · rw [hchange]
    rfl

theorem entries_stepSlot (codec : Codec α) (session : Session α) (slot : String)
    (operation : SlotOperation α) :
    (session.stepSlot codec slot operation).session.store.entries = session.store.entries := by
  cases operation with
  | take key =>
    simp only [stepSlot]
    split <;> rfl
  | make mode value =>
    simp only [stepSlot, fillNew]
    split <;> rfl
  | makeComplete mode value idle cache =>
    simp only [stepSlot, fillNew]
    split <;> rfl
  | onHolder operation =>
    simp only [stepSlot]
    split
    · rfl
    · exact entries_stepHolder codec session _ _ operation

/-- A key that is not put keeps its holder or loses it. -/
theorem linked_act (codec : Codec α) (session : Session α) {operation : Operation α}
    {key : String} (h : ∀ value words, operation ≠ .put key value words) :
    (session.act codec operation).session.store.entries.get? key =
        session.store.entries.get? key ∨
      (session.act codec operation).session.store.entries.get? key = none := by
  have hsame : ∀ {next : Store α}, next.entries = session.store.entries →
      next.entries.get? key = session.store.entries.get? key ∨
        next.entries.get? key = none := fun heq => .inl (by rw [heq])
  cases operation with
  | advanceMillis | setMillis => exact hsame rfl
  | now | peek | size | statistics | spawnSweep | stopSweeps | sweepsFinished => exact hsame rfl
  | advanceSeconds | inspect | cacheWithin =>
    simp only [act]
    split <;> exact hsame rfl
  | put name value words =>
    have hne : key ≠ name := by
      rintro rfl
      exact h value words rfl
    exact .inl (session.store.get?_entries_put codec hne value words)
  | get name => exact hsame (session.store.entries_get codec name)
  | racingGet name => exact hsame (session.store.entries_racingGet codec name)
  | racingPeek name => exact hsame (session.store.entries_racingPeek codec name)
  | touch name seconds => exact hsame (session.store.entries_touch name seconds)
  | remove name => exact session.store.get?_entries_remove key name
  | sweep =>
    rw [store_sweep]
    exact session.store.sweptTo_sweep.entries key
  | elapse millis => exact (session.sweptTo_elapse millis).entries key
  | onSlot slot operation => exact hsame (session.entries_stepSlot codec slot operation)

theorem sound_act (codec : Codec α) {session : Session α} (sound : session.store.Sound)
    (operation : Operation α) : (session.act codec operation).session.store.Sound :=
  (moves_act codec sound operation).sound sound

theorem base_after (codec : Codec α) {session : Session α} (sound : session.store.Sound)
    (requests : List (Request α)) :
    (session.after codec requests).store.clock.base = session.store.clock.base :=
  (moves_after codec sound requests).base

/-- Whether every operation of a run meets a condition in the session that it finds. -/
def Throughout (codec : Codec α) (P : Session α → Operation α → Prop) (session : Session α) :
    List (Request α) → Prop
  | [] => True
  | request :: requests =>
    P session request.operation ∧ (session.step codec request).2.Throughout codec P requests

instance Throughout.decidable (codec : Codec α) (P : Session α → Operation α → Prop)
    [∀ session operation, Decidable (P session operation)] (session : Session α) :
    (requests : List (Request α)) → Decidable (session.Throughout codec P requests)
  | [] => .isTrue trivial
  | request :: requests =>
    have := Throughout.decidable codec P (session.step codec request).2 requests
    inferInstanceAs (Decidable (_ ∧ _))

/-- What an operation keeps if it meets the condition, a run keeps of which every one does. -/
theorem Throughout.keeps {codec : Codec α} {P : Session α → Operation α → Prop}
    {I : Session α → Prop}
    (step : ∀ session operation, P session operation → I session →
      I (session.act codec operation).session)
    {session : Session α} {requests : List (Request α)}
    (h : session.Throughout codec P requests) (start : I session) :
    I (session.after codec requests) := by
  induction requests generalizing session with
  | nil => exact start
  | cons request requests ih => exact ih h.2 (step session request.operation h.1 start)

/-- What every operation keeps, every run keeps. -/
theorem keeps_after (codec : Codec α) {I : Session α → Prop}
    (step : ∀ session operation, I session → I (session.act codec operation).session)
    {session : Session α} (start : I session) (requests : List (Request α)) :
    I (session.after codec requests) := by
  induction requests generalizing session with
  | nil => exact start
  | cons request requests ih => exact ih (step session request.operation start)

/-- A holder of the pool stays in the pool, and nothing moves the instant of its creation. -/
theorem created_after (codec : Codec α) {session : Session α} {handle : Handle}
    {holder : Holder α} (found : session.store.pool[handle]? = some holder)
    (requests : List (Request α)) :
    ∃ later, (session.after codec requests).store.pool[handle]? = some later ∧
      later.created = holder.created := by
  refine keeps_after codec
    (I := fun session => ∃ later, session.store.pool[handle]? = some later ∧
      later.created = holder.created) ?_ ⟨holder, found, rfl⟩ requests
  rintro session operation ⟨earlier, hearlier, hcreated⟩
  obtain ⟨later, hlater, hreaches⟩ := (session.evolves_act codec operation).later hearlier
  exact ⟨later, hlater, hreaches.created.trans hcreated⟩

/-- No session has a holder with a negative limit. -/
theorem inRange_after (codec : Codec α) (settings : Settings) (policy : Option ExpiryPolicy)
    (base : Int64) (requests : List (Request α)) :
    ∀ holder ∈ ((start settings policy base).after codec requests).store.pool,
      holder.InRange := by
  refine keeps_after codec (I := fun session => ∀ holder ∈ session.store.pool, holder.InRange)
    ?_ ?_ requests
  · intro session operation inRange holder mem
    obtain ⟨handle, hhandle⟩ := Array.getElem?_of_mem mem
    rcases (session.evolves_act codec operation).origin handle holder hhandle with
      ⟨earlier, hearlier, hreaches⟩ | ⟨-, hmade⟩
    · exact hreaches.inRange inRange (inRange earlier (Array.mem_of_getElem? hearlier))
    · obtain ⟨form, payload, hreaches⟩ := hmade.reaches
      exact hreaches.inRange inRange ⟨Int.le_refl _, Int.le_refl _⟩
  · intro holder mem
    simp [start, Store.empty] at mem

end Session

end ExpiringCache
