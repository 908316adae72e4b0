import ExpiringCache.Proofs.Session.Marks
import ExpiringCache.Proofs.Store.Agreement
import Mathlib.Data.List.Forall2

/-!
# The write mode does not show

A session that writes its values and one that keeps them as they are take the same requests and
give the same reports, apart from the form that a view or a description of a holder names. The
sessions agree if their slots, their schedules and their stores do, and every operation keeps them
in agreement; runs follow by induction on the requests.
-/
namespace ExpiringCache

variable {α : Type}

/-- Answers that differ at most in the form of a holder. A description differs as that of a holder
with another form does. -/
inductive Answer.Alike : Answer α → Answer α → Prop where
  | same (answer : Answer α) : Alike answer answer
  | holder {view other : HolderView} (h : view.Alike other) : Alike (.holder view) (.holder other)
  | text (holder : Holder α) (form : Form) :
      Alike (.text holder.describe) (.text ({ holder with form := form } : Holder α).describe)

inductive Sight.Alike : Sight → Sight → Prop where
  | slot {view other : Option HolderView} (h : Option.Rel HolderView.Alike view other) :
      Alike (.slot view) (.slot other)
  | store (snapshot : Snapshot) : Alike (.store snapshot) (.store snapshot)

structure Report.Alike (report other : Report α) : Prop where
  answer : report.answer.Alike other.answer
  sight : report.sight.Alike other.sight

namespace Session

variable {codec : Codec α} {first second : Session α}

/-- Sessions of the two write modes whose holders agree. -/
structure Agrees (codec : Codec α) (first second : Session α) : Prop where
  store : first.store.Agrees codec second.store
  slots : first.slots = second.slots
  schedule : first.schedule = second.schedule

structure Outcome.Agrees (codec : Codec α) (outcome other : Outcome α) : Prop where
  answer : outcome.answer.Alike other.answer
  session : outcome.session.Agrees codec other.session

theorem Agrees.unchanged (h : first.Agrees codec second) (answer : Answer α) :
    (first.unchanged answer).Agrees codec (second.unchanged answer) := ⟨.same answer, h⟩

theorem Agrees.withStore (h : first.Agrees codec second) {store other : Store α}
    (hstore : store.Agrees codec other) :
    (first.withStore store).Agrees codec (second.withStore other) :=
  ⟨hstore, h.slots, h.schedule⟩

theorem Agrees.change (h : first.Agrees codec second) (handle : Handle) {holder other : Holder α}
    (hagrees : holder.Agrees codec other) :
    (first.change handle holder).Agrees codec (second.change handle other) :=
  h.withStore (h.store.modify handle fun _ _ _ => hagrees)

theorem Agrees.moveClock (h : first.Agrees codec second) (clock : Clock) :
    (first.moveClock clock).Agrees codec (second.moveClock clock) :=
  ⟨.same _, h.withStore (h.store.setClock clock)⟩

/-- What sessions that agree have in a slot. -/
theorem Agrees.slot (h : first.Agrees codec second) (slot : String) :
    (first.slot? slot = none ∧ second.slot? slot = none) ∨
      ∃ handle holder other, first.slot? slot = some (handle, holder) ∧
        second.slot? slot = some (handle, other) ∧ holder.Agrees codec other := by
  unfold slot?
  rw [h.slots]
  cases second.slots.get? slot with
  | none => exact .inl ⟨rfl, rfl⟩
  | some handle =>
    rcases cases_of_rel (h.store.pool handle) with
      ⟨hfirst, hsecond⟩ | ⟨holder, other, hfirst, hsecond, hagrees⟩
    · exact .inl ⟨by simp [hfirst], by simp [hsecond]⟩
    · exact .inr ⟨handle, holder, other, by simp [hfirst], by simp [hsecond], hagrees⟩

structure Sweeping.Agrees (codec : Codec α) (sweeping other : Sweeping α) : Prop where
  store : sweeping.store.Agrees codec other.store
  released : sweeping.released = other.released

theorem Sweeping.Agrees.sweepOnce {sweeping other : Sweeping α}
    (h : sweeping.Agrees codec other) :
    Option.Rel (Sweeping.Agrees codec) (sweepOnce sweeping) (sweepOnce other) := by
  obtain ⟨hresult, hstore⟩ := h.store.sweep
  rw [sweepOnce_eq, sweepOnce_eq, hresult]
  cases other.store.sweep.1 with
  | error overflow => exact .none
  | ok released => exact .some ⟨hstore, by rw [h.released]⟩

theorem Agrees.elapse (h : first.Agrees codec second) (millis : Nat) :
    (first.elapse millis).Agrees codec (second.elapse millis) := by
  have hstart : Sweeping.Agrees codec ⟨first.store, #[]⟩ ⟨second.store, #[]⟩ := ⟨h.store, rfl⟩
  obtain ⟨hschedule, hsweeping⟩ := SweepSchedule.elapse_related
    (fun _ _ hagrees => Sweeping.Agrees.sweepOnce hagrees) millis second.schedule hstart
  simp only [Session.elapse, h.schedule]
  refine ⟨?_, ⟨hsweeping.store, h.slots, hschedule⟩⟩
  rw [hsweeping.released]
  exact .same _

theorem Agrees.stepHolder (h : first.Agrees codec second) {handle : Handle}
    {holder other : Holder α} (hagrees : holder.Agrees codec other)
    (operation : HolderOperation) :
    (first.stepHolder codec handle holder operation).Agrees codec
      (second.stepHolder codec handle other operation) := by
  cases operation with
  | complete idle cache => exact ⟨.same _, h.change handle (hagrees.complete idle cache)⟩
  | get =>
    have haccessed := hagrees.access second.store.clock
    simp only [Session.stepHolder, h.store.clock, haccessed.peek]
    exact ⟨.same _, h.change handle haccessed⟩
  | peek =>
    simp only [Session.stepHolder, hagrees.peek]
    exact h.unchanged _
  | isInvalid =>
    simp only [Session.stepHolder, h.store.clock, hagrees.isInvalid]
    exact h.unchanged _
  | isInvalidAt instant =>
    simp only [Session.stepHolder, h.store.clock, hagrees.isInvalidAt]
    exact h.unchanged _
  | setIdle seconds => exact ⟨.same _, h.change handle (hagrees.setIdle seconds)⟩
  | prolong seconds =>
    simp only [Session.stepHolder, h.store.clock]
    rcases hagrees.prolong second.store.clock seconds with
      ⟨overflow, hfails, hfails'⟩ | ⟨prolonged, longer, hprolong, hprolong', hprolonged⟩
    · rw [hfails, hfails']
      exact h.unchanged _
    · rw [hprolong, hprolong']
      exact ⟨.same _, h.change handle hprolonged⟩
  | followPolicy policy update previous =>
    refine ⟨.same _, h.change handle (hagrees.followPolicy policy update ?_)⟩
    cases previous with
    | none => exact .none
    | some slot =>
      rw [Option.bind_some, Option.bind_some]
      rcases h.slot slot with ⟨hfirst, hsecond⟩ | ⟨_, _, _, hfirst, hsecond, hprevious⟩
      · rw [hfirst, hsecond]
        exact .none
      · rw [hfirst, hsecond]
        exact .some hprevious
  | jitter span words =>
    obtain ⟨hdrawn, hjittered⟩ := hagrees.jitterWithin span words
    simp only [Session.stepHolder, hdrawn]
    exact ⟨.same _, h.change handle hjittered⟩
  | addUses count => exact ⟨.same _, h.change handle (hagrees.addUses _)⟩
  | addUsesRacing parties count => exact ⟨.same _, h.change handle (hagrees.addUses _)⟩
  | release =>
    simp only [Session.stepHolder, hagrees.released]
    exact ⟨.same _, h.change handle hagrees.release⟩
  | releaseRacing parties =>
    simp only [Session.stepHolder, hagrees.released]
    split
    · exact h.unchanged _
    · exact ⟨.same _, h.change handle hagrees.release⟩
  | describe =>
    simp only [Session.stepHolder, hagrees.describe]
    exact ⟨.text holder other.form, h⟩
  | look => exact h.unchanged _

theorem Agrees.fillNew (h : first.Agrees codec second) (slot : String)
    (made : Except HolderError (Holder α)) :
    (first.fillNew slot made).Agrees codec (second.fillNew slot made) := by
  cases made with
  | error reason => exact h.unchanged _
  | ok holder =>
    refine ⟨.same _, ⟨h.store.add (Holder.Agrees.refl codec holder), ?_, h.schedule⟩⟩
    show first.slots.insert slot first.store.pool.size =
      second.slots.insert slot second.store.pool.size
    rw [h.slots, h.store.size]

theorem Agrees.stepSlot (h : first.Agrees codec second) (slot : String)
    (operation : SlotOperation α) :
    (first.stepSlot codec slot operation).Agrees codec
      (second.stepSlot codec slot operation) := by
  cases operation with
  | take key =>
    simp only [Session.stepSlot, h.store.entries]
    split
    · refine ⟨.same _, ⟨h.store, ?_, h.schedule⟩⟩
      simp only [fill, h.slots]
    · exact h.unchanged _
  | make mode value =>
    simp only [Session.stepSlot, h.store.clock]
    exact h.fillNew slot _
  | makeComplete mode value idle cache =>
    simp only [Session.stepSlot, h.store.clock]
    exact h.fillNew slot _
  | onHolder operation =>
    simp only [Session.stepSlot]
    rcases h.slot slot with ⟨hfirst, hsecond⟩ | ⟨_, _, _, hfirst, hsecond, hagrees⟩
    · rw [hfirst, hsecond]
      exact h.unchanged _
    · rw [hfirst, hsecond]
      exact h.stepHolder hagrees operation

theorem Agrees.act (h : first.Agrees codec second) (faithful : codec.Faithful)
    (operation : Operation α) :
    (first.act codec operation).Agrees codec (second.act codec operation) := by
  have hclock := h.store.clock
  cases operation with
  | advanceMillis millis =>
    simp only [Session.act, hclock]
    exact h.moveClock _
  | advanceSeconds seconds =>
    simp only [Session.act, hclock]
    split
    · exact h.moveClock _
    · exact h.unchanged _
  | setMillis millis =>
    simp only [Session.act, hclock]
    exact h.moveClock _
  | now =>
    simp only [Session.act, hclock]
    exact h.unchanged _
  | put key value words =>
    obtain ⟨hresult, hstore⟩ := h.store.put faithful key value words
    simp only [Session.act, hresult]
    exact ⟨.same _, h.withStore hstore⟩
  | get key =>
    obtain ⟨hresult, hstore⟩ := h.store.get key
    simp only [Session.act, hresult]
    exact ⟨.same _, h.withStore hstore⟩
  | peek key =>
    simp only [Session.act, h.store.peek]
    exact h.unchanged _
  | racingGet key =>
    obtain ⟨hresult, hstore⟩ := h.store.racingGet key
    simp only [Session.act, hresult]
    exact ⟨.same _, h.withStore hstore⟩
  | racingPeek key =>
    obtain ⟨hresult, hstore⟩ := h.store.racingPeek key
    simp only [Session.act, hresult]
    exact ⟨.same _, h.withStore hstore⟩
  | touch key seconds =>
    obtain ⟨hresult, hstore⟩ := h.store.touch key seconds
    simp only [Session.act, hresult]
    exact ⟨.same _, h.withStore hstore⟩
  | remove key =>
    obtain ⟨hresult, hstore⟩ := h.store.remove key
    simp only [Session.act, hresult]
    exact ⟨.same _, h.withStore hstore⟩
  | sweep =>
    obtain ⟨hresult, hstore⟩ := h.store.sweep
    rcases hfirst : first.store.sweep with ⟨result, store⟩
    rcases hsecond : second.store.sweep with ⟨other, otherStore⟩
    rw [hfirst, hsecond] at hresult hstore
    obtain rfl : result = other := hresult
    simp only [Session.act, hfirst, hsecond]
    cases result with
    | error overflow => exact ⟨.same _, h.withStore hstore⟩
    | ok released => exact ⟨.same _, h.withStore hstore⟩
  | size =>
    simp only [Session.act, Store.size, h.store.entries]
    exact h.unchanged _
  | statistics =>
    simp only [Session.act, Store.snapshot, Store.size, h.store.entries, h.store.counters]
    exact h.unchanged _
  | inspect key =>
    simp only [Session.act]
    rcases h.store.find key with ⟨hfirst, hsecond⟩ | ⟨_, _, _, hfirst, hsecond, hagrees⟩
    · rw [hfirst, hsecond]
      exact h.unchanged _
    · rw [hfirst, hsecond, hclock]
      exact ⟨.holder (hagrees.view _), h⟩
  | cacheWithin key low high =>
    simp only [Session.act]
    rcases h.store.find key with ⟨hfirst, hsecond⟩ | ⟨_, _, _, hfirst, hsecond, hagrees⟩
    · rw [hfirst, hsecond]
      exact h.unchanged _
    · simp only [hfirst, hsecond, hagrees.maxCache]
      exact h.unchanged _
  | spawnSweep seconds =>
    refine ⟨.same _, ⟨h.store, h.slots, ?_⟩⟩
    simp only [Session.act, h.schedule]
  | elapse millis => exact h.elapse millis
  | stopSweeps =>
    simp only [Session.act, h.schedule]
    exact ⟨.same _, ⟨h.store, h.slots, rfl⟩⟩
  | sweepsFinished =>
    simp only [Session.act, h.schedule]
    exact h.unchanged _
  | onSlot slot operation => exact h.stepSlot slot operation

theorem Agrees.sight (h : first.Agrees codec second) (watched : Option String) :
    (first.sight watched).Alike (second.sight watched) := by
  cases watched with
  | none =>
    simp only [Session.sight, Store.snapshot, Store.size, h.store.entries, h.store.counters]
    exact .store _
  | some slot =>
    refine .slot ?_
    rcases h.slot slot with ⟨hfirst, hsecond⟩ | ⟨_, _, _, hfirst, hsecond, hagrees⟩
    · rw [hfirst, hsecond]
      exact .none
    · rw [hfirst, hsecond, h.store.clock]
      exact .some (hagrees.view _)

theorem Agrees.after (h : first.Agrees codec second) (faithful : codec.Faithful)
    (requests : List (Request α)) :
    (first.after codec requests).Agrees codec (second.after codec requests) := by
  induction requests generalizing first second with
  | nil => exact h
  | cons request requests ih => exact ih (h.act faithful request.operation).session

theorem Agrees.run (h : first.Agrees codec second) (faithful : codec.Faithful)
    (requests : List (Request α)) :
    List.Forall₂ Report.Alike (first.run codec requests).1 (second.run codec requests).1 := by
  induction requests generalizing first second with
  | nil => exact .nil
  | cons request requests ih =>
    have hact := h.act faithful request.operation
    exact .cons ⟨hact.answer, hact.session.sight request.watched⟩ (ih hact.session)

theorem agrees_start (codec : Codec α) (settings : Settings) (policy : Option ExpiryPolicy)
    (base : Int64) :
    (start { settings with writeMode := .serialize } policy base).Agrees codec
      (start { settings with writeMode := .identity } policy base) := by
  have hstore : (start { settings with writeMode := .serialize } policy base).store.Agrees codec
      (start { settings with writeMode := .identity } policy base).store :=
    ⟨rfl, rfl, rfl, rfl, rfl, rfl, rfl, rfl, rfl, fun handle => .none⟩
  exact ⟨hstore, rfl, rfl⟩

/-- For quoted texts, lists of natural numbers and user sessions: a session that writes its values
gives the same reports as one that keeps them as they are, and shows the same at any moment, apart
from the forms of the holders. -/
theorem writeMode_transparent (type : ValueType) (settings : Settings)
    (policy : Option ExpiryPolicy) (base : Int64) (requests : List (Request type.Carrier)) :
    let codec := Codec.json type.format
    let written := start { settings with writeMode := .serialize } policy base
    let kept := start { settings with writeMode := .identity } policy base
    List.Forall₂ Report.Alike (written.run codec requests).1 (kept.run codec requests).1 ∧
      ∀ watched, ((written.after codec requests).sight watched).Alike
        ((kept.after codec requests).sight watched) := by
  intro codec written kept
  have hagrees : written.Agrees codec kept := agrees_start codec settings policy base
  have hfaithful : codec.Faithful := Codec.faithful_json type
  exact ⟨hagrees.run hfaithful requests, (hagrees.after hfaithful requests).sight⟩

end Session

end ExpiringCache
