import ExpiringCache.Proofs.Session.Evolution
import ExpiringCache.Proofs.Store.Shift

/-!
# Sessions on other dates

What a session does depends on the time that elapses and not on the date. If every date that occurs
in it is moved by the same number of milliseconds, it gives the same answers, but that the dates in
them are moved by this number too. This holds however far the clock is from its base epoch, as long
as no date comes near the ends of the word.
-/
namespace ExpiringCache

variable {α : Type}

/-- The operation on a holder with every date in it moved. -/
def HolderOperation.shift (delta : Int64) : HolderOperation → HolderOperation
  | .isInvalidAt instant => .isInvalidAt (instant + delta)
  | operation => operation

/-- The operation with every date in it moved. -/
def Operation.shift (delta : Int64) : Operation α → Operation α
  | .setMillis millis => .setMillis (millis + delta)
  | .onSlot slot (.onHolder operation) => .onSlot slot (.onHolder (operation.shift delta))
  | operation => operation

def HolderOperation.instant? : HolderOperation → Option Int64
  | .isInvalidAt instant => some instant
  | _ => none

def Operation.instant? : Operation α → Option Int64
  | .onSlot _ (.onHolder operation) => operation.instant?
  | _ => none

def Request.shift (delta : Int64) (request : Request α) : Request α :=
  { request with operation := request.operation.shift delta }

def Answer.shift (delta : Int64) : Answer α → Answer α
  | .reading millis => .reading (millis + delta)
  | .holder view => .holder (view.shift delta)
  | answer => answer

def Sight.shift (delta : Int64) : Sight → Sight
  | .slot view => .slot (view.map (HolderView.shift delta))
  | .store snapshot => .store snapshot

def Report.shift (delta : Int64) (report : Report α) : Report α :=
  ⟨report.answer.shift delta, report.sight.shift delta⟩

/-- The dates that a view shows. -/
def HolderView.dates (view : HolderView) : List Int64 :=
  view.created.toOption.toList ++ view.accessed.toOption.toList

def Answer.dates : Answer α → List Int64
  | .reading millis => [millis]
  | .holder view => view.dates
  | _ => []

def Sight.dates : Sight → List Int64
  | .slot view => view.toList.flatMap HolderView.dates
  | .store _ => []

def Report.dates (report : Report α) : List Int64 := report.answer.dates ++ report.sight.dates

namespace Session

/-- The session on another date. -/
def shift (delta : Int64) (session : Session α) : Session α :=
  { session with store := session.store.shift delta }

def Outcome.shift (delta : Int64) (outcome : Outcome α) : Outcome α :=
  ⟨outcome.answer.shift delta, outcome.session.shift delta⟩

/-- An operation that asks for no instant near the ends of the word, and that leaves the clock at
none. -/
def StaysModerate (codec : Codec α) (session : Session α) (operation : Operation α) : Prop :=
  Moderate (session.act codec operation).session.store.clock.now ∧
    ∀ instant ∈ operation.instant?, Moderate instant

instance (codec : Codec α) (session : Session α) (operation : Operation α) :
    Decidable (session.StaysModerate codec operation) :=
  have : Decidable (∀ instant ∈ operation.instant?, Moderate instant) :=
    Option.decidableForallMem _
  inferInstanceAs (Decidable (_ ∧ _))

variable {delta : Int64} {session : Session α}

@[simp] theorem store_shift (delta : Int64) (session : Session α) :
    (session.shift delta).store = session.store.shift delta := rfl

@[simp] theorem slot?_shift (delta : Int64) (session : Session α) (slot : String) :
    (session.shift delta).slot? slot = session.slot? slot := rfl

theorem dates_ofUnit (result : Except StoreError Unit) : (ofUnit result : Answer α).dates = [] := by
  cases result <;> rfl

theorem dates_ofValue (result : Except StoreError α) : (ofValue result).dates = [] := by
  cases result <;> rfl

theorem dates_ofFlag (flag : Except Overflow Bool) : (ofFlag flag : Answer α).dates = [] := by
  cases flag <;> rfl

theorem dates_ofRead (read : Except HolderError (Option α)) : (ofRead read).dates = [] := by
  match read with
  | .error reason => rfl
  | .ok none => rfl
  | .ok (some value) => rfl

/-- An answer without dates is the same on every date. -/
theorem shift_of_dates (delta : Int64) {answer : Answer α} (h : answer.dates = []) :
    answer.shift delta = answer := by
  cases answer with
  | reading millis => cases h
  | holder view =>
    obtain ⟨idle, cache, created, accessed⟩ := view
    cases created with
    | ok date => cases h
    | error overflow =>
      cases accessed with
      | ok date => cases h
      | error overflow' => rfl
  | _ => rfl

theorem sweepOnce_shift (h : session.store.clock.Shiftable delta) (sweeping other : Sweeping α)
    (same : other = ⟨sweeping.store.shift delta, sweeping.released⟩ ∧
      sweeping.store.clock = session.store.clock) :
    Option.Rel (fun sweeping other : Sweeping α =>
      other = ⟨sweeping.store.shift delta, sweeping.released⟩ ∧
        sweeping.store.clock = session.store.clock) (sweepOnce sweeping) (sweepOnce other) := by
  obtain ⟨rfl, hclock⟩ := same
  have hsweep := Store.sweep_shift (hclock ▸ h : sweeping.store.clock.Shiftable delta)
  rw [sweepOnce_eq, sweepOnce_eq, hsweep]
  cases sweeping.store.sweep.1 with
  | error overflow => exact .none
  | ok released => exact .some ⟨rfl, sweeping.store.kept_sweep.clock.trans hclock⟩

theorem elapse_shift (h : session.store.clock.Shiftable delta) (millis : Nat) :
    (session.shift delta).elapse millis = (session.elapse millis).shift delta := by
  obtain ⟨hschedule, hstate, -⟩ := SweepSchedule.elapse_related (sweepOnce_shift h) millis
    session.schedule (s := ⟨session.store, #[]⟩) ⟨rfl, rfl⟩
  simp only [elapse, shift, ← hschedule, hstate]
  rfl

theorem stepHolder_shift (codec : Codec α) (h : session.store.clock.Shiftable delta)
    (handle : Handle) (holder : Holder α) {operation : HolderOperation}
    (moderate : ∀ instant ∈ operation.instant?, Moderate instant)
    (moderate' : ∀ instant ∈ (operation.shift delta).instant?, Moderate instant) :
    (session.shift delta).stepHolder codec handle holder (operation.shift delta) =
      (session.stepHolder codec handle holder operation).shift delta := by
  cases operation with
  | get =>
    simp only [HolderOperation.shift, stepHolder, store_shift, Store.clock_shift,
      Holder.access_shift, Outcome.shift, shift_of_dates delta (dates_ofRead _)]
    rfl
  | peek =>
    simp only [HolderOperation.shift, stepHolder, unchanged, Outcome.shift,
      shift_of_dates delta (dates_ofRead _)]
  | isInvalid =>
    simp only [HolderOperation.shift, stepHolder, unchanged, store_shift, Store.clock_shift,
      Holder.isInvalid_shift h, Outcome.shift, shift_of_dates delta (dates_ofFlag _)]
  | isInvalidAt instant =>
    simp only [HolderOperation.shift, stepHolder, unchanged, store_shift, Store.clock_shift,
      Holder.isInvalidAt_shift h (moderate instant rfl) (moderate' _ rfl), Outcome.shift,
      shift_of_dates delta (dates_ofFlag _)]
  | prolong seconds =>
    simp only [HolderOperation.shift, stepHolder, store_shift, Store.clock_shift,
      Holder.prolong_shift h]
    split <;> rfl
  | releaseRacing parties =>
    simp only [HolderOperation.shift, stepHolder]
    split <;> rfl
  | _ => rfl

theorem stepSlot_shift (codec : Codec α) (h : session.store.clock.Shiftable delta)
    (slot : String) {operation : SlotOperation α}
    (moderate : ∀ instant ∈ (Operation.onSlot slot operation).instant?, Moderate instant)
    (moderate' : ∀ instant ∈ ((Operation.onSlot slot operation).shift delta).instant?,
      Moderate instant) :
    (session.shift delta).act codec ((Operation.onSlot slot operation).shift delta) =
      (session.stepSlot codec slot operation).shift delta := by
  cases operation with
  | take key =>
    simp only [Operation.shift, act, stepSlot, store_shift, Store.entries_shift]
    split <;> rfl
  | make mode value =>
    simp only [Operation.shift, act, stepSlot, store_shift, Store.clock_shift, Holder.new_shift]
    cases Holder.new codec mode session.store.clock value <;> rfl
  | makeComplete mode value idle cache =>
    simp only [Operation.shift, act, stepSlot, store_shift, Store.clock_shift, Holder.newComplete,
      Holder.new_shift]
    cases Holder.new codec mode session.store.clock value <;> rfl
  | onHolder operation =>
    simp only [Operation.shift, act, stepSlot, slot?_shift]
    split
    · rfl
    · exact stepHolder_shift codec h _ _ moderate moderate'

/-- On another date an operation gives the same answer, and leaves the same session, but for the
date. -/
theorem act_shift (codec : Codec α) (h : session.store.clock.Shiftable delta)
    {operation : Operation α} (moderate : ∀ instant ∈ operation.instant?, Moderate instant)
    (moderate' : ∀ instant ∈ (operation.shift delta).instant?, Moderate instant) :
    (session.shift delta).act codec (operation.shift delta) =
      (session.act codec operation).shift delta := by
  cases operation with
  | now | size | statistics | spawnSweep | stopSweeps | sweepsFinished | setMillis => rfl
  | advanceMillis millis =>
    simp only [Operation.shift, act, store_shift, Store.clock_shift, Clock.advance_shift]
    rfl
  | advanceSeconds seconds =>
    simp only [Operation.shift, act, store_shift, Store.clock_shift, Clock.advanceSeconds_shift]
    cases session.store.clock.advanceSeconds seconds <;> rfl
  | put key value words =>
    simp only [Operation.shift, act, store_shift, Store.put_shift, Outcome.shift,
      shift_of_dates delta (dates_ofUnit _)]
    rfl
  | get key =>
    simp only [Operation.shift, act, store_shift, Store.get_shift codec h, Outcome.shift,
      shift_of_dates delta (dates_ofValue _)]
    rfl
  | peek key =>
    simp only [Operation.shift, act, unchanged, store_shift, Store.peek_shift codec h,
      Outcome.shift, shift_of_dates delta (dates_ofValue _)]
  | racingGet key =>
    simp only [Operation.shift, act, store_shift, Store.racingGet_shift codec h, Outcome.shift,
      shift_of_dates delta (dates_ofValue _)]
    rfl
  | racingPeek key =>
    simp only [Operation.shift, act, store_shift, Store.racingPeek_shift codec h, Outcome.shift,
      shift_of_dates delta (dates_ofValue _)]
    rfl
  | touch key seconds =>
    simp only [Operation.shift, act, store_shift, Store.touch_shift h, Outcome.shift,
      shift_of_dates delta (dates_ofUnit _)]
    rfl
  | remove key =>
    simp only [Operation.shift, act, store_shift, Store.remove_shift, Outcome.shift,
      shift_of_dates delta (dates_ofUnit _)]
    rfl
  | sweep =>
    simp only [Operation.shift, act, store_shift, Store.sweep_shift h]
    obtain ⟨released, after⟩ := session.store.sweep
    cases released <;> rfl
  | inspect key =>
    simp only [Operation.shift, act, unchanged, store_shift, Store.find?_shift,
      Store.clock_shift, Holder.view_shift h]
    split <;> rfl
  | cacheWithin key low high =>
    simp only [Operation.shift, act, store_shift, Store.find?_shift]
    split <;> rfl
  | elapse millis => exact elapse_shift h millis
  | onSlot slot operation => exact stepSlot_shift codec h slot moderate moderate'

theorem sight_shift (h : session.store.clock.Shiftable delta) (watched : Option String) :
    (session.shift delta).sight watched = (session.sight watched).shift delta := by
  cases watched with
  | none => rfl
  | some slot =>
    simp only [sight, slot?_shift, store_shift, Store.clock_shift, Holder.view_shift h, Sight.shift,
      Option.map_map]
    rfl

/-- The clock stays moderate over an operation that stays so on both dates. -/
theorem shiftable_act (codec : Codec α) (sound : session.store.Sound)
    (h : session.store.clock.Shiftable delta) {operation : Operation α}
    (moderate : session.StaysModerate codec operation)
    (moderate' : (session.shift delta).StaysModerate codec (operation.shift delta)) :
    (session.act codec operation).session.store.clock.Shiftable delta := by
  have hbase := (moves_act codec sound operation).base
  have hnow := moderate'.1
  rw [act_shift codec h moderate.2 moderate'.2] at hnow
  constructor
  case base => rw [hbase]; exact h.base
  case shiftedBase => rw [hbase]; exact h.shiftedBase
  case now => exact moderate.1
  case shiftedNow => exact hnow

theorem step_shift (codec : Codec α) (sound : session.store.Sound)
    (h : session.store.clock.Shiftable delta) {request : Request α}
    (moderate : session.StaysModerate codec request.operation)
    (moderate' : (session.shift delta).StaysModerate codec (request.operation.shift delta)) :
    (session.shift delta).step codec (request.shift delta) =
      ((session.step codec request).1.shift delta, (session.step codec request).2.shift delta) := by
  have hnext := shiftable_act codec sound h moderate moderate'
  simp only [step, Request.shift, act_shift codec h moderate.2 moderate'.2, Outcome.shift,
    sight_shift hnext, Report.shift]

theorem dates_stepHolder (codec : Codec α) (session : Session α) (handle : Handle)
    (holder : Holder α) (operation : HolderOperation) :
    (session.stepHolder codec handle holder operation).answer.dates = [] := by
  cases operation with
  | get | peek => exact dates_ofRead _
  | isInvalid | isInvalidAt => exact dates_ofFlag _
  | prolong | releaseRacing =>
    simp only [stepHolder]
    split <;> rfl
  | _ => rfl

theorem dates_stepSlot (codec : Codec α) (session : Session α) (slot : String)
    (operation : SlotOperation α) :
    (session.stepSlot codec slot operation).answer.dates = [] := by
  cases operation with
  | take | make | makeComplete =>
    simp only [stepSlot, fillNew]
    split <;> rfl
  | onHolder operation =>
    simp only [stepSlot]
    split
    · rfl
    · exact dates_stepHolder codec session _ _ operation

/-- The dates of an answer are the reading of the clock that the operation leaves, or the view of a
holder shows them. -/
theorem dates_act (codec : Codec α) (session : Session α) (operation : Operation α) :
    (∀ date ∈ (session.act codec operation).answer.dates,
        date = (session.act codec operation).session.store.clock.now) ∨
      ∃ holder : Holder α, (session.act codec operation).answer.dates =
        (holder.view session.store.clock).dates := by
  have hnone : ∀ {answer : Answer α} {now : Int64}, answer.dates = [] →
      ∀ date ∈ answer.dates, date = now := by
    intro answer now hdates date mem
    rw [hdates] at mem
    cases mem
  cases operation with
  | advanceMillis | setMillis | now => exact .inl fun date mem => List.mem_singleton.mp mem
  | advanceSeconds seconds =>
    left
    simp only [act]
    split
    · exact fun date mem => List.mem_singleton.mp mem
    · exact hnone rfl
  | put | touch | remove => exact .inl (hnone (dates_ofUnit _))
  | get | peek | racingGet | racingPeek => exact .inl (hnone (dates_ofValue _))
  | inspect key =>
    simp only [act]
    split
    next handle holder _ => exact .inr ⟨holder, rfl⟩
    next => exact .inl (hnone rfl)
  | sweep | cacheWithin =>
    left
    simp only [act]
    split <;> exact hnone rfl
  | onSlot slot operation => exact .inl (hnone (dates_stepSlot codec session slot operation))
  | size | statistics | spawnSweep | stopSweeps | sweepsFinished | elapse =>
    exact .inl (hnone rfl)

theorem toInt_add_of_view (h : session.store.clock.Shiftable delta) {holder : Holder α}
    {date : Int64} (mem : date ∈ (holder.view session.store.clock).dates) :
    (date + delta).toInt = date.toInt + delta.toInt := by
  obtain ⟨created, hcreated, -, hc⟩ := Clock.exists_instantOf_shift h holder.created
  obtain ⟨accessed, haccessed, -, ha⟩ := Clock.exists_instantOf_shift h holder.accessed
  simp only [HolderView.dates, Holder.view, hcreated, haccessed] at mem
  rcases List.mem_append.mp mem with mem | mem
  · rw [List.mem_singleton.mp mem, hc]
  · rw [List.mem_singleton.mp mem, ha]

theorem date_of_sight {watched : Option String} {date : Int64}
    (mem : date ∈ (session.sight watched).dates) :
    ∃ holder : Holder α, date ∈ (holder.view session.store.clock).dates := by
  cases watched with
  | none => cases mem
  | some slot =>
    obtain ⟨view, hview, hdate⟩ := List.mem_flatMap.mp mem
    obtain ⟨found, -, rfl⟩ := Option.map_eq_some_iff.mp (Option.mem_toList.mp hview)
    exact ⟨found.2, hdate⟩

/-- The dates that one operation shows are moved exactly. -/
theorem toInt_add_of_report (codec : Codec α) (h : session.store.clock.Shiftable delta)
    {request : Request α}
    (next : (session.act codec request.operation).session.store.clock.Shiftable delta)
    {date : Int64} (mem : date ∈ (session.step codec request).1.dates) :
    (date + delta).toInt = date.toInt + delta.toInt := by
  rcases List.mem_append.mp mem with mem | mem
  · rcases dates_act codec session request.operation with hreading | ⟨holder, hview⟩
    · rw [hreading date mem]
      exact next.now.toInt_add next.shiftedNow
    · exact toInt_add_of_view h (hview ▸ mem)
  · obtain ⟨holder, hview⟩ := date_of_sight mem
    exact toInt_add_of_view next hview

/-- A run on two dates that lie apart by `delta`. -/
structure SameOnDates (codec : Codec α) (delta : Int64) (session other : Session α)
    (requests : List (Request α)) : Prop where
  /-- The reports are the same, but that the dates in them are moved. -/
  reports : (other.run codec (requests.map (Request.shift delta))).1 =
    (session.run codec requests).1.map (Report.shift delta)
  /-- No date wraps when it is moved. -/
  exactly : ∀ report ∈ (session.run codec requests).1, ∀ date ∈ report.dates,
    (date + delta).toInt = date.toInt + delta.toInt
  /-- After any number of requests the sessions are the same, but for the date. -/
  sessions : ∀ count,
    other.after codec ((requests.take count).map (Request.shift delta)) =
      (session.after codec (requests.take count)).shift delta

theorem run_shift (codec : Codec α) (sound : session.store.Sound)
    (h : session.store.clock.Shiftable delta) {requests : List (Request α)}
    (moderate : session.Throughout codec (StaysModerate codec) requests)
    (moderate' : (session.shift delta).Throughout codec (StaysModerate codec)
      (requests.map (Request.shift delta))) :
    SameOnDates codec delta session (session.shift delta) requests := by
  induction requests generalizing session with
  | nil =>
    constructor
    case reports => simp only [List.map_nil, run]
    case exactly => simp [run]
    case sessions => simp [after, run]
  | cons request requests ih =>
    have hstep := step_shift codec sound h moderate.1 moderate'.1
    have hnext := shiftable_act codec sound h moderate.1 moderate'.1
    have hlater := moderate'.2
    rw [hstep] at hlater
    have hrest := ih (sound_act codec sound request.operation) hnext moderate.2 hlater
    constructor
    case reports =>
      simp only [List.map_cons, run, hstep]
      exact congrArg _ hrest.reports
    case exactly =>
      intro report mem
      rcases List.mem_cons.mp mem with rfl | mem
      · exact fun date mem => toInt_add_of_report codec h hnext mem
      · exact hrest.exactly report mem
    case sessions =>
      intro count
      cases count with
      | zero => rfl
      | succ count =>
        simp only [List.take_succ_cons, List.map_cons, after, run, hstep]
        exact hrest.sessions count

/-- A session that is started on another date gives the same answers and the same statistics at
every step: with the base epoch, every setting of the clock and every instant of a check moved by
the same number of milliseconds, each reading of the clock, each instant of a creation and each
instant of an access that is shown is moved by this number, and nothing else changes. -/
theorem same_on_every_date (codec : Codec α) (settings : Settings) (policy : Option ExpiryPolicy)
    (base delta : Int64) (requests : List (Request α)) (here : Moderate base)
    (there : Moderate (base + delta))
    (original : (start settings policy base).Throughout codec (StaysModerate codec) requests)
    (shifted : (start settings policy (base + delta)).Throughout codec (StaysModerate codec)
      (requests.map (Request.shift delta))) :
    SameOnDates codec delta (start settings policy base) (start settings policy (base + delta))
      requests :=
  run_shift codec (sound_start settings policy base) ⟨here, there, here, there⟩ original shifted

/-- The clock leaves the span of narrow timestamps; a slot, a race and a sweep task are in the
run. -/
theorem same_on_every_date_past_span :
    let codec : Codec String := Codec.json .string
    let delta : Int64 := 1700000000000
    let session : Session String := start Settings.standard none 0
    let other : Session String := start Settings.standard none (0 + delta)
    let requests : List (Request String) :=
      [⟨.put "old" "v" [], none⟩, ⟨.setMillis 5000000000, none⟩, ⟨.put "new" "w" [], none⟩,
        ⟨.onSlot "s" (.take "new"), some "s"⟩,
        ⟨.onSlot "s" (.onHolder (.isInvalidAt 4999999999)), some "s"⟩, ⟨.inspect "new", none⟩,
        ⟨.racingGet "new", none⟩, ⟨.spawnSweep 1, none⟩, ⟨.elapse 1000, some "s"⟩, ⟨.now, none⟩]
    session.Throughout codec (StaysModerate codec) requests ∧
      other.Throughout codec (StaysModerate codec)
        (requests.map (Request.shift delta)) ∧
      ¬ (session.after codec requests).store.clock.Covers
        (session.after codec requests).store.clock.now ∧
      (other.after codec (requests.map (Request.shift delta))).store.clock.now = 1705000000000 ∧
      SameOnDates codec delta session other requests := by
  intro codec delta session other requests
  have original : session.Throughout codec (StaysModerate codec) requests := by decide +kernel
  have shifted : other.Throughout codec (StaysModerate codec)
      (requests.map (Request.shift delta)) := by decide +kernel
  exact ⟨original, shifted, by decide +kernel, by decide +kernel,
    same_on_every_date codec Settings.standard none 0 delta requests (by decide) (by decide)
      original shifted⟩

end Session

end ExpiringCache
