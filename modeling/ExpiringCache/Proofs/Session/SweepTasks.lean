import Mathlib
import ExpiringCache.Proofs.Session.Evolution
import ExpiringCache.Proofs.SweepSchedule.Runs

/-!
# When sweep tasks run

The time of the sweep tasks may be cut into slices anywhere. A task sweeps once at the end of each
of its pauses, from its start until it is stopped or a sweep of its own overflows, whatever else
happens to the session, and every sweep that does not overflow writes one line. The pause is the
interval of the task, but never longer than thirty years.
-/
namespace ExpiringCache

variable {α : Type}

def Operation.stopsTasks : Operation α → Bool
  | .stopSweeps => true
  | _ => false

namespace Session

/-- What a run of a sweep task writes to the log; nothing if it overflows. -/
def Sweeping.line? (sweeping : Sweeping α) : Option LogLine :=
  match sweeping.store.sweep.1 with
  | .ok released => some (.swept released)
  | .error _ => none

/-- The runs of the sweep tasks in one operation. -/
def sweepRuns (session : Session α) : Operation α → List (TaskRun (Sweeping α))
  | .elapse millis =>
    SweepSchedule.runsDuring sweepOnce millis session.schedule ⟨session.store, #[]⟩
  | _ => []

def sweepRunsOf (codec : Codec α) (session : Session α) :
    List (Request α) → List (TaskRun (Sweeping α))
  | [] => []
  | request :: requests =>
    session.sweepRuns request.operation ++ (session.step codec request).2.sweepRunsOf codec requests

theorem schedule_stepHolder (codec : Codec α) (session : Session α) (handle : Handle)
    (holder : Holder α) (operation : HolderOperation) :
    (session.stepHolder codec handle holder operation).session.schedule = session.schedule := by
  rcases undergoes_stepHolder codec session handle holder operation with
    hsame | ⟨changed, -, hchange⟩
  · rw [hsame]
  · rw [hchange]
    rfl

theorem schedule_stepSlot (codec : Codec α) (session : Session α) (slot : String)
    (operation : SlotOperation α) :
    (session.stepSlot codec slot operation).session.schedule = session.schedule := by
  cases operation with
  | take key =>
    simp only [stepSlot]
    split <;> rfl
  | make | makeComplete =>
    simp only [stepSlot, fillNew]
    split <;> rfl
  | onHolder operation =>
    simp only [stepSlot]
    split
    · rfl
    · exact schedule_stepHolder codec session _ _ operation

/-- Only starting and stopping tasks and their time move the schedule. -/
theorem schedule_act (codec : Codec α) (session : Session α) (operation : Operation α) :
    (session.act codec operation).session.schedule =
      match operation with
      | .spawnSweep seconds => session.schedule.spawn seconds.toNat
      | .elapse millis => (session.elapse millis).session.schedule
      | .stopSweeps => session.schedule.stop
      | _ => session.schedule := by
  cases operation with
  | advanceMillis | setMillis | now | put | get | peek | racingGet | racingPeek | touch | remove
  | size | statistics | spawnSweep | elapse | stopSweeps | sweepsFinished => rfl
  | advanceSeconds | sweep | inspect | cacheWithin =>
    simp only [act]
    split <;> rfl
  | onSlot slot operation => exact schedule_stepSlot codec session slot operation

theorem onTime_act (codec : Codec α) (session : Session α) (operation : Operation α)
    (onTime : session.schedule.OnTime) :
    (session.act codec operation).session.schedule.OnTime := by
  rw [schedule_act]
  split
  next => exact SweepSchedule.onTime_spawn onTime _
  next => exact SweepSchedule.onTime_elapse onTime _ _
  next => exact session.schedule.onTime_stop
  next => exact onTime

theorem onTime_start (settings : Settings) (policy : Option ExpiryPolicy) (base : Int64) :
    (start settings policy base : Session α).schedule.OnTime := SweepSchedule.onTime_empty

/-- In every session that can be reached, the unfinished tasks are due after the present and within
their periods. -/
theorem onTime_after (codec : Codec α) {session : Session α} (onTime : session.schedule.OnTime)
    (requests : List (Request α)) : (session.after codec requests).schedule.OnTime :=
  keeps_after codec (I := fun session => session.schedule.OnTime) (onTime_act codec) onTime requests

section

variable {P : Bool → List (TaskRun (Sweeping α)) → SweepTask → Prop} {place : Nat}
  (tick : ∀ stopped instant before task runs later, P stopped before task →
    SweepSchedule.Ticks sweepOnce instant place task runs later → P stopped (before ++ runs) later)
  (stop : ∀ stopped before task, P stopped before task → P true before task.finish)
include tick stop

/-- What is so for a task and the list of its runs stays so over one operation, if one time and a
stop keep it so. -/
theorem taskRuns_act (codec : Codec α) {session : Session α} (onTime : session.schedule.OnTime)
    {task : SweepTask} (found : session.schedule.tasks[place]? = some task) (stopped : Bool)
    (before : List (TaskRun (Sweeping α))) (start : P stopped before task)
    (operation : Operation α) :
    ∃ later, (session.act codec operation).session.schedule.tasks[place]? = some later ∧
      P (stopped || operation.stopsTasks)
        (before ++ TaskRun.ofPlace place (session.sweepRuns operation)) later := by
  have hquiet : P (stopped || false) (before ++ TaskRun.ofPlace place []) task := by
    simpa [TaskRun.ofPlace] using start
  rw [schedule_act]
  cases operation with
  | spawnSweep seconds =>
    have hlt := (List.getElem?_eq_some_iff.mp found).1
    refine ⟨task, ?_, hquiet⟩
    change (session.schedule.tasks ++ [_])[place]? = some task
    rw [List.getElem?_append_left hlt, found]
  | elapse millis =>
    change ∃ later, _ ∧ P (stopped || false) _ later
    rw [Bool.or_false]
    exact SweepSchedule.ofPlace_runsDuring (tick stopped) onTime found before start millis _
  | stopSweeps =>
    refine ⟨task.finish, ?_, ?_⟩
    · rw [SweepSchedule.stop, List.getElem?_map, found, Option.map_some]
    · simpa [TaskRun.ofPlace, sweepRuns, Operation.stopsTasks] using stop _ _ _ start
  | _ => exact ⟨task, found, hquiet⟩

theorem taskRuns_after (codec : Codec α) {session : Session α} (onTime : session.schedule.OnTime)
    {task : SweepTask} (found : session.schedule.tasks[place]? = some task) (stopped : Bool)
    (before : List (TaskRun (Sweeping α))) (start : P stopped before task)
    (requests : List (Request α)) :
    ∃ later, (session.after codec requests).schedule.tasks[place]? = some later ∧
      P (stopped || requests.any fun request => request.operation.stopsTasks)
        (before ++ TaskRun.ofPlace place (session.sweepRunsOf codec requests)) later := by
  induction requests generalizing session task stopped before with
  | nil => exact ⟨task, found, by simpa [sweepRunsOf, TaskRun.ofPlace] using start⟩
  | cons request requests ih =>
    obtain ⟨next, hnext, hstep⟩ := taskRuns_act tick stop codec onTime found stopped before start
      request.operation
    rw [sweepRunsOf, TaskRun.ofPlace_append, ← List.append_assoc, List.any_cons, ← Bool.or_assoc]
    exact ih (onTime_act codec session request.operation onTime) hnext _ _ hstep

end

/-- A finished task sweeps no more. -/
theorem ofPlace_sweepRunsOf_of_finished (codec : Codec α) {session : Session α}
    (onTime : session.schedule.OnTime) {place : Nat}
    (finished : session.schedule.finished[place]? = some true) (requests : List (Request α)) :
    TaskRun.ofPlace place (session.sweepRunsOf codec requests) = [] := by
  rw [SweepSchedule.finished, List.getElem?_map, Option.map_eq_some_iff] at finished
  obtain ⟨task, found, hfinished⟩ := finished
  have hkeeps := taskRuns_after (P := fun _ runs task => runs = [] ∧ task.finished = true) ?_ ?_
    codec onTime found false [] ⟨rfl, hfinished⟩ requests
  · obtain ⟨-, -, hnone, -⟩ := hkeeps
    exact hnone
  · rintro stopped instant before task runs later ⟨rfl, hfinished⟩ hticks
    cases hticks with
    | rests => exact ⟨rfl, hfinished⟩
    | runs state due => simp [SweepTask.isDue, hfinished] at due
  · rintro stopped before task ⟨rfl, -⟩
    exact ⟨rfl, rfl⟩

theorem breaksOff_sweepOnce : TaskRun.breaksOff (sweepOnce : Sweeping α → Option (Sweeping α)) =
    fun taskRun => taskRun.found.line?.isNone := by
  funext taskRun
  rw [TaskRun.breaksOff, sweepOnce_eq, Sweeping.line?]
  cases taskRun.found.store.sweep.1 <;> rfl

theorem released_iterate (sweeping : Sweeping α) (count : Nat) :
    ((SweepSchedule.attempt sweepOnce)^[count] sweeping).released.toList.map .swept =
      sweeping.released.toList.map .swept ++
        (List.iterate (SweepSchedule.attempt sweepOnce) sweeping count).filterMap
          Sweeping.line? := by
  induction count generalizing sweeping with
  | zero => simp [List.iterate]
  | succ count ih =>
    rw [Function.iterate_succ_apply, ih, List.iterate, List.filterMap_cons, Sweeping.line?]
    simp only [SweepSchedule.attempt, sweepOnce_eq]
    cases sweeping.store.sweep.1 <;> simp

/-- While time elapses the log takes the lines of the runs. -/
theorem answer_elapse {session : Session α} (onTime : session.schedule.OnTime) (millis : Nat) :
    (session.elapse millis).answer =
      .log ((session.sweepRuns (.elapse millis)).filterMap fun taskRun => taskRun.found.line?) := by
  have hchained := SweepSchedule.chained_runsDuring sweepOnce onTime millis ⟨session.store, #[]⟩
  rw [elapse, hchained.state, released_iterate, ← hchained.found, List.filterMap_map]
  rfl

/-- The sweeps of a task that was started at `began`, up to `now`. -/
structure SweptInTime (began now pause : Nat) (stopped finished : Bool)
    (runs : List (TaskRun (Sweeping α))) : Prop where
  /-- The task goes on unless it was stopped or one of its sweeps overflowed. -/
  finished_iff : finished = true ↔
    stopped = true ∨ ∃ taskRun ∈ runs, taskRun.found.line? = none
  /-- A task that goes on has swept once at the end of each whole pause. -/
  instants : finished = false → runs.map TaskRun.instant =
    (List.range ((now - began) / pause)).map fun round => began + (round + 1) * pause
  /-- A task that goes on has written one line in each sweep. -/
  lines : finished = false → ∀ taskRun ∈ runs, ∃ released,
    taskRun.found.line? = some (.swept released)
  /-- A sweep that overflowed was the last one of the task. -/
  last : ∀ taskRun ∈ runs.dropLast, taskRun.found.line? ≠ none

/-- How the sweep tasks of a session run from now on. -/
structure SweepsInTime (codec : Codec α) (session : Session α) : Prop where
  /-- Two slices of time do what both do at once, and write the same lines. -/
  sliced : ∀ first second, ∃ lines more, (session.elapse first).answer = .log lines ∧
    ((session.elapse first).session.elapse second).answer = .log more ∧
      session.elapse (first + second) =
        ⟨.log (lines ++ more), ((session.elapse first).session.elapse second).session⟩
  /-- The log of a stretch of time has the lines of the sweeps, in their order. -/
  logged : ∀ millis, (session.elapse millis).answer =
    .log ((session.sweepRuns (.elapse millis)).filterMap fun taskRun => taskRun.found.line?)
  /-- A task that is started now sweeps in time, whatever is asked for later. -/
  started : ∀ (seconds : UInt64) (watched : Option String) (rest : List (Request α)),
    0 < seconds →
      let requests := ⟨.spawnSweep seconds, watched⟩ :: rest
      let later := session.after codec requests
      let place := session.schedule.tasks.length
      ∃ finished, later.schedule.finished[place]? = some finished ∧
        SweptInTime session.schedule.now later.schedule.now
          (1000 * min seconds.toNat SweepTask.longestPause)
          (rest.any fun request => request.operation.stopsTasks) finished
          (TaskRun.ofPlace place (session.sweepRunsOf codec requests))
  /-- A task that is finished now sweeps no more. -/
  ended : ∀ place, session.schedule.finished[place]? = some true →
    ∀ rest, TaskRun.ofPlace place (session.sweepRunsOf codec rest) = []

/-- Sweeps that go on from a log that is not empty write the same lines as from an empty one. -/
def Sweeping.Follows (earlier : Array Nat) (whole slice : Sweeping α) : Prop :=
  whole.store = slice.store ∧ whole.released = earlier ++ slice.released

theorem Sweeping.follows_sweepOnce (earlier : Array Nat) (whole slice : Sweeping α)
    (h : whole.Follows earlier slice) :
    Option.Rel (Sweeping.Follows earlier) (sweepOnce whole) (sweepOnce slice) := by
  rw [sweepOnce_eq, sweepOnce_eq, h.1]
  cases slice.store.sweep.1 with
  | error overflow => exact .none
  | ok released => exact .some ⟨rfl, by simp [h.2]⟩

theorem elapse_sliced (session : Session α) (first second : Nat) :
    ∃ lines more, (session.elapse first).answer = .log lines ∧
      ((session.elapse first).session.elapse second).answer = .log more ∧
        session.elapse (first + second) =
          ⟨.log (lines ++ more), ((session.elapse first).session.elapse second).session⟩ := by
  let slice := session.schedule.elapse sweepOnce first ⟨session.store, #[]⟩
  have hstart : slice.state.Follows slice.state.released ⟨slice.state.store, #[]⟩ :=
    ⟨rfl, by simp⟩
  have hsecond := SweepSchedule.elapse_related
    (Sweeping.follows_sweepOnce slice.state.released) second slice.schedule hstart
  rw [SweepSchedule.elapse_elapse] at hsecond
  obtain ⟨hschedule, hstore, hreleased⟩ := hsecond
  refine ⟨_, _, rfl, rfl, ?_⟩
  simp only [elapse, hschedule, hstore, hreleased, Array.toList_append, List.map_append]
  rfl

theorem SweptInTime.of_paced {task : SweepTask} {began now pause : Nat} {stopped : Bool}
    {runs : List (TaskRun (Sweeping α))}
    (paced : task.Paced sweepOnce began pause stopped runs)
    (due : task.finished = false → now < task.due ∧ task.due ≤ now + task.period) :
    SweptInTime began now pause stopped task.finished runs := by
  have hgoes := paced.goesOn
  have hfinished := paced.finished
  rw [breaksOff_sweepOnce] at hgoes hfinished
  constructor
  case finished_iff => simp [hfinished]
  case instants =>
    intro live
    rw [paced.instants, paced.length_eq live (due live).1 (due live).2]
  case lines =>
    intro live taskRun mem
    rw [live, eq_comm, Bool.or_eq_false_iff, List.any_eq_false] at hfinished
    have hline := hfinished.2 taskRun mem
    unfold Sweeping.line? at hline ⊢
    cases hsweep : taskRun.found.store.sweep.1 with
    | error overflow => simp [hsweep] at hline
    | ok released => exact ⟨released, rfl⟩
  case last =>
    intro taskRun mem hnone
    rw [List.any_eq_false] at hgoes
    exact hgoes taskRun mem (by rw [hnone]; rfl)

/-- A task that is started is there from then on, paced by its interval. -/
theorem exists_paced (codec : Codec α) {session : Session α} (onTime : session.schedule.OnTime)
    (seconds : UInt64) (watched : Option String) (rest : List (Request α)) :
    let requests := ⟨.spawnSweep seconds, watched⟩ :: rest
    let place := session.schedule.tasks.length
    ∃ task, (session.after codec requests).schedule.tasks[place]? = some task ∧
      task.Paced sweepOnce session.schedule.now (SweepTask.pause seconds.toNat)
        (rest.any fun request => request.operation.stopsTasks)
        (TaskRun.ofPlace place (session.sweepRunsOf codec requests)) := by
  intro requests place
  have hfound : (session.act codec (.spawnSweep seconds)).session.schedule.tasks[place]? =
      some (SweepTask.start session.schedule.now seconds.toNat) :=
    List.getElem?_concat_length
  exact taskRuns_after
    (P := fun stopped runs task => task.Paced sweepOnce session.schedule.now
      (SweepTask.pause seconds.toNat) stopped runs)
    (fun _ _ _ _ _ _ paced ticks => paced.tick ticks) (fun _ _ _ paced => paced.stop) codec
    (onTime_act codec session (.spawnSweep seconds) onTime) hfound false []
    (SweepTask.paced_start sweepOnce session.schedule.now seconds.toNat) rest

/-- The pause of a task with a positive interval. -/
theorem pause_of_pos {seconds : UInt64} (positive : 0 < seconds) :
    SweepTask.pause seconds.toNat = 1000 * min seconds.toNat SweepTask.longestPause := by
  have : 0 < seconds.toNat := by simpa [UInt64.lt_iff_toNat_lt] using positive
  simp only [SweepTask.pause, SweepTask.longestPause]
  omega

theorem sweptInTime (codec : Codec α) {session : Session α} (onTime : session.schedule.OnTime)
    (seconds : UInt64) (positive : 0 < seconds) (watched : Option String)
    (rest : List (Request α)) :
    let requests := ⟨.spawnSweep seconds, watched⟩ :: rest
    let later := session.after codec requests
    let place := session.schedule.tasks.length
    ∃ finished, later.schedule.finished[place]? = some finished ∧
      SweptInTime session.schedule.now later.schedule.now
        (1000 * min seconds.toNat SweepTask.longestPause)
        (rest.any fun request => request.operation.stopsTasks) finished
        (TaskRun.ofPlace place (session.sweepRunsOf codec requests)) := by
  intro requests later place
  obtain ⟨task, found, paced⟩ := exists_paced codec onTime seconds watched rest
  have honTime : later.schedule.OnTime := onTime_after codec onTime requests
  rw [pause_of_pos positive] at paced
  refine ⟨task.finished, ?_, .of_paced paced fun live => ?_⟩
  · rw [SweepSchedule.finished, List.getElem?_map]
    exact congrArg (Option.map SweepTask.finished) found
  · exact honTime task (List.mem_of_getElem? found) live

/-- In every session that can be reached: the time of the sweep tasks may be cut into slices
anywhere; a task that is started sweeps once at the end of each whole pause, and writes one line
each time, until it is stopped or one of its sweeps overflows; then it sweeps no more. -/
theorem sweeps_in_time (codec : Codec α) (settings : Settings) (policy : Option ExpiryPolicy)
    (base : Int64) (requests : List (Request α)) :
    SweepsInTime codec ((start settings policy base).after codec requests) := by
  have onTime := onTime_after codec (onTime_start settings policy base) requests
  constructor
  case sliced => exact elapse_sliced _
  case logged => exact answer_elapse onTime
  case started =>
    intro seconds watched rest positive
    exact sweptInTime codec onTime seconds positive watched rest
  case ended => exact fun place finished => ofPlace_sweepRunsOf_of_finished codec onTime finished

/-- A task has swept twice when its third sweep meets an entry whose timestamp lies past the end of
the 64-bit word; it writes no more. -/
theorem sweeps_in_time_until_overflow :
    let codec : Codec String := Codec.json .string
    let session : Session String := start Settings.standard none 9223372036854775807
    let rest : List (Request String) :=
      [⟨.elapse 2500, none⟩, ⟨.advanceMillis 1, none⟩, ⟨.put "k" "v" [], none⟩,
        ⟨.elapse 1000, none⟩, ⟨.elapse 5000, none⟩]
    let requests := ⟨.spawnSweep 1, none⟩ :: rest
    let later := session.after codec requests
    (session.run codec requests).1.map Report.answer =
        [.log [.started 1], .log [.swept 0, .swept 0], .reading (-9223372036854775808), .done,
          .log [], .log []] ∧
      later.schedule.finished[0]? = some true ∧
      SweptInTime 0 8500 1000 false true
        (TaskRun.ofPlace 0 (session.sweepRunsOf codec requests)) ∧
      TaskRun.ofPlace 0 (later.sweepRunsOf codec [⟨.elapse 60000, none⟩]) = [] := by
  intro codec session rest requests later
  have hflag : later.schedule.finished[0]? = some true := by cbv
  have hnow : later.schedule.now = 8500 := by cbv
  obtain ⟨finished, hfinished, hswept⟩ :=
    (sweeps_in_time codec Settings.standard none 9223372036854775807 []).started 1 none rest
      (by decide)
  obtain rfl : true = finished := Option.some.inj (hflag.symm.trans hfinished)
  have hended := (sweeps_in_time codec Settings.standard none 9223372036854775807 requests).ended 0
    hflag
  exact ⟨by cbv, hflag, hnow ▸ hswept, hended _⟩

/-- A task with an interval of sixty years has swept after thirty. -/
theorem swept_before_long_interval :
    let codec : Codec String := Codec.json .string
    let session : Session String := start Settings.standard none 0
    let requests : List (Request String) :=
      [⟨.spawnSweep 1892160000, none⟩, ⟨.elapse 946080000000, none⟩]
    let later := session.after codec requests
    (session.run codec requests).1.map Report.answer =
        [.log [.started 1892160000], .log [.swept 0]] ∧
      later.schedule.finished[0]? = some false ∧
      (later.schedule.now - session.schedule.now) / (1000 * 1892160000) = 0 ∧
      (TaskRun.ofPlace 0 (session.sweepRunsOf codec requests)).length = 1 := by
  intro codec session requests later
  have hflag : later.schedule.finished[0]? = some false := by cbv
  obtain ⟨finished, hfinished, hswept⟩ := sweptInTime codec
    (onTime_start Settings.standard none 0) 1892160000 (by decide) none
    [⟨.elapse 946080000000, none⟩]
  obtain rfl : false = finished := Option.some.inj (hflag.symm.trans hfinished)
  have hcount := congrArg List.length (hswept.instants rfl)
  rw [List.length_map, List.length_map, List.length_range] at hcount
  refine ⟨by cbv, hflag, by cbv, hcount.trans ?_⟩
  cbv

end Session

end ExpiringCache
