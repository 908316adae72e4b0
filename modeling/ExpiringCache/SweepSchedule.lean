/-!
# Schedules of periodic tasks

Tasks that run again and again, each after its own period, on a time of their own in milliseconds.
Elapsing time runs every task that falls due, in the order of the due times and, at one time, in
the order in which the tasks were started. A task that breaks off, or is stopped, runs no more.
-/

namespace ExpiringCache

/-- A periodic task. -/
structure SweepTask where
  period : Nat
  period_pos : 0 < period
  /-- The time of the next run. -/
  due : Nat
  finished : Bool

namespace SweepTask

/-- The longest pause between two runs, in seconds: thirty years of 365 days. -/
def longestPause : Nat := 30 * 365 * 86400

/-- The milliseconds between two runs of a task with an interval in seconds. The pause is held to
the longest one, and a pause of no seconds to one millisecond, the grain of the time. -/
def pause (seconds : Nat) : Nat := max 1 (1000 * min seconds longestPause)

/-- A task that starts at `now` and first runs one pause later. -/
def start (now seconds : Nat) : SweepTask where
  period := pause seconds
  period_pos := Nat.le_max_left ..
  due := now + pause seconds
  finished := false

/-- The task after a run. -/
def rearm (task : SweepTask) : SweepTask := { task with due := task.due + task.period }

def finish (task : SweepTask) : SweepTask := { task with finished := true }

def isDue (instant : Nat) (task : SweepTask) : Bool := !task.finished && task.due == instant

end SweepTask

/-- A time and the tasks that were ever started, the first one first. -/
structure SweepSchedule where
  now : Nat
  tasks : List SweepTask

namespace SweepSchedule

variable {σ : Type}

/-- A schedule without tasks at time zero. -/
def empty : SweepSchedule := ⟨0, []⟩

/-- A schedule with one more task. -/
def spawn (schedule : SweepSchedule) (seconds : Nat) : SweepSchedule :=
  { schedule with tasks := schedule.tasks ++ [SweepTask.start schedule.now seconds] }

/-- A schedule on which every task is finished. -/
def stop (schedule : SweepSchedule) : SweepSchedule :=
  { schedule with tasks := schedule.tasks.map SweepTask.finish }

/-- For each task whether it is finished. -/
def finished (schedule : SweepSchedule) : List Bool := schedule.tasks.map SweepTask.finished

/-- Tasks and the state that they have worked on. -/
structure Progress (σ : Type) where
  tasks : List SweepTask
  state : σ

/-- Runs every task that is due at one time. A run that gives no state breaks its task off. -/
def runAt (run : σ → Option σ) (instant : Nat) : List SweepTask → σ → Progress σ
  | [], state => ⟨[], state⟩
  | task :: tasks, state =>
    if task.isDue instant then
      match run state with
      | some state =>
        let later := runAt run instant tasks state
        ⟨task.rearm :: later.tasks, later.state⟩
      | none =>
        let later := runAt run instant tasks state
        ⟨task.finish :: later.tasks, later.state⟩
    else
      let later := runAt run instant tasks state
      ⟨task :: later.tasks, later.state⟩

/-- The earliest time at which one of the tasks is due. -/
def earliest? : List SweepTask → Option Nat
  | [] => none
  | task :: tasks =>
    if task.finished then earliest? tasks
    else
      match earliest? tasks with
      | some instant => some (min task.due instant)
      | none => some task.due

theorem finished_of_earliest?_eq_none {tasks : List SweepTask} {task : SweepTask}
    (h : earliest? tasks = none) (mem : task ∈ tasks) : task.finished = true := by
  induction tasks with
  | nil => cases mem
  | cons first rest ih =>
    simp only [earliest?] at h
    split at h
    next done =>
      rcases List.mem_cons.mp mem with rfl | mem
      · exact done
      · exact ih h mem
    next => split at h <;> cases h

theorem earliest?_le {tasks : List SweepTask} {task : SweepTask} {instant : Nat}
    (h : earliest? tasks = some instant) (mem : task ∈ tasks) (live : task.finished = false) :
    instant ≤ task.due := by
  induction tasks generalizing instant with
  | nil => cases mem
  | cons first rest ih =>
    simp only [earliest?] at h
    split at h
    next done =>
      rcases List.mem_cons.mp mem with rfl | mem
      · simp [live] at done
      · exact ih h mem
    next =>
      split at h
      next later hl =>
        cases h
        rcases List.mem_cons.mp mem with rfl | mem
        · exact Nat.min_le_left ..
        · exact Nat.le_trans (Nat.min_le_right ..) (ih hl mem)
      next hl =>
        cases h
        rcases List.mem_cons.mp mem with rfl | mem
        · exact Nat.le_refl _
        · simp [finished_of_earliest?_eq_none hl mem] at live

theorem exists_of_earliest? {tasks : List SweepTask} {instant : Nat}
    (h : earliest? tasks = some instant) :
    ∃ task ∈ tasks, task.finished = false ∧ task.due = instant := by
  induction tasks generalizing instant with
  | nil => cases h
  | cons first rest ih =>
    simp only [earliest?] at h
    split at h
    next =>
      obtain ⟨task, mem, live, due⟩ := ih h
      exact ⟨task, List.mem_cons_of_mem _ mem, live, due⟩
    next live =>
      split at h
      next later hl =>
        cases h
        rcases Nat.le_total first.due later with le | le
        · exact ⟨first, List.mem_cons_self, by simpa using live, (Nat.min_eq_left le).symm⟩
        · obtain ⟨task, mem, live, due⟩ := ih hl
          exact ⟨task, List.mem_cons_of_mem _ mem, live, by rw [due, Nat.min_eq_right le]⟩
      next =>
        cases h
        exact ⟨first, List.mem_cons_self, by simpa using live, rfl⟩

/-- After the tasks of one time have run, every task that is left is due later. -/
theorem lt_due_of_mem_runAt (run : σ → Option σ) (state : σ) {instant : Nat}
    {tasks : List SweepTask} (h : ∀ task ∈ tasks, task.finished = false → instant ≤ task.due) :
    ∀ task ∈ (runAt run instant tasks state).tasks, task.finished = false →
      instant < task.due := by
  induction tasks generalizing state with
  | nil => intro task mem; cases mem
  | cons first rest ih =>
    have rest' := fun state => ih state fun task mem => h task (List.mem_cons_of_mem _ mem)
    intro task mem live
    simp only [runAt] at mem
    split at mem
    next due =>
      simp only [SweepTask.isDue, Bool.and_eq_true, beq_iff_eq] at due
      split at mem
      · rcases List.mem_cons.mp mem with rfl | mem
        · have := first.period_pos
          simp only [SweepTask.rearm]
          omega
        · exact rest' _ task mem live
      · rcases List.mem_cons.mp mem with rfl | mem
        · cases live
        · exact rest' _ task mem live
    next notDue =>
      rcases List.mem_cons.mp mem with rfl | mem
      · have le := h task List.mem_cons_self live
        simp only [SweepTask.isDue, live, Bool.not_false, Bool.true_and, beq_iff_eq] at notDue
        omega
      · exact rest' _ task mem live

/-- Runs every task that falls due until `target`, that time included. -/
def runUntil (run : σ → Option σ) (target : Nat) (tasks : List SweepTask) (state : σ) :
    Progress σ :=
  match _he : earliest? tasks with
  | none => ⟨tasks, state⟩
  | some instant =>
    if instant ≤ target then
      let progress := runAt run instant tasks state
      runUntil run target progress.tasks progress.state
    else ⟨tasks, state⟩
termination_by
  match earliest? tasks with
  | none => 0
  | some instant => target + 1 - instant
decreasing_by
  rw [_he]
  change _ < target + 1 - instant
  have later := lt_due_of_mem_runAt run state fun _ mem live => earliest?_le _he mem live
  split
  · omega
  next next hn =>
    obtain ⟨task, mem, live, due⟩ := exists_of_earliest? hn
    have less := later task mem live
    exact Nat.sub_lt_sub_left (Nat.lt_succ_of_le ‹_›) (due ▸ less)

/-- What a schedule and its state have become after some time. -/
structure Elapsed (σ : Type) where
  schedule : SweepSchedule
  state : σ

/-- Lets time pass and runs every task that falls due meanwhile. -/
def elapse (run : σ → Option σ) (millis : Nat) (schedule : SweepSchedule) (state : σ) :
    Elapsed σ :=
  let target := schedule.now + millis
  let progress := runUntil run target schedule.tasks state
  ⟨⟨target, progress.tasks⟩, progress.state⟩

end SweepSchedule

end ExpiringCache
