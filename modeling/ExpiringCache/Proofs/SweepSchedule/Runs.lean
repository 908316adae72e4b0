import ExpiringCache.Proofs.SweepSchedule.Slices
import Mathlib.Data.List.Iterate

/-!
# The runs of a schedule

While time elapses the tasks of a schedule run one after the other, on a state that each run hands
to the next one. The runs are listed here millisecond by millisecond, each with the task that made
it. A task that has not broken off and was not stopped runs exactly once in each of its periods, and
a finished task runs no more.
-/
namespace ExpiringCache

variable {σ : Type} {run : σ → Option σ}

/-- One run of a task. -/
structure TaskRun (σ : Type) where
  /-- The place of the task among all that were started. -/
  place : Nat
  instant : Nat
  /-- The state that the run found. -/
  found : σ

namespace TaskRun

/-- Whether a run breaks its task off. -/
def breaksOff (run : σ → Option σ) (taskRun : TaskRun σ) : Bool := (run taskRun.found).isNone

def ofPlace (place : Nat) (runs : List (TaskRun σ)) : List (TaskRun σ) :=
  runs.filter fun taskRun => taskRun.place == place

theorem ofPlace_append (place : Nat) (first second : List (TaskRun σ)) :
    ofPlace place (first ++ second) = ofPlace place first ++ ofPlace place second :=
  List.filter_append first second

end TaskRun

namespace SweepSchedule

/-- The state after a run. A run that breaks off leaves it as it is. -/
def attempt (run : σ → Option σ) (state : σ) : σ := (run state).getD state

/-- The runs of one time, by tasks of which the first one has a given place. -/
def runsAt (run : σ → Option σ) (instant place : Nat) : List SweepTask → σ → List (TaskRun σ)
  | [], _ => []
  | task :: tasks, state =>
    if task.isDue instant then
      ⟨place, instant, state⟩ :: runsAt run instant (place + 1) tasks (attempt run state)
    else runsAt run instant (place + 1) tasks state

/-- The runs while time elapses. -/
def runsDuring (run : σ → Option σ) : Nat → SweepSchedule → σ → List (TaskRun σ)
  | 0, _, _ => []
  | millis + 1, schedule, state =>
    let next := schedule.elapse run 1 state
    runsAt run (schedule.now + 1) 0 schedule.tasks state ++
      runsDuring run millis next.schedule next.state

/-- Runs that start on a state, hand it on and end on another one. -/
structure Chained (run : σ → Option σ) (runs : List (TaskRun σ)) (before after : σ) : Prop where
  found : runs.map TaskRun.found = List.iterate (attempt run) before runs.length
  state : after = (attempt run)^[runs.length] before

theorem Chained.cons {place instant : Nat} {runs : List (TaskRun σ)} {before after : σ}
    (h : Chained run runs (attempt run before) after) :
    Chained run (⟨place, instant, before⟩ :: runs) before after := by
  constructor
  · rw [List.map_cons, h.found]
    rfl
  · rw [h.state]
    rfl

theorem Chained.append {first second : List (TaskRun σ)} {before between after : σ}
    (h : Chained run first before between) (h' : Chained run second between after) :
    Chained run (first ++ second) before after := by
  constructor
  · rw [List.map_append, List.length_append, List.iterate_add, h.found, h'.found, h.state]
  · rw [List.length_append, Nat.add_comm, Function.iterate_add_apply, ← h.state, h'.state]

theorem chained_runsAt (run : σ → Option σ) (instant place : Nat) (tasks : List SweepTask)
    (state : σ) :
    Chained run (runsAt run instant place tasks state) state
      (runAt run instant tasks state).state := by
  induction tasks generalizing place state with
  | nil => exact ⟨rfl, rfl⟩
  | cons task tasks ih =>
    simp only [runsAt, runAt]
    by_cases due : task.isDue instant = true
    · rw [if_pos due, if_pos due]
      refine Chained.cons ?_
      cases hrun : run state with
      | none => simpa [attempt, hrun] using ih (place + 1) state
      | some next => simpa [attempt, hrun] using ih (place + 1) next
    · rw [if_neg due, if_neg due]
      exact ih (place + 1) state

/-- The runs hand the state on that they find, from the first one to the last one. -/
theorem chained_runsDuring (run : σ → Option σ) {schedule : SweepSchedule}
    (onTime : schedule.OnTime) (millis : Nat) (state : σ) :
    Chained run (runsDuring run millis schedule state) state
      (schedule.elapse run millis state).state := by
  induction millis generalizing schedule state with
  | zero =>
    rw [elapse_zero onTime]
    exact ⟨rfl, rfl⟩
  | succ millis ih =>
    rw [elapse_succ]
    refine Chained.append ?_ (ih (onTime_elapse_one onTime state) _)
    rw [elapse_one onTime]
    exact chained_runsAt run ..

theorem le_place_of_mem_runsAt {instant place : Nat} {tasks : List SweepTask} {state : σ}
    {taskRun : TaskRun σ} (mem : taskRun ∈ runsAt run instant place tasks state) :
    place ≤ taskRun.place := by
  induction tasks generalizing place state with
  | nil => cases mem
  | cons task tasks ih =>
    simp only [runsAt] at mem
    split at mem
    · rcases List.mem_cons.mp mem with rfl | mem
      · exact Nat.le_refl _
      · exact Nat.le_of_succ_le (ih mem)
    · exact Nat.le_of_succ_le (ih mem)

theorem ofPlace_runsAt_of_lt (run : σ → Option σ) (instant : Nat) {place later : Nat}
    (lt : place < later) (tasks : List SweepTask) (state : σ) :
    TaskRun.ofPlace place (runsAt run instant later tasks state) = [] := by
  refine List.filter_eq_nil_iff.mpr fun taskRun mem => ?_
  have := le_place_of_mem_runsAt mem
  simp only [beq_iff_eq]
  omega

/-- What one time does to a task: it is not due and stays as it is, or it runs once. -/
inductive Ticks (run : σ → Option σ) (instant place : Nat) (task : SweepTask) :
    List (TaskRun σ) → SweepTask → Prop where
  | rests (idle : task.isDue instant = false) : Ticks run instant place task [] task
  | runs (found : σ) (due : task.isDue instant = true) :
    Ticks run instant place task [⟨place, instant, found⟩]
      (if (run found).isSome then task.rearm else task.finish)

theorem ticks_runsAt (run : σ → Option σ) (instant place : Nat) {index : Nat}
    {tasks : List SweepTask} {task : SweepTask} (h : tasks[index]? = some task) (state : σ) :
    ∃ later, (runAt run instant tasks state).tasks[index]? = some later ∧
      Ticks run instant (place + index) task
        (TaskRun.ofPlace (place + index) (runsAt run instant place tasks state)) later := by
  induction tasks generalizing place index state with
  | nil => simp at h
  | cons first rest ih =>
    simp only [runsAt, runAt]
    cases index with
    | zero =>
      obtain rfl : first = task := by simpa using h
      by_cases due : first.isDue instant = true
      · have hruns : TaskRun.ofPlace place (⟨place, instant, state⟩ ::
            runsAt run instant (place + 1) rest (attempt run state)) =
            [⟨place, instant, state⟩] := by
          have hlater := ofPlace_runsAt_of_lt run instant (Nat.lt_succ_self place) rest
            (attempt run state)
          rw [TaskRun.ofPlace] at hlater ⊢
          rw [List.filter_cons_of_pos (by simp), hlater]
        rw [if_pos due, if_pos due, Nat.add_zero, hruns]
        refine ⟨_, ?_, .runs state due⟩
        cases hrun : run state <;> rfl
      · rw [if_neg due, if_neg due, Nat.add_zero,
          ofPlace_runsAt_of_lt run instant (Nat.lt_succ_self place)]
        exact ⟨first, rfl, .rests (by simpa using due)⟩
    | succ index =>
      have hrest : rest[index]? = some task := by simpa using h
      by_cases due : first.isDue instant = true
      · have hskip : TaskRun.ofPlace (place + (index + 1)) (⟨place, instant, state⟩ ::
            runsAt run instant (place + 1) rest (attempt run state)) =
            TaskRun.ofPlace (place + (index + 1))
              (runsAt run instant (place + 1) rest (attempt run state)) :=
          List.filter_cons_of_neg (by simp)
        rw [if_pos due, if_pos due, hskip, ← Nat.add_assoc, Nat.add_right_comm]
        cases hrun : run state with
        | none => simpa [attempt, hrun] using ih (place + 1) hrest state
        | some next => simpa [attempt, hrun] using ih (place + 1) hrest next
      · rw [if_neg due, if_neg due, ← Nat.add_assoc, Nat.add_right_comm]
        exact ih (place + 1) hrest state

/-- What is so for a task and the list of its runs stays so while time elapses, if one time keeps it
so. -/
theorem ofPlace_runsDuring {run : σ → Option σ} {P : List (TaskRun σ) → SweepTask → Prop}
    {place : Nat}
    (tick : ∀ instant before task runs later, P before task →
      Ticks run instant place task runs later → P (before ++ runs) later)
    {schedule : SweepSchedule} (onTime : schedule.OnTime) {task : SweepTask}
    (found : schedule.tasks[place]? = some task) (before : List (TaskRun σ))
    (start : P before task) (millis : Nat) (state : σ) :
    ∃ later, (schedule.elapse run millis state).schedule.tasks[place]? = some later ∧
      P (before ++ TaskRun.ofPlace place (runsDuring run millis schedule state)) later := by
  induction millis generalizing schedule task before state with
  | zero =>
    rw [elapse_zero onTime]
    exact ⟨task, found, by simpa [runsDuring, TaskRun.ofPlace] using start⟩
  | succ millis ih =>
    obtain ⟨next, hnext, hticks⟩ := ticks_runsAt run (schedule.now + 1) 0 found state
    rw [Nat.zero_add] at hticks
    have hfound : (schedule.elapse run 1 state).schedule.tasks[place]? = some next := by
      rw [elapse_one onTime]
      exact hnext
    rw [elapse_succ, runsDuring, TaskRun.ofPlace_append, ← List.append_assoc]
    exact ih (onTime_elapse_one onTime state) hfound _ (tick _ _ _ _ _ start hticks) _

/-- A task that goes on runs within its period. -/
theorem ofPlace_runsDuring_ne_nil (run : σ → Option σ) {schedule : SweepSchedule}
    (onTime : schedule.OnTime) {place : Nat} {task : SweepTask}
    (found : schedule.tasks[place]? = some task) (live : task.finished = false)
    {millis : Nat} (window : task.period ≤ millis) (state : σ) :
    TaskRun.ofPlace place (runsDuring run millis schedule state) ≠ [] := by
  intro hnone
  have hrests : ∀ instant before former runs later, (before = [] → former = task) →
      Ticks run instant place former runs later → before ++ runs = [] → later = task := by
    intro instant before former runs later hsame hticks hnil
    obtain ⟨hbefore, hruns⟩ := List.append_eq_nil_iff.mp hnil
    cases hticks with
    | rests => exact hsame hbefore
    | runs => cases hruns
  obtain ⟨later, hlater, hsame⟩ := ofPlace_runsDuring hrests onTime found [] (fun _ => rfl)
    millis state
  obtain rfl := hsame hnone
  have hbefore := onTime later (List.mem_of_getElem? found) live
  have hafter := onTime_elapse onTime millis state later (List.mem_of_getElem? hlater) live
  have hnow : (schedule.elapse run millis state).schedule.now = schedule.now + millis := rfl
  omega

end SweepSchedule

namespace SweepTask

/-- A task that was started at some time, with all its runs up to now: one at the end of each
period, until the task was stopped or broke off. -/
structure Paced (run : σ → Option σ) (began every : Nat) (stopped : Bool)
    (runs : List (TaskRun σ)) (task : SweepTask) : Prop where
  period : task.period = every
  instants : runs.map TaskRun.instant =
    (List.range runs.length).map fun round => began + (round + 1) * every
  /-- As long as the task goes on, its next run is one period after its last one. -/
  due : task.finished = false → task.due = began + (runs.length + 1) * every
  /-- The task goes on unless it was stopped or a run broke it off. -/
  finished : task.finished = (stopped || runs.any (TaskRun.breaksOff run))
  /-- A run that broke the task off is its last one. -/
  goesOn : runs.dropLast.any (TaskRun.breaksOff run) = false

variable {began every : Nat} {stopped : Bool} {runs : List (TaskRun σ)} {task : SweepTask}

theorem paced_start (run : σ → Option σ) (now seconds : Nat) :
    Paced run now (pause seconds) false [] (SweepTask.start now seconds) :=
  ⟨rfl, rfl, fun _ => by simp [SweepTask.start], rfl, rfl⟩

theorem Paced.stop (h : task.Paced run began every stopped runs) :
    task.finish.Paced run began every true runs :=
  ⟨h.period, h.instants, nofun, rfl, h.goesOn⟩

theorem Paced.tick {instant place : Nat} {later : SweepTask} {more : List (TaskRun σ)}
    (h : task.Paced run began every stopped runs)
    (ticks : SweepSchedule.Ticks run instant place task more later) :
    later.Paced run began every stopped (runs ++ more) := by
  cases ticks with
  | rests => simpa using h
  | runs found due =>
    simp only [isDue, Bool.and_eq_true, Bool.not_eq_true', beq_iff_eq] at due
    obtain ⟨live, rfl⟩ := due
    have hgoes := h.finished
    rw [live, eq_comm, Bool.or_eq_false_iff] at hgoes
    constructor
    case period => split <;> exact h.period
    case instants =>
      rw [List.map_append, h.instants, List.length_append, List.length_singleton,
        List.range_succ, List.map_append, h.due live]
      rfl
    case due =>
      split
      next =>
        intro _
        simp only [rearm, h.due live, h.period, List.length_append, List.length_singleton,
          Nat.add_mul]
        omega
      next =>
        intro live
        cases live
    case finished =>
      rw [List.any_append, hgoes.1, hgoes.2]
      cases hrun : run found with
      | none => simp [TaskRun.breaksOff, hrun, finish]
      | some next => simp [TaskRun.breaksOff, hrun, rearm, live]
    case goesOn => simpa using hgoes.2

/-- A task that goes on has run once for each whole period since its start. -/
theorem Paced.length_eq (h : task.Paced run began every stopped runs) (live : task.finished = false)
    {now : Nat} (lt : now < task.due) (le : task.due ≤ now + task.period) :
    runs.length = (now - began) / every := by
  have hdue := h.due live
  have hperiod := h.period
  rw [hdue] at lt le
  rw [hperiod, Nat.add_mul, Nat.one_mul, ← Nat.add_assoc] at le
  have hlow : began + runs.length * every ≤ now := Nat.le_of_add_le_add_right le
  refine (Nat.div_eq_of_lt_le ?_ ?_).symm
  · omega
  · omega

end SweepTask

end ExpiringCache
