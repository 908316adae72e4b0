import ExpiringCache.Proofs.SweepSchedule.Simulation

/-!
# Time in slices

Time may elapse at once or in slices: the same tasks run at the same times. The finest slice is one
millisecond. On a schedule whose unfinished tasks are all due after the present and within their
period, one millisecond runs just the tasks that are due at its end, and leaves such a schedule.
-/
namespace ExpiringCache.SweepSchedule

variable {σ : Type} {run : σ → Option σ}

/-- Two slices of time one after the other: what is due in the first one is due in both together. -/
theorem runUntil_runUntil {early late : Nat} (le : early ≤ late) (tasks : List SweepTask)
    (state : σ) :
    runUntil run late (runUntil run early tasks state).tasks
        (runUntil run early tasks state).state = runUntil run late tasks state := by
  induction tasks, state using runUntil.induct run early with
  | case1 tasks state hnone => rw [runUntil_of_none hnone]
  | case2 tasks state instant he hle progress =>
    rename_i ih
    rw [runUntil_of_le he hle, runUntil_of_le he (Nat.le_trans hle le)]
    exact ih
  | case3 tasks state instant he hgt => rw [runUntil_of_lt he (by omega)]

/-- Two slices of time do what both do at once. -/
theorem elapse_elapse (first second : Nat) (schedule : SweepSchedule) (state : σ) :
    (schedule.elapse run first state).schedule.elapse run second
        (schedule.elapse run first state).state =
      schedule.elapse run (first + second) state := by
  simp only [elapse, Nat.add_assoc, runUntil_runUntil (Nat.add_le_add_left (Nat.le_add_right ..) _)]

/-- Every task that is not finished is due after the present, and within its period. -/
def OnTime (schedule : SweepSchedule) : Prop :=
  ∀ task ∈ schedule.tasks, task.finished = false →
    schedule.now < task.due ∧ task.due ≤ schedule.now + task.period

theorem onTime_empty : empty.OnTime := by
  intro task mem
  cases mem

theorem onTime_spawn {schedule : SweepSchedule} (h : schedule.OnTime) (seconds : Nat) :
    (schedule.spawn seconds).OnTime := by
  intro task mem live
  rcases List.mem_append.mp mem with mem | mem
  · exact h task mem live
  · rw [List.mem_singleton.mp mem]
    have := (SweepTask.start schedule.now seconds).period_pos
    simp only [SweepTask.start, spawn] at this ⊢
    omega

theorem onTime_stop (schedule : SweepSchedule) : schedule.stop.OnTime := by
  intro task mem live
  obtain ⟨former, -, rfl⟩ := List.mem_map.mp mem
  cases live

/-- A task after the runs of one time: it was not due, or it ran and goes on or is finished. -/
theorem mem_runAt {instant : Nat} {tasks : List SweepTask} {state : σ} {task : SweepTask}
    (mem : task ∈ (runAt run instant tasks state).tasks) :
    (task ∈ tasks ∧ task.isDue instant = false) ∨
      ∃ former ∈ tasks, former.isDue instant = true ∧
        (task = former.rearm ∨ task = former.finish) := by
  induction tasks generalizing state with
  | nil => cases mem
  | cons first rest ih =>
    have later : ∀ {state}, task ∈ (runAt run instant rest state).tasks →
        (task ∈ first :: rest ∧ task.isDue instant = false) ∨
          ∃ former ∈ first :: rest, former.isDue instant = true ∧
            (task = former.rearm ∨ task = former.finish) := by
      intro state mem
      rcases ih mem with ⟨mem, idle⟩ | ⟨former, mem, due, after⟩
      · exact .inl ⟨List.mem_cons_of_mem _ mem, idle⟩
      · exact .inr ⟨former, List.mem_cons_of_mem _ mem, due, after⟩
    simp only [runAt] at mem
    split at mem
    next due =>
      split at mem
      · rcases List.mem_cons.mp mem with after | mem
        · exact .inr ⟨first, List.mem_cons_self, due, .inl after⟩
        · exact later mem
      · rcases List.mem_cons.mp mem with after | mem
        · exact .inr ⟨first, List.mem_cons_self, due, .inr after⟩
        · exact later mem
    next idle =>
      rcases List.mem_cons.mp mem with rfl | mem
      · exact .inl ⟨List.mem_cons_self, by simpa using idle⟩
      · exact later mem

theorem runAt_of_not_due {instant : Nat} {tasks : List SweepTask}
    (h : ∀ task ∈ tasks, task.isDue instant = false) (state : σ) :
    runAt run instant tasks state = ⟨tasks, state⟩ := by
  induction tasks generalizing state with
  | nil => rfl
  | cons task tasks ih =>
    have rest := ih (fun task mem => h task (List.mem_cons_of_mem _ mem)) state
    simp [runAt, h task List.mem_cons_self, rest]

theorem runUntil_of_forall_lt {target : Nat} {tasks : List SweepTask}
    (h : ∀ task ∈ tasks, task.finished = false → target < task.due) (state : σ) :
    runUntil run target tasks state = ⟨tasks, state⟩ := by
  cases he : earliest? tasks with
  | none => exact runUntil_of_none he ..
  | some instant =>
    obtain ⟨task, mem, live, due⟩ := exists_of_earliest? he
    exact runUntil_of_lt he (due ▸ h task mem live) state

/-- One millisecond runs the tasks that are due at its end. -/
theorem elapse_one {schedule : SweepSchedule} (onTime : schedule.OnTime) (state : σ) :
    schedule.elapse run 1 state =
      ⟨⟨schedule.now + 1, (runAt run (schedule.now + 1) schedule.tasks state).tasks⟩,
        (runAt run (schedule.now + 1) schedule.tasks state).state⟩ := by
  have least : ∀ task ∈ schedule.tasks, task.finished = false → schedule.now + 1 ≤ task.due :=
    fun task mem live => (onTime task mem live).1
  have hruns : runUntil run (schedule.now + 1) schedule.tasks state =
      runAt run (schedule.now + 1) schedule.tasks state := by
    by_cases hdue : ∃ task ∈ schedule.tasks, task.isDue (schedule.now + 1) = true
    · obtain ⟨task, mem, due⟩ := hdue
      simp only [SweepTask.isDue, Bool.and_eq_true, Bool.not_eq_true', beq_iff_eq] at due
      cases he : earliest? schedule.tasks with
      | none => simp [finished_of_earliest?_eq_none he mem] at due
      | some instant =>
        have hle := earliest?_le he mem due.1
        obtain ⟨first, hfirst, live, rfl⟩ := exists_of_earliest? he
        have hinstant : first.due = schedule.now + 1 := by
          have := least first hfirst live
          omega
        rw [runUntil_of_le he (by omega), hinstant]
        exact runUntil_of_forall_lt (lt_due_of_mem_runAt run state least) _
    · have idle : ∀ task ∈ schedule.tasks, task.isDue (schedule.now + 1) = false := by
        simpa using hdue
      rw [runAt_of_not_due idle, runUntil_of_forall_lt]
      intro task mem live
      have := least task mem live
      have hidle := idle task mem
      simp only [SweepTask.isDue, live, Bool.not_false, Bool.true_and, beq_eq_false_iff_ne] at hidle
      omega
  simp only [elapse, hruns]

theorem onTime_elapse_one {schedule : SweepSchedule} (onTime : schedule.OnTime) (state : σ) :
    (schedule.elapse run 1 state).schedule.OnTime := by
  rw [elapse_one onTime]
  intro task mem live
  have hlt := lt_due_of_mem_runAt run state (fun task mem live => (onTime task mem live).1)
    task mem live
  refine ⟨hlt, ?_⟩
  rcases mem_runAt mem with ⟨mem, -⟩ | ⟨former, -, due, rfl | rfl⟩
  · have := (onTime task mem live).2
    dsimp only
    omega
  · simp only [SweepTask.isDue, Bool.and_eq_true, beq_iff_eq] at due
    simp only [SweepTask.rearm]
    omega
  · cases live

/-- A stretch of time starts with its first millisecond. -/
theorem elapse_succ (millis : Nat) (schedule : SweepSchedule) (state : σ) :
    schedule.elapse run (millis + 1) state =
      (schedule.elapse run 1 state).schedule.elapse run millis
        (schedule.elapse run 1 state).state := by
  rw [elapse_elapse, Nat.add_comm]

theorem elapse_zero {schedule : SweepSchedule} (onTime : schedule.OnTime) (state : σ) :
    schedule.elapse run 0 state = ⟨schedule, state⟩ := by
  simp only [elapse, Nat.add_zero,
    runUntil_of_forall_lt (fun task mem live => (onTime task mem live).1)]

theorem onTime_elapse {schedule : SweepSchedule} (onTime : schedule.OnTime) (millis : Nat)
    (state : σ) : (schedule.elapse run millis state).schedule.OnTime := by
  induction millis generalizing schedule state with
  | zero =>
    rw [elapse_zero onTime]
    exact onTime
  | succ millis ih =>
    rw [elapse_succ]
    exact ih (onTime_elapse_one onTime state) _

end ExpiringCache.SweepSchedule
