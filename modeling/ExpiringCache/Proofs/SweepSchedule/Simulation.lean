import ExpiringCache.SweepSchedule

/-!
# Schedules on related states

When a task runs is decided by the tasks alone, except that a run without a state ends its task.
Two runs that break off together on related states, and else lead to related states, therefore
leave the same tasks and related states behind, however much time elapses.
-/
namespace ExpiringCache

/-- Two optional values that are related are both missing or both there. -/
theorem cases_of_rel {α β : Type} {R : α → β → Prop} {a : Option α} {b : Option β}
    (h : Option.Rel R a b) :
    (a = none ∧ b = none) ∨ ∃ x y, a = some x ∧ b = some y ∧ R x y := by
  cases h with
  | some hxy => exact .inr ⟨_, _, rfl, rfl, hxy⟩
  | none => exact .inl ⟨rfl, rfl⟩

namespace SweepSchedule

variable {σ τ : Type} {R : σ → τ → Prop} {run : σ → Option σ} {run' : τ → Option τ}

/-- Progress of two runs that kept their states related. -/
structure Progress.Alike (R : σ → τ → Prop) (first : Progress σ) (second : Progress τ) :
    Prop where
  tasks : first.tasks = second.tasks
  state : R first.state second.state

theorem runAt_related (h : ∀ s t, R s t → Option.Rel R (run s) (run' t))
    (instant : Nat) (tasks : List SweepTask) {s : σ} {t : τ} (hst : R s t) :
    (runAt run instant tasks s).Alike R (runAt run' instant tasks t) := by
  induction tasks generalizing s t with
  | nil => exact ⟨rfl, hst⟩
  | cons task tasks ih =>
    simp only [runAt]
    by_cases hdue : task.isDue instant
    · simp only [hdue, if_true]
      rcases cases_of_rel (h s t hst) with ⟨hs, ht⟩ | ⟨s', t', hs, ht, hnext⟩
      · have hlater := ih hst
        rw [hs, ht]
        exact ⟨by simp [hlater.tasks], hlater.state⟩
      · have hlater := ih hnext
        rw [hs, ht]
        exact ⟨by simp [hlater.tasks], hlater.state⟩
    · simp only [hdue]
      have hlater := ih hst
      exact ⟨by simp [hlater.tasks], hlater.state⟩

theorem runUntil_of_none {tasks : List SweepTask} (h : earliest? tasks = none) (target : Nat)
    (s : σ) : runUntil run target tasks s = ⟨tasks, s⟩ := by
  unfold runUntil
  split
  next => rfl
  next instant he => simp [h] at he

theorem runUntil_of_lt {tasks : List SweepTask} {instant target : Nat}
    (h : earliest? tasks = some instant) (hlt : target < instant) (s : σ) :
    runUntil run target tasks s = ⟨tasks, s⟩ := by
  unfold runUntil
  split
  next => rfl
  next other he =>
    obtain rfl : instant = other := by simpa [h] using he
    rw [if_neg (by omega)]

theorem runUntil_of_le {tasks : List SweepTask} {instant target : Nat}
    (h : earliest? tasks = some instant) (hle : instant ≤ target) (s : σ) :
    runUntil run target tasks s =
      runUntil run target (runAt run instant tasks s).tasks (runAt run instant tasks s).state := by
  rw [runUntil]
  split
  next he => simp [h] at he
  next other he =>
    obtain rfl : instant = other := by simpa [h] using he
    rw [if_pos hle]

theorem runUntil_related (h : ∀ s t, R s t → Option.Rel R (run s) (run' t))
    (target : Nat) (tasks : List SweepTask) {s : σ} {t : τ} (hst : R s t) :
    (runUntil run target tasks s).Alike R (runUntil run' target tasks t) := by
  induction tasks, s using runUntil.induct run target generalizing t with
  | case1 tasks s hnone =>
    rw [runUntil_of_none hnone, runUntil_of_none hnone]
    exact ⟨rfl, hst⟩
  | case2 tasks s instant he hle progress =>
    rename_i ih
    have hnow := runAt_related h instant tasks hst
    rw [runUntil_of_le he hle, runUntil_of_le he hle, ← hnow.tasks]
    exact ih hnow.state
  | case3 tasks s instant he hgt =>
    rw [runUntil_of_lt he (by omega), runUntil_of_lt he (by omega)]
    exact ⟨rfl, hst⟩

/-- Elapsing time leaves the same schedule and related states. -/
theorem elapse_related (h : ∀ s t, R s t → Option.Rel R (run s) (run' t))
    (millis : Nat) (schedule : SweepSchedule) {s : σ} {t : τ} (hst : R s t) :
    (schedule.elapse run millis s).schedule = (schedule.elapse run' millis t).schedule ∧
      R (schedule.elapse run millis s).state (schedule.elapse run' millis t).state := by
  have hprogress := runUntil_related h (schedule.now + millis) schedule.tasks hst
  exact ⟨by simp [elapse, hprogress.tasks], hprogress.state⟩

end SweepSchedule

end ExpiringCache
