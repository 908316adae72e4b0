import ExpiringCache.Proofs.Session.SweepAndReaders
import ExpiringCache.Proofs.Session.SweepTasks

/-!
# Expired entries go within one interval

As long as a sweep task goes on, one interval of it is enough to clear the store of its expired
entries, whatever other tasks there are. The first sweep takes them all out and counts those that
nobody had released; every further sweep of that time finds nothing to do.
-/
namespace ExpiringCache

variable {α : Type}

namespace Store

/-- The number of published holders that are expired and not released. -/
def countExpired (store : Store α) : Nat :=
  store.entries.entries.countP fun entry => store.isExpired entry.2 && store.isLive entry.2

/-- A store that has been cleared of what was expired in it, with the log of the sweeps. -/
structure Cleared (codec : Codec α) (store cleared : Store α) (answer : Answer α) : Prop where
  /-- No reader finds a key expired. -/
  fresh : ∀ key name, cleared.peek codec key ≠ .error (.expired name) ∧
    (cleared.get codec key).1 ≠ .error (.expired name)
  /-- A key that was found expired has left. -/
  left : ∀ key, store.peek codec key = .error (.expired key) → cleared.find? key = none
  /-- A key whose holder was valid has kept this holder as it was. -/
  kept : ∀ key handle holder, store.find? key = some (handle, holder) →
    holder.isInvalid store.clock = .ok false → cleared.find? key = some (handle, holder)
  /-- The first sweep counts the holders that were expired and not released, and later sweeps count
  none. -/
  log : ∃ later, answer = .log (.swept store.countExpired :: List.replicate later (.swept 0))
  /-- The expirations grow by the same number, and no other counter moves. -/
  counters : cleared.counters = { store.counters with
    expirations := store.counters.expirations + UInt64.ofNat store.countExpired }

variable {store : Store α}

theorem counts_sweep (sound : store.Sound) (checks : store.Checks) :
    store.sweep.1 = .ok store.countExpired := by
  rw [sweep_eq sound checks, expiredEntries, List.countP_map, KeyTable.filter, List.countP_filter]
  simp only [Function.comp_apply, Bool.and_comm, countExpired]

/-- A peek calls nothing expired but its own key. -/
theorem key_of_peek_eq_expired {codec : Codec α} {key name : String}
    (h : store.peek codec key = .error (.expired name)) : name = key := by
  cases hk : store.find? key with
  | none => simp [peek, hk] at h
  | some found =>
    rw [peek_of_find? codec hk] at h
    split at h
    next => cases h
    next => simpa using h.symm
    next =>
      split at h
      next => cases h
      next => simpa using h.symm
      next => cases h

/-- A sweep leaves nothing behind that a reader finds expired. -/
theorem peek_sweep_ne_expired (codec : Codec α) (sound : store.Sound) (checks : store.Checks)
    (key name : String) : store.sweep.2.peek codec key ≠ .error (.expired name) := by
  intro hexpired
  obtain rfl := key_of_peek_eq_expired hexpired
  obtain ⟨count, -, hagain⟩ := exactlySwept codec (store.moves_sweep.sound sound)
    (checks_sweep checks)
  obtain ⟨hthere, hgone⟩ := hagain.leaves name hexpired
  rw [sweep_sweep checks] at hgone
  simp [hgone] at hthere

theorem cleared_sweep (codec : Codec α) (sound : store.Sound) (checks : store.Checks)
    {answer : Answer α} {later : Nat}
    (hanswer : answer = .log (.swept store.countExpired :: List.replicate later (.swept 0))) :
    store.Cleared codec store.sweep.2 answer := by
  obtain ⟨count, hcount, hexact⟩ := exactlySwept codec sound checks
  have hcounts := hcount.symm.trans (counts_sweep sound checks)
  constructor
  case fresh =>
    intro key name
    rw [answer_get]
    exact ⟨peek_sweep_ne_expired codec sound checks key name,
      peek_sweep_ne_expired codec sound checks key name⟩
  case left =>
    intro key hexpired
    rw [find?, (hexact.leaves key hexpired).2]
  case kept =>
    intro key handle holder hk valid
    have hopen : store.isExpired handle = false := by
      simp [isExpired, (find?_eq_some_iff.mp hk).2, valid]
    rw [find?_sweep checks, hk]
    simp [Option.filter, hopen]
  case log => exact ⟨later, hanswer⟩
  case counters => rw [hexact.counters, Except.ok.inj hcounts]

end Store

namespace Session

/-- Once the first sweep has gone through, further ones write that they found nothing. -/
theorem iterate_sweepOnce {store : Store α} (swept : store.sweep = (.ok 0, store))
    (released : Array Nat) (count : Nat) :
    (SweepSchedule.attempt sweepOnce)^[count] ⟨store, released⟩ =
      ⟨store, released ++ Array.replicate count 0⟩ := by
  induction count generalizing released with
  | zero => simp
  | succ count ih =>
    have hstep : SweepSchedule.attempt sweepOnce ⟨store, released⟩ =
        ⟨store, released.push 0⟩ := by
      rw [SweepSchedule.attempt, sweepOnce_eq, swept]
      rfl
    rw [Function.iterate_succ_apply, hstep, ih]
    exact congrArg (Sweeping.mk store) (Array.toList_inj.mp (by simp [List.replicate_succ]))

/-- Whoever sweeps first clears the store, and a task that is there long enough makes sure that
somebody does. -/
theorem cleared_elapse (codec : Codec α) {session : Session α} (sound : session.store.Sound)
    (onTime : session.schedule.OnTime) (checks : session.store.Checks) {place : Nat}
    {task : SweepTask} (found : session.schedule.tasks[place]? = some task)
    (live : task.finished = false) {millis : Nat} (window : task.period ≤ millis) :
    session.store.Cleared codec (session.elapse millis).session.store
      (session.elapse millis).answer := by
  let runs := SweepSchedule.runsDuring sweepOnce millis session.schedule ⟨session.store, #[]⟩
  have hruns : runs ≠ [] := by
    intro hnone
    refine SweepSchedule.ofPlace_runsDuring_ne_nil sweepOnce onTime found live window
      ⟨session.store, #[]⟩ ?_
    exact congrArg (TaskRun.ofPlace place) hnone
  obtain ⟨later, hlater⟩ :=
    Nat.exists_eq_succ_of_ne_zero (mt List.length_eq_zero_iff.mp hruns)
  have hfirst : SweepSchedule.attempt sweepOnce ⟨session.store, #[]⟩ =
      ⟨session.store.sweep.2, #[session.store.countExpired]⟩ := by
    rw [SweepSchedule.attempt, sweepOnce_eq, Store.counts_sweep sound checks]
    rfl
  have hstate : (session.schedule.elapse sweepOnce millis ⟨session.store, #[]⟩).state =
      ⟨session.store.sweep.2, #[session.store.countExpired] ++ Array.replicate later 0⟩ := by
    rw [(SweepSchedule.chained_runsDuring sweepOnce onTime millis _).state]
    change _^[runs.length] _ = _
    rw [hlater, Function.iterate_succ_apply, hfirst,
      iterate_sweepOnce (Store.sweep_sweep checks)]
  have hstore : (session.elapse millis).session.store = session.store.sweep.2 := by
    rw [elapse, hstate]
  have hanswer : (session.elapse millis).answer =
      .log (.swept session.store.countExpired :: List.replicate later (.swept 0)) := by
    rw [elapse, hstate]
    simp
  rw [hstore]
  exact Store.cleared_sweep codec sound checks hanswer

/-- In every session that can be reached in which a sweep task goes on and no check of a published
holder overflows: once the interval of this task has elapsed, nothing is expired, what was valid is
as it was, and exactly the holders that were expired and not released have been counted, all by the
first sweep. -/
theorem cleared_within_interval (codec : Codec α) (settings : Settings)
    (policy : Option ExpiryPolicy) (base : Int64) (before rest : List (Request α))
    (seconds : UInt64) (watched : Option String) (millis : Nat) :
    let early := (start settings policy base).after codec before
    let session := early.after codec (⟨.spawnSweep seconds, watched⟩ :: rest)
    0 < seconds → session.schedule.finished[early.schedule.tasks.length]? = some false →
      session.store.Checks → 1000 * seconds.toNat ≤ millis →
        session.store.Cleared codec (session.elapse millis).session.store
          (session.elapse millis).answer := by
  intro early session positive live checks window
  have hearly := onTime_after codec (onTime_start settings policy base) before
  have hsound : session.store.Sound :=
    (moves_after codec (sound_after codec settings policy base before) _).sound
      (sound_after codec settings policy base before)
  obtain ⟨task, found, paced⟩ := exists_paced codec hearly seconds watched rest
  have hlive : task.finished = false := by
    rw [SweepSchedule.finished, List.getElem?_map, found] at live
    exact Option.some.inj live
  refine cleared_elapse codec hsound (onTime_after codec hearly _) checks found hlive ?_
  rw [paced.period, pause_of_pos positive]
  omega

/-- Two tasks sweep within two seconds: the first sweep meets an entry that was idle too long, a
valid one and one that another party has released, the second one meets the valid entry alone. -/
theorem cleared_within_interval_two_tasks :
    let codec : Codec String := Codec.json .string
    let settings : Settings := { Settings.standard with defaultIdle := 10 }
    let before : List (Request String) :=
      [⟨.put "old" "u" [], none⟩, ⟨.advanceSeconds 8, none⟩, ⟨.put "new" "v" [], none⟩,
        ⟨.put "shared" "w" [], none⟩, ⟨.onSlot "s" (.take "shared"), none⟩,
        ⟨.onSlot "s" (.onHolder .release), none⟩, ⟨.spawnSweep 3, none⟩, ⟨.elapse 1500, none⟩]
    let rest : List (Request String) := [⟨.elapse 700, none⟩, ⟨.advanceSeconds 3, none⟩]
    let early := (start settings none 0).after codec before
    let session := early.after codec (⟨.spawnSweep 2, none⟩ :: rest)
    session.schedule.finished[early.schedule.tasks.length]? = some false ∧
      session.store.Checks ∧
      (session.elapse 2000).answer = .log [.swept 1, .swept 0] ∧
      session.store.Cleared codec (session.elapse 2000).session.store
        (session.elapse 2000).answer := by
  intro codec settings before rest early session
  have live : session.schedule.finished[early.schedule.tasks.length]? = some false := by cbv
  have checks : session.store.Checks := Store.checks_iff.mpr (by cbv)
  exact ⟨live, checks, by cbv, cleared_within_interval codec settings none 0 before rest 2 none 2000
    (by decide) live checks (by decide)⟩

end Session

end ExpiringCache
