import ExpiringCache.Proofs.Store.FurtherSweeps
import ExpiringCache.Proofs.TimedMap.Simulation

/-!
# When sweeps run does not show

Two sessions take the same calls, and the second one is swept at further places. If the policy
gives creations and updates the same limit, nobody touches an entry, and the clock moves forward
within its span, then callers cannot tell the two apart, except that what one session calls expired
may not be found in the other.
-/
namespace ExpiringCache

variable {α : Type}

/-- Whether a call neither sets a limit by hand nor asks for the number of entries. -/
def Call.isPlain : Call α → Bool
  | .touch .. => false
  | .size => false
  | _ => true

/-- How the answer to a call on a store may differ from the answer on one that has been swept at
further places: what is expired may not be found, and a sweep may count less. -/
inductive Call.MayDiffer (codec : Codec α) (store : Store α) :
    Call α → Answer α → Answer α → Prop where
  | same (call : Call α) (answer : Answer α) : MayDiffer codec store call answer answer
  | get (key : String) :
      MayDiffer codec store (.get key) (.storeError (.expired key)) (.storeError (.notFound key))
  | peek (key : String) :
      MayDiffer codec store (.peek key) (.storeError (.expired key)) (.storeError (.notFound key))
  | remove (key : String) (expired : store.peek codec key = .error (.expired key)) :
      MayDiffer codec store (.remove key) .done (.storeError (.notFound key))
  | sweep {count fewer : Nat} (le : fewer ≤ count) :
      MayDiffer codec store .sweep (.count count) (.count fewer)

namespace Session

/-- The calls of a list of steps in which a step without a call is a further sweep. -/
def plainCalls (steps : List (Option (Call α))) : List (Call α) := steps.filterMap id

/-- The same calls with the further sweeps among them. -/
def sweptCalls (steps : List (Option (Call α))) : List (Call α) :=
  steps.map fun step => step.getD .sweep

/-- Whether the clock never goes back over a list of calls. -/
def MovesForward (codec : Codec α) (session : Session α) (calls : List (Call α)) : Prop :=
  ∀ count, count < calls.length →
    (session.after codec ((calls.take count).map Call.request)).store.clock.now ≤
      (session.after codec ((calls.take (count + 1)).map Call.request)).store.clock.now

instance (codec : Codec α) (session : Session α) (calls : List (Call α)) :
    Decidable (session.MovesForward codec calls) :=
  inferInstanceAs (Decidable (∀ count, count < calls.length →
    (session.after codec ((calls.take count).map Call.request)).store.clock.now ≤
      (session.after codec ((calls.take (count + 1)).map Call.request)).store.clock.now))

variable {first second : Session α}

theorem trails_moveClock (h : first.store.Trails second.store) {clock : Clock}
    (base : clock.base = first.store.clock.base) (covers : clock.Covers clock.now)
    (forward : first.store.clock.now ≤ clock.now) :
    (first.moveClock clock).session.store.Trails (second.moveClock clock).session.store :=
  h.moveTo base covers (Int64.le_iff_toInt_le.mp forward)

theorem sweep_of_count {store : Store α} {count : Nat} (h : store.sweep.1 = .ok count) :
    store.sweep = (.ok count, store.sweep.2) := Prod.ext h rfl

/-- One call on both sessions: the answers are the same or differ as they may, and the stores stay
related. -/
theorem trails_act (codec : Codec α) (h : first.store.Trails second.store) {call : Call α}
    (plain : call.isPlain = true)
    (covers : (first.act codec call.operation).session.store.clock.Covers
      (first.act codec call.operation).session.store.clock.now)
    (forward : first.store.clock.now ≤
      (first.act codec call.operation).session.store.clock.now) :
    call.MayDiffer codec first.store (first.act codec call.operation).answer
        (second.act codec call.operation).answer ∧
      (first.act codec call.operation).session.store.Trails
        (second.act codec call.operation).session.store := by
  cases call with
  | put key value words =>
    obtain ⟨hanswer, hnext⟩ := h.put codec key value words
    refine ⟨?_, hnext⟩
    simp only [Call.operation, act, hanswer]
    exact .same _ _
  | get key =>
    obtain ⟨hanswer, hnext⟩ := h.get codec key
    refine ⟨?_, hnext⟩
    simp only [Call.operation, act]
    rcases hanswer with hsame | ⟨hfirst, hsecond⟩
    · rw [hsame]
      exact .same _ _
    · rw [hfirst, hsecond]
      exact .get key
  | peek key =>
    refine ⟨?_, h⟩
    simp only [Call.operation, act, unchanged]
    rcases h.peek codec key with hsame | ⟨hfirst, hsecond⟩
    · rw [hsame]
      exact .same _ _
    · rw [hfirst, hsecond]
      exact .peek key
  | remove key =>
    obtain ⟨hanswer, hnext⟩ := h.remove codec key
    refine ⟨?_, hnext⟩
    simp only [Call.operation, act]
    rcases hanswer with hsame | ⟨hexpired, hfirst, hsecond⟩
    · rw [hsame]
      exact .same _ _
    · rw [hfirst, hsecond]
      exact .remove key hexpired
  | sweep =>
    obtain ⟨count, fewer, hfirst, hsecond, hle⟩ := h.count_sweep
    simp only [Call.operation, act]
    rw [sweep_of_count hfirst, sweep_of_count hsecond]
    exact ⟨.sweep hle, h.sweep⟩
  | now =>
    refine ⟨?_, h⟩
    simp only [Call.operation, act, unchanged, h.kept.clock]
    exact .same _ _
  | advanceMillis millis =>
    simp only [Call.operation, act, h.kept.clock]
    exact ⟨.same _ _, trails_moveClock h rfl covers forward⟩
  | advanceSeconds seconds =>
    simp only [Call.operation, act] at covers forward ⊢
    rw [h.kept.clock]
    cases hclock : first.store.clock.advanceSeconds seconds with
    | error overflow => exact ⟨.same _ _, h⟩
    | ok clock =>
      simp only [hclock] at covers forward
      exact ⟨.same _ _,
        trails_moveClock h (Clock.base_of_advanceSeconds hclock) covers forward⟩
  | setMillis millis =>
    simp only [Call.operation, act, h.kept.clock]
    exact ⟨.same _ _, trails_moveClock h rfl covers forward⟩
  | touch => cases plain
  | size => cases plain

theorem trails_sweep (codec : Codec α) (h : first.store.Trails second.store) :
    (∃ count, (second.act codec .sweep).answer = .count count) ∧
      first.store.Trails (second.act codec .sweep).session.store := by
  obtain ⟨_, fewer, -, hsecond, -⟩ := h.count_sweep
  simp only [act]
  rw [sweep_of_count hsecond]
  exact ⟨⟨fewer, rfl⟩, h.sweepFurther⟩

theorem trails_start {settings : Settings} {policy : Option ExpiryPolicy} {count : Int32}
    (uniform : policy.getD settings.policy = .modified count) (base : Int64) :
    (start settings policy base : Session α).store.Trails (start settings policy base).store where
  kept := .refl _
  covers := by
    show -2 ^ 31 ≤ base.toInt - base.toInt ∧ base.toInt - base.toInt < 2 ^ 31
    omega
  uniform := by
    refine ⟨count, fun update => ?_⟩
    show (policy.getD settings.policy).decision update = .seconds count
    rw [uniform]
    cases update <;> rfl
  size := rfl
  counters := ⟨rfl, rfl, rfl⟩
  sound := sound_start settings policy base
  soundFurther := sound_start settings policy base
  entries := fun _ => .none _

/-- What cannot be told apart when the next one of some steps is due: the reads that were counted,
and the answer to the next call, but for what may differ. A further sweep that is due goes
through. -/
structure Hidden (codec : Codec α) (first second : Session α) (rest : List (Option (Call α))) :
    Prop where
  counters : first.store.counters.SameReads second.store.counters
  call : ∀ call, rest.head? = some (some call) →
    call.MayDiffer codec first.store (first.act codec call.operation).answer
      (second.act codec call.operation).answer
  sweep : rest.head? = some none → ∃ count, (second.act codec .sweep).answer = .count count

theorem hidden_of_trails (codec : Codec α) (h : first.store.Trails second.store)
    {steps : List (Option (Call α))} (plain : ∀ call ∈ plainCalls steps, call.isPlain = true)
    (within : first.StaysInSpan codec (plainCalls steps))
    (forward : first.MovesForward codec (plainCalls steps))
    {done rest : List (Option (Call α))} (cut : steps = done ++ rest) :
    Hidden codec (first.after codec ((plainCalls done).map Call.request))
      (second.after codec ((sweptCalls done).map Call.request)) rest := by
  induction done generalizing first second steps with
  | nil =>
    obtain rfl : steps = rest := cut
    refine ⟨h.counters, ?_, fun _ => (trails_sweep codec h).1⟩
    intro call hnext
    obtain ⟨later, rfl⟩ := List.head?_eq_some_iff.mp hnext
    have hplain := plain call List.mem_cons_self
    have hcovers := within 1 (Nat.le_add_left ..)
    have hforward := forward 0 (Nat.zero_lt_succ _)
    exact (trails_act codec h hplain hcovers hforward).1
  | cons step done ih =>
    obtain rfl := cut
    cases step with
    | none =>
      refine ih (trails_sweep codec h).2 ?_ ?_ ?_ rfl
      · exact plain
      · exact within
      · exact forward
    | some call =>
      have hplain := plain call List.mem_cons_self
      have hcovers := within 1 (Nat.le_add_left ..)
      have hforward := forward 0 (Nat.zero_lt_succ _)
      have hnext := (trails_act codec h hplain hcovers hforward).2
      refine ih hnext ?_ ?_ ?_ rfl
      · exact fun later hlater => plain later (List.mem_cons_of_mem _ hlater)
      · exact fun count hcount => within (count + 1) (Nat.succ_le_succ hcount)
      · exact fun count hcount => forward (count + 1) (Nat.succ_lt_succ hcount)

/-- Over every list of calls that touch no entry, with a policy that gives creations and updates the
same limit, and a clock that moves forward within its span: further sweeps, wherever they are put,
change no answer to a put, no value and no error of storage that a reader gets, and no count of
hits, misses or puts. -/
theorem furtherSweeps_hidden (codec : Codec α) (settings : Settings)
    (policy : Option ExpiryPolicy) (base : Int64) {count : Int32}
    (uniform : policy.getD settings.policy = .modified count) (steps : List (Option (Call α)))
    (plain : ∀ call ∈ plainCalls steps, call.isPlain = true)
    (within : (start settings policy base).StaysInSpan codec (plainCalls steps))
    (forward : (start settings policy base).MovesForward codec (plainCalls steps))
    (done rest : List (Option (Call α))) (cut : steps = done ++ rest) :
    Hidden codec
      ((start settings policy base).after codec ((plainCalls done).map Call.request))
      ((start settings policy base).after codec ((sweptCalls done).map Call.request)) rest :=
  hidden_of_trails codec (trails_start uniform base) plain within forward cut

/-- A further sweep takes an expired entry out before it is read, removed and put again. -/
theorem furtherSweeps_hidden_between_reads :
    let codec : Codec String := Codec.json .string
    let steps : List (Option (Call String)) :=
      [some (.put "k" "u" []), some (.advanceSeconds 11), none, some (.get "k"),
        some (.put "k" "v" []), some (.get "k"), none]
    let first := (start Settings.standard (some (.modified 10)) 0).after codec
      ((plainCalls (steps.take 3)).map Call.request)
    let second := (start Settings.standard (some (.modified 10)) 0).after codec
      ((sweptCalls (steps.take 3)).map Call.request)
    (∀ call ∈ plainCalls steps, call.isPlain = true) ∧
      (start Settings.standard (some (.modified 10)) 0).StaysInSpan codec (plainCalls steps) ∧
      (start Settings.standard (some (.modified 10)) 0).MovesForward codec (plainCalls steps) ∧
      first.store.size = 1 ∧ second.store.size = 0 ∧
      Hidden codec first second (steps.drop 3) := by
  intro codec steps first second
  have plain : ∀ call ∈ plainCalls steps, call.isPlain = true := by decide +kernel
  have within : (start Settings.standard (some (.modified 10)) 0).StaysInSpan codec
      (plainCalls steps) := by decide +kernel
  have forward : (start Settings.standard (some (.modified 10)) 0).MovesForward codec
      (plainCalls steps) := by decide +kernel
  exact ⟨plain, within, forward, by decide +kernel, by decide +kernel,
    furtherSweeps_hidden codec Settings.standard (some (.modified 10)) 0 rfl steps plain within
      forward _ _ (List.take_append_drop 3 steps).symm⟩

end Session

end ExpiringCache
