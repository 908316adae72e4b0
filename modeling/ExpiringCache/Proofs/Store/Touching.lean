import ExpiringCache.Proofs.Holder.ExactLimits
import ExpiringCache.Proofs.Store.Lookup
import ExpiringCache.Store.Put

/-!
# Touching

A touch for a positive number of seconds sets the idle limit of an entry to its age in whole seconds
plus these seconds, whatever the limit was. The idle deadline, which is counted from the last
access, therefore moves later if the new limit is the longer one, and earlier if it is the shorter
one; the absolute limit and everything else stay. An entry that was valid at some instant is still
valid at it exactly if the new deadline has not passed.
-/
namespace ExpiringCache

variable {α : Type}

namespace Holder

/-- A holder that is complete and keeps its value, and that was created and last accessed at two
instants of the span of a clock, in this order and not after its reading. -/
structure IsPresent (clock : Clock) (created accessed : Int64) (holder : Holder α) : Prop where
  complete : holder.isComplete = true
  live : holder.isReleased = false
  created_eq : holder.created = clock.offsetOf created
  accessed_eq : holder.accessed = clock.offsetOf accessed
  coversCreated : clock.Covers created
  coversAccessed : clock.Covers accessed
  coversNow : clock.Covers clock.now
  order : created ≤ accessed
  past : accessed ≤ clock.now

/-- The idle limit that a touch leads to: the age in whole seconds plus the seconds asked for, and
at most the largest limit. -/
def touchedLimit (now created seconds : Int) : Int :=
  min 2147483647 ((now - created) / 1000 + seconds)

/-- Whether a holder that was created at one instant is still within its absolute limit at another
one; a limit of `0` is none. -/
def WithinCache (created instant : Int64) (holder : Holder α) : Prop :=
  0 < holder.maxCache.toInt → instant.toInt - created.toInt ≤ 1000 * holder.maxCache.toInt

variable {clock : Clock} {created accessed : Int64} {holder : Holder α}

theorem IsPresent.isInvalidAt (h : holder.IsPresent clock created accessed) (instant : Int64) :
    holder.isInvalidAt clock instant = .ok (decide (Passed holder.maxCache.toInt
      holder.maxIdle.toInt created.toInt accessed.toInt instant.toInt)) := by
  have hcreated : clock.instantOf holder.created = .ok created := by
    rw [h.created_eq, Clock.instantOf_offsetOf h.coversCreated]
  have haccessed : clock.instantOf holder.accessed = .ok accessed := by
    rw [h.accessed_eq, Clock.instantOf_offsetOf h.coversAccessed]
  rw [isInvalidAt_eq_limitPassed h.complete h.live,
    limitPassed_eq (fun _ => hcreated) fun _ => haccessed]

theorem IsPresent.setMaxIdle (h : holder.IsPresent clock created accessed) (idle : Int32) :
    IsPresent clock created accessed { holder with maxIdle := idle } :=
  { h with }

/-- A holder that is present can be touched, and only its idle limit changes. -/
theorem IsPresent.prolong (h : holder.IsPresent clock created accessed) {seconds : Int32}
    (positive : 0 < seconds) :
    ∃ idle : Int32, holder.prolong clock seconds = .ok { holder with maxIdle := idle } ∧
      idle.toInt = touchedLimit clock.now.toInt created.toInt seconds.toInt := by
  have hcreated : clock.instantOf holder.created = .ok created := by
    rw [h.created_eq, Clock.instantOf_offsetOf h.coversCreated]
  have hpositive : 0 < seconds.toInt := (int32_pos_iff seconds).mp positive
  have hne : ¬ seconds = 0 := by
    rw [int32_eq_zero_iff]
    omega
  have hage : created.toInt ≤ clock.now.toInt := by
    have horder := Int64.le_iff_toInt_le.mp h.order
    have hpast := Int64.le_iff_toInt_le.mp h.past
    omega
  refine ⟨_, ?_, (toInt_prolongedLimit clock.now created hpositive).trans ?_⟩
  · rw [Holder.prolong, if_neg hne, if_pos positive, hcreated]
  · rw [touchedLimit, Int.max_eq_right (by omega)]

/-- What a touch makes of a holder. -/
structure TouchedTo (clock : Clock) (created accessed : Int64) (seconds : Int32)
    (holder touched : Holder α) : Prop where
  /-- Only the idle limit changes, to the age plus the seconds asked for. -/
  same : touched = { holder with maxIdle := touched.maxIdle }
  limit : touched.maxIdle.toInt = touchedLimit clock.now.toInt created.toInt seconds.toInt
  /-- Where the holder was valid, it is still valid up to the new deadline, and no longer. -/
  until_deadline : ∀ instant : Int64, holder.isInvalidAt clock instant = .ok false →
    touched.isInvalidAt clock instant =
      .ok (decide (accessed.toInt + 1000 * touched.maxIdle.toInt < instant.toInt))
  /-- A limit that is not shorter than before only prolongs. -/
  prolongs : holder.maxIdle.toInt ≤ touched.maxIdle.toInt → ∀ instant : Int64,
    holder.isInvalidAt clock instant = .ok false → touched.isInvalidAt clock instant = .ok false

/-- A limit that a touch leads to is positive. -/
theorem IsPresent.touchedLimit_pos (h : holder.IsPresent clock created accessed)
    {seconds : Int32} (positive : 0 < seconds) :
    0 < touchedLimit clock.now.toInt created.toInt seconds.toInt := by
  have hseconds : 0 < seconds.toInt := (int32_pos_iff seconds).mp positive
  have horder := Int64.le_iff_toInt_le.mp h.order
  have hpast := Int64.le_iff_toInt_le.mp h.past
  rw [touchedLimit]
  omega

/-- Up to its absolute limit a touched holder is valid exactly until the new idle deadline, whatever
its idle limit was. -/
theorem IsPresent.isInvalidAt_touched (h : holder.IsPresent clock created accessed)
    {seconds idle : Int32} (positive : 0 < seconds)
    (limit : idle.toInt = touchedLimit clock.now.toInt created.toInt seconds.toInt)
    {instant : Int64} (within : holder.WithinCache created instant) :
    Holder.isInvalidAt clock instant { holder with maxIdle := idle } =
      .ok (decide (accessed.toInt + 1000 * idle.toInt < instant.toInt)) := by
  have hpositive := h.touchedLimit_pos positive
  rw [← limit] at hpositive
  rw [(h.setMaxIdle idle).isInvalidAt, Except.ok.injEq, decide_eq_decide, Passed]
  dsimp only
  rw [WithinCache] at within
  omega

/-- A holder is valid at no instant past its absolute limit. -/
theorem IsPresent.withinCache (h : holder.IsPresent clock created accessed) {instant : Int64}
    (valid : holder.isInvalidAt clock instant = .ok false) :
    holder.WithinCache created instant := by
  rw [h.isInvalidAt, Except.ok.injEq, decide_eq_false_iff_not, Passed] at valid
  rw [WithinCache]
  omega

theorem IsPresent.touchedTo (h : holder.IsPresent clock created accessed) {seconds idle : Int32}
    (positive : 0 < seconds)
    (limit : idle.toInt = touchedLimit clock.now.toInt created.toInt seconds.toInt) :
    TouchedTo clock created accessed seconds holder { holder with maxIdle := idle } := by
  refine ⟨rfl, limit, fun instant valid => h.isInvalidAt_touched positive limit
    (h.withinCache valid), ?_⟩
  intro longer instant valid
  rw [h.isInvalidAt_touched positive limit (h.withinCache valid), Except.ok.injEq,
    decide_eq_false_iff_not]
  rw [h.isInvalidAt, Except.ok.injEq, decide_eq_false_iff_not, Passed] at valid
  have hle : holder.maxIdle.toInt ≤ idle.toInt := longer
  omega

/-- A touch of a holder that is present succeeds, by itself and through any store that has the
holder under a key. It sets the idle limit to the age plus the seconds asked for, so that the holder
stays valid up to the new deadline wherever it was valid, and everywhere if its limit is not
shortened. -/
theorem touch_moves_deadline {clock : Clock} {created accessed : Int64} {holder : Holder α}
    {seconds : Int32} (present : holder.IsPresent clock created accessed)
    (positive : 0 < seconds) :
    ∃ touched, holder.prolong clock seconds = .ok touched ∧
      TouchedTo clock created accessed seconds holder touched ∧
      ∀ (store : Store α) (key : String) (handle : Handle), store.clock = clock →
        store.find? key = some (handle, holder) →
          (store.touch key seconds).1 = .ok () ∧
            (store.touch key seconds).2.find? key = some (handle, touched) := by
  obtain ⟨idle, hprolong, hlimit⟩ := present.prolong positive
  refine ⟨_, hprolong, present.touchedTo positive hlimit, ?_⟩
  intro store key handle hclock hfind
  subst hclock
  simp only [Store.touch, hfind, hprolong]
  exact ⟨trivial, Store.find?_modify_self hfind _⟩

/-- An entry that is eight seconds old and was read after five is touched for twenty more. -/
theorem touch_moves_deadline_of_read_entry :
    let clock : Clock := ⟨0, 8000⟩
    let holder : Holder String :=
      { payload := some (.live "v"), form := .plain, created := 0, accessed := 5000,
        maxIdle := 10, maxCache := 0, uses := 1, isComplete := true }
    holder.IsPresent clock 0 5000 ∧ holder.isInvalidAt clock 15000 = .ok false ∧
      ∃ touched, holder.prolong clock 20 = .ok touched ∧ touched.maxIdle.toInt = 28 ∧
        touched.isInvalidAt clock 15000 = .ok false := by
  intro clock holder
  have present : holder.IsPresent clock 0 5000 :=
    ⟨rfl, rfl, by decide, by decide, by decide, by decide, by decide, by decide, by decide⟩
  have valid : holder.isInvalidAt clock 15000 = .ok false :=
    (present.isInvalidAt 15000).trans (congrArg Except.ok (by decide))
  have positive : (0 : Int32) < 20 := by decide
  obtain ⟨touched, hprolong, htouched, -⟩ := touch_moves_deadline present positive
  have hlimit : touched.maxIdle.toInt = 28 := htouched.limit.trans (by decide)
  have hlonger : holder.maxIdle.toInt ≤ touched.maxIdle.toInt := by
    rw [hlimit]
    decide
  exact ⟨present, valid, touched, hprolong, hlimit, htouched.prolongs hlonger 15000 valid⟩

end Holder

namespace Store

/-- An entry with an idle limit of five minutes is touched for one second as soon as it is put. Two
seconds later it has expired, at an instant at which it was valid before the touch. -/
theorem expired_earlier_by_touch :
    let codec : Codec String := Codec.json .string
    let store : Store String :=
      ((Store.empty Settings.standard ⟨0, 0⟩).put codec "k" "v" []).2
    let holder : Holder String :=
      { payload := some (.live "v"), form := .plain, created := 0, accessed := 0,
        maxIdle := 300, maxCache := 0, uses := 0, isComplete := true }
    let touched : Holder String := { holder with maxIdle := 1 }
    store.find? "k" = some (0, holder) ∧ holder.IsPresent store.clock 0 0 ∧
      holder.isInvalidAt store.clock 2000 = .ok false ∧
      (store.touch "k" 1).1 = .ok () ∧ (store.touch "k" 1).2.find? "k" = some (0, touched) ∧
      touched.isInvalidAt store.clock 2000 = .ok true := by
  intro codec store holder touched
  have present : holder.IsPresent store.clock 0 0 :=
    ⟨rfl, rfl, by decide, by decide, by decide, by decide, by decide, by decide, by decide⟩
  have found : store.find? "k" = some (0, holder) := rfl
  have valid : holder.isInvalidAt store.clock 2000 = .ok false :=
    (present.isInvalidAt 2000).trans (congrArg Except.ok (by decide))
  have expired : touched.isInvalidAt store.clock 2000 = .ok true :=
    ((present.setMaxIdle 1).isInvalidAt 2000).trans (congrArg Except.ok (by decide))
  have positive : (0 : Int32) < 1 := by decide
  obtain ⟨idle, hprolong, hlimit⟩ := present.prolong positive
  obtain rfl : idle = 1 := Int32.toInt_inj.mp (hlimit.trans (by decide))
  have htouch : store.touch "k" 1 = (.ok (), store.modify 0 fun _ => touched) := by
    simp only [touch, found, hprolong]
    rfl
  rw [htouch]
  exact ⟨found, present, valid, rfl, find?_modify_self found _, expired⟩

end Store

end ExpiringCache
