import ExpiringCache.Proofs.Holder.Shift
import ExpiringCache.Store.Read
import ExpiringCache.Store.Sweep

/-!
# Stores on other dates

A store is moved to another date with its clock; nothing else in it is a date. On a moderate clock
every operation of the store gives the same answer on every date, and leaves the same store but for
the date.
-/
namespace ExpiringCache.Store

variable {α : Type}

def shift (delta : Int64) (store : Store α) : Store α :=
  { store with clock := store.clock.shift delta }

variable {delta : Int64} {store : Store α}

@[simp] theorem clock_shift (delta : Int64) (store : Store α) :
    (store.shift delta).clock = store.clock.shift delta := rfl

@[simp] theorem pool_shift (delta : Int64) (store : Store α) :
    (store.shift delta).pool = store.pool := rfl

@[simp] theorem entries_shift (delta : Int64) (store : Store α) :
    (store.shift delta).entries = store.entries := rfl

@[simp] theorem find?_shift (delta : Int64) (store : Store α) (key : String) :
    (store.shift delta).find? key = store.find? key := rfl

@[simp] theorem modify_shift (delta : Int64) (store : Store α) (handle : Handle)
    (change : Holder α → Holder α) :
    (store.shift delta).modify handle change = (store.modify handle change).shift delta := rfl

@[simp] theorem record_shift (delta : Int64) (store : Store α) (event : Event) :
    (store.shift delta).record event = (store.record event).shift delta := rfl

@[simp] theorem discard_shift (delta : Int64) (store : Store α) (key : String) (handle : Handle) :
    (store.shift delta).discard key handle =
      ⟨(store.discard key handle).won, (store.discard key handle).store.shift delta⟩ := rfl

@[simp] theorem publish_shift (delta : Int64) (store : Store α) (key : String)
    (holder : Holder α) :
    (store.shift delta).publish key holder = (store.publish key holder).shift delta := by
  simp only [publish, entries_shift]
  split <;> rfl

@[simp] theorem peekHolder_shift (codec : Codec α) (delta : Int64) (store : Store α)
    (key : String) (handle : Handle) :
    (store.shift delta).peekHolder codec key handle = store.peekHolder codec key handle := rfl

/-- A put is the same on every date, also beyond the span of narrow timestamps. -/
theorem put_shift (codec : Codec α) (delta : Int64) (store : Store α) (key : String) (value : α)
    (words : List UInt32) :
    (store.shift delta).put codec key value words =
      ((store.put codec key value words).1, (store.put codec key value words).2.shift delta) := by
  have hnew : Holder.new codec (store.shift delta).mode (store.shift delta).clock value =
      Holder.new codec store.mode store.clock value :=
    Holder.new_shift codec store.mode delta _ value
  simp only [put, hnew, find?_shift]
  cases Holder.new codec store.mode store.clock value with
  | error reason => rfl
  | ok fresh =>
    exact congrArg (Prod.mk _) (congrArg (record · .put) (publish_shift delta store key _))

theorem getHolder_shift (codec : Codec α) (delta : Int64) (store : Store α) (key : String)
    (handle : Handle) :
    (store.shift delta).getHolder codec key handle =
      ((store.getHolder codec key handle).1,
        (store.getHolder codec key handle).2.shift delta) := by
  have haccess : (Holder.access (store.clock.shift delta) : Holder α → Holder α) =
      Holder.access store.clock := funext (Holder.access_shift delta store.clock)
  simp only [getHolder, clock_shift, haccess, modify_shift, peekHolder_shift, record_shift]
  cases (store.modify handle (Holder.access store.clock)).peekHolder codec key handle with
  | ok value => rfl
  | error reason => cases reason <;> rfl

theorem get_shift (codec : Codec α) (h : store.clock.Shiftable delta) (key : String) :
    (store.shift delta).get codec key =
      ((store.get codec key).1, (store.get codec key).2.shift delta) := by
  simp only [get, find?_shift]
  split
  · rfl
  · simp only [clock_shift, Holder.isInvalid_shift h]
    split
    · rfl
    · rfl
    · exact getHolder_shift codec delta store key _

theorem peek_shift (codec : Codec α) (h : store.clock.Shiftable delta) (key : String) :
    (store.shift delta).peek codec key = store.peek codec key := by
  simp only [peek, find?_shift]
  split
  · rfl
  · simp only [clock_shift, Holder.isInvalid_shift h]
    split <;> rfl

theorem interfere_shift (delta : Int64) (store : Store α) (handle : Handle) (holder : Holder α) :
    (store.shift delta).interfere handle holder = (store.interfere handle holder).shift delta := by
  unfold interfere
  split <;> rfl

theorem racingGet_shift (codec : Codec α) (h : store.clock.Shiftable delta) (key : String) :
    (store.shift delta).racingGet codec key =
      ((store.racingGet codec key).1, (store.racingGet codec key).2.shift delta) := by
  simp only [racingGet, find?_shift]
  split
  · rfl
  · simp only [clock_shift, Holder.isInvalid_shift h, interfere_shift]
    split
    · rfl
    · rfl
    · exact getHolder_shift codec delta _ key _

theorem racingPeek_shift (codec : Codec α) (h : store.clock.Shiftable delta) (key : String) :
    (store.shift delta).racingPeek codec key =
      ((store.racingPeek codec key).1, (store.racingPeek codec key).2.shift delta) := by
  simp only [racingPeek, find?_shift]
  split
  · rfl
  · simp only [clock_shift, Holder.isInvalid_shift h, interfere_shift]
    split <;> rfl

theorem touch_shift (h : store.clock.Shiftable delta) (key : String) (seconds : Int32) :
    (store.shift delta).touch key seconds =
      ((store.touch key seconds).1, (store.touch key seconds).2.shift delta) := by
  simp only [touch, find?_shift]
  split
  · rfl
  · simp only [clock_shift, Holder.prolong_shift h]
    split <;> rfl

theorem remove_shift (delta : Int64) (store : Store α) (key : String) :
    (store.shift delta).remove key =
      ((store.remove key).1, (store.remove key).2.shift delta) := by
  simp only [remove, find?_shift]
  cases store.find? key with
  | none => rfl
  | some found =>
    simp only [discard_shift, record_shift]
    exact congrArg (Prod.mk _) (apply_ite (Store.shift delta) _ _ _).symm

theorem expiredAmong_shift (h : store.clock.Shiftable delta) (entries : List (String × Handle)) :
    (store.shift delta).expiredAmong entries = store.expiredAmong entries := by
  induction entries with
  | nil => rfl
  | cons entry entries ih =>
    simp only [expiredAmong, pool_shift, clock_shift, Holder.isInvalid_shift h, ih]

theorem discardAll_shift (delta : Int64) (found : List (String × Handle)) (store : Store α) :
    discardAll found (store.shift delta) =
      ⟨(discardAll found store).released, (discardAll found store).store.shift delta⟩ := by
  induction found generalizing store with
  | nil => rfl
  | cons entry found ih =>
    simp only [discardAll, discard_shift, record_shift, ih]
    split <;> rfl

theorem sweep_shift (h : store.clock.Shiftable delta) :
    (store.shift delta).sweep = (store.sweep.1, store.sweep.2.shift delta) := by
  simp only [sweep, entries_shift, expiredAmong_shift h]
  split
  · rfl
  · simp only [discardAll_shift]

end ExpiringCache.Store
