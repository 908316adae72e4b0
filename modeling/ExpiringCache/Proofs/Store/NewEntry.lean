import ExpiringCache.Proofs.Store.Lookup

/-!
# The holder that a put publishes

Without randomness every field of a newly published holder is known: it is complete, its value is
the one that was put, it was created and accessed at the reading of the clock, its idle limit is
what the policy decides in view of the holder that it replaces, and its absolute limit is that of
the store.
-/
namespace ExpiringCache

variable {α : Type}

namespace Holder

/-- A holder that was made at the reading of a clock and that nobody has changed. -/
def fresh (clock : Clock) (form : Form) (payload : Payload α) : Holder α where
  payload := some payload
  form := form
  created := clock.offsetNow
  accessed := clock.offsetNow
  maxIdle := 0
  maxCache := 0
  uses := 0
  isComplete := false

theorem new_eq (codec : Codec α) (mode : WriteMode) (clock : Clock) (value : α) :
    new codec mode clock value =
      (store codec mode value).map fun kept => fresh clock kept.1 kept.2 := by
  unfold new
  cases store codec mode value <;> rfl

/-- The idle limit that a decision of a policy leads to, with the old limit of the entry. -/
def decidedIdle (decision : IdleDecision) (previous : Option (Holder α)) : Int :=
  match decision, previous with
  | .seconds count, _ => max 0 count.toInt
  | .keep, some previous => max 0 previous.maxIdle.toInt
  | .keep, none => 0

theorem toInt_setIdle (seconds : Int32) (holder : Holder α) :
    (holder.setIdle seconds).maxIdle.toInt = max 0 seconds.toInt := by
  have hzero : (0 : Int32).toInt = 0 := rfl
  simp only [setIdle, Int32.lt_iff_toInt_lt, hzero]
  split <;> omega

theorem toInt_limitSeconds_toInt64 (n : Int32) :
    (Arithmetic.limitSeconds n.toInt64).toInt = max 0 n.toInt := by
  have hhigh := n.toInt_lt
  rw [Arithmetic.toInt_limitSeconds, Int32.toInt_toInt64]
  omega

end Holder

namespace Store

/-- The holder that a store without randomness publishes for a payload. -/
def newEntry (store : Store α) (previous : Option (Holder α)) (form : Form)
    (payload : Payload α) : Holder α :=
  store.assignLimits previous [] (Holder.fresh store.clock form payload)

theorem assignLimits_of_jitter_eq_zero {store : Store α} (h : store.jitter = 0)
    (previous : Option (Holder α)) (words : List UInt32) (fresh : Holder α) :
    store.assignLimits previous words fresh =
      let followed := fresh.followPolicy store.policy previous.isSome previous
      followed.complete followed.maxIdle.toInt64 store.maxCache := by
  simp [assignLimits, h]

theorem put_eq (codec : Codec α) {store : Store α} (h : store.jitter = 0) (key : String)
    (value : α) (words : List UInt32) :
    store.put codec key value words =
      match Holder.store codec store.mode value with
      | .error reason => (.error (.holder reason), store)
      | .ok (form, payload) =>
        let holder := store.newEntry ((store.find? key).map Prod.snd) form payload
        (.ok (), (store.publish key holder).record .put) := by
  unfold put
  rw [Holder.new_eq]
  cases Holder.store codec store.mode value with
  | error reason => rfl
  | ok kept => simp [newEntry, assignLimits_of_jitter_eq_zero h, Except.map]

/-- The parts of a new entry that do not depend on the policy. -/
theorem newEntry_eq {store : Store α} (h : store.jitter = 0) (previous : Option (Holder α))
    (form : Form) (payload : Payload α) :
    store.newEntry previous form payload =
      { Holder.fresh store.clock form payload with
        maxIdle := (store.newEntry previous form payload).maxIdle
        maxCache := Arithmetic.limitSeconds store.maxCache
        isComplete := true } := by
  rw [newEntry, assignLimits_of_jitter_eq_zero h]
  unfold Holder.followPolicy
  split <;> rfl

theorem toInt_maxIdle_newEntry {store : Store α} (h : store.jitter = 0)
    (previous : Option (Holder α)) (form : Form) (payload : Payload α) :
    (store.newEntry previous form payload).maxIdle.toInt =
      Holder.decidedIdle (store.policy.decision previous.isSome) previous := by
  rw [newEntry, assignLimits_of_jitter_eq_zero h]
  simp only [Holder.complete, Holder.toInt_limitSeconds_toInt64]
  unfold Holder.followPolicy Holder.decidedIdle
  cases store.policy.decision previous.isSome with
  | seconds count =>
    show max 0 (Holder.setIdle count _).maxIdle.toInt = max 0 count.toInt
    rw [Holder.toInt_setIdle]
    omega
  | keep => cases previous <;> rfl

end Store

end ExpiringCache
