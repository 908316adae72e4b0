import Mathlib
import ExpiringCache.Proofs.Session.Marks
import ExpiringCache.Proofs.Store.Evolution

/-!
# What failed operations leave behind

An operation that fails has done nothing before the last step that could fail. There are three
traces of a failure, all of them meant: a recorded read that finds no valid entry counts a miss,
and a recorded read that finds a valid entry it cannot decode, by a key or in a slot, has recorded
the access. An overflow leaves no trace at all.
-/
namespace ExpiringCache

variable {α : Type}

def Operation.races : Operation α → Bool
  | .racingGet _ | .racingPeek _ => true
  | _ => false

/-- Whether an answer tells that a number has left its range. -/
def Answer.overflows : Answer α → Bool
  | .overflow _ | .storeError (.overflow _) | .statistics _ (.error _) => true
  | _ => false

namespace Store

variable {store : Store α} {key : String}

theorem get_of_missed {codec : Codec α} {reason : StoreError}
    (missed : reason = .notFound key ∨ reason = .expired key)
    (h : (store.get codec key).1 = .error reason) :
    (store.get codec key).2 = store.record .miss := by
  have hends := store.get_ends codec key
  generalize store.get codec key = result at h hends ⊢
  cases hends with
  | missing | expired => rfl
  | overflowed | unreadable =>
    obtain rfl := Except.error.inj h
    rcases missed with hmissed | hmissed <;> cases hmissed
  | read => cases h

theorem get_of_unreadable {codec : Codec α} {reason : HolderError}
    (h : (store.get codec key).1 = .error (.holder reason)) :
    ∃ handle holder, store.find? key = some (handle, holder) ∧
      (store.get codec key).2 = store.modify handle (Holder.access store.clock) := by
  have hends := store.get_ends codec key
  generalize store.get codec key = result at h hends ⊢
  cases hends with
  | unreadable found _ reason => exact ⟨_, _, found, rfl⟩
  | missing | expired | overflowed | read => cases h

theorem get_of_overflow {codec : Codec α} {reason : Overflow}
    (h : (store.get codec key).1 = .error (.overflow reason)) :
    (store.get codec key).2 = store := by
  have hends := store.get_ends codec key
  generalize store.get codec key = result at h hends ⊢
  cases hends with
  | overflowed => rfl
  | missing | expired | unreadable | read => cases h

theorem put_of_error {codec : Codec α} {value : α} {words : List UInt32} {reason : StoreError}
    (h : (store.put codec key value words).1 = .error reason) :
    (store.put codec key value words).2 = store := by
  unfold put at h ⊢
  split at h
  next => rfl
  next => cases h

theorem touch_of_error {seconds : Int32} {reason : StoreError}
    (h : (store.touch key seconds).1 = .error reason) : (store.touch key seconds).2 = store := by
  unfold touch at h ⊢
  split at h
  next => rfl
  next =>
    split at h
    next => rfl
    next => cases h

theorem remove_of_error {reason : StoreError} (h : (store.remove key).1 = .error reason) :
    (store.remove key).2 = store := by
  unfold remove at h ⊢
  split at h
  next => rfl
  next => cases h

theorem sweep_of_error {reason : Overflow} (h : store.sweep.1 = .error reason) :
    store.sweep.2 = store := by
  unfold sweep at h ⊢
  split at h
  next => rfl
  next => cases h

end Store

namespace Session

/-- A session in which one holder was accessed at the reading of the clock. -/
def withAccess (session : Session α) (handle : Handle) (holder : Holder α) : Session α :=
  { session with store := { session.store with
    pool := session.store.pool.setIfInBounds handle { holder with
      accessed := session.store.clock.offsetOf session.store.clock.now } } }

/-- What the operations of a session that fail leave behind. -/
structure FailsCleanly (codec : Codec α) (session : Session α) : Prop where
  /-- A put that fails changes nothing. -/
  put : ∀ key value words reason,
    (session.act codec (.put key value words)).answer = .storeError reason →
      (session.act codec (.put key value words)).session = session
  /-- A recorded read that finds no entry, or an expired one, counts a miss. -/
  missed : ∀ key reason, reason = .notFound key ∨ reason = .expired key →
    (session.act codec (.get key)).answer = .storeError reason →
      (session.act codec (.get key)).session = { session with store := { session.store with
        counters := { session.store.counters with
          misses := session.store.counters.misses + 1 } } }
  /-- A recorded read that cannot decode the value has recorded the access. -/
  unreadable : ∀ key reason,
    (session.act codec (.get key)).answer = .storeError (.holder reason) →
      ∃ handle holder, session.store.find? key = some (handle, holder) ∧
        (session.act codec (.get key)).session = session.withAccess handle holder
  /-- A read that is not recorded changes nothing, whether it fails or not. -/
  peek : ∀ key, (session.act codec (.peek key)).session = session
  peekSlot : ∀ slot, (session.act codec (.onSlot slot (.onHolder .peek))).session = session
  touch : ∀ key seconds reason,
    (session.act codec (.touch key seconds)).answer = .storeError reason →
      (session.act codec (.touch key seconds)).session = session
  remove : ∀ key reason, (session.act codec (.remove key)).answer = .storeError reason →
    (session.act codec (.remove key)).session = session
  /-- A holder that cannot be made leaves the slot, and whatever is in it, as it was. -/
  make : ∀ slot mode value reason,
    (session.act codec (.onSlot slot (.make mode value))).answer = .holderError reason →
      (session.act codec (.onSlot slot (.make mode value))).session = session
  makeComplete : ∀ slot mode value idle cache reason,
    (session.act codec (.onSlot slot (.makeComplete mode value idle cache))).answer =
      .holderError reason →
    (session.act codec (.onSlot slot (.makeComplete mode value idle cache))).session = session
  /-- A holder in a slot whose value cannot be decoded has its access recorded. -/
  unreadableSlot : ∀ slot reason,
    (session.act codec (.onSlot slot (.onHolder .get))).answer = .holderError reason →
      ∃ handle holder, session.slot? slot = some (handle, holder) ∧
        (session.act codec (.onSlot slot (.onHolder .get))).session =
          session.withAccess handle holder
  /-- An overflow leaves no trace. -/
  overflow : ∀ operation, operation.races = false →
    (session.act codec operation).answer.overflows = true →
      (session.act codec operation).session = session

variable {session : Session α}

theorem ofUnit_eq_storeError_iff {result : Except StoreError Unit} {reason : StoreError} :
    (ofUnit result : Answer α) = .storeError reason ↔ result = .error reason := by
  cases result <;> simp [ofUnit]

theorem ofValue_eq_storeError_iff {result : Except StoreError α} {reason : StoreError} :
    ofValue result = .storeError reason ↔ result = .error reason := by
  cases result <;> simp [ofValue]

theorem exists_of_overflows_ofUnit {result : Except StoreError Unit}
    (h : (ofUnit result : Answer α).overflows = true) : ∃ reason, result = .error reason := by
  cases result with
  | error reason => exact ⟨reason, rfl⟩
  | ok => cases h

theorem exists_of_overflows_ofValue {result : Except StoreError α}
    (h : (ofValue result).overflows = true) : ∃ reason, result = .error (.overflow reason) := by
  cases result with
  | error reason =>
    cases reason with
    | overflow reason => exact ⟨reason, rfl⟩
    | notFound | expired | holder => cases h
  | ok => cases h

theorem session_of_overflow_stepHolder {codec : Codec α} {handle : Handle} {holder : Holder α}
    {operation : HolderOperation}
    (h : (session.stepHolder codec handle holder operation).answer.overflows = true) :
    (session.stepHolder codec handle holder operation).session = session := by
  cases operation with
  | peek | isInvalid | isInvalidAt | describe | look => rfl
  | complete | setIdle | followPolicy | jitter | addUses | addUsesRacing | release => cases h
  | get =>
    simp only [stepHolder, ofRead] at h
    split at h <;> cases h
  | prolong seconds =>
    simp only [stepHolder] at h ⊢
    split at h
    next => cases h
    next => rfl
  | releaseRacing parties =>
    simp only [stepHolder] at h
    split at h <;> cases h

theorem session_of_overflow_stepSlot {codec : Codec α} {slot : String}
    {operation : SlotOperation α}
    (h : (session.stepSlot codec slot operation).answer.overflows = true) :
    (session.stepSlot codec slot operation).session = session := by
  cases operation with
  | take key =>
    simp only [stepSlot] at h
    split at h <;> cases h
  | make | makeComplete =>
    simp only [stepSlot, fillNew] at h
    split at h <;> cases h
  | onHolder operation =>
    simp only [stepSlot] at h ⊢
    split at h
    next => cases h
    next => exact session_of_overflow_stepHolder h

theorem session_of_overflow {codec : Codec α} {operation : Operation α}
    (alone : operation.races = false)
    (h : (session.act codec operation).answer.overflows = true) :
    (session.act codec operation).session = session := by
  cases operation with
  | racingGet | racingPeek => cases alone
  | advanceMillis | setMillis | spawnSweep | elapse | stopSweeps => cases h
  | now | peek | size | statistics | sweepsFinished => rfl
  | inspect key | cacheWithin key low high =>
    simp only [act]
    split <;> rfl
  | advanceSeconds seconds =>
    simp only [act] at h ⊢
    split at h
    next => cases h
    next => rfl
  | put key value words =>
    obtain ⟨reason, hreason⟩ := exists_of_overflows_ofUnit h
    exact congrArg session.withStore (Store.put_of_error hreason)
  | get key =>
    obtain ⟨reason, hreason⟩ := exists_of_overflows_ofValue h
    exact congrArg session.withStore (Store.get_of_overflow hreason)
  | touch key seconds =>
    obtain ⟨reason, hreason⟩ := exists_of_overflows_ofUnit h
    exact congrArg session.withStore (Store.touch_of_error hreason)
  | remove key =>
    obtain ⟨reason, hreason⟩ := exists_of_overflows_ofUnit h
    exact congrArg session.withStore (Store.remove_of_error hreason)
  | sweep =>
    simp only [act] at h ⊢
    split at h
    next => cases h
    next overflow store hsweep =>
      have hstore : store = session.store := by
        have hsame := Store.sweep_of_error (congrArg Prod.fst hsweep)
        rwa [hsweep] at hsame
      rw [hstore]
      rfl
  | onSlot slot operation => exact session_of_overflow_stepSlot h

theorem withStore_access {handle : Handle} {holder : Holder α}
    (found : session.store.pool[handle]? = some holder) :
    session.withStore (session.store.modify handle (Holder.access session.store.clock)) =
      session.withAccess handle holder := by
  rw [Store.modify_eq_set found]
  rfl

theorem session_of_holderError_fillNew {slot : String} {made : Except HolderError (Holder α)}
    {reason : HolderError} (h : (session.fillNew slot made).answer = .holderError reason) :
    (session.fillNew slot made).session = session := by
  cases made with
  | error reason => rfl
  | ok holder => cases h

theorem session_of_unreadable_slot {codec : Codec α} {slot : String} {reason : HolderError}
    (h : (session.stepSlot codec slot (.onHolder .get)).answer = .holderError reason) :
    ∃ handle holder, session.slot? slot = some (handle, holder) ∧
      (session.stepSlot codec slot (.onHolder .get)).session =
        session.withAccess handle holder := by
  simp only [stepSlot] at h ⊢
  cases hslot : session.slot? slot with
  | none => simp [hslot, unchanged] at h
  | some found =>
    obtain ⟨handle, holder⟩ := found
    have hfound := (slot?_eq_some_iff.mp hslot).2
    refine ⟨handle, holder, rfl, ?_⟩
    rw [← withStore_access hfound, ← Store.modify_const hfound]
    rfl

/-- In every session, an operation that fails, a racing read apart, leaves behind a counted miss, a
recorded access or nothing, and an overflow leaves nothing. -/
theorem failsCleanly (codec : Codec α) (session : Session α) : session.FailsCleanly codec := by
  constructor
  case put =>
    intro key value words reason h
    exact congrArg session.withStore (Store.put_of_error (ofUnit_eq_storeError_iff.mp h))
  case missed =>
    intro key reason missed h
    exact congrArg session.withStore
      (Store.get_of_missed missed (ofValue_eq_storeError_iff.mp h))
  case unreadable =>
    intro key reason h
    obtain ⟨handle, holder, hk, haccess⟩ :=
      Store.get_of_unreadable (ofValue_eq_storeError_iff.mp h)
    refine ⟨handle, holder, hk, ?_⟩
    rw [← withStore_access (Store.find?_eq_some_iff.mp hk).2]
    exact congrArg session.withStore haccess
  case peek => exact fun _ => rfl
  case peekSlot =>
    intro slot
    simp only [act, stepSlot]
    split <;> rfl
  case touch =>
    intro key seconds reason h
    exact congrArg session.withStore (Store.touch_of_error (ofUnit_eq_storeError_iff.mp h))
  case remove =>
    intro key reason h
    exact congrArg session.withStore (Store.remove_of_error (ofUnit_eq_storeError_iff.mp h))
  case make => exact fun _ _ _ _ h => session_of_holderError_fillNew h
  case makeComplete => exact fun _ _ _ _ _ _ h => session_of_holderError_fillNew h
  case unreadableSlot => exact fun _ _ h => session_of_unreadable_slot h
  case overflow => exact fun _ alone h => session_of_overflow alone h

/-- A put whose value has no bytes over an entry that is there, a read of bytes that cannot be
decoded, and a read of an entry whose timestamp lies past the end of the 64-bit word. -/
theorem failsCleanly_of_refusing_codecs :
    let settings : Settings := { Settings.standard with writeMode := .serialize }
    let mute : Codec String := (Codec.json .string).refusingEncode
    let blind : Codec String := (Codec.json .string).refusingDecode
    let written := (start settings none 0).after blind [⟨.put "k" "v" [], none⟩]
    let late := (start settings none 9223372036854775807).after blind
      [⟨.advanceMillis 1, none⟩, ⟨.put "k" "v" [], none⟩]
    (written.act mute (.put "k" "w" [])).answer =
        .storeError (.holder (.storage .notSerializable)) ∧
      (written.act mute (.put "k" "w" [])).session = written ∧
      (written.act blind (.get "k")).answer =
        .storeError (.holder (.storage .notSerializable)) ∧
      (∃ handle holder, written.store.find? "k" = some (handle, holder) ∧
        (written.act blind (.get "k")).session = written.withAccess handle holder) ∧
      (late.act blind (.get "k")).answer.overflows = true ∧
      (late.act blind (.get "k")).session = late := by
  intro settings mute blind written late
  have refused : (written.act mute (.put "k" "w" [])).answer =
      .storeError (.holder (.storage .notSerializable)) := by cbv
  have unread : (written.act blind (.get "k")).answer =
      .storeError (.holder (.storage .notSerializable)) := by cbv
  have overflows : (late.act blind (.get "k")).answer.overflows = true := by decide +kernel
  exact ⟨refused, (failsCleanly mute written).put "k" "w" [] _ refused, unread,
    (failsCleanly blind written).unreadable "k" _ unread, overflows,
    (failsCleanly blind late).overflow (.get "k") rfl overflows⟩

end Session

end ExpiringCache
