import ExpiringCache.Proofs.Session.SweepAndReaders

/-!
# Recorded reads and reads without a trace

Two reads of one key in one state find the same: a value, no entry, an expired entry, bytes that do
not decode, or an instant that does not fit its word. The one read changes nothing. The other one,
if it gives a value, changes one holder in two fields and one counter.
-/
namespace ExpiringCache

variable {α : Type}

namespace Store

/-- What there is to be found under a key at the reading of the clock, told as an answer. -/
inductive Finds (codec : Codec α) (store : Store α) (key : String) : Answer α → Prop where
  | missing (absent : store.entries.get? key = none) :
      Finds codec store key (.storeError (.notFound key))
  | overflowed {handle : Handle} {holder : Holder α}
      (found : store.find? key = some (handle, holder)) {reason : Overflow}
      (check : holder.isInvalid store.clock = .error reason) :
      Finds codec store key (.storeError (.overflow reason))
  | expired {handle : Handle} {holder : Holder α}
      (found : store.find? key = some (handle, holder))
      (check : holder.isInvalid store.clock = .ok true) :
      Finds codec store key (.storeError (.expired key))
  /-- A valid entry whose bytes the codec refuses. -/
  | unreadable {handle : Handle} {holder : Holder α}
      (found : store.find? key = some (handle, holder))
      (check : holder.isInvalid store.clock = .ok false) {bytes : List UInt8}
      (payload : holder.payload = some (.written bytes)) {source : CodecError}
      (refused : codec.decode bytes = .error source) :
      Finds codec store key (.storeError (.holder (.storage source)))
  | live {handle : Handle} {holder : Holder α}
      (found : store.find? key = some (handle, holder))
      (check : holder.isInvalid store.clock = .ok false) {value : α}
      (payload : holder.payload = some (.live value)) :
      Finds codec store key (.value value)
  | decoded {handle : Handle} {holder : Holder α}
      (found : store.find? key = some (handle, holder))
      (check : holder.isInvalid store.clock = .ok false) {bytes : List UInt8}
      (payload : holder.payload = some (.written bytes)) {value : α}
      (reads : codec.decode bytes = .ok value) :
      Finds codec store key (.value value)

/-- How the store after a recorded read that gave a value stands to the one before. -/
structure RecordsRead (store : Store α) (key : String) (after : Store α) : Prop where
  /-- One holder is changed, in the time of its last access and in its uses. -/
  holder : ∃ handle holder, store.find? key = some (handle, holder) ∧
    after.pool[handle]? = some { holder with
      accessed := store.clock.offsetOf store.clock.now
      uses := holder.uses + 1 } ∧
    ∀ other, other ≠ handle → after.pool[other]? = store.pool[other]?
  /-- Under every other key the same holder is found, and it is as it was. -/
  others : ∀ name, name ≠ key → after.find? name = store.find? name
  entries : after.entries = store.entries
  counters : after.counters = { store.counters with hits := store.counters.hits + 1 }
  kept : store.Kept after

/-- A read that leaves no trace answers with what there is to be found. -/
theorem finds_peek (codec : Codec α) {store : Store α} (sound : store.Sound) (key : String) :
    store.Finds codec key (Session.ofValue (store.peek codec key)) := by
  cases hk : store.find? key with
  | none =>
    rw [show store.peek codec key = .error (.notFound key) by simp only [peek, hk]]
    exact .missing ((find?_eq_none_iff sound).mp hk)
  | some entry =>
    obtain ⟨handle, holder⟩ := entry
    rw [peek_of_find? codec hk]
    cases hcheck : holder.isInvalid store.clock with
    | error reason => exact .overflowed hk hcheck
    | ok invalid =>
      cases invalid with
      | true => exact .expired hk hcheck
      | false =>
        have hlive := (Holder.of_isInvalid_eq_ok_false hcheck).2.1
        unfold Holder.peek
        cases hpayload : holder.payload with
        | none => simp [Holder.isReleased, hpayload] at hlive
        | some payload =>
          cases payload with
          | live value => exact .live hk hcheck hpayload
          | written bytes =>
            cases hdecode : codec.decode bytes with
            | error source => simpa only [hdecode] using .unreadable hk hcheck hpayload hdecode
            | ok value => simpa only [hdecode] using .decoded hk hcheck hpayload hdecode

/-- A recorded read that gives a value records it and does nothing else. -/
theorem recordsRead_get {codec : Codec α} {store : Store α} (sound : store.Sound) {key : String}
    {value : α} (h : (store.get codec key).1 = .ok value) :
    store.RecordsRead key (store.get codec key).2 := by
  obtain ⟨handle, holder, hk, -, -, hafter⟩ := exists_of_get_eq_ok h
  obtain ⟨hget, hpool⟩ := find?_eq_some_iff.mp hk
  rw [hafter, modify_modify]
  constructor
  case holder =>
    refine ⟨handle, holder, hk, ?_, fun other hne => ?_⟩
    · rw [pool_record, pool_modify, if_pos rfl, hpool]
      rfl
    · rw [pool_record, pool_modify, if_neg (Ne.symm hne)]
  case others =>
    intro name hne
    exact find?_modify_of_ne sound hget hne _
  case entries => rfl
  case counters => rfl
  case kept => exact ⟨rfl, rfl, rfl, rfl, rfl⟩

end Store

namespace Session

/-- How the two reads of a key stand to each other in a session. -/
structure ReadsAlike (codec : Codec α) (session : Session α) (key : String) : Prop where
  answer : (session.act codec (.get key)).answer = (session.act codec (.peek key)).answer
  finds : session.store.Finds codec key (session.act codec (.peek key)).answer
  peek : (session.act codec (.peek key)).session = session
  get : ∀ value, (session.act codec (.get key)).answer = .value value →
    ∃ after, (session.act codec (.get key)).session = session.withStore after ∧
      session.store.RecordsRead key after

theorem answer_get_eq_value_iff {codec : Codec α} {session : Session α} {key : String} {value : α} :
    (session.act codec (.get key)).answer = .value value ↔
      (session.store.get codec key).1 = .ok value := by
  change ofValue (session.store.get codec key).1 = .value value ↔ _
  cases (session.store.get codec key).1 <;> simp [ofValue]

/-- In every session that can be reached and for every key: a recorded read and one that leaves no
trace find the same, the latter changes nothing, and the former, if it gives a value, records the
access, the use and the hit and changes nothing else. -/
theorem reads_alike (codec : Codec α) (settings : Settings) (policy : Option ExpiryPolicy)
    (base : Int64) (requests : List (Request α)) (key : String) :
    ((start settings policy base).after codec requests).ReadsAlike codec key := by
  have sound := sound_after codec settings policy base requests
  generalize (start settings policy base).after codec requests = session at sound ⊢
  constructor
  case answer => exact congrArg ofValue (session.store.answer_get codec key)
  case finds => exact Store.finds_peek codec sound key
  case peek => rfl
  case get =>
    intro value hvalue
    exact ⟨_, rfl, Store.recordsRead_get sound (answer_get_eq_value_iff.mp hvalue)⟩

/-- Past the span of its clock, a value that is kept as bytes: the timestamps lag behind by less
than the idle limit, so that both reads give the value, and the recorded one notes the wrapped
offset. -/
theorem reads_alike_past_span :
    let codec : Codec String := Codec.json .string
    let settings := { Settings.standard with defaultIdle := 5000000, writeMode := .serialize }
    let session := (start settings none 0).after codec
      [⟨.setMillis 2147483648, none⟩, ⟨.put "k" "v" [], none⟩]
    (session.act codec (.get "k")).answer = .value "v" ∧
      (session.act codec (.peek "k")).answer = .value "v" ∧
      session.store.clock.offsetOf session.store.clock.now = -2147483648 ∧
      ∃ after, (session.act codec (.get "k")).session = session.withStore after ∧
        session.store.RecordsRead "k" after := by
  intro codec settings session
  have hread : (session.store.get codec "k").1.toOption = some "v" := by decide +kernel
  have hget : (session.act codec (.get "k")).answer = .value "v" := by
    rw [answer_get_eq_value_iff]
    cases hresult : (session.store.get codec "k").1 with
    | error reason =>
      rw [hresult] at hread
      cases hread
    | ok value =>
      rw [hresult] at hread
      exact congrArg Except.ok (Option.some.inj hread)
  have alike := reads_alike codec settings none 0
    [⟨.setMillis 2147483648, none⟩, ⟨.put "k" "v" [], none⟩] "k"
  exact ⟨hget, alike.answer.symm.trans hget, by decide +kernel, alike.get "v" hget⟩

end Session

end ExpiringCache
