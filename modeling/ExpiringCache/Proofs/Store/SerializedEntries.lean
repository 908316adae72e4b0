import ExpiringCache.Proofs.Holder.Dated
import ExpiringCache.Proofs.Json.FloatReading
import ExpiringCache.Proofs.Json.RoundTrip
import ExpiringCache.Proofs.Store.Freshness

/-!
# Reading an entry that is kept as bytes

A store that keeps values as bytes writes a value when it is put and reads the bytes when it is got.
At the reading of the clock at which an entry was made it is valid, so that a read gives what the
codec makes of its own bytes: the value itself for texts, lists and user sessions, a number for a
finite floating-point number, and a storage error for an infinity or a word that is no number.
-/
namespace ExpiringCache

variable {α : Type}

namespace Codec

open Json (Format)

theorem exists_decode_of_finite {x : Binary64} (h : x.isFinite = true) :
    ∃ value, (json Format.binary64).decode (Format.binary64.write x) = .ok value := by
  obtain ⟨value, hvalue⟩ := Format.exists_decode_binary64 h
  exact ⟨value, congrArg (Except.mapError CodecError.json) hvalue⟩

theorem decode_of_not_finite {x : Binary64} (h : x.isFinite = false) :
    (json Format.binary64).decode (Format.binary64.write x) = .error (.json .mismatched) :=
  congrArg (Except.mapError CodecError.json) (Format.decode_binary64_of_not_finite h)

end Codec

namespace Store

/-- A store that keeps values as bytes, gives new entries a fixed absolute limit and a positive idle
limit, has its clock within the span, and has nothing under a key. -/
structure TakesSerialized (key : String) (store : Store α) : Prop where
  mode : store.mode = .serialize
  steady : store.jitter = 0
  positive : ∃ count, store.policy.onCreation = .seconds count ∧ 0 < count
  covers : store.clock.Covers store.clock.now
  absent : store.find? key = none

variable {store : Store α} {key : String}

/-- An entry that is made at the reading of the clock is valid at it. -/
theorem isInvalid_newEntry (ready : store.TakesSerialized key) (form : Form)
    (payload : Payload α) :
    (store.newEntry none form payload).isInvalid store.clock = .ok false := by
  obtain ⟨count, hdecision, hcount⟩ := ready.positive
  have hnew := newEntry_eq ready.steady none form payload
  have hidle : (store.newEntry none form payload).maxIdle.toInt = max 0 count.toInt := by
    rw [toInt_maxIdle_newEntry ready.steady, Option.isSome_none, ExpiryPolicy.decision,
      if_neg (by decide), hdecision]
    rfl
  rw [Holder.int32_pos_iff] at hcount
  have sums := Clock.fits_offsetNow ready.covers
  have hlag := Clock.lag_eq_zero_iff.mpr ready.covers
  generalize store.newEntry none form payload = holder at *
  have hcap : holder.cachePassed store.clock store.clock.now = .ok false := by
    rw [Holder.cachePassed_of_created_now sums (by rw [hnew]; rfl), hlag, Except.ok.injEq,
      decide_eq_false_iff_not]
    omega
  rw [Holder.isInvalid_of_accessed_now sums (by rw [hnew]) (by rw [hnew]; rfl)
    (by rw [hnew]; rfl) (by omega) hcap, hlag, Except.ok.injEq, decide_eq_false_iff_not]
  omega

/-- A read of an entry that was just put gives what the codec makes of the bytes of the value. -/
theorem get_put_serialized (codec : Codec α) (ready : store.TakesSerialized key)
    (serializable : codec.serializable = true) (value : α) {bytes : List UInt8}
    (encoded : codec.encode value = .ok bytes) (words : List UInt32) :
    (store.put codec key value words).1 = .ok () ∧
      ((store.put codec key value words).2.get codec key).1 =
        (codec.decode bytes).mapError fun source => .holder (.storage source) := by
  have hstore : Holder.store codec store.mode value = .ok (.serialized, .written bytes) := by
    rw [ready.mode]
    simp only [Holder.store, serializable, encoded, if_true]
  have hput := put_eq codec ready.steady key value words
  rw [hstore, ready.absent] at hput
  simp only [Option.map_none] at hput
  have hnew := newEntry_eq ready.steady none .serialized (.written bytes)
  have hvalid := isInvalid_newEntry ready .serialized (.written bytes)
  generalize store.newEntry none .serialized (.written bytes) = holder at *
  have hfind : ((store.publish key holder).record .put).find? key =
      some (store.pool.size, holder) := find?_publish_self store key holder
  have hclock : ((store.publish key holder).record .put).clock = store.clock :=
    clock_publish store key holder
  have hpayload : holder.payload = some (.written bytes) := by rw [hnew]; rfl
  rw [hput]
  refine ⟨rfl, ?_⟩
  rw [get_of_find? codec hfind, hclock, hvalid]
  simp only [Holder.peek, hpayload]
  cases codec.decode bytes <;> rfl

/-- In a store that keeps values as bytes a put of a new entry always succeeds. A read at the same
reading of the clock then gives the value back if it is a text, a list of numbers or a user session,
and some number if it is a finite floating-point number; only for an infinity or a word that is no
number it fails, since these are written as the word `null`. -/
theorem get_put_serialized_json (key : String) (words : List UInt32) :
    (∀ (type : ValueType) (store : Store type.Carrier) (value : type.Carrier),
      store.TakesSerialized key →
        let codec := Codec.json type.format
        (store.put codec key value words).1 = .ok () ∧
          ((store.put codec key value words).2.get codec key).1 = .ok value) ∧
    ∀ (store : Store Binary64) (x : Binary64), store.TakesSerialized key →
      let codec := Codec.json Json.Format.binary64
      (store.put codec key x words).1 = .ok () ∧
        (x.isFinite = true →
          ∃ value, ((store.put codec key x words).2.get codec key).1 = .ok value) ∧
        (x.isFinite = false → ((store.put codec key x words).2.get codec key).1 =
          .error (.holder (.storage (.json .mismatched)))) := by
  constructor
  · intro type store value ready codec
    obtain ⟨bytes, encoded, decoded⟩ := (Codec.faithful_json type).readsBack value
    have hread := get_put_serialized codec ready rfl value encoded words
    rwa [decoded] at hread
  · intro store x ready codec
    have hread := get_put_serialized codec ready rfl x rfl words
    refine ⟨hread.1, fun finite => ?_, fun special => ?_⟩
    · obtain ⟨value, hvalue⟩ := Codec.exists_decode_of_finite finite
      exact ⟨value, by rw [hread.2, hvalue]; rfl⟩
    · rw [hread.2, Codec.decode_of_not_finite special]
      rfl

/-- A text and the greatest number are read back, at the same moment at which an infinity is not. -/
theorem get_put_serialized_json_of_greatest :
    let settings : Settings := { Settings.standard with writeMode := .serialize, maxCache := 60 }
    let clock : Clock := ⟨1700000000000, 1700000005000⟩
    let texts : Store String := Store.empty settings clock
    let numbers : Store Binary64 := Store.empty settings clock
    let greatest : Binary64 := ⟨0x7FEFFFFFFFFFFFFF⟩
    let infinite : Binary64 := ⟨0xFFF0000000000000⟩
    let textCodec := Codec.json Json.Format.string
    let codec := Codec.json Json.Format.binary64
    texts.TakesSerialized "k" ∧ numbers.TakesSerialized "k" ∧
      ((texts.put textCodec "k" "v" []).2.get textCodec "k").1 = .ok "v" ∧
      (numbers.put codec "k" greatest []).1 = .ok () ∧
      (∃ value, ((numbers.put codec "k" greatest []).2.get codec "k").1 = .ok value) ∧
      ((numbers.put codec "k" infinite []).2.get codec "k").1 =
        .error (.holder (.storage (.json .mismatched))) := by
  intro settings clock texts numbers greatest infinite textCodec codec
  have hnumbers : numbers.TakesSerialized "k" :=
    ⟨rfl, rfl, ⟨300, rfl, by decide⟩, by decide, rfl⟩
  have htexts : texts.TakesSerialized "k" := ⟨rfl, rfl, ⟨300, rfl, by decide⟩, by decide, rfl⟩
  obtain ⟨htext, hnumber⟩ := get_put_serialized_json "k" []
  obtain ⟨hput, hfinite, -⟩ := hnumber numbers greatest hnumbers
  obtain ⟨-, -, hinfinite⟩ := hnumber numbers infinite hnumbers
  exact ⟨htexts, hnumbers, (htext .string texts "v" htexts).2, hput, hfinite (by decide),
    hinfinite (by decide)⟩

/-- An infinity is taken, and cannot be given back. -/
theorem unreadable_infinity :
    let codec := Codec.json Json.Format.binary64
    let store : Store Binary64 :=
      Store.empty { Settings.standard with writeMode := .serialize } ⟨0, 0⟩
    let infinite : Binary64 := ⟨0x7FF0000000000000⟩
    store.TakesSerialized "k" ∧ (store.put codec "k" infinite []).1 = .ok () ∧
      ((store.put codec "k" infinite []).2.get codec "k").1 =
        .error (.holder (.storage (.json .mismatched))) := by
  intro codec store infinite
  have ready : store.TakesSerialized "k" := ⟨rfl, rfl, ⟨300, rfl, by decide⟩, by decide, rfl⟩
  have hdecode : codec.decode (Json.Format.binary64.write infinite) = .error (.json .mismatched) :=
    Codec.decode_of_not_finite (by decide)
  obtain ⟨hput, hget⟩ := get_put_serialized codec ready rfl infinite rfl []
  exact ⟨ready, hput, by rw [hget, hdecode]; rfl⟩

end Store

end ExpiringCache
