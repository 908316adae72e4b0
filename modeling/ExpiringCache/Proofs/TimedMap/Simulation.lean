import ExpiringCache.Proofs.Session.Publication
import ExpiringCache.Proofs.TimedMap.Refinement

/-!
# Calls of a store and of the timed map that it refines

Each call has the same answer in a store and in the map that it refines, and leaves a store that
refines the map after the call. Runs of any length follow by induction on the calls.
-/
namespace ExpiringCache

variable {α : Type}

namespace Store

variable {store : Store α} {map : TimedMap α}

theorem Refines.put (h : store.Refines map) (codec : Codec α) (key : String) (value : α)
    (words : List UInt32) :
    (store.put codec key value words).1 = .ok () ∧
      (store.put codec key value words).2.Refines (map.put key value) := by
  have hsound := (moves_put codec h.sound key value words).sound h.sound
  have hkept := store.kept_put codec key value words
  rw [put_of_identity codec h.steady h.identity] at hsound hkept ⊢
  let holder := store.newEntry ((store.find? key).map Prod.snd) .plain (.live value)
  exact ⟨rfl, h.set hkept hsound (h.newEntry key value) (find?_publish_eq h.sound key holder)⟩

theorem Refines.peek (h : store.Refines map) (codec : Codec α) (key : String) :
    store.peek codec key = (map.find key).map TimedEntry.value := by
  unfold TimedMap.find
  rcases h.find key with ⟨hfind, hget⟩ | ⟨handle, holder, entry, hfind, hget, stands⟩
  · simp [Store.peek, hfind, hget, Except.map]
  · rw [peek_of_find? codec hfind, h.isInvalid stands, stands.peek codec, hget]
    by_cases hexpired : map.isExpired entry = true <;> simp [hexpired, Except.map]

theorem Refines.get (h : store.Refines map) (codec : Codec α) (key : String) :
    (store.get codec key).1 = (map.get key).1 ∧
      (store.get codec key).2.Refines (map.get key).2 := by
  have hsound := (store.moves_get codec key).sound h.sound
  unfold TimedMap.get TimedMap.find
  rcases h.find key with ⟨hfind, hget⟩ | ⟨handle, holder, entry, hfind, hget, stands⟩
  · simp only [Store.get, hfind, hget]
    exact ⟨trivial, h.record .miss⟩
  · rw [get_of_find? codec hfind, h.isInvalid stands, stands.peek codec] at hsound ⊢
    by_cases hexpired : map.isExpired entry = true
    · simp only [hget, hexpired, if_true]
      exact ⟨trivial, h.record .miss⟩
    · have hopen : map.isExpired entry = false := eq_false_of_ne_true hexpired
      have hused := stands.use h.covers
      rw [h.now] at hused
      simp only [hget, hopen, modify_modify, Bool.false_eq_true, if_false] at hsound ⊢
      let used := (store.modify handle (Holder.addUses 1 ∘ Holder.access store.clock)).record .hit
      have hkept : store.Kept used := ⟨rfl, rfl, rfl, rfl, rfl⟩
      exact ⟨trivial, h.set hkept hsound hused (find?_modify_eq h.sound hfind _)⟩

theorem Refines.touch (h : store.Refines map) (key : String) (seconds : Int32) :
    (store.touch key seconds).1 = (map.touch key seconds.toInt).1 ∧
      (store.touch key seconds).2.Refines (map.touch key seconds.toInt).2 := by
  have hsound := (store.moves_touch key seconds).sound h.sound
  unfold Store.touch TimedMap.touch at *
  rcases h.find key with ⟨hfind, hget⟩ | ⟨handle, holder, entry, hfind, hget, stands⟩
  · simp only [hfind, hget]
    exact ⟨trivial, h⟩
  · obtain ⟨prolonged, hprolong, hstands⟩ := stands.prolong seconds
    rw [h.now] at hstands
    simp only [hfind, hget, hprolong] at hsound ⊢
    have hkept : store.Kept (store.modify handle fun _ => prolonged) := ⟨rfl, rfl, rfl, rfl, rfl⟩
    exact ⟨trivial, h.set hkept hsound hstands (find?_modify_eq h.sound hfind _)⟩

theorem Refines.remove (h : store.Refines map) (key : String) :
    (store.remove key).1 = (map.remove key).1 ∧
      (store.remove key).2.Refines (map.remove key).2 := by
  unfold Store.remove TimedMap.remove
  rcases h.find key with ⟨hfind, hget⟩ | ⟨handle, holder, entry, hfind, hget, stands⟩
  · simp only [hfind, hget]
    exact ⟨trivial, h⟩
  · have hk := (find?_eq_some_iff.mp hfind).1
    let discarded := (store.discard key handle).store
    have hkept : store.Kept discarded := ⟨rfl, rfl, rfl, rfl, rfl⟩
    have hdiscarded : discarded.Refines { map with entries := map.entries.erase key } := by
      refine h.next hkept (sound_discard h.sound hk) ?_
      intro name
      rw [find?_discard h.sound hk, KeyTable.get?_erase]
      by_cases heq : name = key
      · rw [if_pos heq, if_pos heq]
        exact .none
      · rw [if_neg heq, if_neg heq]
        exact h.entries name
    simp only [hfind, hget]
    refine ⟨trivial, ?_⟩
    split
    · exact hdiscarded.record .removal
    · exact hdiscarded

theorem Refines.checks (h : store.Refines map) : store.Checks := by
  intro key handle holder hfind
  rcases h.find key with ⟨hnone, -⟩ | ⟨_, found, entry, hfound, -, stands⟩
  · simp [hfind] at hnone
  · obtain ⟨rfl, rfl⟩ : handle = _ ∧ holder = found := by simpa [hfind] using hfound
    exact ⟨_, h.isInvalid stands⟩

theorem Refines.isExpired (h : store.Refines map) {key : String} {handle : Handle}
    {holder : Holder α} {entry : TimedEntry α} (hfind : store.find? key = some (handle, holder))
    (stands : holder.StandsFor store.clock.base map.cap entry) :
    store.isExpired handle = map.isExpired entry := by
  rw [Store.isExpired, (find?_eq_some_iff.mp hfind).2, Option.any_some, h.isInvalid stands]

theorem Refines.size (h : store.Refines map) : store.entries.size = map.entries.size := by
  apply KeyTable.size_eq_of_isSome_iff
  intro key
  rcases h.find key with ⟨hfind, hget⟩ | ⟨handle, holder, entry, hfind, hget, -⟩
  · rw [(find?_eq_none_iff h.sound).mp hfind, hget]
    exact Iff.rfl
  · rw [(find?_eq_some_iff.mp hfind).1, hget]
    exact ⟨fun _ => rfl, fun _ => rfl⟩

theorem Refines.size_expired (h : store.Refines map) :
    store.expiredEntries.size = map.expired.size := by
  apply KeyTable.size_eq_of_isSome_iff
  intro key
  rw [expiredEntries, TimedMap.expired, KeyTable.get?_filter, KeyTable.get?_filter]
  rcases h.find key with ⟨hfind, hget⟩ | ⟨handle, holder, entry, hfind, hget, stands⟩
  · rw [(find?_eq_none_iff h.sound).mp hfind, hget]
    exact Iff.rfl
  · rw [(find?_eq_some_iff.mp hfind).1, hget]
    simp [Option.filter, h.isExpired hfind stands]

theorem Refines.isLive (h : store.Refines map) {key : String} {handle : Handle}
    (hk : store.entries.get? key = some handle) : store.isLive handle = true := by
  rcases h.find key with ⟨hfind, -⟩ | ⟨other, holder, entry, hfind, -, stands⟩
  · rw [(find?_eq_none_iff h.sound)] at hfind
    simp [hk] at hfind
  · obtain ⟨hother, hpool⟩ := find?_eq_some_iff.mp hfind
    obtain rfl := Option.some.inj (hk.symm.trans hother)
    rw [Store.isLive, hpool, Option.any_some, stands.live]
    rfl

theorem Refines.sweep (h : store.Refines map) :
    store.sweep.1 = .ok map.expired.size ∧ store.sweep.2.Refines map.sweep := by
  have hsound := store.moves_sweep.sound h.sound
  have hcount : (store.expiredEntries.entries.map Prod.snd).countP store.isLive =
      map.expired.size := by
    rw [← h.size_expired, KeyTable.size, ← List.length_map Prod.snd, List.countP_eq_length]
    intro handle hhandle
    obtain ⟨entry, hentry, rfl⟩ := List.mem_map.mp hhandle
    exact h.isLive (mapped_expiredEntries hentry)
  refine ⟨by rw [sweep_eq h.sound h.checks, hcount], ?_⟩
  refine h.next store.kept_sweep hsound ?_
  intro key
  rw [find?_sweep h.checks, KeyTable.get?_filter]
  rcases h.find key with ⟨hfind, hget⟩ | ⟨handle, holder, entry, hfind, hget, stands⟩
  · rw [hfind, hget]
    exact .none
  · rw [hfind, hget]
    cases hexpired : map.isExpired entry with
    | false => simp [Option.filter, h.isExpired hfind stands, hexpired, stands]
    | true => simp [Option.filter, h.isExpired hfind stands, hexpired]

theorem Refines.moveTo (h : store.Refines map) {clock : Clock}
    (base : clock.base = store.clock.base) (covers : clock.Covers clock.now) :
    ({ store with clock := clock } : Store α).Refines { map with now := clock.now.toInt } where
  sound := ⟨h.sound.complete, h.sound.unique⟩
  steady := h.steady
  identity := h.identity
  policy := h.policy
  cap := h.cap
  now := rfl
  covers := covers
  entries := base ▸ h.entries

end Store

namespace Session

variable {session : Session α} {map : TimedMap α}

theorem refines_moveClock (h : session.store.Refines map) {clock : Clock} {now : Int}
    (base : clock.base = session.store.clock.base) (covers : clock.Covers clock.now)
    (hnow : clock.now.toInt = now) :
    (session.moveClock clock).answer = (map.moveTo now).1 ∧
      (session.moveClock clock).session.store.Refines (map.moveTo now).2 := by
  subst hnow
  refine ⟨?_, h.moveTo base covers⟩
  rw [moveClock, TimedMap.moveTo, Int64.ofInt_toInt]

/-- One call: the same answer, and the store after it refines the map after it. -/
theorem refines_act (codec : Codec α) (h : session.store.Refines map) (call : Call α)
    (covers : (session.act codec call.operation).session.store.clock.Covers
      (session.act codec call.operation).session.store.clock.now) :
    (session.act codec call.operation).answer = (map.act call).1 ∧
      (session.act codec call.operation).session.store.Refines (map.act call).2 := by
  cases call with
  | put key value words =>
    obtain ⟨hanswer, hnext⟩ := h.put codec key value words
    exact ⟨by simp [Call.operation, act, hanswer, ofUnit, TimedMap.act], hnext⟩
  | get key =>
    obtain ⟨hanswer, hnext⟩ := h.get codec key
    exact ⟨by simp [Call.operation, act, hanswer, TimedMap.act], hnext⟩
  | peek key =>
    exact ⟨by simp [Call.operation, act, h.peek codec key, TimedMap.act, unchanged], h⟩
  | touch key seconds =>
    obtain ⟨hanswer, hnext⟩ := h.touch key seconds
    exact ⟨by simp [Call.operation, act, hanswer, TimedMap.act], hnext⟩
  | remove key =>
    obtain ⟨hanswer, hnext⟩ := h.remove key
    exact ⟨by simp [Call.operation, act, hanswer, TimedMap.act], hnext⟩
  | sweep =>
    obtain ⟨hanswer, hnext⟩ := h.sweep
    have hsweep : session.store.sweep = (.ok map.expired.size, session.store.sweep.2) :=
      Prod.ext hanswer rfl
    simp only [Call.operation, act]
    rw [hsweep]
    exact ⟨rfl, hnext⟩
  | size =>
    have hempty : session.store.entries.entries.isEmpty = map.entries.entries.isEmpty := by
      have hsize : session.store.entries.entries.length = map.entries.entries.length := h.size
      rw [Bool.eq_iff_iff, List.isEmpty_iff_length_eq_zero, List.isEmpty_iff_length_eq_zero, hsize]
    exact ⟨by simp [Call.operation, act, unchanged, TimedMap.act, Store.size, h.size, hempty], h⟩
  | now => exact ⟨by simp [Call.operation, act, unchanged, TimedMap.act, ← h.now], h⟩
  | advanceMillis millis =>
    exact refines_moveClock h rfl covers (h.now ▸ Clock.toInt_now_advance h.covers covers)
  | advanceSeconds seconds =>
    have hthousand : (1000 : Int64).toInt = 1000 := rfl
    simp only [Call.operation, act, Clock.advanceSeconds, Arithmetic.mulChecked, hthousand,
      TimedMap.act] at covers ⊢
    by_cases hfits : Arithmetic.Fits (seconds.toInt * 1000)
    · simp only [if_pos hfits, Except.map] at covers ⊢
      have hmillis := Clock.toInt_now_advance h.covers covers
      rw [Int64.toInt_ofInt_of_le hfits.1 hfits.2] at hmillis
      exact refines_moveClock h rfl covers (h.now ▸ hmillis)
    · simp only [if_neg hfits, Except.map]
      exact ⟨rfl, h⟩
  | setMillis millis => exact refines_moveClock h rfl covers rfl

theorem refines_start {settings : Settings} (steady : settings.expireJitter = 0)
    (identity : settings.writeMode = .identity) (policy : Option ExpiryPolicy) (base : Int64) :
    (start settings policy base : Session α).store.Refines
      (TimedMap.start settings policy base.toInt) where
  sound := sound_start settings policy base
  steady := steady
  identity := identity
  policy := rfl
  cap := rfl
  now := rfl
  covers := by
    show -2 ^ 31 ≤ base.toInt - base.toInt ∧ base.toInt - base.toInt < 2 ^ 31
    omega
  entries := fun _ => .none

/-- Whether every reading of the clock over a list of calls lies in the span of its timestamps. -/
def StaysInSpan (codec : Codec α) (session : Session α) (calls : List (Call α)) : Prop :=
  ∀ count, count ≤ calls.length →
    let clock := (session.after codec ((calls.take count).map Call.request)).store.clock
    clock.Covers clock.now

instance (codec : Codec α) (session : Session α) (calls : List (Call α)) :
    Decidable (session.StaysInSpan codec calls) :=
  inferInstanceAs (Decidable (∀ count, count ≤ calls.length →
    Clock.Covers (session.after codec ((calls.take count).map Call.request)).store.clock
      (session.after codec ((calls.take count).map Call.request)).store.clock.now))

theorem answers_run (codec : Codec α) (h : session.store.Refines map) (calls : List (Call α))
    (within : session.StaysInSpan codec calls) :
    (session.run codec (calls.map Call.request)).1.map Report.answer = map.run calls := by
  induction calls generalizing session map with
  | nil => rfl
  | cons call calls ih =>
    have hfirst := within 1 (Nat.le_add_left ..)
    obtain ⟨hanswer, hnext⟩ := refines_act codec h call hfirst
    have hrest : (session.act codec call.operation).session.StaysInSpan codec calls := by
      intro count hcount
      exact within (count + 1) (Nat.succ_le_succ hcount)
    have hlater := ih hnext hrest
    simp only [List.map_cons, run, step, Call.request, TimedMap.run] at hlater ⊢
    rw [hanswer, hlater]

/-- Over every list of calls during which the clock stays in its span, a cache without randomness
that keeps values as they are answers like a timed map: the limits that it works out in narrow
words, the holders that it shares and the values that it releases do not show. -/
theorem answers_eq_timedMap (codec : Codec α) (settings : Settings)
    (policy : Option ExpiryPolicy) (base : Int64) (calls : List (Call α))
    (steady : settings.expireJitter = 0) (identity : settings.writeMode = .identity)
    (within : (start settings policy base).StaysInSpan codec calls) :
    ((start settings policy base).run codec (calls.map Call.request)).1.map Report.answer =
      (TimedMap.start settings policy base.toInt).run calls :=
  answers_run codec (refines_start steady identity policy base) calls within

/-- An entry that was touched while the clock had gone back hands its limit on to the value that
replaces it. That value is read for longer than the policy gives a new entry, expires by the
absolute limit all the same, and the sweep takes it out. -/
theorem answers_eq_timedMap_back_and_forth :
    let codec : Codec String := Codec.json .string
    let settings : Settings := { Settings.standard with maxCache := 600 }
    let policy := ExpiryPolicy.created 300
    let calls : List (Call String) :=
      [.put "k" "v" [], .setMillis (-5000), .touch "k" 900, .put "k" "w" [], .peek "k",
        .setMillis 590000, .get "k", .size, .setMillis 600001, .get "k", .sweep]
    settings.expireJitter = 0 ∧ settings.writeMode = .identity ∧
      (start settings policy 0).StaysInSpan codec calls ∧
      ((start settings policy 0).run codec (calls.map Call.request)).1.map Report.answer =
        [.done, .reading (-5000), .done, .done, .value "w", .reading 590000, .value "w",
          .size 1 false, .reading 600001, .storeError (.expired "k"), .count 1] := by
  exact ⟨rfl, rfl, by decide,
    (answers_eq_timedMap (Codec.json .string) { Settings.standard with maxCache := 600 }
      (ExpiryPolicy.created 300) 0 _ rfl rfl (by decide)).trans rfl⟩

end Session

end ExpiringCache
