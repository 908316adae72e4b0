import Mathlib.Data.List.Induction
import ExpiringCache.Proofs.TimedMap.Simulation

/-!
# Reading back what was put

A put gives its entry time if the policy does. A policy that keeps the idle limit of a replaced
entry passes on the limit that the entry had, and that is none if the entry was touched by `0`
seconds. Such an entry is spent until it is touched for some time or taken out, and every sweep
takes it out; so whether a put can be read back is known from the calls before it.
-/
namespace ExpiringCache

variable {α : Type}

/-- A policy that gives a new entry some time, and gives a replaced one some time or what it had. -/
structure ExpiryPolicy.GivesTime (policy : ExpiryPolicy) : Prop where
  creation : ∃ count : Int32, 0 < count ∧ policy.onCreation = .seconds count
  update : policy.onUpdate = .keep ∨
    ∃ count : Int32, 0 < count ∧ policy.onUpdate = .seconds count

/-- Whether a call on a spent entry gives it time again or takes it out. -/
def Call.renews (key : String) : Call α → Bool
  | .touch name seconds => name == key && decide (0 < seconds)
  | .remove name => name == key
  | .sweep => true
  | _ => false

namespace TimedMap

variable {map : TimedMap α}

def after (map : TimedMap α) (calls : List (Call α)) : TimedMap α :=
  calls.foldl (fun map call => (map.act call).2) map

/-- Whether the entry of a key has no time at all. -/
def IsSpent (map : TimedMap α) (key : String) : Prop :=
  ∃ entry, map.entries.get? key = some entry ∧ entry.idle = 0

theorem isSpent_set (map : TimedMap α) (name key : String) (entry : TimedEntry α) :
    (map.set name entry).IsSpent key ↔
      if key = name then entry.idle = 0 else map.IsSpent key := by
  unfold IsSpent set
  simp only [KeyTable.get?_insert]
  split <;> simp

/-- A put leaves a spent entry exactly if it keeps the limit of one. -/
theorem idleAfter_eq_zero_iff (givesTime : map.policy.GivesTime) (key : String) :
    idleAfter map.policy (map.entries.get? key) = 0 ↔
      map.policy.onUpdate = .keep ∧ map.IsSpent key := by
  obtain ⟨count, hpositive, hcreation⟩ := givesTime.creation
  rw [Holder.int32_pos_iff] at hpositive
  unfold idleAfter IsSpent
  cases map.entries.get? key with
  | none =>
    have hlimit : max 0 count.toInt ≠ 0 := by omega
    simp [hcreation, hlimit]
  | some entry =>
    rcases givesTime.update with hkeep | ⟨more, hmore, hupdate⟩
    · simp [hkeep]
    · rw [Holder.int32_pos_iff] at hmore
      have hlimit : max 0 more.toInt ≠ 0 := by omega
      simp [hupdate, hlimit]

theorem touchedIdle_eq_zero_iff (now : Int) (seconds : Int32) (entry : TimedEntry α) :
    touchedIdle now seconds.toInt entry = 0 ↔
      seconds = 0 ∨ entry.idle = 0 ∧ ¬ 0 < seconds := by
  unfold touchedIdle
  rw [Holder.int32_eq_zero_iff, Holder.int32_pos_iff]
  split
  next hzero => simp [hzero]
  next hzero =>
    split
    next hpositive => omega
    next hnegative => simp [hzero, hnegative]

theorem isSpent_get (map : TimedMap α) (name key : String) :
    (map.get name).2.IsSpent key ↔ map.IsSpent key := by
  unfold get find
  cases hget : map.entries.get? name with
  | none => rfl
  | some entry =>
    cases hexpired : map.isExpired entry with
    | true => simp only [hexpired, if_true]
    | false =>
      simp only [hexpired, Bool.false_eq_true, if_false, isSpent_set]
      split
      next heq => simp [IsSpent, heq, hget]
      next => rfl

theorem isSpent_touch (map : TimedMap α) (name key : String) (seconds : Int32) :
    (map.touch name seconds.toInt).2.IsSpent key ↔
      (name = key ∧ seconds = 0 ∧ (map.entries.get? key).isSome = true) ∨
        (map.IsSpent key ∧ ¬ (name = key ∧ 0 < seconds)) := by
  unfold touch
  cases hget : map.entries.get? name with
  | none =>
    by_cases heq : name = key
    · simp [IsSpent, ← heq, hget]
    · simp [heq]
  | some entry =>
    rw [isSpent_set, touchedIdle_eq_zero_iff]
    by_cases heq : key = name
    · simp [IsSpent, heq, hget]
    · simp [heq, Ne.symm heq]

theorem isSpent_remove (map : TimedMap α) (name key : String) :
    (map.remove name).2.IsSpent key ↔ map.IsSpent key ∧ name ≠ key := by
  unfold remove IsSpent
  cases hget : map.entries.get? name with
  | none =>
    by_cases heq : name = key
    · simp [← heq, hget]
    · simp [heq]
  | some entry =>
    simp only [KeyTable.get?_erase]
    by_cases heq : key = name
    · simp [heq]
    · simp [heq, Ne.symm heq]

theorem isExpired_of_idle_eq_zero {entry : TimedEntry α} (h : entry.idle = 0) :
    map.isExpired entry = true := decide_eq_true (.inr (.inl h))

/-- A sweep takes out whatever is spent. -/
theorem not_isSpent_sweep (map : TimedMap α) (key : String) : ¬ map.sweep.IsSpent key := by
  rintro ⟨entry, hget, hidle⟩
  rw [sweep, KeyTable.get?_filter, Option.filter_eq_some_iff] at hget
  simp [isExpired_of_idle_eq_zero hidle] at hget

/-- What one call does to the spent entries under a policy that keeps limits. -/
theorem isSpent_act (givesTime : map.policy.GivesTime) (keeps : map.policy.onUpdate = .keep)
    (call : Call α) (key : String) :
    (map.act call).2.IsSpent key ↔
      (call = .touch key 0 ∧ (map.entries.get? key).isSome = true) ∨
        (map.IsSpent key ∧ call.renews key = false) := by
  cases call with
  | put name value words =>
    simp only [act, put, isSpent_set, idleAfter_eq_zero_iff givesTime, keeps]
    split
    next heq => simp [heq, Call.renews]
    next => simp [Call.renews]
  | get name => simp [act, isSpent_get, Call.renews]
  | touch name seconds =>
    simp [act, isSpent_touch, Call.renews, and_assoc]
  | remove name => simp [act, isSpent_remove, Call.renews]
  | sweep => simp [act, not_isSpent_sweep, Call.renews]
  | advanceSeconds seconds =>
    simp only [act]
    split <;> simp [moveTo, IsSpent, Call.renews]
  | peek | size | now | advanceMillis | setMillis => simp [act, moveTo, IsSpent, Call.renews]

theorem after_append (map : TimedMap α) (calls : List (Call α)) (call : Call α) :
    map.after (calls ++ [call]) = ((map.after calls).act call).2 := by
  simp [after, List.foldl_append]

theorem policy_act (map : TimedMap α) (call : Call α) : (map.act call).2.policy = map.policy := by
  cases call with
  | get key =>
    simp only [act, get]
    split <;> rfl
  | touch key seconds =>
    simp only [act, touch]
    split <;> rfl
  | remove key =>
    simp only [act, remove]
    split <;> rfl
  | advanceSeconds seconds =>
    simp only [act]
    split <;> rfl
  | put | peek | sweep | size | now | advanceMillis | setMillis => rfl

theorem policy_after (map : TimedMap α) (calls : List (Call α)) :
    (map.after calls).policy = map.policy := by
  induction calls using List.reverseRecOn with
  | nil => rfl
  | append_singleton calls call ih => rw [after_append, policy_act, ih]

/-- A get right after a put finds the entry expired exactly if it has no time. -/
theorem get_put (map : TimedMap α) (key : String) (value : α)
    (nonneg : 0 ≤ idleAfter map.policy (map.entries.get? key)) :
    ((map.put key value).get key).1 =
      if idleAfter map.policy (map.entries.get? key) = 0 then .error (.expired key)
      else .ok value := by
  generalize hidle : idleAfter map.policy (map.entries.get? key) = idle at nonneg ⊢
  let entry : TimedEntry α := ⟨value, map.now, map.now, idle⟩
  have hget : (map.put key value).entries.get? key = some entry := by
    rw [put, set, KeyTable.get?_insert, if_pos rfl, hidle]
  have hpassed : Holder.Passed map.cap idle map.now map.now map.now ↔ idle = 0 := by
    unfold Holder.Passed
    omega
  have hexpired : (map.put key value).isExpired entry = decide (idle = 0) :=
    decide_eq_decide.mpr hpassed
  by_cases hspent : idle = 0
  · simp [get, find, hget, hexpired, hspent]
  · simp [get, find, hget, hexpired, hspent, entry]

end TimedMap

namespace Session

variable {session : Session α} {map : TimedMap α}

/-- Whether the last call that counts for the entry of a key has touched it by `0` seconds. -/
def ExpiredByHand (codec : Codec α) (session : Session α) (key : String)
    (calls : List (Call α)) : Prop :=
  ∃ before rest, calls = before ++ .touch key 0 :: rest ∧
    ((session.after codec (before.map Call.request)).act codec (.touch key 0)).answer = .done ∧
    ∀ call ∈ rest, call.renews key = false

theorem expiredByHand_append (codec : Codec α) (session : Session α) (key : String)
    (calls : List (Call α)) (call : Call α) :
    session.ExpiredByHand codec key (calls ++ [call]) ↔
      (call = .touch key 0 ∧ ((session.after codec (calls.map Call.request)).act codec
          (.touch key 0)).answer = .done) ∨
        (session.ExpiredByHand codec key calls ∧ call.renews key = false) := by
  constructor
  · rintro ⟨before, rest, hcut, hdone, hrest⟩
    rcases List.eq_nil_or_concat rest with rfl | ⟨others, last, rfl⟩
    · obtain ⟨rfl, hlast⟩ := List.append_inj' hcut rfl
      exact .inl ⟨List.singleton_inj.mp hlast, hdone⟩
    · have hsplit : calls ++ [call] = (before ++ .touch key 0 :: others) ++ [last] := by
        simpa using hcut
      obtain ⟨hcalls, hlast⟩ := List.append_inj' hsplit rfl
      obtain rfl := List.singleton_inj.mp hlast
      refine .inr ⟨⟨before, others, hcalls, hdone, ?_⟩, hrest call (by simp)⟩
      exact fun other hother => hrest other (by simp [hother])
  · rintro (⟨rfl, hdone⟩ | ⟨⟨before, rest, rfl, hdone, hrest⟩, hcall⟩)
    · exact ⟨calls, [], rfl, hdone, nofun⟩
    · refine ⟨before, rest ++ [call], by simp, hdone, ?_⟩
      intro other hother
      rcases List.mem_append.mp hother with hmem | hmem
      · exact hrest other hmem
      · exact List.mem_singleton.mp hmem ▸ hcall

theorem staysInSpan_of_append {codec : Codec α} {calls more : List (Call α)}
    (within : session.StaysInSpan codec (calls ++ more)) : session.StaysInSpan codec calls := by
  intro count hcount
  have hlater := within count (by simp; omega)
  rwa [List.take_append_of_le_length hcount] at hlater

/-- A run leaves a store that refines the map after the run. -/
theorem refines_after (codec : Codec α) (h : session.store.Refines map) (calls : List (Call α))
    (within : session.StaysInSpan codec calls) :
    (session.after codec (calls.map Call.request)).store.Refines (map.after calls) := by
  induction calls generalizing session map with
  | nil => exact h
  | cons call calls ih =>
    have hnext := (refines_act codec h call (within 1 (Nat.le_add_left ..))).2
    exact ih hnext fun count hcount => within (count + 1) (Nat.succ_le_succ hcount)

/-- Under a policy that keeps limits the spent entries are those that were expired by hand. -/
theorem isSpent_after_iff (codec : Codec α) (h : session.store.Refines map)
    (givesTime : map.policy.GivesTime) (keeps : map.policy.onUpdate = .keep) {key : String}
    (empty : map.entries.get? key = none) (calls : List (Call α))
    (within : session.StaysInSpan codec calls) :
    (map.after calls).IsSpent key ↔ session.ExpiredByHand codec key calls := by
  induction calls using List.reverseRecOn with
  | nil =>
    constructor
    · rintro ⟨entry, hget, -⟩
      simp [TimedMap.after, empty] at hget
    · rintro ⟨before, rest, hcut, -⟩
      simp at hcut
  | append_singleton calls call ih =>
    have hbefore := staysInSpan_of_append within
    have hstore := refines_after codec h calls hbefore
    have htouch : ((session.after codec (calls.map Call.request)).act codec
        (.touch key 0)).answer = .done ↔ ((map.after calls).entries.get? key).isSome = true := by
      have hanswer := (hstore.touch key 0).1
      simp only [act, hanswer, TimedMap.touch]
      cases (map.after calls).entries.get? key <;> simp [ofUnit]
    rw [TimedMap.after_append, expiredByHand_append, ← ih hbefore, htouch]
    refine TimedMap.isSpent_act ?_ ?_ call key
    · exact (map.policy_after calls).symm ▸ givesTime
    · exact (map.policy_after calls).symm ▸ keeps

/-- A put is acknowledged, and a get at the same reading of the clock gives the value back, unless
the put has taken over the limit of an entry that has none. -/
theorem answers_put_get (codec : Codec α) (h : session.store.Refines map)
    (givesTime : map.policy.GivesTime) (key : String) (value : α) (words : List UInt32) :
    let put := session.act codec (.put key value words)
    let spent := map.policy.onUpdate = .keep ∧ map.IsSpent key
    put.answer = .done ∧
      (spent → (put.session.act codec (.get key)).answer = .storeError (.expired key)) ∧
      (¬ spent → (put.session.act codec (.get key)).answer = .value value) := by
  intro put spent
  obtain ⟨hdone, hput⟩ := h.put codec key value words
  have hget : (put.session.act codec (.get key)).answer =
      ofValue ((map.put key value).get key).1 :=
    congrArg ofValue (hput.get codec key).1
  rw [TimedMap.get_put map key value (h.newEntry key value).idleFits] at hget
  have hspent := TimedMap.idleAfter_eq_zero_iff givesTime key
  refine ⟨congrArg ofUnit hdone, ?_, ?_⟩
  · intro hlost
    rw [hget, if_pos (hspent.mpr hlost), ofValue]
  · intro hopen
    rw [hget, if_neg fun hzero => hopen (hspent.mp hzero), ofValue]

/-- Whatever a key has been through, a put is acknowledged and a get at the same reading of the
clock gives the value back; with one exception, which is by design: if the policy keeps the limit of
a replaced entry and that entry was expired by hand, then the new entry is expired as well. -/
theorem put_readable (codec : Codec α) (settings : Settings) (policy : Option ExpiryPolicy)
    (base : Int64) (calls : List (Call α)) (key : String) (value : α) (words : List UInt32)
    (steady : settings.expireJitter = 0) (identity : settings.writeMode = .identity)
    (givesTime : (policy.getD settings.policy).GivesTime)
    (within : (start settings policy base).StaysInSpan codec calls) :
    let session := (start settings policy base).after codec (calls.map Call.request)
    let put := session.act codec (.put key value words)
    let spent := (policy.getD settings.policy).onUpdate = .keep ∧
      (start settings policy base).ExpiredByHand codec key calls
    put.answer = .done ∧
      (spent → (put.session.act codec (.get key)).answer = .storeError (.expired key)) ∧
      (¬ spent → (put.session.act codec (.get key)).answer = .value value) := by
  intro session put spent
  let map := (TimedMap.start settings policy base.toInt).after calls
  have hstart : (start settings policy base : Session α).store.Refines
      (TimedMap.start settings policy base.toInt) := refines_start steady identity policy base
  have hstore : session.store.Refines map := refines_after codec hstart calls within
  have hpolicy : map.policy = policy.getD settings.policy := TimedMap.policy_after _ calls
  have hspent : spent ↔ map.policy.onUpdate = .keep ∧ map.IsSpent key := by
    rw [hpolicy]
    refine and_congr_right fun keeps => ?_
    exact (isSpent_after_iff codec hstart givesTime keeps rfl calls within).symm
  rw [hspent]
  exact answers_put_get codec hstore (hpolicy ▸ givesTime) key value words

/-- An entry that was expired by hand cannot be read back after it was put again, but it can once a
sweep has taken it out before the put. -/
theorem put_readable_after_sweep :
    let codec : Codec String := Codec.json .string
    let begin : Session String := start Settings.standard (some (.created 300)) 0
    let spent : List (Call String) := [.put "k" "u" [], .touch "k" 0]
    let swept : List (Call String) := [.put "k" "u" [], .touch "k" 0, .sweep]
    let put := (begin.after codec (spent.map Call.request)).act codec (.put "k" "v" [])
    let fresh := (begin.after codec (swept.map Call.request)).act codec (.put "k" "v" [])
    (ExpiryPolicy.created 300).GivesTime ∧ begin.StaysInSpan codec spent ∧
      begin.StaysInSpan codec swept ∧
      put.answer = .done ∧ (put.session.act codec (.get "k")).answer = .storeError (.expired "k") ∧
      fresh.answer = .done ∧ (fresh.session.act codec (.get "k")).answer = .value "v" := by
  intro codec begin spent swept put fresh
  have hspent : begin.StaysInSpan codec spent := by decide +kernel
  have hswept : begin.StaysInSpan codec swept := by decide +kernel
  have givesTime : (ExpiryPolicy.created 300).GivesTime := ⟨⟨300, by decide, rfl⟩, .inl rfl⟩
  have hput := put_readable codec Settings.standard (some (.created 300)) 0 spent "k" "v" [] rfl rfl
    givesTime hspent
  have hfresh := put_readable codec Settings.standard (some (.created 300)) 0 swept "k" "v" [] rfl
    rfl givesTime hswept
  have htouched : begin.ExpiredByHand codec "k" spent := ⟨[.put "k" "u" []], [], rfl, rfl, nofun⟩
  have hopen : ¬ begin.ExpiredByHand codec "k" swept := by
    intro htouched
    rcases (expiredByHand_append codec begin "k" spent .sweep).mp htouched with
      ⟨hcall, -⟩ | ⟨-, hrenews⟩
    · cases hcall
    · cases hrenews
  exact ⟨givesTime, hspent, hswept, hput.1, hput.2.1 ⟨rfl, htouched⟩, hfresh.1,
    hfresh.2.2 fun hlost => hopen hlost.2⟩

/-- A policy that gives creations five minutes and keeps limits on updates: after a touch by `0` an
acknowledged put cannot be read back at the same reading of the clock. -/
theorem unreadable_after_touch_by_zero :
    let codec : Codec String := Codec.json .string
    let begin : Session String := start Settings.standard (some (.created 300)) 0
    let calls : List (Call String) := [.put "k" "v" [], .touch "k" 0]
    let put := (begin.after codec (calls.map Call.request)).act codec (.put "k" "w" [])
    Settings.standard.expireJitter = 0 ∧ Settings.standard.writeMode = .identity ∧
      (ExpiryPolicy.created 300).GivesTime ∧ begin.StaysInSpan codec calls ∧
      put.answer = .done ∧ (put.session.act codec (.get "k")).answer ≠ .value "w" := by
  intro codec begin calls put
  have givesTime : (ExpiryPolicy.created 300).GivesTime := ⟨⟨300, by decide, rfl⟩, .inl rfl⟩
  have within : begin.StaysInSpan codec calls := by decide +kernel
  let map := (TimedMap.start Settings.standard (some (.created 300)) 0).after calls
  have hstart : begin.store.Refines (TimedMap.start Settings.standard (some (.created 300)) 0) :=
    refines_start rfl rfl (some (.created 300)) 0
  have hstore : (begin.after codec (calls.map Call.request)).store.Refines map :=
    refines_after codec hstart calls within
  have hspent : map.IsSpent "k" := ⟨_, rfl, rfl⟩
  have hanswers := answers_put_get codec hstore givesTime "k" "w" []
  refine ⟨rfl, rfl, givesTime, within, hanswers.1, ?_⟩
  rw [hanswers.2.1 ⟨rfl, hspent⟩]
  nofun

end Session

end ExpiringCache
