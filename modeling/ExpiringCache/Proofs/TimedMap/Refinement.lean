import ExpiringCache.Proofs.Session.Marks
import ExpiringCache.Proofs.Store.Freshness
import ExpiringCache.Proofs.Store.Kept
import ExpiringCache.Proofs.Store.SweepEffect
import ExpiringCache.Proofs.TimedMap

/-!
# A store refines a timed map

As long as every reading of the clock lies in the span of its narrow timestamps, a store that keeps
values as they are and has no randomness answers like a timed map. A holder stands for an entry if
its timestamps stand for the instants of the entry and its limits are those of the entry; a store
refines a map if, key by key, its holders stand for the entries of the map.
-/
namespace ExpiringCache

variable {α : Type}

/-- A holder that stands for an entry of a map with an absolute limit. -/
structure Holder.StandsFor (base : Int64) (cap : Int) (holder : Holder α)
    (entry : TimedEntry α) : Prop where
  payload : holder.payload = some (.live entry.value)
  complete : holder.isComplete = true
  created : base.toInt + holder.created.toInt = entry.created
  createdFits : Arithmetic.Fits entry.created
  last : base.toInt + holder.accessed.toInt = entry.last
  lastFits : Arithmetic.Fits entry.last
  idle : holder.maxIdle.toInt = entry.idle
  idleFits : 0 ≤ entry.idle
  cap : holder.maxCache.toInt = cap

/-- A store whose holders stand for the entries of a map. -/
structure Store.Refines (store : Store α) (map : TimedMap α) : Prop where
  sound : store.Sound
  steady : store.jitter = 0
  identity : store.mode = .identity
  policy : store.policy = map.policy
  cap : max 0 (min 2147483647 store.maxCache.toInt) = map.cap
  now : store.clock.now.toInt = map.now
  covers : store.clock.Covers store.clock.now
  entries : ∀ key, Option.Rel (Holder.StandsFor store.clock.base map.cap)
    ((store.find? key).map Prod.snd) (map.entries.get? key)

namespace Holder.StandsFor

variable {clock : Clock} {cap : Int} {holder : Holder α} {entry : TimedEntry α}

theorem live (h : holder.StandsFor clock.base cap entry) : holder.isReleased = false := by
  simp [isReleased, h.payload]

theorem isInvalid (h : holder.StandsFor clock.base cap entry) :
    holder.isInvalid clock = .ok (decide (Passed cap entry.idle entry.created entry.last
      clock.now.toInt)) := by
  obtain ⟨created, hcreated, hc⟩ :=
    Clock.exists_instantOf (h.created.symm ▸ h.createdFits)
  obtain ⟨last, hlast, hl⟩ := Clock.exists_instantOf (h.last.symm ▸ h.lastFits)
  rw [Holder.isInvalid, isInvalidAt_eq_limitPassed h.complete h.live,
    limitPassed_eq (fun _ => hcreated) (fun _ => hlast), hc, hl, h.created, h.last, h.idle, h.cap]

theorem peek (h : holder.StandsFor clock.base cap entry) (codec : Codec α) :
    holder.peek codec = .ok (some entry.value) := by
  simp [Holder.peek, h.payload]

/-- After a recorded read the holder stands for the entry that was read now. -/
theorem use (h : holder.StandsFor clock.base cap entry) (covers : clock.Covers clock.now) :
    ((holder.access clock).addUses 1).StandsFor clock.base cap
      { entry with last := clock.now.toInt } where
  payload := h.payload
  complete := h.complete
  created := h.created
  createdFits := h.createdFits
  last := by
    show clock.base.toInt + clock.offsetNow.toInt = clock.now.toInt
    rw [Clock.offsetNow, Clock.toInt_offsetOf_of_covers covers]
    omega
  lastFits := Arithmetic.fits_toInt _
  idle := h.idle
  idleFits := h.idleFits
  cap := h.cap

theorem prolong (h : holder.StandsFor clock.base cap entry) (seconds : Int32) :
    ∃ prolonged, holder.prolong clock seconds = .ok prolonged ∧
      prolonged.StandsFor clock.base cap { entry with
        idle := TimedMap.touchedIdle clock.now.toInt seconds.toInt entry } := by
  obtain ⟨created, hcreated, hc⟩ := Clock.exists_instantOf (h.created.symm ▸ h.createdFits)
  rw [h.created] at hc
  unfold Holder.prolong TimedMap.touchedIdle
  simp only [int32_eq_zero_iff, int32_pos_iff]
  by_cases hzero : seconds.toInt = 0
  · rw [if_pos hzero, if_pos hzero]
    exact ⟨_, rfl, { h with idle := rfl, idleFits := Int.le_refl 0 }⟩
  · rw [if_neg hzero, if_neg hzero]
    by_cases hpos : 0 < seconds.toInt
    · have hlimit := toInt_prolongedLimit clock.now created hpos
      rw [hc] at hlimit
      rw [if_pos hpos, if_pos hpos, hcreated]
      exact ⟨_, rfl, { h with idle := hlimit, idleFits := by show 0 ≤ min _ _; omega }⟩
    · rw [if_neg hpos, if_neg hpos]
      exact ⟨holder, rfl, h⟩

end Holder.StandsFor

/-- A policy decides alike on a replaced holder and on the entry that it stands for. -/
theorem Holder.decidedIdle_eq_idleAfter {base : Int64} {cap : Int} {policy : ExpiryPolicy}
    {previous : Option (Holder α)} {written : Option (TimedEntry α)}
    (h : Option.Rel (Holder.StandsFor base cap) previous written) :
    Holder.decidedIdle (policy.decision previous.isSome) previous =
      TimedMap.idleAfter policy written := by
  unfold Holder.decidedIdle TimedMap.idleAfter ExpiryPolicy.decision
  cases h with
  | @some holder entry hstands =>
    simp only [Option.isSome_some, if_true]
    cases policy.onUpdate with
    | seconds count => rfl
    | keep =>
      have hidle := hstands.idle
      have hfits := hstands.idleFits
      show max 0 holder.maxIdle.toInt = entry.idle
      omega
  | none =>
    simp only [Option.isSome_none, Bool.false_eq_true, if_false]
    cases policy.onCreation <;> rfl

theorem Holder.decidedIdle_nonneg (decision : IdleDecision) (previous : Option (Holder α)) :
    0 ≤ Holder.decidedIdle decision previous := by
  unfold Holder.decidedIdle
  split <;> omega

namespace Store

variable {store : Store α} {map : TimedMap α}

/-- The holder that a put publishes stands for the entry that a put writes. -/
theorem Refines.newEntry (h : store.Refines map) (key : String) (value : α) :
    (store.newEntry ((store.find? key).map Prod.snd) .plain (.live value)).StandsFor
      store.clock.base map.cap
      ⟨value, map.now, map.now, TimedMap.idleAfter map.policy (map.entries.get? key)⟩ := by
  let holder := store.newEntry ((store.find? key).map Prod.snd) .plain (.live value)
  have hnew : holder = { Holder.fresh store.clock .plain (.live value) with
      maxIdle := holder.maxIdle
      maxCache := Arithmetic.limitSeconds store.maxCache
      isComplete := true } := newEntry_eq h.steady _ _ _
  have hcreated : holder.created = store.clock.offsetNow := congrArg Holder.created hnew
  have haccessed : holder.accessed = store.clock.offsetNow := congrArg Holder.accessed hnew
  have hcap : holder.maxCache = Arithmetic.limitSeconds store.maxCache :=
    congrArg Holder.maxCache hnew
  have hidle := toInt_maxIdle_newEntry h.steady ((store.find? key).map Prod.snd) .plain
    (.live value)
  have hnow : store.clock.base.toInt + store.clock.offsetNow.toInt = map.now := by
    rw [← h.now, Clock.offsetNow, Clock.toInt_offsetOf_of_covers h.covers]
    omega
  have hfits : Arithmetic.Fits map.now := h.now ▸ Arithmetic.fits_toInt _
  rw [h.policy] at hidle
  have hafter : Holder.decidedIdle (map.policy.decision ((store.find? key).map Prod.snd).isSome)
      ((store.find? key).map Prod.snd) =
        TimedMap.idleAfter map.policy (map.entries.get? key) :=
    Holder.decidedIdle_eq_idleAfter (h.entries key)
  constructor
  case payload => exact congrArg Holder.payload hnew
  case complete => exact congrArg Holder.isComplete hnew
  case created => exact hcreated ▸ hnow
  case createdFits => exact hfits
  case last => exact haccessed ▸ hnow
  case lastFits => exact hfits
  case idle => exact hidle.trans hafter
  case idleFits => exact hafter ▸ Holder.decidedIdle_nonneg _ _
  case cap =>
    show holder.maxCache.toInt = map.cap
    rw [hcap, Arithmetic.toInt_limitSeconds, h.cap]

/-- A store refines the map with new entries if its holders stand for these. -/
theorem Refines.next {next : Store α} (h : store.Refines map) (kept : store.Kept next)
    (sound : next.Sound) {table : KeyTable (TimedEntry α)}
    (hentries : ∀ key, Option.Rel (Holder.StandsFor store.clock.base map.cap)
      ((next.find? key).map Prod.snd) (table.get? key)) :
    next.Refines { map with entries := table } where
  sound := sound
  steady := kept.jitter.trans h.steady
  identity := kept.mode.trans h.identity
  policy := kept.policy.trans h.policy
  cap := kept.maxCache ▸ h.cap
  now := kept.clock ▸ h.now
  covers := kept.clock ▸ h.covers
  entries := kept.clock ▸ hentries

theorem Refines.record (h : store.Refines map) (event : Event) :
    (store.record event).Refines map :=
  { h with sound := ⟨h.sound.complete, h.sound.unique⟩ }

theorem Refines.set {next : Store α} (h : store.Refines map) (kept : store.Kept next)
    (sound : next.Sound) {key : String} {handle : Handle} {holder : Holder α}
    {entry : TimedEntry α} (stands : holder.StandsFor store.clock.base map.cap entry)
    (hfind : ∀ name, next.find? name =
      if name = key then some (handle, holder) else store.find? name) :
    next.Refines (map.set key entry) := by
  refine h.next kept sound ?_
  intro name
  rw [hfind, KeyTable.get?_insert]
  by_cases heq : name = key
  · rw [if_pos heq, if_pos heq]
    exact .some stands
  · rw [if_neg heq, if_neg heq]
    exact h.entries name

/-- What a map finds under a key, and what a store that refines it finds there. -/
theorem Refines.find (h : store.Refines map) (key : String) :
    (store.find? key = none ∧ map.entries.get? key = none) ∨
      ∃ handle holder entry, store.find? key = some (handle, holder) ∧
        map.entries.get? key = some entry ∧
          holder.StandsFor store.clock.base map.cap entry := by
  rcases cases_of_rel (h.entries key) with ⟨hfind, hget⟩ | ⟨holder, entry, hfind, hget, stands⟩
  · exact .inl ⟨Option.map_eq_none_iff.mp hfind, hget⟩
  · obtain ⟨⟨handle, found⟩, hfound, rfl⟩ := Option.map_eq_some_iff.mp hfind
    exact .inr ⟨handle, found, entry, hfound, hget, stands⟩

theorem Refines.isInvalid (h : store.Refines map) {holder : Holder α} {entry : TimedEntry α}
    (stands : holder.StandsFor store.clock.base map.cap entry) :
    holder.isInvalid store.clock = .ok (map.isExpired entry) := by
  rw [stands.isInvalid, h.now]
  rfl

end Store

end ExpiringCache
