import Mathlib.Data.List.Perm.Subperm
import ExpiringCache.Proofs.Holder.Dated
import ExpiringCache.Proofs.Store.Kept
import ExpiringCache.Proofs.Store.SweepEffect

/-!
# Stores of which one has been swept more often

A store trails another if it was swept more often on the same way. Under each key both have the
same, except that the swept store may have nothing where the other one has an expired entry. While
the clock moves forward within its span such an entry stays expired, and a put replaces it with the
very holder that it publishes where there is none, as long as the policy decides alike on both. So
every operation gives the same on both stores, or says not found for expired.
-/
namespace ExpiringCache

variable {α : Type}

/-- What two stores have under one key if the second one has been swept more often. -/
structure Behind (clock : Clock) (entry further : Option (Handle × Holder α)) : Prop where
  dated : ∀ found, entry = some found → found.2.Dated clock.base
  stands : further = entry ∨
    further = none ∧ ∃ found, entry = some found ∧ found.2.isInvalid clock = .ok true

theorem Behind.none (clock : Clock) : Behind clock (none : Option (Handle × Holder α)) none :=
  ⟨nofun, .inl rfl⟩

theorem Behind.same {clock : Clock} {found : Handle × Holder α}
    (dated : found.2.Dated clock.base) : Behind clock (some found) (some found) :=
  ⟨fun _ heq => Option.some.inj heq ▸ dated, .inl rfl⟩

/-- What is behind stays so while the clock moves forward. -/
theorem Behind.later {clock moved : Clock} {entry further : Option (Handle × Holder α)}
    (h : Behind clock entry further) (base : moved.base = clock.base)
    (forward : clock.now.toInt ≤ moved.now.toInt) : Behind moved entry further where
  dated := base ▸ h.dated
  stands := by
    refine h.stands.imp_right ?_
    rintro ⟨hgone, found, hfound, hinvalid⟩
    exact ⟨hgone, found, hfound, Holder.isInvalidAt_later base forward hinvalid⟩

/-- Counters that differ at most in what was taken out. -/
structure Counters.SameReads (first second : Counters) : Prop where
  hits : second.hits = first.hits
  misses : second.misses = first.misses
  puts : second.puts = first.puts

theorem Counters.SameReads.symm {first second : Counters} (h : first.SameReads second) :
    second.SameReads first :=
  ⟨h.hits.symm, h.misses.symm, h.puts.symm⟩

theorem Counters.SameReads.trans {first second third : Counters} (h : first.SameReads second)
    (h' : second.SameReads third) : first.SameReads third :=
  ⟨h'.hits.trans h.hits, h'.misses.trans h.misses, h'.puts.trans h.puts⟩

theorem Counters.SameReads.record {first second : Counters} (h : first.SameReads second)
    (event : Event) : (first.record event).SameReads (second.record event) := by
  cases event <;> exact ⟨by simp [Counters.record, h.hits], by simp [Counters.record, h.misses],
    by simp [Counters.record, h.puts]⟩

namespace Store

theorem isExpired_iff_of_find? {store : Store α} {key : String} {found : Handle × Holder α}
    (hk : store.find? key = some found) :
    store.isExpired found.1 = true ↔ found.2.isInvalid store.clock = .ok true := by
  rw [isExpired, (find?_eq_some_iff.mp hk).2, Option.any_some]
  cases found.2.isInvalid store.clock <;> simp

theorem answer_remove (store : Store α) (key : String) :
    (store.remove key).1 =
      if (store.find? key).isSome then .ok () else .error (.notFound key) := by
  unfold remove
  cases store.find? key <;> rfl

theorem find?_remove {store : Store α} (sound : store.Sound) (key name : String) :
    (store.remove key).2.find? name = if name = key then none else store.find? name := by
  unfold remove
  cases hk : store.find? key with
  | none =>
    by_cases heq : name = key
    · simp [heq, hk]
    · simp [heq]
  | some found =>
    have hdiscard := find?_discard sound (find?_eq_some_iff.mp hk).1 name
    simp only
    split <;> exact hdiscard

theorem sameReads_remove (store : Store α) (key : String) :
    store.counters.SameReads (store.remove key).2.counters := by
  unfold remove
  split
  next => exact ⟨rfl, rfl, rfl⟩
  next =>
    simp only
    split <;> exact ⟨rfl, rfl, rfl⟩

theorem sameReads_sweep (store : Store α) :
    store.counters.SameReads store.sweep.2.counters := by
  by_cases checks : store.Checks
  · rw [sweep_of_checks checks, counters_discardAll]
    exact ⟨rfl, rfl, rfl⟩
  · obtain ⟨overflow, hsweep⟩ := sweep_of_not_checks checks
    rw [hsweep]
    exact ⟨rfl, rfl, rfl⟩

variable {first second : Store α}

/-- A store `second` that is like `first` but for further sweeps. -/
structure Trails (first second : Store α) : Prop where
  kept : first.Kept second
  covers : first.clock.Covers first.clock.now
  /-- The policy decides alike on creations and on updates. -/
  uniform : ∃ count, ∀ update, first.policy.decision update = .seconds count
  size : second.pool.size = first.pool.size
  counters : first.counters.SameReads second.counters
  sound : first.Sound
  soundFurther : second.Sound
  entries : ∀ key, Behind first.clock (first.find? key) (second.find? key)

theorem Trails.next (h : first.Trails second) {next further : Store α} (kept : first.Kept next)
    (keptFurther : second.Kept further) (size : further.pool.size = next.pool.size)
    (counters : next.counters.SameReads further.counters) (sound : next.Sound)
    (soundFurther : further.Sound)
    (entries : ∀ key, Behind first.clock (next.find? key) (further.find? key)) :
    next.Trails further where
  kept := (kept.symm.trans h.kept).trans keptFurther
  covers := kept.clock ▸ h.covers
  uniform := kept.policy ▸ h.uniform
  size := size
  counters := counters
  sound := sound
  soundFurther := soundFurther
  entries := kept.clock ▸ entries

theorem Trails.record (h : first.Trails second) (event : Event) :
    (first.record event).Trails (second.record event) :=
  h.next ⟨rfl, rfl, rfl, rfl, rfl⟩ ⟨rfl, rfl, rfl, rfl, rfl⟩ h.size (h.counters.record event)
    ⟨h.sound.complete, h.sound.unique⟩ ⟨h.soundFurther.complete, h.soundFurther.unique⟩ h.entries

/-- The same change of a holder that both stores have under a key. -/
theorem Trails.modify (h : first.Trails second) {key : String} {handle : Handle}
    {holder : Holder α} (hk : first.find? key = some (handle, holder))
    (hfurther : second.find? key = some (handle, holder)) {f : Holder α → Holder α}
    (change : ∀ pool, holder.Change first.clock pool (f holder))
    (dated : (f holder).Dated first.clock.base) :
    (first.modify handle f).Trails (second.modify handle f) := by
  have hmoves := moves_modify (find?_eq_some_iff.mp hk).2 (change _)
  have hmovesFurther := moves_modify (find?_eq_some_iff.mp hfurther).2
    (h.kept.clock.symm ▸ change second.pool)
  refine h.next ⟨rfl, rfl, rfl, rfl, rfl⟩ ⟨rfl, rfl, rfl, rfl, rfl⟩ ?_ h.counters
    (hmoves.sound h.sound) (hmovesFurther.sound h.soundFurther) ?_
  · rw [hmoves.size, hmovesFurther.size, h.size]
  · intro name
    rw [find?_modify_eq h.sound hk, find?_modify_eq h.soundFurther hfurther]
    split
    next => exact .same dated
    next => exact h.entries name

/-- A get has the same answer on both stores, or finds nothing where an entry is expired. -/
theorem Trails.get (h : first.Trails second) (codec : Codec α) (key : String) :
    ((second.get codec key).1 = (first.get codec key).1 ∨
      (first.get codec key).1 = .error (.expired key) ∧
        (second.get codec key).1 = .error (.notFound key)) ∧
      (first.get codec key).2.Trails (second.get codec key).2 := by
  rcases (h.entries key).stands with hsame | ⟨hgone, ⟨handle, holder⟩, hk, hinvalid⟩
  · cases hk : first.find? key with
    | none =>
      simp only [Store.get, hsame, hk]
      exact ⟨.inl trivial, h.record .miss⟩
    | some found =>
      obtain ⟨handle, holder⟩ := found
      have hfurther := hsame.trans hk
      have hdated := (h.entries key).dated _ hk
      have haccess := h.modify hk hfurther (fun _ => ⟨_, rfl, .get⟩) (hdated.access h.covers)
      rw [get_of_find? codec hk, get_of_find? codec hfurther, h.kept.clock]
      cases holder.isInvalid first.clock with
      | error overflow => exact ⟨.inl rfl, h⟩
      | ok invalid =>
        cases invalid with
        | true => exact ⟨.inl rfl, h.record .miss⟩
        | false =>
          cases holder.peek codec with
          | error reason => exact ⟨.inl rfl, haccess⟩
          | ok read =>
            cases read with
            | none => exact ⟨.inl rfl, haccess.record .miss⟩
            | some value =>
              have huse := haccess.modify (find?_modify_self hk _)
                (find?_modify_self hfurther _) (fun _ => ⟨_, rfl, .addUses 1⟩)
                ((hdated.access h.covers).addUses 1)
              exact ⟨.inl rfl, huse.record .hit⟩
  · rw [get_of_find? codec hk]
    simp only [Store.get, hgone, hinvalid]
    exact ⟨.inr ⟨trivial, trivial⟩, h.record .miss⟩

theorem Trails.peek (h : first.Trails second) (codec : Codec α) (key : String) :
    second.peek codec key = first.peek codec key ∨
      first.peek codec key = .error (.expired key) ∧
        second.peek codec key = .error (.notFound key) := by
  rw [← answer_get codec first key, ← answer_get codec second key]
  exact (h.get codec key).1

/-- The limits of a new holder do not depend on the one that it replaces. -/
theorem Trails.assignLimits (h : first.Trails second) (previous other : Option (Holder α))
    (words : List UInt32) (fresh : Holder α) :
    second.assignLimits other words fresh = first.assignLimits previous words fresh := by
  obtain ⟨count, hcount⟩ := h.uniform
  have hfollowed : ∀ previous : Option (Holder α),
      fresh.followPolicy first.policy previous.isSome previous = fresh.setIdle count := by
    intro previous
    simp only [Holder.followPolicy, hcount]
  simp only [Store.assignLimits, h.kept.policy, h.kept.maxCache, h.kept.jitter, hfollowed]

theorem Trails.publish (h : first.Trails second) (key : String) {holder : Holder α}
    {payload : Payload α} (hpayload : holder.payload = some payload)
    (complete : holder.isComplete = true) (dated : holder.Dated first.clock.base) :
    (first.publish key holder).Trails (second.publish key holder) := by
  have hmoves := moves_publish h.sound key hpayload complete
  have hmovesFurther := moves_publish h.soundFurther key hpayload complete
  have hcounters : ∀ store : Store α, (store.publish key holder).counters = store.counters := by
    intro store
    unfold Store.publish
    split <;> rfl
  refine h.next (first.kept_publish key holder) (second.kept_publish key holder) ?_ ?_
    (hmoves.sound h.sound) (hmovesFurther.sound h.soundFurther) ?_
  · simp only [hmoves.size, hmovesFurther.size, Mark.payloads_append, payloads_releaseMarks, h.size]
  · rw [hcounters, hcounters]
    exact h.counters
  · intro name
    rw [find?_publish_eq h.sound, find?_publish_eq h.soundFurther, h.size]
    split
    next => exact .same dated
    next => exact h.entries name

theorem Trails.put (h : first.Trails second) (codec : Codec α) (key : String) (value : α)
    (words : List UInt32) :
    (second.put codec key value words).1 = (first.put codec key value words).1 ∧
      (first.put codec key value words).2.Trails (second.put codec key value words).2 := by
  unfold Store.put
  rw [Holder.new_eq, Holder.new_eq, h.kept.mode, h.kept.clock]
  cases Holder.store codec first.mode value with
  | error reason => exact ⟨rfl, h⟩
  | ok kept =>
    obtain ⟨form, payload⟩ := kept
    let fresh := Holder.fresh first.clock form payload
    let previous := (first.find? key).map Prod.snd
    have hfresh : fresh.Dated first.clock.base :=
      ⟨Clock.fits_offsetNow h.covers, Clock.fits_offsetNow h.covers⟩
    obtain ⟨idle, cache, hlimits⟩ := first.exists_assignLimits previous words fresh
    have hpublish := h.publish key (congrArg Holder.payload hlimits)
      (congrArg Holder.isComplete hlimits) (hfresh.assignLimits first previous words)
    simp only [Except.map, h.assignLimits previous]
    exact ⟨trivial, hpublish.record .put⟩

/-- A remove has the same answer on both stores, or finds nothing where an entry is expired. -/
theorem Trails.remove (h : first.Trails second) (codec : Codec α) (key : String) :
    ((second.remove key).1 = (first.remove key).1 ∨
      first.peek codec key = .error (.expired key) ∧ (first.remove key).1 = .ok () ∧
        (second.remove key).1 = .error (.notFound key)) ∧
      (first.remove key).2.Trails (second.remove key).2 := by
  refine ⟨?_, ?_⟩
  · rw [answer_remove, answer_remove]
    rcases (h.entries key).stands with hsame | ⟨hgone, found, hk, hinvalid⟩
    · exact .inl (by rw [hsame])
    · refine .inr ⟨?_, by simp [hk], by simp [hgone]⟩
      rw [peek_of_find? codec hk, hinvalid]
  · have hmoves := first.moves_remove key
    have hmovesFurther := second.moves_remove key
    have hcounters := (first.sameReads_remove key).symm.trans h.counters
    refine h.next (first.kept_remove key) (second.kept_remove key) ?_
      (hcounters.trans (second.sameReads_remove key)) (hmoves.sound h.sound)
      (hmovesFurther.sound h.soundFurther) ?_
    · simp only [hmoves.size, hmovesFurther.size, payloads_releaseMarks, h.size]
    · intro name
      rw [find?_remove h.sound, find?_remove h.soundFurther]
      split
      next => exact .none _
      next => exact h.entries name

theorem Trails.checks (h : first.Trails second) : first.Checks := by
  intro key handle holder hk
  exact ⟨_, ((h.entries key).dated _ hk).isInvalidAt _⟩

/-- What the swept store has under a key, the other one has too. -/
theorem Trails.find?_of_further (h : first.Trails second) {key : String}
    {found : Handle × Holder α} (hfurther : second.find? key = some found) :
    first.find? key = some found := by
  rcases (h.entries key).stands with hsame | ⟨hgone, -⟩
  · exact hsame.symm.trans hfurther
  · simp [hgone] at hfurther

theorem Trails.checksFurther (h : first.Trails second) : second.Checks := by
  intro key handle holder hk
  rw [h.kept.clock]
  exact h.checks key handle holder (h.find?_of_further hk)

theorem Trails.isExpired_further (h : first.Trails second) {key : String}
    {found : Handle × Holder α} (hfurther : second.find? key = some found) :
    second.isExpired found.1 = first.isExpired found.1 := by
  rw [Bool.eq_iff_iff, isExpired_iff_of_find? hfurther,
    isExpired_iff_of_find? (h.find?_of_further hfurther), h.kept.clock]

/-- A further sweep of the store that has been swept more often. -/
theorem Trails.sweepFurther (h : first.Trails second) : first.Trails second.sweep.2 := by
  have hmoves := second.moves_sweep
  have hsize : second.sweep.2.pool.size = first.pool.size := by
    rw [hmoves.size, payloads_releaseMarks, h.size, List.length_nil, Nat.add_zero]
  refine h.next (.refl first) second.kept_sweep hsize (h.counters.trans second.sameReads_sweep)
    h.sound (hmoves.sound h.soundFurther) ?_
  intro key
  refine ⟨(h.entries key).dated, ?_⟩
  rw [find?_sweep h.checksFurther]
  cases hfurther : second.find? key with
  | none =>
    have hstands := (h.entries key).stands
    rw [hfurther] at hstands
    exact hstands
  | some found =>
    have hk := h.find?_of_further hfurther
    cases hexpired : first.isExpired found.1 with
    | true =>
      refine .inr ⟨?_, found, hk, (isExpired_iff_of_find? hk).mp hexpired⟩
      simp [Option.filter, h.isExpired_further hfurther, hexpired]
    | false =>
      refine .inl ?_
      simp [Option.filter, h.isExpired_further hfurther, hexpired, hk]

/-- A sweep of both stores. -/
theorem Trails.sweep (h : first.Trails second) : first.sweep.2.Trails second.sweep.2 := by
  have hmoves := first.moves_sweep
  have hmovesFurther := second.moves_sweep
  have hcounters := first.sameReads_sweep.symm.trans h.counters
  refine h.next first.kept_sweep second.kept_sweep ?_ (hcounters.trans second.sameReads_sweep)
    (hmoves.sound h.sound) (hmovesFurther.sound h.soundFurther) ?_
  · simp only [hmoves.size, hmovesFurther.size, payloads_releaseMarks, h.size]
  · intro key
    rw [find?_sweep h.checks, find?_sweep h.checksFurther]
    cases hfurther : second.find? key with
    | none =>
      rcases (h.entries key).stands with hsame | ⟨-, found, hk, hinvalid⟩
      · rw [← hsame, hfurther]
        exact .none _
      · have hexpired := (isExpired_iff_of_find? hk).mpr hinvalid
        simp only [hk, Option.filter, hexpired]
        exact .none _
    | some found =>
      have hk := h.find?_of_further hfurther
      simp only [hk, Option.filter, h.isExpired_further hfurther]
      split
      next => exact .same ((h.entries key).dated found hk)
      next => exact .none _

/-- The holders that are expired in the swept store are so in the other one, and have as much of
their values. -/
theorem Trails.expired_of_further (h : first.Trails second) {handle : Handle}
    (hfurther : handle ∈ second.expiredEntries.entries.map Prod.snd) :
    handle ∈ first.expiredEntries.entries.map Prod.snd ∧
      second.isLive handle = first.isLive handle := by
  obtain ⟨⟨key, hget⟩, hexpired⟩ := mem_handles_expiredEntries.mp hfurther
  obtain ⟨holder, hpool, -⟩ := h.soundFurther.complete key handle hget
  have hfind : second.find? key = some (handle, holder) := find?_eq_some_iff.mpr ⟨hget, hpool⟩
  obtain ⟨hget', hpool'⟩ := find?_eq_some_iff.mp (h.find?_of_further hfind)
  refine ⟨mem_handles_expiredEntries.mpr ⟨⟨key, hget'⟩, ?_⟩, ?_⟩
  · exact (h.isExpired_further hfind).symm.trans hexpired
  · rw [isLive, isLive, hpool, hpool']

/-- Both sweeps go through, and the one of the swept store counts no more than the other. -/
theorem Trails.count_sweep (h : first.Trails second) :
    ∃ count fewer, first.sweep.1 = .ok count ∧ second.sweep.1 = .ok fewer ∧ fewer ≤ count := by
  have hnodup : (second.expiredEntries.entries.map Prod.snd).Nodup :=
    nodup_handles h.soundFurther fun _ => mapped_expiredEntries
  have hsubset : second.expiredEntries.entries.map Prod.snd ⊆
      first.expiredEntries.entries.map Prod.snd :=
    fun _ hfurther => (h.expired_of_further hfurther).1
  have hlive : (second.expiredEntries.entries.map Prod.snd).countP second.isLive =
      (second.expiredEntries.entries.map Prod.snd).countP first.isLive := by
    apply List.countP_congr
    intro handle hfurther
    rw [(h.expired_of_further hfurther).2]
  refine ⟨_, _, congrArg Prod.fst (sweep_eq h.sound h.checks),
    congrArg Prod.fst (sweep_eq h.soundFurther h.checksFurther), ?_⟩
  rw [hlive]
  exact (List.subperm_of_subset hnodup hsubset).countP_le _

theorem Trails.moveTo (h : first.Trails second) {clock : Clock}
    (base : clock.base = first.clock.base) (covers : clock.Covers clock.now)
    (forward : first.clock.now.toInt ≤ clock.now.toInt) :
    ({ first with clock := clock } : Store α).Trails { second with clock := clock } where
  kept := ⟨rfl, h.kept.policy, h.kept.mode, h.kept.maxCache, h.kept.jitter⟩
  covers := covers
  uniform := h.uniform
  size := h.size
  counters := h.counters
  sound := ⟨h.sound.complete, h.sound.unique⟩
  soundFurther := ⟨h.soundFurther.complete, h.soundFurther.unique⟩
  entries := fun key => (h.entries key).later base forward

end Store

end ExpiringCache
