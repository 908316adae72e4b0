import ExpiringCache.Proofs.Store.Decomposition

/-!
# What a sweep takes out

If no check overflows, a sweep takes out the entries that are invalid at the reading of the clock
and no others. The other entries are looked up as before, and the sweep counts those of the
holders that it takes out whose value was still there.
-/
namespace ExpiringCache

namespace Store

variable {α : Type}

def isExpired (store : Store α) (handle : Handle) : Bool :=
  (store.pool[handle]?).any fun holder =>
    match holder.isInvalid store.clock with
    | .ok invalid => invalid
    | .error _ => false

def expiredEntries (store : Store α) : KeyTable Handle :=
  store.entries.filter fun _ handle => store.isExpired handle

/-- No check of a published holder overflows. -/
def Checks (store : Store α) : Prop :=
  ∀ key handle holder, store.find? key = some (handle, holder) →
    ∃ invalid, holder.isInvalid store.clock = .ok invalid

theorem expiredAmong_eq {store : Store α} {entries : List (String × Handle)}
    (h : ∀ key handle holder, (key, handle) ∈ entries → store.pool[handle]? = some holder →
      ∃ invalid, holder.isInvalid store.clock = .ok invalid) :
    store.expiredAmong entries =
      .ok (entries.filter fun entry => store.isExpired entry.2) := by
  induction entries with
  | nil => rfl
  | cons entry entries ih =>
    obtain ⟨key, handle⟩ := entry
    have hrest := ih fun key handle holder hmem =>
      h key handle holder (List.mem_cons_of_mem _ hmem)
    rw [List.filter_cons, expiredAmong, hrest]
    cases hpool : store.pool[handle]? with
    | none => simp [isExpired, hpool]
    | some holder =>
      obtain ⟨invalid, hinvalid⟩ := h key handle holder List.mem_cons_self hpool
      simp [isExpired, hpool, hinvalid]

theorem exists_isInvalid_of_expiredAmong {store : Store α} {entries found : List (String × Handle)}
    (h : store.expiredAmong entries = .ok found) {key : String} {handle : Handle}
    {holder : Holder α} (mem : (key, handle) ∈ entries)
    (hpool : store.pool[handle]? = some holder) :
    ∃ invalid, holder.isInvalid store.clock = .ok invalid := by
  induction entries generalizing found with
  | nil => cases mem
  | cons entry entries ih =>
    obtain ⟨name, other⟩ := entry
    simp only [expiredAmong] at h
    rcases List.mem_cons.mp mem with heq | hrest
    · obtain ⟨rfl, rfl⟩ := Prod.mk.inj heq
      simp only [hpool] at h
      cases hinvalid : holder.isInvalid store.clock with
      | error overflow => simp [hinvalid] at h
      | ok invalid => exact ⟨invalid, rfl⟩
    · split at h
      · exact ih h hrest
      · split at h
        · cases h
        · split at h
          · cases h
          next later => exact ih later hrest

theorem checks_of_expiredAmong {store : Store α} {found : List (String × Handle)}
    (h : store.expiredAmong store.entries.entries = .ok found) : store.Checks := by
  intro key handle holder hk
  obtain ⟨hget, hpool⟩ := find?_eq_some_iff.mp hk
  exact exists_isInvalid_of_expiredAmong h (KeyTable.mem_entries_iff.mpr hget) hpool

theorem expiredAmong_of_checks {store : Store α} (checks : store.Checks) :
    store.expiredAmong store.entries.entries = .ok store.expiredEntries.entries := by
  refine expiredAmong_eq ?_
  intro key handle holder hmem hpool
  exact checks key handle holder
    (find?_eq_some_iff.mpr ⟨KeyTable.mem_entries_iff.mp hmem, hpool⟩)

theorem find?_discard {store : Store α} (sound : store.Sound) {key : String} {handle : Handle}
    (hk : store.entries.get? key = some handle) (name : String) :
    (store.discard key handle).store.find? name =
      if name = key then none else store.find? name := by
  have hentries : (store.discard key handle).store.entries = store.entries.erase key := rfl
  by_cases heq : name = key
  · rw [if_pos heq, find?, hentries, KeyTable.get?_erase, if_pos heq]
  · rw [if_neg heq, ← find?_modify_of_ne sound hk heq Holder.release, find?, hentries,
      KeyTable.get?_erase, if_neg heq]
    rfl

theorem sound_discard {store : Store α} (sound : store.Sound) {key : String} {handle : Handle}
    (hk : store.entries.get? key = some handle) : (store.discard key handle).store.Sound := by
  refine (moves_discard ?_).sound sound
  intro other hother
  exact Option.some.inj (hother.symm.trans hk)

/-- Releasing distinct holders wins as often as one of them still has its value. -/
theorem countP_releaseMarks_of_nodup {store : Store α} {handles : List Handle}
    (distinct : handles.Nodup) :
    (store.releaseMarks handles).countP Mark.isWon = handles.countP store.isLive := by
  induction handles generalizing store with
  | nil => rfl
  | cons handle handles ih =>
    rw [List.nodup_cons] at distinct
    have hothers : handles.countP (store.release handle).isLive = handles.countP store.isLive := by
      apply List.countP_congr
      intro other hother
      have hne : handle ≠ other := by
        rintro rfl
        exact distinct.1 hother
      rw [isLive, release, pool_modify, if_neg hne, isLive]
    rw [releaseMarks, List.countP_cons, ih distinct.2, hothers, List.countP_cons]
    rfl

theorem nodup_handles {store : Store α} (sound : store.Sound) {table : KeyTable Handle}
    (mapped : ∀ entry ∈ table.entries, store.entries.get? entry.1 = some entry.2) :
    (table.entries.map Prod.snd).Nodup := by
  have hnames : table.entries.Pairwise fun entry other => entry.1 ≠ other.1 :=
    List.pairwise_map.mp table.nodup
  rw [List.Nodup, List.pairwise_map]
  refine hnames.imp_of_mem ?_
  intro entry other hentry hother hne heq
  exact hne (sound.unique _ _ _ (mapped entry hentry) (heq ▸ mapped other hother))

theorem entries_discardAll (found : List (String × Handle)) (store : Store α) (key : String) :
    (discardAll found store).store.entries.get? key =
      if key ∈ found.map Prod.fst then none else store.entries.get? key := by
  induction found generalizing store with
  | nil => rfl
  | cons entry found ih =>
    have hlater : (discardAll (entry :: found) store).store.entries.get? key =
        if key ∈ found.map Prod.fst then none else (store.entries.erase entry.1).get? key := by
      rw [discardAll]
      split
      next => exact ih ((store.discard entry.1 entry.2).store.record .expiration)
      next => exact ih (store.discard entry.1 entry.2).store
    rw [hlater, KeyTable.get?_erase]
    by_cases heq : key = entry.1 <;>
      simp only [heq, List.map_cons, List.mem_cons, true_or, false_or, if_true, if_false, ite_self]

theorem pool_discardAll (found : List (String × Handle)) (store : Store α) (handle : Handle) :
    (discardAll found store).store.pool[handle]? =
      if handle ∈ found.map Prod.snd then (store.pool[handle]?).map Holder.release
      else store.pool[handle]? := by
  induction found generalizing store with
  | nil => rfl
  | cons entry found ih =>
    have hlater : (discardAll (entry :: found) store).store.pool[handle]? =
        if handle ∈ found.map Prod.snd then
          ((store.release entry.2).pool[handle]?).map Holder.release
        else (store.release entry.2).pool[handle]? := by
      rw [discardAll]
      split
      next => exact ih ((store.discard entry.1 entry.2).store.record .expiration)
      next => exact ih (store.discard entry.1 entry.2).store
    rw [hlater, release, pool_modify]
    by_cases heq : handle = entry.2
    · cases store.pool[handle]? <;> simp [heq, Holder.release]
    · simp only [Ne.symm heq, heq, List.map_cons, List.mem_cons, false_or, if_false]

theorem counters_discardAll (found : List (String × Handle)) (store : Store α) :
    (discardAll found store).store.counters = { store.counters with
      expirations := store.counters.expirations +
        UInt64.ofNat (discardAll found store).released } := by
  induction found generalizing store with
  | nil => simp [discardAll]
  | cons entry found ih =>
    rw [discardAll]
    split
    next =>
      have hlater := ih ((store.discard entry.1 entry.2).store.record .expiration)
      refine hlater.trans ?_
      rw [UInt64.ofNat_add, UInt64.add_comm (UInt64.ofNat _), ← UInt64.add_assoc]
      rfl
    next => exact ih (store.discard entry.1 entry.2).store

theorem mapped_expiredEntries {store : Store α} {entry : String × Handle}
    (h : entry ∈ store.expiredEntries.entries) : store.entries.get? entry.1 = some entry.2 := by
  have hget : (store.expiredEntries).get? entry.1 = some entry.2 := KeyTable.mem_entries_iff.mp h
  rw [expiredEntries, KeyTable.get?_filter, Option.filter_eq_some_iff] at hget
  exact hget.1

theorem mem_names_expiredEntries {store : Store α} {key : String} :
    key ∈ store.expiredEntries.entries.map Prod.fst ↔
      ∃ handle, store.entries.get? key = some handle ∧ store.isExpired handle = true := by
  rw [KeyTable.mem_names_iff, expiredEntries, KeyTable.get?_filter, Option.isSome_iff_exists]
  simp only [Option.filter_eq_some_iff]

theorem mem_handles_expiredEntries {store : Store α} {handle : Handle} :
    handle ∈ store.expiredEntries.entries.map Prod.snd ↔
      (∃ key, store.entries.get? key = some handle) ∧ store.isExpired handle = true := by
  rw [List.mem_map]
  constructor
  · rintro ⟨⟨key, _⟩, hmem, rfl⟩
    obtain ⟨hentry, hexpired⟩ := List.mem_filter.mp hmem
    exact ⟨⟨key, KeyTable.mem_entries_iff.mp hentry⟩, hexpired⟩
  · rintro ⟨⟨key, hkey⟩, hexpired⟩
    exact ⟨(key, handle), List.mem_filter.mpr ⟨KeyTable.mem_entries_iff.mpr hkey, hexpired⟩, rfl⟩

/-- A sweep whose checks all go through takes the expired entries out. -/
theorem sweep_of_checks {store : Store α} (checks : store.Checks) :
    store.sweep = (.ok (discardAll store.expiredEntries.entries store).released,
      (discardAll store.expiredEntries.entries store).store) := by
  rw [sweep, expiredAmong_of_checks checks]

/-- A sweep with a check that overflows changes nothing. -/
theorem sweep_of_not_checks {store : Store α} (h : ¬ store.Checks) :
    ∃ overflow, store.sweep = (.error overflow, store) := by
  cases hfound : store.expiredAmong store.entries.entries with
  | error overflow => exact ⟨overflow, by rw [sweep, hfound]⟩
  | ok found => exact absurd (checks_of_expiredAmong hfound) h

/-- A sweep whose checks all go through counts the expired holders that still had their values. -/
theorem sweep_eq {store : Store α} (sound : store.Sound) (checks : store.Checks) :
    store.sweep =
      (.ok ((store.expiredEntries.entries.map Prod.snd).countP store.isLive),
        (discardAll store.expiredEntries.entries store).store) := by
  have hdistinct : (store.expiredEntries.entries.map Prod.snd).Nodup :=
    nodup_handles sound fun _ => mapped_expiredEntries
  rw [sweep_of_checks checks, released_discardAll, countP_releaseMarks_of_nodup hdistinct]

/-- The checks of a store go through exactly if its sweep does. -/
theorem checks_iff {store : Store α} : store.Checks ↔ store.sweep.1.isOk = true := by
  constructor
  · intro checks
    rw [sweep_of_checks checks]
    rfl
  · intro hsweep
    refine Classical.byContradiction fun hlate => ?_
    obtain ⟨overflow, herror⟩ := sweep_of_not_checks hlate
    rw [herror] at hsweep
    cases hsweep

instance (store : Store α) : Decidable store.Checks := decidable_of_iff _ checks_iff.symm

/-- A sweep whose checks all go through leaves the entries that were not expired. -/
theorem entries_sweep {store : Store α} (checks : store.Checks) (key : String) :
    store.sweep.2.entries.get? key =
      (store.entries.get? key).filter fun handle => !store.isExpired handle := by
  have hmem : key ∈ store.expiredEntries.entries.map Prod.fst ↔
      ∃ handle, store.entries.get? key = some handle ∧ store.isExpired handle = true :=
    mem_names_expiredEntries
  rw [sweep_of_checks checks, entries_discardAll]
  cases hk : store.entries.get? key with
  | none => simp
  | some handle =>
    simp only [hk, Option.some.injEq, exists_eq_left'] at hmem
    cases hexpired : store.isExpired handle with
    | true => simp [hmem, hexpired, Option.filter]
    | false => simp [hmem, hexpired, Option.filter]

/-- A sweep releases the holders of the expired entries and leaves all other holders alone. -/
theorem pool_sweep {store : Store α} (checks : store.Checks) (handle : Handle) :
    store.sweep.2.pool[handle]? =
      if handle ∈ store.expiredEntries.entries.map Prod.snd then
        (store.pool[handle]?).map Holder.release
      else store.pool[handle]? := by
  rw [sweep_of_checks checks, pool_discardAll]

/-- After a sweep the entries that were not expired are looked up as before. -/
theorem find?_sweep {store : Store α} (checks : store.Checks) (key : String) :
    store.sweep.2.find? key =
      (store.find? key).filter fun found => !store.isExpired found.1 := by
  unfold find?
  rw [entries_sweep checks]
  cases store.entries.get? key with
  | none => rfl
  | some handle =>
    cases hexpired : store.isExpired handle with
    | true => cases hpool : store.pool[handle]? <;> simp [Option.filter, hexpired, hpool]
    | false =>
      have hstays : handle ∉ store.expiredEntries.entries.map Prod.snd := by
        rw [mem_handles_expiredEntries, hexpired]
        simp
      simp only [Option.filter, hexpired, Bool.not_false, if_true, pool_sweep checks,
        if_neg hstays]
      cases store.pool[handle]? <;> simp [hexpired]

end Store

end ExpiringCache
