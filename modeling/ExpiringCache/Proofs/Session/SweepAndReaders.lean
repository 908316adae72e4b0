import ExpiringCache.Proofs.Session.Publication
import ExpiringCache.Proofs.Store.Freshness
import ExpiringCache.Proofs.Store.Kept
import ExpiringCache.Proofs.Store.SweepEffect

/-!
# The sweep and the readers agree

A key leaves a store in a sweep exactly if a reader would find it expired at that reading of the
clock, whatever the reason. The holder of a key that leaves is released, every other holder of the
pool stays as it is, and a second sweep finds nothing to do. If one check overflows, so does the
sweep, before it has changed anything.
-/
namespace ExpiringCache

variable {α : Type}

namespace Store

/-- What readers of a store find expired is what its check finds invalid. -/
theorem peek_eq_expired_iff (codec : Codec α) {store : Store α} (sound : store.Sound)
    {key : String} {handle : Handle} (hk : store.entries.get? key = some handle) :
    store.peek codec key = .error (.expired key) ↔ store.isExpired handle = true := by
  obtain ⟨holder, hpool, -⟩ := sound.complete key handle hk
  rw [peek_of_find? codec (find?_eq_some_iff.mpr ⟨hk, hpool⟩), isExpired, hpool, Option.any_some]
  cases hinvalid : holder.isInvalid store.clock with
  | error overflow => simp
  | ok invalid =>
    cases invalid with
    | true => simp
    | false =>
      have hlive := (Holder.of_isInvalid_eq_ok_false hinvalid).2.1
      cases hpeek : holder.peek codec with
      | error reason => simp
      | ok read =>
        cases read with
        | none => simp [Holder.isReleased_of_peek hpeek] at hlive
        | some value => simp

/-- How the store after a sweep stands to the one before, and to what readers find there. -/
structure ExactlySwept (codec : Codec α) (store swept : Store α) (count : Nat) : Prop where
  /-- Recorded reads and others agree. -/
  readers : ∀ key, (store.get codec key).1 = store.peek codec key
  /-- A key that readers find expired was there and leaves. -/
  leaves : ∀ key, store.peek codec key = .error (.expired key) →
    (store.entries.get? key).isSome = true ∧ swept.entries.get? key = none
  /-- Under any other key the store stays as it is. -/
  stays : ∀ key, store.peek codec key ≠ .error (.expired key) →
    swept.entries.get? key = store.entries.get? key
  /-- A holder that has lost its key is released. -/
  released : ∀ key handle, store.entries.get? key = some handle →
    swept.entries.get? key = none → swept.isReleased handle = true
  /-- A holder that has not lost a key is as it was. -/
  kept : ∀ handle, (∀ key, store.entries.get? key = some handle →
    swept.entries.get? key = some handle) → swept.pool[handle]? = store.pool[handle]?
  /-- The sweep counts the keys that leave whose holders nobody had released. -/
  counts : count = store.entries.entries.countP fun entry =>
    (swept.entries.get? entry.1).isNone && store.isLive entry.2
  /-- The expirations grow by the same number. -/
  counters : swept.counters =
    { store.counters with expirations := store.counters.expirations + UInt64.ofNat count }
  /-- A second sweep counts nothing and changes nothing. -/
  again : swept.sweep = (.ok 0, swept)

variable {store : Store α}

theorem isExpired_sweep (checks : store.Checks) {handle : Handle}
    (hstays : store.isExpired handle = false) : store.sweep.2.isExpired handle = false := by
  have hkeeps : handle ∉ store.expiredEntries.entries.map Prod.snd := by
    rw [mem_handles_expiredEntries, hstays]
    simp
  rw [isExpired, pool_sweep checks, if_neg hkeeps, store.kept_sweep.clock]
  exact hstays

/-- Whatever is left after a sweep is not expired. -/
theorem expiredEntries_sweep (checks : store.Checks) :
    store.sweep.2.expiredEntries.entries = [] := by
  rw [List.eq_nil_iff_forall_not_mem]
  rintro ⟨key, handle⟩ hmem
  obtain ⟨hentry, hexpired⟩ := List.mem_filter.mp hmem
  have hleft := KeyTable.mem_entries_iff.mp hentry
  rw [entries_sweep checks, Option.filter_eq_some_iff] at hleft
  have hopen : store.sweep.2.isExpired handle = false :=
    isExpired_sweep checks (by simpa using hleft.2)
  simp [hopen] at hexpired

theorem checks_sweep (checks : store.Checks) : store.sweep.2.Checks := by
  intro key handle holder hk
  rw [find?_sweep checks, Option.filter_eq_some_iff] at hk
  rw [store.kept_sweep.clock]
  exact checks key handle holder hk.1

theorem sweep_sweep (checks : store.Checks) : store.sweep.2.sweep = (.ok 0, store.sweep.2) := by
  rw [sweep_of_checks (checks_sweep checks), expiredEntries_sweep checks]
  rfl

theorem exactlySwept (codec : Codec α) (sound : store.Sound) (checks : store.Checks) :
    ∃ count, store.sweep.1 = .ok count ∧ store.ExactlySwept codec store.sweep.2 count := by
  have hcount : store.sweep.1 =
      .ok ((store.expiredEntries.entries.map Prod.snd).countP store.isLive) := by
    rw [sweep_eq sound checks]
  refine ⟨_, hcount, ?_⟩
  constructor
  case readers => exact store.answer_get codec
  case leaves =>
    intro key hexpired
    cases hk : store.entries.get? key with
    | none => simp [peek, find?, hk] at hexpired
    | some handle =>
      rw [peek_eq_expired_iff codec sound hk] at hexpired
      rw [entries_sweep checks, hk]
      simp [Option.filter, hexpired]
  case stays =>
    intro key hopen
    rw [entries_sweep checks]
    cases hk : store.entries.get? key with
    | none => rfl
    | some handle =>
      rw [Ne, peek_eq_expired_iff codec sound hk] at hopen
      simp [Option.filter, hopen]
  case released =>
    intro key handle hk hgone
    obtain ⟨holder, hpool, -⟩ := sound.complete key handle hk
    rw [entries_sweep checks, hk, Option.filter_some] at hgone
    have hexpired : store.isExpired handle = true := by simpa using hgone
    rw [isReleased, pool_sweep checks,
      if_pos (mem_handles_expiredEntries.mpr ⟨⟨key, hk⟩, hexpired⟩), hpool]
    rfl
  case kept =>
    intro handle hkeys
    rw [pool_sweep checks, if_neg]
    rw [mem_handles_expiredEntries]
    rintro ⟨⟨key, hk⟩, hexpired⟩
    have hleft := hkeys key hk
    rw [entries_sweep checks, hk] at hleft
    simp [Option.filter, hexpired] at hleft
  case counts =>
    rw [expiredEntries, List.countP_map, KeyTable.filter, List.countP_filter]
    apply List.countP_congr
    intro entry hentry
    rw [entries_sweep checks, KeyTable.mem_entries_iff.mp hentry]
    cases hexpired : store.isExpired entry.2 <;> simp [Option.filter, hexpired]
  case counters =>
    rw [sweep_of_checks checks, counters_discardAll]
    rw [sweep_of_checks checks] at hcount
    rw [Except.ok.inj hcount]
  case again => exact sweep_sweep checks

end Store

namespace Session

theorem sound_after (codec : Codec α) (settings : Settings) (policy : Option ExpiryPolicy)
    (base : Int64) (requests : List (Request α)) :
    ((start settings policy base).after codec requests).store.Sound :=
  (moves_after codec (sound_start settings policy base) requests).sound
    (sound_start settings policy base)

/-- In every store that a session can reach: if no check of a published holder overflows, a sweep
takes out exactly the keys that readers find expired there, counts what it releases itself, and has
then nothing more to do; and if a check overflows, the sweep reports it and changes nothing. -/
theorem sweep_exact (codec : Codec α) (settings : Settings) (policy : Option ExpiryPolicy)
    (base : Int64) (requests : List (Request α)) :
    let store := ((start settings policy base).after codec requests).store
    (store.Checks →
      ∃ count, store.sweep.1 = .ok count ∧ store.ExactlySwept codec store.sweep.2 count) ∧
      (¬ store.Checks → ∃ overflow, store.sweep = (.error overflow, store)) :=
  ⟨Store.exactlySwept codec (sound_after codec settings policy base requests),
    Store.sweep_of_not_checks⟩

/-- One sweep meets a valid entry, one that was idle too long and one that another party has
released; another sweep meets an entry whose timestamp lies past the end of the 64-bit word. -/
theorem sweep_exact_mixed :
    let codec : Codec String := Codec.json .string
    let settings : Settings := { Settings.standard with defaultIdle := 10 }
    let mixed := ((start settings none 0).after codec
      [⟨.put "old" "u" [], none⟩, ⟨.advanceSeconds 8, none⟩, ⟨.put "new" "v" [], none⟩,
        ⟨.put "shared" "w" [], none⟩, ⟨.onSlot "s" (.take "shared"), none⟩,
        ⟨.onSlot "s" (.onHolder .release), none⟩, ⟨.advanceSeconds 3, none⟩]).store
    let late := ((start settings none 9223372036854775807).after codec
      [⟨.advanceMillis 1, none⟩, ⟨.put "k" "v" [], none⟩]).store
    mixed.Checks ∧ mixed.sweep.1.toOption = some 1 ∧
      (∃ count, mixed.sweep.1 = .ok count ∧ mixed.ExactlySwept codec mixed.sweep.2 count) ∧
      ¬ late.Checks ∧ ∃ overflow, late.sweep = (.error overflow, late) := by
  intro codec settings mixed late
  have hmixed : mixed.Checks := by decide +kernel
  have hlate : ¬ late.Checks := by decide +kernel
  exact ⟨hmixed, by decide +kernel, (sweep_exact codec settings none 0 _).1 hmixed, hlate,
    (sweep_exact codec settings none 9223372036854775807 _).2 hlate⟩

end Session

end ExpiringCache
