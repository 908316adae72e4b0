import ExpiringCache.Proofs.Store.Moves
import ExpiringCache.Proofs.Store.NewEntry
import ExpiringCache.Store.Sweep

/-!
# The operations of a store as moves

Each operation of a store is a sequence of moves, whether it succeeds or not. The marks that it
leaves are read off the store before it: the holders that it releases, in the order in which it
releases them, and the holder that it makes.
-/
namespace ExpiringCache.Store

variable {α : Type}

theorem isLive_release_self (store : Store α) (handle : Handle) :
    (store.release handle).isLive handle = false := by
  rw [isLive, release, pool_modify, if_pos rfl]
  cases store.pool[handle]? <;> rfl

theorem isLive_add_of_lt {store : Store α} {handle : Handle} (hlt : handle < store.pool.size)
    (holder : Holder α) : (store.add holder).isLive handle = store.isLive handle := by
  rw [isLive, add, Array.getElem?_push_lt hlt, isLive, Array.getElem?_eq_getElem hlt]

/-- The marks of releases depend on the pool alone. -/
theorem releaseMarks_congr {store other : Store α} (h : store.pool = other.pool)
    (handles : List Handle) : store.releaseMarks handles = other.releaseMarks handles := by
  induction handles generalizing store other with
  | nil => rfl
  | cons handle handles ih =>
    simp only [releaseMarks, isLive, h]
    rw [ih]
    simp [release, modify, h]

theorem payloads_releaseMarks (store : Store α) (handles : List Handle) :
    Mark.payloads (store.releaseMarks handles) = [] := by
  induction handles generalizing store with
  | nil => rfl
  | cons handle handles ih => exact ih (store.release handle)

theorem moves_discard {store : Store α} {key : String} {handle : Handle}
    (h : ∀ other, store.entries.get? key = some other → other = handle) :
    Moves store [.released handle (store.isLive handle)] (store.discard key handle).store := by
  refine .step (.release handle) (Move.moves (.unlink key ?_))
  intro other hother
  obtain rfl : other = handle := h other hother
  exact isLive_release_self store other

theorem moves_discardAll {store : Store α} {found : List (String × Handle)}
    (h : ∀ entry ∈ found, ∀ other, store.entries.get? entry.1 = some other → other = entry.2) :
    Moves store (store.releaseMarks (found.map Prod.snd)) (discardAll found store).store := by
  induction found generalizing store with
  | nil => exact .rest store
  | cons entry found ih =>
    obtain ⟨key, handle⟩ := entry
    have hfirst := moves_discard (h (key, handle) List.mem_cons_self)
    have hrest : ∀ entry ∈ found, ∀ other,
        (store.discard key handle).store.entries.get? entry.1 = some other →
          other = entry.2 := by
      intro entry hentry other hother
      change (store.entries.erase key).get? entry.1 = some other at hother
      rw [KeyTable.get?_erase] at hother
      split at hother
      · cases hother
      · exact h entry (List.mem_cons_of_mem _ hentry) other hother
    rw [List.map_cons, releaseMarks, discardAll]
    split
    next hwon =>
      let counted := (store.discard key handle).store.record .expiration
      have hcount : Moves (store.discard key handle).store [] counted := Move.moves (.count _)
      rw [releaseMarks_congr (show (store.release handle).pool = counted.pool from rfl)]
      have hlater : Moves counted _ (discardAll found counted).store := ih hrest
      exact hfirst.trans (hcount.trans hlater)
    next =>
      rw [releaseMarks_congr (show (store.release handle).pool =
        (store.discard key handle).store.pool from rfl)]
      exact hfirst.trans (ih hrest)

/-- Taking entries out counts the releases that win. -/
theorem released_discardAll (found : List (String × Handle)) (store : Store α) :
    (discardAll found store).released =
      (store.releaseMarks (found.map Prod.snd)).countP Mark.isWon := by
  induction found generalizing store with
  | nil => rfl
  | cons entry found ih =>
    obtain ⟨key, handle⟩ := entry
    rw [List.map_cons, releaseMarks, List.countP_cons, discardAll]
    by_cases hlive : store.isLive handle = true
    · let counted := (store.discard key handle).store.record .expiration
      have hwon : (store.discard key handle).won = true := hlive
      rw [releaseMarks_congr (show (store.release handle).pool = counted.pool from rfl), ← ih,
        if_pos hwon]
      simp [Mark.isWon, hlive, counted]
    · have hlost : ¬(store.discard key handle).won = true := hlive
      rw [releaseMarks_congr (show (store.release handle).pool =
        (store.discard key handle).store.pool from rfl), ← ih, if_neg hlost]
      simp [Mark.isWon, hlive]

def sweptHandles (store : Store α) : List Handle :=
  match store.expiredAmong store.entries.entries with
  | .ok found => found.map Prod.snd
  | .error _ => []

theorem subset_of_expiredAmong {store : Store α} {entries found : List (String × Handle)}
    (h : store.expiredAmong entries = .ok found) : found ⊆ entries := by
  induction entries generalizing found with
  | nil => cases h; exact List.Subset.refl _
  | cons entry entries ih =>
    obtain ⟨key, handle⟩ := entry
    simp only [expiredAmong] at h
    split at h
    · exact List.subset_cons_of_subset _ (ih h)
    · split at h
      · cases h
      · split at h
        · cases h
        next later hlater =>
          have hsub := ih hlater
          cases h
          split
          · exact List.cons_subset_cons _ hsub
          · exact List.subset_cons_of_subset _ hsub

theorem moves_sweep (store : Store α) :
    Moves store (store.releaseMarks store.sweptHandles) store.sweep.2 := by
  unfold sweep sweptHandles
  cases hfound : store.expiredAmong store.entries.entries with
  | error overflow => exact .rest store
  | ok found =>
    refine moves_discardAll ?_
    intro entry hentry other hother
    have hmem := KeyTable.mem_entries_iff.mp (subset_of_expiredAmong hfound hentry)
    exact Option.some.inj (hother.symm.trans hmem)

theorem moves_remove (store : Store α) (key : String) :
    Moves store (store.releaseMarks ((store.find? key).map Prod.fst).toList)
      (store.remove key).2 := by
  unfold remove
  cases hk : store.find? key with
  | none => exact .rest store
  | some found =>
    obtain ⟨handle, holder⟩ := found
    have hget := (find?_eq_some_iff.mp hk).1
    have hdiscard : Moves store _ (store.discard key handle).store :=
      moves_discard fun other hother => Option.some.inj (hother.symm.trans hget)
    simp only [Option.map_some, Option.toList_some, releaseMarks]
    split
    · exact hdiscard.trans (Move.moves (.count .removal))
    · exact hdiscard

/-- Assigning limits completes a holder and changes nothing of it but the limits. -/
theorem exists_assignLimits (store : Store α) (previous : Option (Holder α))
    (words : List UInt32) (fresh : Holder α) :
    ∃ idle cache : Int32, store.assignLimits previous words fresh =
      { fresh with maxIdle := idle, maxCache := cache, isComplete := true } := by
  obtain ⟨idle, hfollowed, -⟩ :=
    Holder.exists_followPolicy store.policy previous.isSome previous fresh
  simp only [assignLimits, hfollowed]
  split
  next => exact ⟨_, _, rfl⟩
  next =>
    rcases Holder.jitterWithin_cases (.seconds store.jitter) words
      (({ fresh with maxIdle := idle } : Holder α).complete idle.toInt64 store.maxCache) with
      hsame | ⟨delay, -, -, -, hdelay⟩
    · rw [hsame]
      exact ⟨_, _, rfl⟩
    · rw [hdelay]
      exact ⟨_, delay, rfl⟩

/-- Making a complete holder and linking a key to it, once the key has lost its old holder. -/
theorem moves_add_link {store : Store α} (bounded : ∀ name handle,
      store.entries.get? name = some handle → handle < store.pool.size)
    {key : String} (gone : ∀ other, store.entries.get? key = some other →
      store.isLive other = false)
    {holder : Holder α} {payload : Payload α} (hpayload : holder.payload = some payload)
    (complete : holder.isComplete = true) :
    Moves store [.made payload]
      { store.add holder with entries := store.entries.insert key store.pool.size } := by
  refine .step (.make holder hpayload) (Move.moves (.link key store.pool.size ?_ complete ?_ ?_))
  · exact Array.getElem?_push_size
  · intro name hname
    exact absurd (bounded name _ hname) (Nat.lt_irrefl _)
  · intro other hother
    rw [isLive_add_of_lt (bounded key other hother)]
    exact gone other hother

theorem moves_publish {store : Store α} (sound : store.Sound) (key : String) {holder : Holder α}
    {payload : Payload α} (hpayload : holder.payload = some payload)
    (complete : holder.isComplete = true) :
    Moves store (store.releaseMarks (store.entries.get? key).toList ++ [.made payload])
      (store.publish key holder) := by
  have bounded : ∀ name handle, store.entries.get? name = some handle →
      handle < store.pool.size := fun name handle hname => lt_size_of_get? sound hname
  unfold publish
  cases hk : store.entries.get? key with
  | none =>
    refine moves_add_link bounded ?_ hpayload complete
    intro other hother
    simp [hk] at hother
  | some replaced =>
    have hadd : Moves (store.release replaced) [.made payload]
        { (store.release replaced).add holder with
          entries := store.entries.insert key (store.release replaced).pool.size } := by
      refine moves_add_link ?_ ?_ hpayload complete
      · rw [size_release]
        exact bounded
      · intro other hother
        obtain rfl : replaced = other := Option.some.inj (hk.symm.trans hother)
        exact isLive_release_self store replaced
    rw [size_release] at hadd
    exact .step (.release replaced) hadd

def madeMarks (codec : Codec α) (mode : WriteMode) (value : α) : List (Mark α) :=
  match Holder.store codec mode value with
  | .ok (_, payload) => [.made payload]
  | .error _ => []

/-- The marks of a put: the replaced holder is released and a new one made, if it can be made. -/
def putMarks (codec : Codec α) (key : String) (value : α) (store : Store α) : List (Mark α) :=
  match Holder.store codec store.mode value with
  | .ok (_, payload) => store.releaseMarks (store.entries.get? key).toList ++ [.made payload]
  | .error _ => []

theorem moves_put (codec : Codec α) {store : Store α} (sound : store.Sound) (key : String)
    (value : α) (words : List UInt32) :
    Moves store (store.putMarks codec key value) (store.put codec key value words).2 := by
  unfold put putMarks
  rw [Holder.new_eq]
  cases Holder.store codec store.mode value with
  | error reason => exact .rest store
  | ok kept =>
    obtain ⟨form, payload⟩ := kept
    obtain ⟨idle, cache, hlimits⟩ := store.exists_assignLimits
      ((store.find? key).map Prod.snd) words (Holder.fresh store.clock form payload)
    have hpublish := moves_publish sound key (congrArg Holder.payload hlimits)
      (congrArg Holder.isComplete hlimits)
    simpa [Except.map] using hpublish.trans (Move.moves (.count .put))

theorem moves_modify {store : Store α} {handle : Handle} {holder : Holder α}
    (found : store.pool[handle]? = some holder) {f : Holder α → Holder α}
    (h : holder.Change store.clock store.pool (f holder)) :
    Moves store [] (store.modify handle f) := by
  refine Move.moves (.change handle f ?_)
  intro other hother
  obtain rfl : holder = other := Option.some.inj (found.symm.trans hother)
  exact h

theorem moves_touch (store : Store α) (key : String) (seconds : Int32) :
    Moves store [] (store.touch key seconds).2 := by
  unfold touch
  cases hk : store.find? key with
  | none => exact .rest store
  | some found =>
    obtain ⟨handle, holder⟩ := found
    simp only
    split
    next => exact .rest store
    next prolonged hp => exact moves_modify (find?_eq_some_iff.mp hk).2 ⟨_, rfl, .prolong hp⟩

theorem moves_getHolder (codec : Codec α) (key : String) (handle : Handle) (store : Store α) :
    Moves store [] (store.getHolder codec key handle).2 := by
  have haccess : Moves store [] (store.modify handle (Holder.access store.clock)) :=
    Move.moves (.change handle _ fun _ _ => ⟨.get, rfl, .get⟩)
  simp only [getHolder]
  split
  next value hvalue =>
    have huse : Moves (store.modify handle (Holder.access store.clock)) []
        ((store.modify handle (Holder.access store.clock)).modify handle (Holder.addUses 1)) :=
      Move.moves (.change handle _ fun _ _ => ⟨_, rfl, .addUses 1⟩)
    exact haccess.trans (huse.trans (Move.moves (.count .hit)))
  next => exact haccess.trans (Move.moves (.count .miss))
  next => exact haccess

theorem moves_get (codec : Codec α) (key : String) (store : Store α) :
    Moves store [] (store.get codec key).2 := by
  unfold get
  split
  next => exact Move.moves (.count .miss)
  next =>
    split
    next => exact .rest store
    next => exact Move.moves (.count .miss)
    next => exact moves_getHolder codec key _ store

/-- The marks of a racing read: the other party releases the holder, if it gets that far. -/
def raceMarks (key : String) (store : Store α) : List (Mark α) :=
  match store.find? key with
  | some (handle, holder) => if holder.consultsBase then store.releaseMarks [handle] else []
  | none => []

theorem moves_interfere (store : Store α) (handle : Handle) (holder : Holder α) :
    Moves store (if holder.consultsBase then store.releaseMarks [handle] else [])
      (store.interfere handle holder) := by
  unfold interfere
  split
  · exact Move.moves (.release handle)
  · exact .rest store

theorem moves_racingPeek (codec : Codec α) (key : String) (store : Store α) :
    Moves store (store.raceMarks key) (store.racingPeek codec key).2 := by
  unfold racingPeek raceMarks
  cases store.find? key with
  | none => exact .rest store
  | some found =>
    obtain ⟨handle, holder⟩ := found
    have hrace := moves_interfere store handle holder
    cases hinvalid : holder.isInvalid store.clock with
    | error overflow => simpa only [hinvalid] using hrace
    | ok invalid =>
      by_cases hlate : invalid = true
      · simpa only [hinvalid, hlate] using hrace
      · simpa only [hinvalid, eq_false_of_ne_true hlate] using hrace

theorem moves_racingGet (codec : Codec α) (key : String) (store : Store α) :
    Moves store (store.raceMarks key) (store.racingGet codec key).2 := by
  unfold racingGet raceMarks
  cases store.find? key with
  | none => exact Move.moves (.count .miss)
  | some found =>
    obtain ⟨handle, holder⟩ := found
    have hrace := moves_interfere store handle holder
    cases hinvalid : holder.isInvalid store.clock with
    | error overflow => simpa only [hinvalid] using hrace
    | ok invalid =>
      by_cases hlate : invalid = true
      · have hmiss := hrace.trans (Move.moves (.count .miss))
        simpa only [hinvalid, hlate, List.append_nil] using hmiss
      · have hread := hrace.trans (moves_getHolder codec key handle (store.interfere handle holder))
        simpa only [hinvalid, eq_false_of_ne_true hlate, List.append_nil] using hread

end ExpiringCache.Store
