import ExpiringCache.Proofs.Session.AbsoluteLimit

/-!
# The fields of holders over runs

Whatever a session does, with whatever arguments, the fields of its holders keep to a few rules. No
limit is ever negative. The timestamp of the creation and the form of the value are those of the
making, and a complete holder stays complete. A positive absolute limit changes only if limits are
assigned anew or if a random delay shortens it. The timestamp of the last access changes only by a
read that is recorded, and then to the reading of the clock.
-/
namespace ExpiringCache

variable {α : Type}

namespace Holder

variable {clock : Clock} {pool : Array (Holder α)} {allowed : HolderOperation → Prop}
  {holder later last : Holder α}

/-- How the fields of a holder may have changed by the operations that are allowed. -/
structure Confined (clock : Clock) (allowed : HolderOperation → Prop)
    (holder later : Holder α) : Prop where
  created : later.created = holder.created
  form : later.form = holder.form
  complete : holder.isComplete = true → later.isComplete = true
  maxCache : 0 < holder.maxCache.toInt → later.maxCache = holder.maxCache ∨
    (∃ idle cache, allowed (.complete idle cache)) ∨
    (∃ span words, allowed (.jitter span words)) ∧
      0 < later.maxCache.toInt ∧ later.maxCache.toInt < holder.maxCache.toInt
  accessed : later.accessed = holder.accessed ∨
    allowed .get ∧ later.accessed = clock.offsetNow

theorem Confined.refl (clock : Clock) (allowed : HolderOperation → Prop) (holder : Holder α) :
    Confined clock allowed holder holder :=
  ⟨rfl, rfl, id, fun _ => .inl rfl, .inl rfl⟩

/-- An idle limit and a use count are free to change, and a value to be taken away. -/
theorem Confined.of_same (created : later.created = holder.created)
    (form : later.form = holder.form) (complete : later.isComplete = holder.isComplete)
    (maxCache : later.maxCache = holder.maxCache) (accessed : later.accessed = holder.accessed) :
    Confined clock allowed holder later :=
  ⟨created, form, fun h => complete.trans h, fun _ => .inl maxCache, .inl accessed⟩

theorem Confined.trans (h : Confined clock allowed holder later)
    (h' : Confined clock allowed later last) : Confined clock allowed holder last := by
  refine ⟨h'.created.trans h.created, h'.form.trans h.form, fun hc => h'.complete (h.complete hc),
    fun positive => ?_, ?_⟩
  · rcases h.maxCache positive with hsame | hassigned | ⟨hdrawn, hpositive, hshorter⟩
    · rw [← hsame] at positive ⊢
      exact h'.maxCache positive
    · exact .inr (.inl hassigned)
    · rcases h'.maxCache hpositive with hsame | hassigned | ⟨-, hpositive', hshorter'⟩
      · exact .inr (.inr ⟨hdrawn, hsame ▸ hpositive, hsame ▸ hshorter⟩)
      · exact .inr (.inl hassigned)
      · exact .inr (.inr ⟨hdrawn, hpositive', Int.lt_trans hshorter' hshorter⟩)
  · rcases h'.accessed with hsame | hread
    · rw [hsame]
      exact h.accessed
    · exact .inr hread

theorem Undergoes.confined {operation : HolderOperation}
    (h : holder.Undergoes clock pool operation later) (mem : allowed operation) :
    Confined clock allowed holder later := by
  have hlimits := h.exists_limits
  cases h with
  | complete idle cache =>
    exact ⟨rfl, rfl, fun _ => rfl, fun _ => .inr (.inl ⟨idle, cache, mem⟩), .inl rfl⟩
  | get => exact ⟨rfl, rfl, id, fun _ => .inl rfl, .inr ⟨mem, rfl⟩⟩
  | addUses | addUsesRacing | release | releaseRacing => exact .of_same rfl rfl rfl rfl rfl
  | setIdle | prolong | followPolicy | jitter =>
    obtain ⟨idle, cache, hlater, hcache⟩ := hlimits rfl
    rw [hlater]
    rcases hcache with rfl | ⟨⟨span, words, hoperation⟩, hpositive, hshorter⟩
    · exact .of_same rfl rfl rfl rfl rfl
    · refine ⟨rfl, rfl, id, fun positive => ?_, .inl rfl⟩
      refine .inr (.inr ⟨⟨span, words, ?_⟩, hpositive, ?_⟩)
      · exact hoperation ▸ mem
      · show cache.toInt < _
        omega

/-- Any number of operations stays within what one of them may change. -/
theorem Reaches.confined (h : holder.Reaches clock pool allowed later) :
    Confined clock allowed holder later := by
  induction h with
  | refl => exact .refl clock allowed holder
  | tail _ last ih =>
    obtain ⟨operation, hallowed, hlast⟩ := last
    exact ih.trans (hlast.confined hallowed)

/-- An incomplete holder is invalid, whatever its limits and its value. -/
theorem isInvalidAt_of_incomplete (h : holder.isComplete = false) (instant : Int64) :
    holder.isInvalidAt clock instant = .ok true := by
  simp [isInvalidAt, h]

end Holder

namespace Session

/-- Whether an operation is a recorded read of the holder of a handle, by a key or from a slot. -/
def gets (session : Session α) (handle : Handle) : Operation α → Bool
  | .get key | .racingGet key => session.store.entries.get? key == some handle
  | .onSlot slot (.onHolder .get) => session.slots.get? slot == some handle
  | _ => false

def jitters (session : Session α) (handle : Handle) : Operation α → Bool
  | .onSlot slot (.onHolder (.jitter _ _)) => session.slots.get? slot == some handle
  | _ => false

variable {session : Session α} {operation : Operation α} {handle : Handle}

theorem gets_of_applies (h : session.Applies operation handle .get) :
    session.gets handle operation = true := by
  have hlinked : ∀ {key}, session.store.Opens key handle →
      (session.store.entries.get? key == some handle) = true := by
    rintro key ⟨holder, hfind, -⟩
    simp [(Store.find?_eq_some_iff.mp hfind).1]
  cases operation with
  | get key => exact hlinked h.2
  | racingGet key =>
    rcases h with ⟨hrelease, -⟩ | ⟨-, hopens⟩
    · cases hrelease
    · exact hlinked hopens
  | onSlot slot operation =>
    cases operation with
    | onHolder applied =>
      obtain ⟨rfl, hslot⟩ := h
      simp [gets, hslot]
    | take | make | makeComplete => exact h.elim
  | _ => simp [Applies] at h

theorem jitters_of_applies {span : Duration} {words : List UInt32}
    (h : session.Applies operation handle (.jitter span words)) :
    session.jitters handle operation = true := by
  cases operation with
  | onSlot slot operation =>
    cases operation with
    | onHolder applied =>
      obtain ⟨rfl, hslot⟩ := h
      simp [jitters, hslot]
    | take | make | makeComplete => exact h.elim
  | _ => simp [Applies] at h

/-- What an operation leaves of the fields of a holder. -/
structure LeavesFields (session : Session α) (operation : Operation α) (handle : Handle)
    (holder later : Holder α) : Prop where
  created : later.created = holder.created
  form : later.form = holder.form
  complete : holder.isComplete = true → later.isComplete = true
  /-- A positive absolute limit changes only by assigning limits anew, or to a shorter one by a
  random delay. -/
  maxCache : 0 < holder.maxCache.toInt → later.maxCache ≠ holder.maxCache →
    session.completes handle operation = true ∨
      session.jitters handle operation = true ∧
        0 < later.maxCache.toInt ∧ later.maxCache.toInt < holder.maxCache.toInt
  /-- The last access changes only by a recorded read, to the reading of the clock. -/
  accessed : later.accessed ≠ holder.accessed →
    session.gets handle operation = true ∧ later.accessed = session.store.clock.offsetNow

theorem leavesFields_of_confined {holder later : Holder α}
    (h : Holder.Confined session.store.clock (session.Applies operation handle) holder later) :
    session.LeavesFields operation handle holder later where
  created := h.created
  form := h.form
  complete := h.complete
  maxCache := by
    intro positive changed
    rcases (h.maxCache positive).resolve_left changed with ⟨idle, cache, happlies⟩ | ⟨hdrawn, hle⟩
    · exact .inl (completes_of_applies happlies)
    · obtain ⟨span, words, happlies⟩ := hdrawn
      exact .inr ⟨jitters_of_applies happlies, hle⟩
  accessed := by
    intro changed
    obtain ⟨happlies, hnow⟩ := h.accessed.resolve_left changed
    exact ⟨gets_of_applies happlies, hnow⟩

/-- A holder of the pool is still there after an operation, with the fields that it leaves. -/
theorem leavesFields_act (codec : Codec α) (session : Session α) (operation : Operation α)
    {handle : Handle} {holder : Holder α} (found : session.store.pool[handle]? = some holder) :
    ∃ later, (session.act codec operation).session.store.pool[handle]? = some later ∧
      session.LeavesFields operation handle holder later := by
  obtain ⟨later, hlater, hreaches⟩ := (session.evolves_act codec operation).later found
  exact ⟨later, hlater, leavesFields_of_confined hreaches.confined⟩

/-- What is true of a holder whatever has been done to it. -/
structure IsRegular (holder : Holder α) : Prop where
  idle : 0 ≤ holder.maxIdle.toInt ∧ holder.maxIdle.toInt ≤ 2147483647
  cache : 0 ≤ holder.maxCache.toInt ∧ holder.maxCache.toInt ≤ 2147483647
  /-- As long as it is incomplete it is invalid at every instant, also with other limits. -/
  incomplete : holder.isComplete = false → ∀ (idle cache : Int32) (clock : Clock) (instant : Int64),
    Holder.isInvalidAt clock instant { holder with maxIdle := idle, maxCache := cache } = .ok true

theorem isRegular_of_inRange {holder : Holder α} (h : holder.InRange) : IsRegular holder where
  idle := ⟨h.idle, Int.le_of_lt_add_one holder.maxIdle.toInt_lt⟩
  cache := ⟨h.cache, Int.le_of_lt_add_one holder.maxCache.toInt_lt⟩
  incomplete := by
    intro hincomplete idle cache clock instant
    have hother : { holder with maxIdle := idle, maxCache := cache }.isComplete = false :=
      hincomplete
    exact Holder.isInvalidAt_of_incomplete hother instant

/-- What a run leaves of the fields of a holder that never change. -/
theorem constant_fields_after (codec : Codec α) {session : Session α} {handle : Handle}
    {holder : Holder α} (found : session.store.pool[handle]? = some holder)
    (requests : List (Request α)) :
    ∃ last, (session.after codec requests).store.pool[handle]? = some last ∧
      last.created = holder.created ∧ last.form = holder.form ∧
      (holder.isComplete = true → last.isComplete = true) := by
  refine keeps_after codec
    (I := fun session => ∃ last, session.store.pool[handle]? = some last ∧
      last.created = holder.created ∧ last.form = holder.form ∧
      (holder.isComplete = true → last.isComplete = true)) ?_ ⟨holder, found, rfl, rfl, id⟩ requests
  rintro session operation ⟨earlier, hearlier, hcreated, hform, hcomplete⟩
  obtain ⟨later, hlater, hleaves⟩ := leavesFields_act codec session operation hearlier
  exact ⟨later, hlater, hleaves.created.trans hcreated, hleaves.form.trans hform,
    fun h => hleaves.complete (hcomplete h)⟩

/-- The fields of a holder keep to their rules now, over the next operation and over a run. -/
structure KeepsFields (codec : Codec α) (session : Session α) (operation : Operation α)
    (requests : List (Request α)) (handle : Handle) (holder : Holder α) : Prop where
  regular : IsRegular holder
  next : ∃ later, (session.act codec operation).session.store.pool[handle]? = some later ∧
    session.LeavesFields operation handle holder later
  /-- A run moves neither the creation nor the form, and a complete holder stays complete. -/
  run : ∃ last, (session.after codec requests).store.pool[handle]? = some last ∧
    last.created = holder.created ∧ last.form = holder.form ∧
    (holder.isComplete = true → last.isComplete = true)

/-- In every session that can be reached every holder of the pool, whether it is published, kept in
a slot or neither, has limits in their range and is invalid while it is incomplete. The next
operation, with whatever arguments, changes its absolute limit and its last access only as it may;
and no run after that moves its creation, changes its form or makes it incomplete again. -/
theorem holder_fields_over_runs (codec : Codec α) (settings : Settings)
    (policy : Option ExpiryPolicy) (base : Int64) (before rest : List (Request α))
    (operation : Operation α) {handle : Handle} {holder : Holder α}
    (found : ((start settings policy base).after codec before).store.pool[handle]? = some holder) :
    KeepsFields codec ((start settings policy base).after codec before) operation rest handle
      holder where
  regular := by
    have hmem := Array.mem_of_getElem? found
    exact isRegular_of_inRange (inRange_after codec settings policy base before holder hmem)
  next := leavesFields_act codec _ operation found
  run := constant_fields_after codec found rest

/-- An entry that is also in a slot has the absolute limit of one minute, is given limits below and
above their range, is delayed and read two seconds after it was made, and is replaced. -/
theorem holder_fields_over_runs_of_delayed_entry :
    let codec : Codec String := Codec.json .string
    let settings : Settings := { Settings.standard with maxCache := 60 }
    let before : List (Request String) :=
      [⟨.put "k" "v" [], none⟩, ⟨.onSlot "s" (.take "k"), none⟩,
        ⟨.onSlot "s" (.onHolder (.setIdle (-1))), none⟩, ⟨.touch "k" 2147483647, none⟩,
        ⟨.advanceSeconds 2, none⟩]
    let operation : Operation String :=
      .onSlot "s" (.onHolder (.jitter (.seconds 30) [2147483648]))
    let rest : List (Request String) := [⟨.get "k", none⟩, ⟨.put "k" "w" [], none⟩]
    let session := (start settings none 0).after codec before
    ∃ holder, session.store.pool[0]? = some holder ∧ holder.maxCache = 60 ∧
      session.jitters 0 operation = true ∧
      KeepsFields codec session operation rest 0 holder := by
  intro codec settings before operation rest session
  have hminute : (session.store.pool[0]?).map Holder.maxCache = some 60 := by decide +kernel
  obtain ⟨holder, found, limit⟩ := Option.map_eq_some_iff.mp hminute
  have jittered : session.jitters 0 operation = true := by decide +kernel
  exact ⟨holder, found, limit, jittered,
    holder_fields_over_runs codec settings none 0 before rest operation found⟩

end Session

end ExpiringCache
