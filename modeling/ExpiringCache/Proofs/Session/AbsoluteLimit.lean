import ExpiringCache.Proofs.Session.Evolution
import ExpiringCache.Proofs.Session.SweepAndReaders

/-!
# Absolute limits are final

The absolute limit of a holder is counted from its creation, and only assigning the limits anew can
lengthen it or lift it. Accesses and prolongings move the idle limit alone, a random delay replaces
the absolute limit only by a shorter one, and whatever happens to other holders does not count. A
holder that has an absolute limit at some moment is therefore invalid past that limit for good, and
no read of a store returns its value any more.
-/
namespace ExpiringCache.Session

variable {α : Type}

def Creates (codec : Codec α) (session : Session α) (operation : Operation α)
    (handle : Handle) : Prop :=
  session.store.pool.size ≤ handle ∧
    handle < (session.act codec operation).session.store.pool.size

instance (codec : Codec α) (session : Session α) (operation : Operation α) (handle : Handle) :
    Decidable (session.Creates codec operation handle) :=
  inferInstanceAs (Decidable (_ ∧ _))

def completes (session : Session α) (handle : Handle) : Operation α → Bool
  | .onSlot slot (.onHolder (.complete _ _)) => session.slots.get? slot == some handle
  | _ => false

/-- How a holder stands to a deadline that is final. -/
structure ExpiresAt (codec : Codec α) (session : Session α) (handle : Handle) (deadline : Int) :
    Prop where
  /-- The holder is invalid at every later instant, and no check overflows. -/
  invalid : ∃ holder, session.store.pool[handle]? = some holder ∧
    ∀ instant : Int64, deadline < instant.toInt →
      holder.isInvalidAt session.store.clock instant = .ok true
  /-- A key that is linked to the holder is expired for every read at a later reading. -/
  refused : deadline < session.store.clock.now.toInt → ∀ key,
    session.store.entries.get? key = some handle → session.store.Refuses codec key (.expired key)

theorem completes_of_applies {session : Session α} {operation : Operation α} {handle : Handle}
    {idle cache : Int64} (h : session.Applies operation handle (.complete idle cache)) :
    session.completes handle operation = true := by
  cases operation with
  | onSlot slot operation =>
    cases operation with
    | onHolder applied =>
      obtain ⟨rfl, hslot⟩ := h
      simp [completes, hslot]
    | take | make | makeComplete => exact h.elim
  | _ => simp [Applies] at h

/-- The holder that an operation makes bears the timestamp of the reading. -/
theorem exists_created {codec : Codec α} {session : Session α} {operation : Operation α}
    {handle : Handle} (h : session.Creates codec operation handle) :
    ∃ holder, (session.act codec operation).session.store.pool[handle]? = some holder ∧
      holder.created = session.store.clock.offsetNow := by
  have hfound := Array.getElem?_eq_getElem h.2
  refine ⟨_, hfound, ?_⟩
  rcases (session.evolves_act codec operation).origin handle _ hfound with
    ⟨earlier, hearlier, -⟩ | ⟨-, hmade⟩
  · have hlt := (Array.getElem?_eq_some_iff.mp hearlier).1
    exact absurd hlt (Nat.not_lt.mpr h.1)
  · obtain ⟨form, payload, hreaches⟩ := hmade.reaches
    exact hreaches.created

/-- After any run the timestamp of a holder stands for the reading at which it was made. -/
theorem instantOf_created_after (codec : Codec α) {birth : Session α} (sound : birth.store.Sound)
    (covers : birth.store.clock.Covers birth.store.clock.now) {operation : Operation α}
    {handle : Handle} (creates : birth.Creates codec operation handle)
    (requests : List (Request α)) :
    let last := (birth.act codec operation).session.after codec requests
    ∃ holder, last.store.pool[handle]? = some holder ∧
      last.store.clock.instantOf holder.created = .ok birth.store.clock.now := by
  intro last
  have hact := moves_act codec sound operation
  obtain ⟨made, hmade, hstamp⟩ := exists_created creates
  obtain ⟨holder, hholder, hcreated⟩ := created_after codec hmade requests
  have hbase : last.store.clock.base = birth.store.clock.base :=
    (base_after codec (hact.sound sound) requests).trans hact.base
  refine ⟨holder, hholder, ?_⟩
  rw [Clock.instantOf_of_base_eq hbase, hcreated, hstamp]
  exact Clock.instantOf_offsetOf covers

/-- An absolute limit only becomes shorter over a run that does not assign the limits anew. -/
theorem maxCache_throughout {codec : Codec α} {session : Session α} {handle : Handle}
    {holder : Holder α} (found : session.store.pool[handle]? = some holder)
    (limited : 0 < holder.maxCache.toInt) {requests : List (Request α)}
    (kept : session.Throughout codec
      (fun session operation => session.completes handle operation = false) requests) :
    ∃ later, (session.after codec requests).store.pool[handle]? = some later ∧
      0 < later.maxCache.toInt ∧ later.maxCache.toInt ≤ holder.maxCache.toInt := by
  refine kept.keeps
    (I := fun session => ∃ later, session.store.pool[handle]? = some later ∧
      0 < later.maxCache.toInt ∧ later.maxCache.toInt ≤ holder.maxCache.toInt) ?_
    ⟨holder, found, limited, Int.le_refl _⟩
  rintro session operation hkept ⟨earlier, hearlier, hpositive, hle⟩
  obtain ⟨later, hlater, hreaches⟩ := (session.evolves_act codec operation).later hearlier
  have hassigns : ∀ idle cache, ¬ session.Applies operation handle (.complete idle cache) := by
    intro idle cache happlies
    rw [completes_of_applies happlies] at hkept
    cases hkept
  obtain ⟨hstill, hshorter⟩ := hreaches.maxCache hassigns hpositive
  exact ⟨later, hlater, hstill, Int.le_trans hshorter hle⟩

/-- In every run: if a holder is made at a reading within the span of the clock and has a positive
absolute limit at some moment after that, then past this limit, counted from the reading at which
it was made, it is invalid for good and every read of its key finds it expired, whatever is done
with it and the session after that moment, short of assigning its limits anew. -/
theorem expiresAt_absolute_limit (codec : Codec α) (settings : Settings)
    (policy : Option ExpiryPolicy) (base : Int64) (before middle rest : List (Request α))
    (making : Request α) {handle : Handle} {holder : Holder α}
    (covers : ((start settings policy base).after codec before).store.clock.Covers
      ((start settings policy base).after codec before).store.clock.now)
    (creates : ((start settings policy base).after codec before).Creates codec making.operation
      handle)
    (found : ((start settings policy base).after codec
      (before ++ making :: middle)).store.pool[handle]? = some holder)
    (limited : 0 < holder.maxCache)
    (kept : ((start settings policy base).after codec (before ++ making :: middle)).Throughout
      codec (fun session operation => session.completes handle operation = false) rest) :
    ((start settings policy base).after codec (before ++ making :: middle ++ rest)).ExpiresAt codec
      handle (((start settings policy base).after codec before).store.clock.now.toInt +
        1000 * holder.maxCache.toInt) := by
  let birth := (start settings policy base).after codec before
  let moment := (start settings policy base).after codec (before ++ making :: middle)
  have hsound : birth.store.Sound := sound_after codec settings policy base before
  have hlast : (start settings policy base).after codec (before ++ making :: middle ++ rest) =
      moment.after codec rest := after_append ..
  have hmoment : moment = birth.after codec (making :: middle) := after_append ..
  have hbirth : (birth.act codec making.operation).session.after codec (middle ++ rest) =
      moment.after codec rest := by
    rw [hmoment, ← after_append]
    rfl
  obtain ⟨later, hlater, hinstant⟩ :=
    instantOf_created_after codec hsound covers creates (middle ++ rest)
  rw [hbirth] at hlater hinstant
  rw [Holder.int32_pos_iff] at limited
  obtain ⟨same, hsame, hpositive, hle⟩ := maxCache_throughout found limited kept
  obtain rfl : later = same := Option.some.inj (hlater.symm.trans hsame)
  have hinvalid : ∀ instant : Int64,
      birth.store.clock.now.toInt + 1000 * holder.maxCache.toInt < instant.toInt →
        later.isInvalidAt (moment.after codec rest).store.clock instant = .ok true :=
    fun instant hpast => Holder.isInvalidAt_of_past_limit hinstant hpositive (by omega)
  rw [hlast]
  constructor
  case invalid => exact ⟨later, hlater, hinvalid⟩
  case refused =>
    intro hpast key hkey
    have hfind := Store.find?_eq_some_iff.mpr ⟨hkey, hlater⟩
    exact Store.refuses_of_isInvalid codec hfind (hinvalid _ hpast)

/-- An entry with an absolute limit of one minute is read, prolonged, given the longest idle limit
and a random delay of more than a minute; one millisecond past the minute it has expired. -/
theorem expiresAt_absolute_limit_of_busy_entry :
    let codec : Codec String := Codec.json .string
    let settings : Settings := { Settings.standard with maxCache := 60 }
    let before : List (Request String) := [⟨.advanceSeconds 5, none⟩]
    let making : Request String := ⟨.put "k" "v" [], none⟩
    let middle : List (Request String) :=
      [⟨.advanceSeconds 10, none⟩, ⟨.onSlot "s" (.take "k"), none⟩]
    let rest : List (Request String) :=
      [⟨.get "k", none⟩, ⟨.touch "k" 2147483647, none⟩,
        ⟨.onSlot "s" (.onHolder (.setIdle 2147483647)), none⟩,
        ⟨.onSlot "s" (.onHolder (.jitter (.seconds 600) [2147483648])), none⟩,
        ⟨.put "other" "w" [], none⟩, ⟨.remove "other", none⟩, ⟨.sweep, none⟩,
        ⟨.advanceSeconds 50, none⟩, ⟨.get "k", none⟩, ⟨.advanceMillis 1, none⟩]
    let birth := (start settings none 0).after codec before
    let moment := (start settings none 0).after codec (before ++ making :: middle)
    let last := (start settings none 0).after codec (before ++ making :: middle ++ rest)
    birth.store.clock.Covers birth.store.clock.now ∧ birth.Creates codec making.operation 0 ∧
      (∃ holder, moment.store.pool[0]? = some holder ∧ holder.maxCache = 60 ∧
        moment.Throughout codec (fun session operation => session.completes 0 operation = false)
          rest ∧
        last.ExpiresAt codec 0 (birth.store.clock.now.toInt + 1000 * holder.maxCache.toInt)) ∧
      birth.store.clock.now = 5000 ∧ last.store.clock.now = 65001 ∧
      last.store.entries.get? "k" = some 0 := by
  intro codec settings before making middle rest birth moment last
  have covers : birth.store.clock.Covers birth.store.clock.now := by decide +kernel
  have creates : birth.Creates codec making.operation 0 := by decide +kernel
  have hminute : (moment.store.pool[0]?).map Holder.maxCache = some 60 := by decide +kernel
  obtain ⟨holder, found, limit⟩ := Option.map_eq_some_iff.mp hminute
  have kept : moment.Throughout codec
      (fun session operation => session.completes 0 operation = false) rest := by decide +kernel
  have expires := expiresAt_absolute_limit codec settings none 0 before middle rest making covers
    creates found (by rw [limit]; decide) kept
  exact ⟨covers, creates, ⟨holder, found, limit, kept, expires⟩, by decide +kernel,
    by decide +kernel, by decide +kernel⟩

end ExpiringCache.Session
