import Mathlib
import ExpiringCache.Proofs.Session.Evolution
import ExpiringCache.Proofs.Session.SweepAndReaders

/-!
# Expired entries stay expired

An entry that readers find expired is so for one of several reasons: its value was taken away, one
of its limits has passed, or it was expired on purpose. None of them goes away by itself. A read
that fails records no access, what happens to other keys happens to other holders, and time only
makes limits pass. While the clock does not go back, the entry therefore stays expired or leaves
the store, until its key is put again or somebody renews its holder.
-/
namespace ExpiringCache

variable {α : Type}

/-- Whether an operation on a holder sets a limit of it or records an access. Prolonging by `0`
seconds expires a holder, and prolonging by a negative number changes nothing. -/
def HolderOperation.renews : HolderOperation → Bool
  | .complete _ _ | .get | .setIdle _ | .followPolicy _ _ _ | .jitter _ _ => true
  | .prolong seconds => 0 < seconds
  | _ => false

namespace Holder

variable {clock : Clock} {pool : Array (Holder α)} {holder later : Holder α} {instant : Int64}

/-- A holder that is invalid is so without an idle limit, too. -/
theorem isInvalidAt_of_expire (h : holder.isInvalidAt clock instant = .ok true) :
    isInvalidAt clock instant { holder with maxIdle := 0 } = .ok true := by
  have hcache : cachePassed clock instant { holder with maxIdle := 0 } =
      holder.cachePassed clock instant := rfl
  unfold isInvalidAt at h ⊢
  split at h
  next hgone => exact if_pos hgone
  next hopen =>
    refine (if_neg hopen).trans ?_
    unfold limitPassed at h ⊢
    rw [hcache]
    cases hpassed : holder.cachePassed clock instant with
    | error overflow => simp [hpassed] at h
    | ok passed => cases passed <;> rfl

theorem Undergoes.invalid {operation : HolderOperation}
    (h : holder.Undergoes clock pool operation later) (quiet : operation.renews = false)
    (invalid : holder.isInvalidAt clock instant = .ok true) :
    later.isInvalidAt clock instant = .ok true := by
  cases h with
  | complete | get | setIdle | followPolicy | jitter => cases quiet
  | addUses | addUsesRacing => exact invalid
  | release | releaseRacing => exact isInvalidAt_of_isReleased rfl
  | @prolong seconds _ h =>
    have hpositive : ¬ 0 < seconds := by simpa [HolderOperation.renews] using quiet
    simp only [Holder.prolong, if_neg hpositive] at h
    split at h
    next =>
      obtain rfl := Except.ok.inj h
      exact isInvalidAt_of_expire invalid
    next =>
      obtain rfl := Except.ok.inj h
      exact invalid

/-- What does not renew an invalid holder leaves it invalid. -/
theorem Reaches.invalid {allowed : HolderOperation → Prop}
    (h : holder.Reaches clock pool allowed later)
    (quiet : ∀ operation, allowed operation → operation.renews = false)
    (invalid : holder.isInvalidAt clock instant = .ok true) :
    later.isInvalidAt clock instant = .ok true := by
  induction h with
  | refl => exact invalid
  | tail _ last ih =>
    obtain ⟨operation, hallowed, hlast⟩ := last
    exact hlast.invalid (quiet operation hallowed) ih

end Holder

namespace Session

/-- Whether an operation puts a key, touches it for a positive number of seconds, or renews its
holder from a slot. -/
def renews (session : Session α) (key : String) : Operation α → Bool
  | .put name _ _ => name == key
  | .touch name seconds => name == key && decide (0 < seconds)
  | .onSlot slot (.onHolder operation) =>
    operation.renews && (session.slots.get? slot).any fun handle =>
      session.store.entries.get? key == some handle
  | _ => false

/-- Whether a key is missing, or its holder invalid at the reading of the clock. -/
def IsStale (session : Session α) (key : String) : Prop :=
  session.store.entries.get? key = none ∨
    ∃ handle holder, session.store.find? key = some (handle, holder) ∧
      holder.isInvalid session.store.clock = .ok true

variable {session : Session α} {key : String}

/-- An operation applies nothing to an invalid holder that would renew it, unless it is meant to. -/
theorem renews_of_applies (sound : session.store.Sound) {handle : Handle} {holder : Holder α}
    (hk : session.store.find? key = some (handle, holder))
    (invalid : holder.isInvalid session.store.clock = .ok true) {operation : Operation α}
    (quiet : session.renews key operation = false) {applied : HolderOperation}
    (h : session.Applies operation handle applied) : applied.renews = false := by
  obtain ⟨hkey, hpool⟩ := Store.find?_eq_some_iff.mp hk
  have hclosed : ∀ name, ¬ session.store.Opens name handle := by
    rintro name ⟨other, hother, hvalid⟩
    obtain rfl := Option.some.inj (hpool.symm.trans (Store.find?_eq_some_iff.mp hother).2)
    rw [invalid] at hvalid
    cases hvalid
  cases operation with
  | put | remove | racingPeek =>
    obtain ⟨rfl, -⟩ := h
    rfl
  | sweep | elapse =>
    obtain rfl : applied = .release := h
    rfl
  | get name => exact absurd h.2 (hclosed name)
  | racingGet name =>
    rcases h with ⟨rfl, -⟩ | ⟨-, hopens⟩
    · rfl
    · exact absurd hopens (hclosed name)
  | touch name seconds =>
    obtain ⟨rfl, hlink⟩ := h
    obtain rfl : name = key := sound.unique name key handle hlink hkey
    simpa [renews, HolderOperation.renews] using quiet
  | onSlot slot operation =>
    cases operation with
    | onHolder operation =>
      obtain ⟨rfl, hslot⟩ := h
      simpa [renews, hslot, hkey] using quiet
    | take | make | makeComplete => exact h.elim
  | _ => exact h.elim

/-- One operation, at a reading that is not earlier: what was stale is still so. -/
theorem isStale_act (codec : Codec α) (sound : session.store.Sound) {operation : Operation α}
    (quiet : session.renews key operation = false)
    (forward : session.store.clock.now ≤ (session.act codec operation).session.store.clock.now)
    (stale : session.IsStale key) : (session.act codec operation).session.IsStale key := by
  have hput : ∀ value words, operation ≠ .put key value words := by
    rintro value words rfl
    simp [renews] at quiet
  rcases session.linked_act codec hput with hsame | hnone
  case inr => exact .inl hnone
  case inl =>
    rcases stale with hmissing | ⟨handle, holder, hk, hinvalid⟩
    · exact .inl (hsame.trans hmissing)
    · obtain ⟨hkey, hpool⟩ := Store.find?_eq_some_iff.mp hk
      obtain ⟨later, hlater, hreaches⟩ := (session.evolves_act codec operation).later hpool
      have hquiet : ∀ applied, session.Applies operation handle applied →
          applied.renews = false :=
        fun applied happlies => renews_of_applies sound hk hinvalid quiet happlies
      have hstill := hreaches.invalid hquiet hinvalid
      exact .inr ⟨handle, later, Store.find?_eq_some_iff.mpr ⟨hsame.trans hkey, hlater⟩,
        Holder.isInvalidAt_later (moves_act codec sound operation).base
          (Int64.le_iff_toInt_le.mp forward) hstill⟩

/-- A key that a recorded read has found expired is stale. -/
theorem isStale_of_get {codec : Codec α} (sound : session.store.Sound)
    (h : (session.store.get codec key).1 = .error (.expired key)) : session.IsStale key := by
  rw [Store.answer_get] at h
  cases hkey : session.store.entries.get? key with
  | none => exact .inl hkey
  | some handle =>
    obtain ⟨holder, hpool, -⟩ := sound.complete key handle hkey
    have hexpired := (Store.peek_eq_expired_iff codec sound hkey).mp h
    rw [Store.isExpired, hpool, Option.any_some] at hexpired
    cases hinvalid : holder.isInvalid session.store.clock with
    | error overflow => simp [hinvalid] at hexpired
    | ok invalid =>
      simp only [hinvalid] at hexpired
      subst hexpired
      exact .inr ⟨handle, holder, Store.find?_eq_some_iff.mpr ⟨hkey, hpool⟩, hinvalid⟩

theorem refuses_of_isStale (codec : Codec α) (stale : session.IsStale key) :
    session.store.Refuses codec key (.expired key) ∨
      session.store.Refuses codec key (.notFound key) := by
  rcases stale with hmissing | ⟨handle, holder, hk, hinvalid⟩
  · have hnone : session.store.find? key = none := by rw [Store.find?, hmissing]
    exact .inr (Store.refuses_of_find?_eq_none codec hnone)
  · exact .inl (Store.refuses_of_isInvalid codec hk hinvalid)

/-- In every session that can be reached: if a recorded read finds a key expired, then after any
operations that neither put the key nor renew its holder, and that do not set the clock back, every
read of the key finds it expired or does not find it, and no check overflows. -/
theorem expired_stays_expired (codec : Codec α) (settings : Settings)
    (policy : Option ExpiryPolicy) (base : Int64) (before rest : List (Request α))
    (expired : (((start settings policy base).after codec before).store.get codec key).1 =
      .error (.expired key))
    (quiet : ((start settings policy base).after codec before).Throughout codec
      (fun session operation => session.renews key operation = false ∧
        session.store.clock.now ≤ (session.act codec operation).session.store.clock.now) rest) :
    ((start settings policy base).after codec (before ++ rest)).store.Refuses codec key
        (.expired key) ∨
      ((start settings policy base).after codec (before ++ rest)).store.Refuses codec key
        (.notFound key) := by
  have hsound : ((start settings policy base).after codec before).store.Sound :=
    sound_after codec settings policy base before
  have hstep : ∀ (session : Session α) (operation : Operation α),
      (session.renews key operation = false ∧
        session.store.clock.now ≤ (session.act codec operation).session.store.clock.now) →
      session.store.Sound ∧ session.IsStale key →
        (session.act codec operation).session.store.Sound ∧
          (session.act codec operation).session.IsStale key :=
    fun session operation hquiet hstale =>
      ⟨(moves_act codec hstale.1 operation).sound hstale.1,
        isStale_act codec hstale.1 hquiet.1 hquiet.2 hstale.2⟩
  have hlast := quiet.keeps hstep ⟨hsound, isStale_of_get hsound expired⟩
  rw [after_append]
  exact refuses_of_isStale codec hlast.2

/-- An entry that was idle too long is read, touched in vain, expired on purpose and released by
another party, until the clock has left its span; another one was expired on purpose and is
swept. -/
theorem expired_stays_expired_long_after :
    let codec : Codec String := Codec.json .string
    let settings : Settings := { Settings.standard with defaultIdle := 10 }
    let before : List (Request String) :=
      [⟨.put "idle" "v" [], none⟩, ⟨.advanceSeconds 11, none⟩, ⟨.put "spent" "w" [], none⟩,
        ⟨.touch "spent" 0, none⟩]
    let rest : List (Request String) :=
      [⟨.get "idle", none⟩, ⟨.touch "idle" (-5), none⟩, ⟨.touch "idle" 0, none⟩,
        ⟨.put "other" "u" [], none⟩, ⟨.touch "other" 100, none⟩, ⟨.get "other", none⟩,
        ⟨.onSlot "s" (.take "idle"), none⟩, ⟨.onSlot "s" (.onHolder .release), none⟩,
        ⟨.advanceSeconds 5000000, none⟩]
    let early := (start settings none 0).after codec before
    let late := (start settings none 0).after codec (before ++ rest)
    let swept := (start settings none 0).after codec (before ++ (rest ++ [⟨.sweep, none⟩]))
    (early.store.get codec "idle").1 = .error (.expired "idle") ∧
      (early.store.get codec "spent").1 = .error (.expired "spent") ∧
      early.Throughout codec (fun session operation => session.renews "idle" operation = false ∧
        session.store.clock.now ≤ (session.act codec operation).session.store.clock.now) rest ∧
      early.Throughout codec (fun session operation => session.renews "spent" operation = false ∧
        session.store.clock.now ≤ (session.act codec operation).session.store.clock.now)
          (rest ++ [⟨.sweep, none⟩]) ∧
      ¬ late.store.clock.Covers late.store.clock.now ∧
      late.store.entries.get? "idle" = some 0 ∧ swept.store.entries.get? "spent" = none ∧
      (late.store.Refuses codec "idle" (.expired "idle") ∨
        late.store.Refuses codec "idle" (.notFound "idle")) ∧
      (swept.store.Refuses codec "spent" (.expired "spent") ∨
        swept.store.Refuses codec "spent" (.notFound "spent")) := by
  intro codec settings before rest early late swept
  have idle : (early.store.get codec "idle").1 = .error (.expired "idle") := by cbv
  have spent : (early.store.get codec "spent").1 = .error (.expired "spent") := by cbv
  have quiet : early.Throughout codec (fun session operation =>
      session.renews "idle" operation = false ∧
        session.store.clock.now ≤ (session.act codec operation).session.store.clock.now) rest := by
    decide +kernel
  have quietSwept : early.Throughout codec (fun session operation =>
      session.renews "spent" operation = false ∧
        session.store.clock.now ≤ (session.act codec operation).session.store.clock.now)
          (rest ++ [⟨.sweep, none⟩]) := by decide +kernel
  exact ⟨idle, spent, quiet, quietSwept, by decide +kernel, by decide +kernel, by decide +kernel,
    expired_stays_expired codec settings none 0 before rest idle quiet,
    expired_stays_expired codec settings none 0 before _ spent quietSwept⟩

end Session

end ExpiringCache
