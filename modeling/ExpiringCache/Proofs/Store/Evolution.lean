import ExpiringCache.Proofs.Holder.Fate
import ExpiringCache.Proofs.Store.Kept
import ExpiringCache.Proofs.Store.RacingReads
import ExpiringCache.Proofs.Store.SweepEffect

/-!
# Where the holders of a pool come from

A holder that is found in the pool after an operation stood there before and has undergone
operations of holders, or the operation has made it. For each operation of a store it is said which
operations of holders it may apply to which handle, and what the holders that it makes look like; a
sweep only releases.
-/
namespace ExpiringCache.Store

variable {α : Type} {store next : Store α} {applied : Handle → HolderOperation → Prop}
  {made : Holder α → Prop}

/-- The pool of a store has become another one: its holders have undergone operations that were
applied to their handles, and the holders behind them are of those that were made. -/
structure Evolves (store next : Store α) (applied : Handle → HolderOperation → Prop)
    (made : Holder α → Prop) : Prop where
  grows : store.pool.size ≤ next.pool.size
  origin : ∀ handle later, next.pool[handle]? = some later →
    (∃ holder, store.pool[handle]? = some holder ∧
      holder.Reaches store.clock store.pool (applied handle) later) ∨
    (store.pool.size ≤ handle ∧ made later)

/-- A holder of the pool is still there, and has undergone what was applied to its handle. -/
theorem Evolves.later (h : store.Evolves next applied made) {handle : Handle} {holder : Holder α}
    (found : store.pool[handle]? = some holder) :
    ∃ later, next.pool[handle]? = some later ∧
      holder.Reaches store.clock store.pool (applied handle) later := by
  have hlt := (Array.getElem?_eq_some_iff.mp found).1
  have hlater := Array.getElem?_eq_getElem (Nat.lt_of_lt_of_le hlt h.grows)
  refine ⟨_, hlater, ?_⟩
  rcases h.origin handle _ hlater with ⟨earlier, hearlier, hreaches⟩ | ⟨hnew, -⟩
  · obtain rfl : holder = earlier := Option.some.inj (found.symm.trans hearlier)
    exact hreaches
  · exact absurd hlt (Nat.not_lt.mpr hnew)

theorem Evolves.of_pool_eq (h : store.Evolves next applied made) {last : Store α}
    (same : last.pool = next.pool) : store.Evolves last applied made :=
  ⟨by rw [same]; exact h.grows, by rw [same]; exact h.origin⟩

theorem Evolves.refl (store : Store α) (applied : Handle → HolderOperation → Prop)
    (made : Holder α → Prop) : store.Evolves store applied made :=
  ⟨Nat.le_refl _, fun _ later found => .inl ⟨later, found, .rest _ _ _ _⟩⟩

theorem evolves_modify {handle : Handle} {holder : Holder α}
    (found : store.pool[handle]? = some holder) {f : Holder α → Holder α}
    (h : holder.Reaches store.clock store.pool (applied handle) (f holder)) :
    store.Evolves (store.modify handle f) applied made := by
  refine ⟨by simp [modify], ?_⟩
  intro other later hlater
  left
  rw [pool_modify] at hlater
  split at hlater
  next heq =>
    subst heq
    rw [found, Option.map_some, Option.some.injEq] at hlater
    exact ⟨holder, found, hlater ▸ h⟩
  next => exact ⟨later, hlater, .rest _ _ _ _⟩

theorem Evolves.add (h : store.Evolves next applied made) {holder : Holder α}
    (mem : made holder) : store.Evolves (next.add holder) applied made := by
  refine ⟨?_, ?_⟩
  · rw [Store.add, Array.size_push]
    exact Nat.le_succ_of_le h.grows
  · intro handle later hlater
    rw [Store.add, Array.getElem?_push] at hlater
    split at hlater
    next heq =>
      obtain rfl := Option.some.inj hlater
      exact .inr ⟨heq ▸ h.grows, mem⟩
    next => exact h.origin handle later hlater

theorem evolves_release (store : Store α) (handle : Handle) (mem : applied handle .release) :
    store.Evolves (store.release handle) applied made := by
  cases found : store.pool[handle]? with
  | none =>
    have hsame : (store.release handle).pool = store.pool := by
      apply Array.ext_getElem?
      intro other
      rw [release, pool_modify]
      split
      next heq => rw [← heq, found]; rfl
      next => rfl
    exact (Evolves.refl store applied made).of_pool_eq hsame
  | some holder => exact evolves_modify found (Holder.Undergoes.release.reaches mem)

def Links (store : Store α) (key : String) (handle : Handle) : Prop :=
  store.entries.get? key = some handle

/-- The holders that a put makes for a value. -/
def MakesFor (codec : Codec α) (store : Store α) (key : String) (value : α) (words : List UInt32)
    (holder : Holder α) : Prop :=
  ∃ form payload, Holder.store codec store.mode value = .ok (form, payload) ∧
    holder = store.assignLimits ((store.find? key).map Prod.snd) words
      (.fresh store.clock form payload)

/-- The limits of a new entry are assigned by operations of holders. -/
theorem reaches_assignLimits (store : Store α) {previous : Option (Holder α)}
    (h : ∀ other, previous = some other → other ∈ store.pool) (words : List UInt32)
    (fresh : Holder α) :
    fresh.Reaches store.clock store.pool (fun _ => True)
      (store.assignLimits previous words fresh) := by
  let followed := fresh.followPolicy store.policy previous.isSome previous
  let complete := followed.complete followed.maxIdle.toInt64 store.maxCache
  have hfollowed : fresh.Reaches store.clock store.pool (fun _ => True) followed :=
    (Holder.Undergoes.followPolicy _ _ none previous h).reaches trivial
  have hcomplete : fresh.Reaches store.clock store.pool (fun _ => True) complete :=
    hfollowed.trans ((Holder.Undergoes.complete _ _).reaches trivial)
  simp only [assignLimits]
  split
  next => exact hcomplete
  next => exact hcomplete.trans ((Holder.Undergoes.jitter _ words).reaches trivial)

/-- A holder that a put makes has been created at the reading of the clock and given limits. -/
theorem MakesFor.reaches {codec : Codec α} {key : String} {value : α} {words : List UInt32}
    {holder : Holder α} (h : store.MakesFor codec key value words holder) :
    ∃ form payload, (Holder.fresh store.clock form payload).Reaches store.clock store.pool
      (fun _ => True) holder := by
  obtain ⟨form, payload, -, rfl⟩ := h
  refine ⟨form, payload, store.reaches_assignLimits ?_ words _⟩
  intro other hother
  obtain ⟨found, hfound, rfl⟩ := Option.map_eq_some_iff.mp hother
  exact Array.mem_of_getElem? (find?_eq_some_iff.mp hfound).2

theorem evolves_publish (key : String) {holder : Holder α} (mem : made holder)
    (releases : ∀ handle, store.Links key handle → applied handle .release) :
    store.Evolves (store.publish key holder) applied made := by
  unfold publish
  split
  next replaced hlink =>
    have hrelease : store.Evolves (store.release replaced) applied made :=
      evolves_release store replaced (releases replaced hlink)
    exact (hrelease.add mem).of_pool_eq rfl
  next => exact ((Evolves.refl store applied made).add mem).of_pool_eq rfl

theorem evolves_put (codec : Codec α) (store : Store α) (key : String) (value : α)
    (words : List UInt32) :
    store.Evolves (store.put codec key value words).2
      (fun handle operation => operation = .release ∧ store.Links key handle)
      (store.MakesFor codec key value words) := by
  unfold put
  rw [Holder.new_eq]
  cases hstore : Holder.store codec store.mode value with
  | error reason => exact .refl store _ _
  | ok kept =>
    obtain ⟨form, payload⟩ := kept
    let holder := store.assignLimits ((store.find? key).map Prod.snd) words
      (.fresh store.clock form payload)
    have hmade : store.MakesFor codec key value words holder := ⟨form, payload, hstore, rfl⟩
    have hpublish : store.Evolves (store.publish key holder)
        (fun handle operation => operation = .release ∧ store.Links key handle)
        (store.MakesFor codec key value words) :=
      evolves_publish key hmade fun handle hlink => ⟨rfl, hlink⟩
    exact hpublish.of_pool_eq rfl

theorem evolves_touch (store : Store α) (key : String) (seconds : Int32) :
    store.Evolves (store.touch key seconds).2
      (fun handle operation => operation = .prolong seconds ∧ store.Links key handle) made := by
  unfold touch
  cases hk : store.find? key with
  | none => exact .refl store _ _
  | some found =>
    obtain ⟨handle, holder⟩ := found
    obtain ⟨hlink, hpool⟩ := find?_eq_some_iff.mp hk
    simp only
    split
    next => exact .refl store _ _
    next prolonged hprolong =>
      exact evolves_modify hpool ((Holder.Undergoes.prolong hprolong).reaches ⟨rfl, hlink⟩)

theorem evolves_discard (store : Store α) (key : String) (handle : Handle)
    (mem : applied handle .release) :
    store.Evolves (store.discard key handle).store applied made :=
  (evolves_release store handle mem).of_pool_eq rfl

theorem evolves_remove (store : Store α) (key : String) :
    store.Evolves (store.remove key).2
      (fun handle operation => operation = .release ∧ store.Links key handle) made := by
  unfold remove
  cases hk : store.find? key with
  | none => exact .refl store _ _
  | some found =>
    have hdiscard : store.Evolves (store.discard key found.1).store
        (fun handle operation => operation = .release ∧ store.Links key handle) made :=
      store.evolves_discard key found.1 ⟨rfl, (find?_eq_some_iff.mp hk).1⟩
    simp only
    split
    · exact hdiscard.of_pool_eq rfl
    · exact hdiscard

/-- Whether a handle is published under a key, and its holder valid at the reading of the clock. -/
def Opens (store : Store α) (key : String) (handle : Handle) : Prop :=
  ∃ holder, store.find? key = some (handle, holder) ∧ holder.isInvalid store.clock = .ok false

/-- The ways in which a recorded read can end. -/
inductive GetEnds (store : Store α) (key : String) : Except StoreError α × Store α → Prop where
  | missing : GetEnds store key (.error (.notFound key), store.record .miss)
  | expired : GetEnds store key (.error (.expired key), store.record .miss)
  | overflowed (reason : Overflow) : GetEnds store key (.error (.overflow reason), store)
  | unreadable {handle : Handle} {holder : Holder α}
      (found : store.find? key = some (handle, holder))
      (valid : holder.isInvalid store.clock = .ok false) (reason : HolderError) :
      GetEnds store key
        (.error (.holder reason), store.modify handle (Holder.access store.clock))
  | read {handle : Handle} {holder : Holder α} (found : store.find? key = some (handle, holder))
      (valid : holder.isInvalid store.clock = .ok false) (value : α) :
      GetEnds store key (.ok value,
        ((store.modify handle (Holder.access store.clock)).modify handle
          (Holder.addUses 1)).record .hit)

theorem get_ends (codec : Codec α) (store : Store α) (key : String) :
    store.GetEnds key (store.get codec key) := by
  cases hk : store.find? key with
  | none =>
    rw [show store.get codec key = (.error (.notFound key), store.record .miss) by simp [get, hk]]
    exact .missing
  | some found =>
    obtain ⟨handle, holder⟩ := found
    rw [get_of_find? codec hk]
    cases hcheck : holder.isInvalid store.clock with
    | error reason => exact .overflowed reason
    | ok invalid =>
      cases invalid with
      | true => exact .expired
      | false =>
        have hlive := (Holder.of_isInvalid_eq_ok_false hcheck).2.1
        cases hpeek : holder.peek codec with
        | error reason => exact .unreadable hk hcheck reason
        | ok read =>
          cases read with
          | none => simp [Holder.isReleased_of_peek hpeek] at hlive
          | some value => exact .read hk hcheck value

theorem evolves_get (codec : Codec α) (store : Store α) (key : String) :
    store.Evolves (store.get codec key).2
      (fun handle operation => (operation = .get ∨ operation = .addUses 1) ∧ store.Opens key handle)
      made := by
  have hends := store.get_ends codec key
  generalize store.get codec key = result at hends ⊢
  cases hends with
  | missing | expired => exact (Evolves.refl store _ _).of_pool_eq rfl
  | overflowed => exact .refl store _ _
  | @unreadable handle holder found valid reason =>
    exact evolves_modify (find?_eq_some_iff.mp found).2
      (Holder.Undergoes.get.reaches ⟨.inl rfl, holder, found, valid⟩)
  | @read handle holder found valid value =>
    let applied : Handle → HolderOperation → Prop := fun handle operation =>
      (operation = .get ∨ operation = .addUses 1) ∧ store.Opens key handle
    have hopens : store.Opens key handle := ⟨holder, found, valid⟩
    have haccess : holder.Reaches store.clock store.pool (applied handle)
        (holder.access store.clock) := Holder.Undergoes.get.reaches ⟨.inl rfl, hopens⟩
    have huse : holder.Reaches store.clock store.pool (applied handle)
        ((holder.access store.clock).addUses 1) :=
      haccess.trans ((Holder.Undergoes.addUses 1).reaches ⟨.inr rfl, hopens⟩)
    rw [modify_modify]
    exact (evolves_modify (find?_eq_some_iff.mp found).2 huse).of_pool_eq rfl

theorem evolves_interfere (store : Store α) {handle : Handle} (holder : Holder α)
    (mem : applied handle .release) :
    store.Evolves (store.interfere handle holder) applied made := by
  unfold interfere
  split
  · exact evolves_release store handle mem
  · exact .refl store _ _

theorem evolves_racingPeek (codec : Codec α) (store : Store α) (key : String) :
    store.Evolves (store.racingPeek codec key).2
      (fun handle operation => operation = .release ∧ store.Links key handle) made := by
  cases hk : store.find? key with
  | none =>
    rw [show store.racingPeek codec key = (.error (.notFound key), store) by simp [racingPeek, hk]]
    exact .refl store _ _
  | some found =>
    obtain ⟨handle, holder⟩ := found
    have hlink := (find?_eq_some_iff.mp hk).1
    rw [racingPeek_of_find? codec hk]
    split <;> exact store.evolves_interfere holder ⟨rfl, hlink⟩

theorem evolves_racingGet (codec : Codec α) (store : Store α) (key : String) :
    store.Evolves (store.racingGet codec key).2
      (fun handle operation => operation = .release ∧ store.Links key handle ∨
        operation = .get ∧ store.Opens key handle) made := by
  cases hk : store.find? key with
  | none =>
    rw [show store.racingGet codec key = (.error (.notFound key), store.record .miss) by
      simp [racingGet, hk]]
    exact (Evolves.refl store _ _).of_pool_eq rfl
  | some found =>
    obtain ⟨handle, holder⟩ := found
    obtain ⟨hlink, hpool⟩ := find?_eq_some_iff.mp hk
    rw [racingGet_of_find? codec hk]
    cases hcheck : holder.isInvalid store.clock with
    | error overflow => exact store.evolves_interfere holder (.inl ⟨rfl, hlink⟩)
    | ok invalid =>
      cases invalid with
      | true => exact (store.evolves_interfere holder (.inl ⟨rfl, hlink⟩)).of_pool_eq rfl
      | false =>
        let applied : Handle → HolderOperation → Prop := fun handle operation =>
          operation = .release ∧ store.Links key handle ∨ operation = .get ∧ store.Opens key handle
        have hrelease : holder.Reaches store.clock store.pool (applied handle) holder.release :=
          Holder.Undergoes.release.reaches (.inl ⟨rfl, hlink⟩)
        have haccess : holder.Reaches store.clock store.pool (applied handle)
            (holder.release.access store.clock) :=
          hrelease.trans (Holder.Undergoes.get.reaches (.inr ⟨rfl, holder, hk, hcheck⟩))
        have haccessed : store.Evolves
            (store.modify handle (Holder.access store.clock ∘ Holder.release)) applied made :=
          evolves_modify hpool haccess
        simp only [release, modify_modify]
        exact haccessed.of_pool_eq rfl

theorem entries_get (codec : Codec α) (store : Store α) (key : String) :
    (store.get codec key).2.entries = store.entries := by
  have hends := store.get_ends codec key
  generalize store.get codec key = result at hends ⊢
  cases hends <;> rfl

theorem entries_interfere (store : Store α) (handle : Handle) (holder : Holder α) :
    (store.interfere handle holder).entries = store.entries := by
  unfold interfere
  split <;> rfl

theorem entries_racingPeek (codec : Codec α) (store : Store α) (key : String) :
    (store.racingPeek codec key).2.entries = store.entries := by
  unfold racingPeek
  split
  next => rfl
  next handle holder _ =>
    simp only
    split <;> exact store.entries_interfere handle holder

theorem entries_racingGet (codec : Codec α) (store : Store α) (key : String) :
    (store.racingGet codec key).2.entries = store.entries := by
  unfold racingGet
  split
  next => rfl
  next handle holder _ =>
    have hraced := store.entries_interfere handle holder
    simp only
    split
    next => exact hraced
    next => exact hraced
    next =>
      simp only [getHolder]
      split <;> exact hraced

theorem entries_touch (store : Store α) (key : String) (seconds : Int32) :
    (store.touch key seconds).2.entries = store.entries := by
  unfold touch
  split
  next => rfl
  next => split <;> rfl

/-- A put of one key leaves the other keys where they are. -/
theorem get?_entries_put (codec : Codec α) (store : Store α) {key name : String}
    (hne : key ≠ name) (value : α) (words : List UInt32) :
    (store.put codec name value words).2.entries.get? key = store.entries.get? key := by
  unfold put
  split
  next => rfl
  next => rw [entries_record, entries_publish, KeyTable.get?_insert, if_neg hne]

/-- A removal takes one key out, if it is there, and leaves the others where they are. -/
theorem get?_entries_remove (store : Store α) (key name : String) :
    (store.remove name).2.entries.get? key = store.entries.get? key ∨
      (store.remove name).2.entries.get? key = none := by
  have herase : (store.entries.erase name).get? key = store.entries.get? key ∨
      (store.entries.erase name).get? key = none := by
    rw [KeyTable.get?_erase]
    split
    next => exact .inr rfl
    next => exact .inl rfl
  unfold remove
  split
  next => exact .inl rfl
  next =>
    simp only
    split <;> exact herase

/-- A store that sweeps have turned into another one: holders have been released and entries taken
out, and nothing else has happened to holders, entries, clock and settings. -/
structure SweptTo (store next : Store α) : Prop where
  pool : ∀ handle : Handle, next.pool[handle]? = store.pool[handle]? ∨
    next.pool[handle]? = (store.pool[handle]?).map Holder.release
  entries : ∀ key : String, next.entries.get? key = store.entries.get? key ∨
    next.entries.get? key = none

theorem SweptTo.refl (store : Store α) : store.SweptTo store :=
  ⟨fun _ => .inl rfl, fun _ => .inl rfl⟩

theorem SweptTo.trans {last : Store α} (h : store.SweptTo next) (h' : next.SweptTo last) :
    store.SweptTo last := by
  constructor
  · intro handle
    rcases h'.pool handle with hlast | hlast <;> rcases h.pool handle with hnext | hnext <;>
      rw [hlast, hnext]
    · exact .inl rfl
    · exact .inr rfl
    · exact .inr rfl
    · right
      cases store.pool[handle]? <;> rfl
  · intro key
    rcases h'.entries key with hlast | hlast
    · rw [hlast]
      exact h.entries key
    · exact .inr hlast

theorem sweptTo_sweep (store : Store α) : store.SweptTo store.sweep.2 := by
  by_cases checks : store.Checks
  · constructor
    · intro handle
      rw [pool_sweep checks]
      split
      · exact .inr rfl
      · exact .inl rfl
    · intro key
      rw [entries_sweep checks]
      cases store.entries.get? key with
      | none => exact .inl rfl
      | some handle => cases hexpired : store.isExpired handle <;> simp [Option.filter, hexpired]
  · obtain ⟨overflow, hsame⟩ := sweep_of_not_checks checks
    rw [hsame]
    exact .refl store

theorem SweptTo.evolves (h : store.SweptTo next) :
    store.Evolves next (fun _ operation => operation = .release) made := by
  have hsize : store.pool.size ≤ next.pool.size := by
    refine Nat.le_of_not_lt fun hlt => ?_
    have hmissing : next.pool[next.pool.size]? = none := Array.getElem?_eq_none (Nat.le_refl _)
    have hfound := Array.getElem?_eq_getElem hlt
    rcases h.pool next.pool.size with hsame | hreleased
    · rw [hmissing, hfound] at hsame
      cases hsame
    · rw [hmissing, hfound] at hreleased
      cases hreleased
  refine ⟨hsize, ?_⟩
  intro handle later hlater
  left
  rcases h.pool handle with hsame | hreleased
  · exact ⟨later, hsame ▸ hlater, .rest _ _ _ _⟩
  · rw [hreleased, Option.map_eq_some_iff] at hlater
    obtain ⟨holder, hfound, rfl⟩ := hlater
    exact ⟨holder, hfound, Holder.Undergoes.release.reaches rfl⟩

end ExpiringCache.Store
