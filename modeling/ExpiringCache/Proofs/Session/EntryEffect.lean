import ExpiringCache.Proofs.Session.SweepAndReaders

/-!
# Operations on one entry

An operation on the entry of a key comes to an answer, a holder that it leaves under the key, and an
event that is counted. All three are worked out from the holder that was there, the clock and the
settings of the store; nothing else of the store is read, and no other entry is changed.
-/
namespace ExpiringCache

variable {α : Type}

/-- The operations on one entry of a store. -/
inductive EntryOperation (α : Type) where
  | put (value : α) (words : List UInt32)
  | get
  | peek
  | touch (seconds : Int32)
  | remove

def EntryOperation.on (key : String) : EntryOperation α → Operation α
  | .put value words => .put key value words
  | .get => .get key
  | .peek => .peek key
  | .touch seconds => .touch key seconds
  | .remove => .remove key

/-- What an operation on an entry comes to. -/
structure EntryEffect (α : Type) where
  answer : Answer α
  /-- The holder that is left under the key. -/
  holder : Option (Holder α)
  event : Option Event

namespace EntryEffect

def ofGet (codec : Codec α) (clock : Clock) (key : String) :
    Option (Holder α) → EntryEffect α
  | none => ⟨.storeError (.notFound key), none, some .miss⟩
  | some holder =>
    match holder.isInvalid clock with
    | .error overflow => ⟨.storeError (.overflow overflow), some holder, none⟩
    | .ok true => ⟨.storeError (.expired key), some holder, some .miss⟩
    | .ok false =>
      match holder.peek codec with
      | .error reason => ⟨.storeError (.holder reason), some (holder.access clock), none⟩
      | .ok none => ⟨.storeError (.expired key), some (holder.access clock), some .miss⟩
      | .ok (some value) =>
        ⟨.value value, some ((holder.access clock).addUses 1), some .hit⟩

def ofTouch (clock : Clock) (key : String) (seconds : Int32) :
    Option (Holder α) → EntryEffect α
  | none => ⟨.storeError (.notFound key), none, none⟩
  | some holder =>
    match holder.prolong clock seconds with
    | .error overflow => ⟨.storeError (.overflow overflow), some holder, none⟩
    | .ok prolonged => ⟨.done, some prolonged, none⟩

def ofRemove (key : String) : Option (Holder α) → EntryEffect α
  | none => ⟨.storeError (.notFound key), none, none⟩
  | some holder => ⟨.done, none, if holder.isReleased then none else some .removal⟩

def ofPut (codec : Codec α) (store : Store α) (value : α) (words : List UInt32)
    (entry : Option (Holder α)) : EntryEffect α :=
  match Holder.new codec store.mode store.clock value with
  | .error reason => ⟨.storeError (.holder reason), entry, none⟩
  | .ok fresh => ⟨.done, some (store.assignLimits entry words fresh), some .put⟩

end EntryEffect

/-- What an operation on the entry of a key comes to. A peek answers like a get and changes
nothing. -/
def EntryOperation.effect (codec : Codec α) (store : Store α) (key : String)
    (entry : Option (Holder α)) : EntryOperation α → EntryEffect α
  | .put value words => .ofPut codec store value words entry
  | .get => .ofGet codec store.clock key entry
  | .peek => ⟨(EntryEffect.ofGet codec store.clock key entry).answer, entry, none⟩
  | .touch seconds => .ofTouch store.clock key seconds entry
  | .remove => .ofRemove key entry

def Counters.note (counters : Counters) (event : Option Event) : Counters :=
  event.elim counters counters.record

namespace Store

def holder? (store : Store α) (key : String) : Option (Holder α) :=
  (store.find? key).map Prod.snd

def note (store : Store α) (event : Option Event) : Store α :=
  { store with counters := store.counters.note event }

def update (store : Store α) (key : String) (holder : Option (Holder α)) : Store α :=
  match store.find? key, holder with
  | some (handle, _), some changed => store.modify handle fun _ => changed
  | _, _ => store

@[simp] theorem holder?_note (store : Store α) (event : Option Event) (key : String) :
    (store.note event).holder? key = store.holder? key := rfl

theorem holder?_eq_none_iff {store : Store α} {key : String} :
    store.holder? key = none ↔ store.find? key = none := Option.map_eq_none_iff

theorem holder?_of_find? {store : Store α} {key : String} {handle : Handle} {holder : Holder α}
    (hk : store.find? key = some (handle, holder)) : store.holder? key = some holder := by
  rw [holder?, hk]
  rfl

/-- What an operation reads of its store beside the entry is kept by all these operations. -/
theorem effect_congr {store other : Store α} (kept : store.Kept other) (codec : Codec α)
    (key : String) (entry : Option (Holder α)) (operation : EntryOperation α) :
    operation.effect codec other key entry = operation.effect codec store key entry := by
  cases operation <;>
    simp only [EntryOperation.effect, EntryEffect.ofPut, assignLimits, kept.clock, kept.policy,
      kept.mode, kept.maxCache, kept.jitter]

theorem modify_self {store : Store α} {handle : Handle} {holder : Holder α}
    (found : store.pool[handle]? = some holder) :
    store.modify handle (fun _ => holder) = store := by
  have hpool : store.pool.modify handle (fun _ => holder) = store.pool := by
    apply Array.ext_getElem?
    intro other
    rw [Array.getElem?_modify]
    split
    next heq =>
      subst heq
      rw [found, Option.map_some]
    next => rfl
  rw [modify, hpool]

theorem update_of_find? {store : Store α} {key : String} {handle : Handle} {holder : Holder α}
    (hk : store.find? key = some (handle, holder)) (changed : Holder α) :
    store.update key (some changed) = store.modify handle fun _ => changed := by
  simp only [update, hk]

theorem update_of_missing {store : Store α} {key : String} (hk : store.find? key = none)
    (holder : Option (Holder α)) : store.update key holder = store := by
  simp only [update, hk]

theorem holder?_update {store : Store α} (sound : store.Sound) {key : String}
    {holder : Option (Holder α)} (there : holder.isSome = (store.holder? key).isSome)
    (name : String) :
    (store.update key holder).holder? name =
      if name = key then holder else store.holder? name := by
  cases hk : store.find? key with
  | none =>
    have hnone : holder = none := by simpa [holder?, hk] using there
    rw [update_of_missing hk, hnone]
    split
    next heq => rw [heq, holder?, hk, Option.map_none]
    next => rfl
  | some found =>
    obtain ⟨handle, before⟩ := found
    obtain ⟨changed, rfl⟩ := Option.isSome_iff_exists.mp (there.trans (by simp [holder?, hk]))
    rw [update_of_find? hk, holder?, find?_modify_eq sound hk]
    split <;> rfl

/-- How a store after an operation on the entry of a key stands to the one before. -/
structure Comes (store : Store α) (key : String) (effect : EntryEffect α) (after : Store α) :
    Prop where
  holders : ∀ name, after.holder? name = if name = key then effect.holder else store.holder? name
  counters : after.counters = store.counters.note effect.event
  kept : store.Kept after

/-- An effect that leaves the holder and counts nothing leaves the store as it is. -/
theorem comes_unchanged {store : Store α} {key : String} {effect : EntryEffect α}
    (holder : effect.holder = store.holder? key) (event : effect.event = none) :
    store.Comes key effect store := by
  refine ⟨fun name => ?_, by rw [event]; rfl, .refl store⟩
  split
  next heq => rw [heq, holder]
  next => rfl

theorem get_eq (codec : Codec α) (store : Store α) (key : String) :
    let effect := EntryEffect.ofGet codec store.clock key (store.holder? key)
    Session.ofValue (store.get codec key).1 = effect.answer ∧
      (store.get codec key).2 = (store.update key effect.holder).note effect.event := by
  cases hk : store.find? key with
  | none =>
    rw [holder?_eq_none_iff.mpr hk]
    simp only [EntryEffect.ofGet, update_of_missing hk, get, hk]
    exact ⟨rfl, rfl⟩
  | some found =>
    obtain ⟨handle, holder⟩ := found
    have hpool := (find?_eq_some_iff.mp hk).2
    rw [holder?_of_find? hk, get_of_find? codec hk]
    simp only [EntryEffect.ofGet]
    cases holder.isInvalid store.clock with
    | error overflow =>
      simp only [update_of_find? hk, modify_self hpool]
      exact ⟨rfl, rfl⟩
    | ok invalid =>
      cases invalid with
      | true =>
        simp only [update_of_find? hk, modify_self hpool]
        exact ⟨rfl, rfl⟩
      | false =>
        have haccess := modify_const hpool (Holder.access store.clock)
        cases holder.peek codec with
        | error reason =>
          simp only [update_of_find? hk, haccess]
          exact ⟨rfl, rfl⟩
        | ok read =>
          cases read with
          | none =>
            simp only [update_of_find? hk, haccess]
            exact ⟨rfl, rfl⟩
          | some value =>
            have huse := modify_const hpool (Holder.addUses 1 ∘ Holder.access store.clock)
            simp only [update_of_find? hk, modify_modify]
            exact ⟨rfl, congrArg (Store.record · .hit) huse.symm⟩

theorem peek_eq (codec : Codec α) (store : Store α) (key : String) :
    Session.ofValue (store.peek codec key) =
      (EntryEffect.ofGet codec store.clock key (store.holder? key)).answer := by
  rw [← answer_get]
  exact (store.get_eq codec key).1

theorem touch_eq (store : Store α) (key : String) (seconds : Int32) :
    let effect := EntryEffect.ofTouch store.clock key seconds (store.holder? key)
    Session.ofUnit (store.touch key seconds).1 = effect.answer ∧
      (store.touch key seconds).2 = (store.update key effect.holder).note effect.event := by
  cases hk : store.find? key with
  | none =>
    rw [holder?_eq_none_iff.mpr hk]
    simp only [EntryEffect.ofTouch, update_of_missing hk, touch, hk]
    exact ⟨rfl, rfl⟩
  | some found =>
    obtain ⟨handle, holder⟩ := found
    rw [holder?_of_find? hk]
    simp only [EntryEffect.ofTouch, touch, hk]
    cases holder.prolong store.clock seconds with
    | error overflow =>
      simp only [update_of_find? hk, modify_self (find?_eq_some_iff.mp hk).2]
      exact ⟨rfl, rfl⟩
    | ok prolonged =>
      simp only [update_of_find? hk]
      exact ⟨rfl, rfl⟩

theorem isSome_holder_ofGet (codec : Codec α) (clock : Clock) (key : String)
    (entry : Option (Holder α)) :
    (EntryEffect.ofGet codec clock key entry).holder.isSome = entry.isSome := by
  cases entry with
  | none => rfl
  | some holder =>
    simp only [EntryEffect.ofGet]
    split
    · rfl
    · rfl
    · split <;> rfl

theorem isSome_holder_ofTouch (clock : Clock) (key : String) (seconds : Int32)
    (entry : Option (Holder α)) :
    (EntryEffect.ofTouch clock key seconds entry).holder.isSome = entry.isSome := by
  cases entry with
  | none => rfl
  | some holder =>
    simp only [EntryEffect.ofTouch]
    split <;> rfl

theorem kept_note (store : Store α) (event : Option Event) : store.Kept (store.note event) :=
  ⟨rfl, rfl, rfl, rfl, rfl⟩

/-- A change of the holder under a key, and a count. -/
theorem comes_update {store : Store α} (sound : store.Sound) {key : String}
    {effect : EntryEffect α} (there : effect.holder.isSome = (store.holder? key).isSome) :
    store.Comes key effect ((store.update key effect.holder).note effect.event) := by
  have hupdate : (store.update key effect.holder).counters = store.counters ∧
      store.Kept (store.update key effect.holder) := by
    unfold update
    split <;> exact ⟨rfl, rfl, rfl, rfl, rfl, rfl⟩
  constructor
  case holders =>
    intro name
    rw [holder?_note, holder?_update sound there]
  case counters => rw [note, hupdate.1]
  case kept => exact hupdate.2.trans (kept_note _ _)

theorem comes_put (codec : Codec α) {store : Store α} (sound : store.Sound) (key : String)
    (value : α) (words : List UInt32) :
    let effect := EntryEffect.ofPut codec store value words (store.holder? key)
    Session.ofUnit (store.put codec key value words).1 = effect.answer ∧
      store.Comes key effect (store.put codec key value words).2 := by
  have hkept := store.kept_put codec key value words
  unfold put EntryEffect.ofPut at *
  cases hnew : Holder.new codec store.mode store.clock value with
  | error reason => exact ⟨rfl, comes_unchanged rfl rfl⟩
  | ok fresh =>
    simp only [hnew] at hkept
    let holder := store.assignLimits (store.holder? key) words fresh
    refine ⟨rfl, ⟨fun name => ?_, ?_, hkept⟩⟩
    · change (((store.publish key holder).find? name).map Prod.snd) = _
      rw [find?_publish_eq sound]
      split <;> rfl
    · change (store.publish key holder).counters.record .put = store.counters.record .put
      unfold publish
      split <;> rfl

theorem comes_remove {store : Store α} (sound : store.Sound) (key : String) :
    let effect := EntryEffect.ofRemove key (store.holder? key)
    Session.ofUnit (store.remove key).1 = effect.answer ∧
      store.Comes key effect (store.remove key).2 := by
  have hkept := store.kept_remove key
  unfold remove at *
  cases hk : store.find? key with
  | none =>
    have hnone := holder?_eq_none_iff.mpr hk
    rw [hnone]
    exact ⟨rfl, comes_unchanged hnone.symm rfl⟩
  | some found =>
    obtain ⟨handle, holder⟩ := found
    simp only [hk] at hkept
    have hget := (find?_eq_some_iff.mp hk).1
    have hwon : (store.discard key handle).won = !holder.isReleased := by
      simp [discard, (find?_eq_some_iff.mp hk).2]
    rw [holder?_of_find? hk]
    refine ⟨rfl, ⟨fun name => ?_, ?_, hkept⟩⟩
    · have hholder : (store.discard key handle).store.holder? name =
          if name = key then none else store.holder? name := by
        rw [holder?, find?_discard sound hget]
        split <;> rfl
      simp only
      split <;> exact hholder
    · simp only [hwon, EntryEffect.ofRemove]
      cases holder.isReleased <;> rfl

end Store

/-- An operation on the entry of a key comes to what its effect says. -/
theorem Session.act_on (codec : Codec α) {session : Session α} (sound : session.store.Sound)
    (operation : EntryOperation α) (key : String) :
    let effect := operation.effect codec session.store key (session.store.holder? key)
    (session.act codec (operation.on key)).answer = effect.answer ∧
      session.store.Comes key effect (session.act codec (operation.on key)).session.store := by
  cases operation with
  | put value words => exact Store.comes_put codec sound key value words
  | get =>
    obtain ⟨hanswer, hstore⟩ := session.store.get_eq codec key
    refine ⟨hanswer, ?_⟩
    change session.store.Comes key _ (session.store.get codec key).2
    rw [hstore]
    exact Store.comes_update sound (Store.isSome_holder_ofGet codec _ key _)
  | peek => exact ⟨session.store.peek_eq codec key, Store.comes_unchanged rfl rfl⟩
  | touch seconds =>
    obtain ⟨hanswer, hstore⟩ := session.store.touch_eq key seconds
    refine ⟨hanswer, ?_⟩
    change session.store.Comes key _ (session.store.touch key seconds).2
    rw [hstore]
    exact Store.comes_update sound (Store.isSome_holder_ofTouch _ key seconds _)
  | remove => exact Store.comes_remove sound key

end ExpiringCache
