import ExpiringCache.Store.Put
import ExpiringCache.Store.Read

/-!
# What a store operation does to the look-up of a key

A key of a store is looked up in two steps, from the key to a handle and from the handle to a
holder. A store is sound if both steps always go through, if what is found is complete, and if no
two keys share a handle; then a change of one holder is seen under one key only. Each operation of
a store is described here by the changes that it makes, so that nobody has to open it again.
-/
namespace ExpiringCache.Store

variable {α : Type}

/-- Every published holder is in the pool and complete, and is published under one key only. -/
structure Sound (store : Store α) : Prop where
  complete : ∀ key handle, store.entries.get? key = some handle →
    ∃ holder, store.pool[handle]? = some holder ∧ holder.isComplete = true
  unique : ∀ key name handle, store.entries.get? key = some handle →
    store.entries.get? name = some handle → key = name

theorem find?_eq_some_iff {store : Store α} {key : String} {handle : Handle} {holder : Holder α} :
    store.find? key = some (handle, holder) ↔
      store.entries.get? key = some handle ∧ store.pool[handle]? = some holder := by
  unfold find?
  cases store.entries.get? key with
  | none => simp
  | some found =>
    simp only [Option.map_eq_some_iff, Prod.mk.injEq, Option.some.injEq]
    constructor
    · rintro ⟨_, hpool, rfl, rfl⟩
      exact ⟨rfl, hpool⟩
    · rintro ⟨rfl, hpool⟩
      exact ⟨holder, hpool, rfl, rfl⟩

theorem find?_eq_none_iff {store : Store α} (h : store.Sound) {key : String} :
    store.find? key = none ↔ store.entries.get? key = none := by
  unfold find?
  cases hk : store.entries.get? key with
  | none => simp
  | some handle =>
    obtain ⟨holder, hpool, _⟩ := h.complete key handle hk
    simp [hpool]

theorem find?_modify (store : Store α) (handle : Handle) (change : Holder α → Holder α)
    (key : String) :
    (store.modify handle change).find? key = (store.find? key).map fun found =>
      (found.1, if found.1 = handle then change found.2 else found.2) := by
  unfold find?
  rw [entries_modify]
  cases store.entries.get? key with
  | none => rfl
  | some other =>
    simp only [pool_modify]
    by_cases heq : handle = other
    · subst heq
      cases store.pool[handle]? <;> simp
    · cases store.pool[other]? <;> simp [heq, Ne.symm heq]

/-- In a sound store a change of the holder under one key leaves the other keys alone. -/
theorem find?_modify_of_ne {store : Store α} (h : store.Sound) {key name : String}
    {handle : Handle} (hk : store.entries.get? key = some handle) (hne : name ≠ key)
    (change : Holder α → Holder α) :
    (store.modify handle change).find? name = store.find? name := by
  rw [find?_modify]
  cases hn : store.find? name with
  | none => rfl
  | some found =>
    obtain ⟨other, holder⟩ := found
    have hother := (find?_eq_some_iff.mp hn).1
    have : other ≠ handle := by
      rintro rfl
      exact hne (h.unique name key other hother hk)
    simp [this]

theorem find?_modify_self {store : Store α} {key : String} {handle : Handle} {holder : Holder α}
    (hk : store.find? key = some (handle, holder)) (change : Holder α → Holder α) :
    (store.modify handle change).find? key = some (handle, change holder) := by
  simp [find?_modify, hk]

/-- A change of a holder puts the changed holder in its place and does nothing else. -/
theorem modify_eq_set {store : Store α} {handle : Handle} {holder : Holder α}
    (found : store.pool[handle]? = some holder) (change : Holder α → Holder α) :
    store.modify handle change =
      { store with pool := store.pool.setIfInBounds handle (change holder) } := by
  have hbound := (Array.getElem?_eq_some_iff.mp found).1
  have hpool : store.pool.modify handle change =
      store.pool.setIfInBounds handle (change holder) := by
    apply Array.ext_getElem?
    intro other
    rw [Array.getElem?_modify, Array.getElem?_setIfInBounds, if_pos hbound]
    split
    next heq =>
      subst heq
      rw [found, Option.map_some]
    next => rfl
  rw [modify, hpool]

/-- A change that is worked out on the holder beforehand is the change itself. -/
theorem modify_const {store : Store α} {handle : Handle} {holder : Holder α}
    (found : store.pool[handle]? = some holder) (change : Holder α → Holder α) :
    store.modify handle (fun _ => change holder) = store.modify handle change := by
  rw [modify_eq_set found, modify_eq_set found]

/-- Two changes of one holder are one change. -/
theorem modify_modify (store : Store α) (handle : Handle) (first second : Holder α → Holder α) :
    (store.modify handle first).modify handle second =
      store.modify handle (second ∘ first) := by
  have hpool : (store.pool.modify handle first).modify handle second =
      store.pool.modify handle (second ∘ first) := by
    apply Array.ext_getElem?
    intro other
    simp only [Array.getElem?_modify]
    split
    next => rw [Option.map_map]
    next => rfl
  simp only [modify, hpool]

theorem release_release (store : Store α) (handle : Handle) :
    (store.release handle).release handle = store.release handle :=
  modify_modify store handle Holder.release Holder.release

/-- In a sound store a change of the holder under a key is seen under this key alone. -/
theorem find?_modify_eq {store : Store α} (h : store.Sound) {key : String} {handle : Handle}
    {holder : Holder α} (hk : store.find? key = some (handle, holder))
    (change : Holder α → Holder α) (name : String) :
    (store.modify handle change).find? name =
      if name = key then some (handle, change holder) else store.find? name := by
  by_cases heq : name = key
  · rw [if_pos heq, heq]
    exact find?_modify_self hk change
  · rw [if_neg heq]
    exact find?_modify_of_ne h (find?_eq_some_iff.mp hk).1 heq change

/-- The pool of a store while it publishes, before the new holder comes in. -/
theorem size_release (store : Store α) (handle : Handle) :
    (store.release handle).pool.size = store.pool.size := by
  simp [release, modify]

theorem entries_publish (store : Store α) (key : String) (holder : Holder α) :
    (store.publish key holder).entries = store.entries.insert key store.pool.size := rfl

theorem clock_publish (store : Store α) (key : String) (holder : Holder α) :
    (store.publish key holder).clock = store.clock := by
  unfold publish
  split <;> rfl

theorem pool_publish_size (store : Store α) (key : String) (holder : Holder α) :
    (store.publish key holder).pool[store.pool.size]? = some holder := by
  unfold publish
  split
  next replaced hr =>
    change ((store.release replaced).pool.push holder)[store.pool.size]? = some holder
    rw [← size_release store replaced, Array.getElem?_push_size]
  next => exact Array.getElem?_push_size

/-- A holder of the pool that is not replaced stays as it is when another one is published. -/
theorem pool_publish_of_lt {store : Store α} {key : String} {handle : Handle} (holder : Holder α)
    (hlt : handle < store.pool.size) (hne : store.entries.get? key ≠ some handle) :
    (store.publish key holder).pool[handle]? = store.pool[handle]? := by
  unfold publish
  split
  next replaced hr =>
    have hother : replaced ≠ handle := by
      rintro rfl
      exact hne hr
    change ((store.release replaced).pool.push holder)[handle]? = store.pool[handle]?
    rw [Array.getElem?_push_lt (by rw [size_release]; exact hlt),
      ← Array.getElem?_eq_getElem, release, pool_modify, if_neg hother]
  next => rw [show (store.add holder).pool[handle]? = (store.pool.push holder)[handle]? from rfl,
      Array.getElem?_push_lt hlt, ← Array.getElem?_eq_getElem]

theorem find?_publish_self (store : Store α) (key : String) (holder : Holder α) :
    (store.publish key holder).find? key = some (store.pool.size, holder) := by
  rw [find?_eq_some_iff, entries_publish, KeyTable.get?_insert, if_pos rfl]
  exact ⟨rfl, pool_publish_size store key holder⟩

theorem lt_size_of_get? {store : Store α} (h : store.Sound) {key : String} {handle : Handle}
    (hk : store.entries.get? key = some handle) : handle < store.pool.size := by
  obtain ⟨holder, hpool, _⟩ := h.complete key handle hk
  exact (Array.getElem?_eq_some_iff.mp hpool).1

theorem find?_publish_of_ne {store : Store α} (h : store.Sound) {key name : String}
    (hne : name ≠ key) (holder : Holder α) :
    (store.publish key holder).find? name = store.find? name := by
  unfold find?
  rw [entries_publish, KeyTable.get?_insert, if_neg hne]
  cases hn : store.entries.get? name with
  | none => rfl
  | some handle =>
    have hother : store.entries.get? key ≠ some handle := fun hk => hne (h.unique _ _ _ hn hk)
    simp only [pool_publish_of_lt holder (lt_size_of_get? h hn) hother]

theorem find?_publish_eq {store : Store α} (h : store.Sound) (key : String) (holder : Holder α)
    (name : String) : (store.publish key holder).find? name =
      if name = key then some (store.pool.size, holder) else store.find? name := by
  by_cases heq : name = key
  · rw [if_pos heq, heq]
    exact find?_publish_self store key holder
  · rw [if_neg heq]
    exact find?_publish_of_ne h heq holder

/-- A read that leaves no trace asks for validity first and then for the value. -/
theorem peek_of_find? (codec : Codec α) {store : Store α} {key : String} {handle : Handle}
    {holder : Holder α} (hk : store.find? key = some (handle, holder)) :
    store.peek codec key =
      match holder.isInvalid store.clock with
      | .error overflow => .error (.overflow overflow)
      | .ok true => .error (.expired key)
      | .ok false =>
        match holder.peek codec with
        | .error reason => .error (.holder reason)
        | .ok none => .error (.expired key)
        | .ok (some value) => .ok value := by
  have hpool := (find?_eq_some_iff.mp hk).2
  cases hi : holder.isInvalid store.clock with
  | error overflow => simp only [peek, hk, hi]
  | ok invalid =>
    cases invalid with
    | true => simp only [peek, hk, hi]
    | false =>
      cases hp : holder.peek codec with
      | error reason => simp only [peek, hk, hi, peekHolder, hpool, hp]
      | ok value => cases value <;> simp only [peek, hk, hi, peekHolder, hpool, hp]

/-- A recorded read asks for validity first, then records the access, and looks at the value
last. -/
theorem get_of_find? (codec : Codec α) {store : Store α} {key : String} {handle : Handle}
    {holder : Holder α} (hk : store.find? key = some (handle, holder)) :
    store.get codec key =
      match holder.isInvalid store.clock with
      | .error overflow => (.error (.overflow overflow), store)
      | .ok true => (.error (.expired key), store.record .miss)
      | .ok false =>
        let accessed := store.modify handle (Holder.access store.clock)
        match holder.peek codec with
        | .error reason => (.error (.holder reason), accessed)
        | .ok none => (.error (.expired key), accessed.record .miss)
        | .ok (some value) =>
          (.ok value, (accessed.modify handle (Holder.addUses 1)).record .hit) := by
  have hpool := (find?_eq_some_iff.mp hk).2
  have haccessed : (store.modify handle (Holder.access store.clock)).pool[handle]? =
      some (holder.access store.clock) := by
    rw [pool_modify, if_pos rfl, hpool, Option.map_some]
  simp only [get, hk, getHolder, peekHolder, haccessed, Holder.peek_access]
  cases holder.isInvalid store.clock with
  | error overflow => rfl
  | ok invalid =>
    cases invalid with
    | true => rfl
    | false =>
      cases holder.peek codec with
      | error reason => rfl
      | ok value => cases value <;> rfl

/-- A recorded read answers like one that leaves no trace. -/
theorem answer_get (codec : Codec α) (store : Store α) (key : String) :
    (store.get codec key).1 = store.peek codec key := by
  cases hk : store.find? key with
  | none => simp only [get, peek, hk]
  | some found =>
    rw [get_of_find? codec hk, peek_of_find? codec hk]
    cases found.2.isInvalid store.clock with
    | error overflow => rfl
    | ok invalid =>
      cases invalid with
      | true => rfl
      | false =>
        cases found.2.peek codec with
        | error reason => rfl
        | ok read => cases read <;> rfl

/-- A recorded read that gives a value back has found a valid holder, and has recorded the access,
the use and the hit. -/
theorem exists_of_get_eq_ok {codec : Codec α} {store : Store α} {key : String} {value : α}
    (h : (store.get codec key).1 = .ok value) :
    ∃ handle holder, store.find? key = some (handle, holder) ∧
      holder.isInvalid store.clock = .ok false ∧ holder.peek codec = .ok (some value) ∧
      (store.get codec key).2 =
        ((store.modify handle (Holder.access store.clock)).modify handle
          (Holder.addUses 1)).record .hit := by
  cases hk : store.find? key with
  | none => simp [get, hk] at h
  | some found =>
    obtain ⟨handle, holder⟩ := found
    rw [get_of_find? codec hk] at h ⊢
    refine ⟨handle, holder, rfl, ?_⟩
    cases hi : holder.isInvalid store.clock with
    | error overflow => simp [hi] at h
    | ok invalid =>
      cases invalid with
      | true => simp [hi] at h
      | false =>
        cases hp : holder.peek codec with
        | error reason => simp [hi, hp] at h
        | ok read =>
          cases read with
          | none => simp [hi, hp] at h
          | some found =>
            simp only [hi, hp, Except.ok.injEq] at h
            simp [h]

end ExpiringCache.Store
