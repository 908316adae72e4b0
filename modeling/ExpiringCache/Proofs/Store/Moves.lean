import ExpiringCache.Proofs.Holder.Fate
import ExpiringCache.Proofs.Store.Lookup

/-!
# The moves of a store

Whatever happens to a store is a sequence of moves of a few kinds: the clock is set, an event is
counted, a holder is made, a holder is changed without touching its value, a holder is released,
and a key is linked to a holder or unlinked. A key is linked to a complete holder that no other key
has, and a holder loses its key only once it is released. A mark is left for each holder that is
made and for each release that is called, so that the marks of a run tell its whole history of
making and releasing.
-/
namespace ExpiringCache

/-- What stays on record: a holder that was made with a payload, or a call of `release` on a holder
and whether that call took the value away. -/
inductive Mark (α : Type) where
  | made (payload : Payload α)
  | released (handle : Handle) (won : Bool)

namespace Mark

variable {α : Type}

def handle? : Mark α → Option Handle
  | .made _ => none
  | .released handle _ => some handle

/-- Whether a mark is a release that took a value away. -/
def isWon : Mark α → Bool
  | .made _ => false
  | .released _ won => won

/-- Whether a mark is a release that found the value taken away before. -/
def isLost (mark : Mark α) : Bool := mark.handle?.isSome && !mark.isWon

/-- Whether a mark is a release of one holder that took its value away. -/
def isWin (handle : Handle) (mark : Mark α) : Bool := mark.isWon && mark.handle? == some handle

def payload? : Mark α → Option (Payload α)
  | .made payload => some payload
  | .released .. => none

/-- The number of releases of one holder that took its value away. -/
def wins (handle : Handle) (marks : List (Mark α)) : Nat := marks.countP (isWin handle)

/-- The payloads of all holders that were made, in the order of their handles. -/
def payloads (marks : List (Mark α)) : List (Payload α) := marks.filterMap payload?

@[simp] theorem isWon_released (handle : Handle) (won : Bool) :
    (released handle won : Mark α).isWon = won := rfl

@[simp] theorem isLost_released (handle : Handle) (won : Bool) :
    (released handle won : Mark α).isLost = !won := rfl

@[simp] theorem isWin_released (handle other : Handle) (won : Bool) :
    (released other won : Mark α).isWin handle = (won && other == handle) := rfl

@[simp] theorem wins_nil (handle : Handle) : wins handle ([] : List (Mark α)) = 0 := rfl

@[simp] theorem wins_append (handle : Handle) (marks more : List (Mark α)) :
    wins handle (marks ++ more) = wins handle marks + wins handle more := List.countP_append

@[simp] theorem wins_made (handle : Handle) (payload : Payload α) :
    wins handle [made payload] = 0 := rfl

@[simp] theorem wins_released (handle other : Handle) (won : Bool) :
    wins handle [(released other won : Mark α)] = (won && other == handle).toNat := by
  rw [wins, List.countP_singleton, isWin_released]
  cases won && other == handle <;> rfl

@[simp] theorem payloads_nil : payloads ([] : List (Mark α)) = [] := rfl

@[simp] theorem payloads_append (marks more : List (Mark α)) :
    payloads (marks ++ more) = payloads marks ++ payloads more := List.filterMap_append

@[simp] theorem payloads_made (payload : Payload α) : payloads [made payload] = [payload] := rfl

@[simp] theorem payloads_released (handle : Handle) (won : Bool) :
    payloads [(released handle won : Mark α)] = [] := rfl

end Mark

/-- A change of a holder that leaves its value alone: an operation on it that is no release. -/
def Holder.Change {α : Type} (clock : Clock) (pool : Array (Holder α))
    (holder changed : Holder α) : Prop :=
  ∃ operation : HolderOperation, operation.releases = false ∧
    holder.Undergoes clock pool operation changed

namespace Holder

variable {α : Type} {clock : Clock} {pool : Array (Holder α)} {holder changed : Holder α}

theorem Change.payload (h : holder.Change clock pool changed) :
    changed.payload = holder.payload := by
  obtain ⟨operation, keeps, hundergoes⟩ := h
  exact hundergoes.payload keeps

theorem Change.isComplete (h : holder.Change clock pool changed)
    (complete : holder.isComplete = true) : changed.isComplete = true := by
  obtain ⟨operation, -, hundergoes⟩ := h
  exact hundergoes.isComplete complete

end Holder

namespace Store

variable {α : Type}

def isLive (store : Store α) (handle : Handle) : Bool :=
  (store.pool[handle]?).any fun holder => !holder.isReleased

def isReleased (store : Store α) (handle : Handle) : Bool :=
  (store.pool[handle]?).any Holder.isReleased

/-- The marks of releasing the holders of a list one after the other. -/
def releaseMarks (store : Store α) : List Handle → List (Mark α)
  | [] => []
  | handle :: handles =>
    .released handle (store.isLive handle) :: (store.release handle).releaseMarks handles

/-- One change of a store, and the marks that it leaves. -/
inductive Move (store : Store α) : List (Mark α) → Store α → Prop where
  | tick (clock : Clock) (h : clock.base = store.clock.base) :
      Move store [] { store with clock := clock }
  | count (event : Event) : Move store [] (store.record event)
  | make (holder : Holder α) {payload : Payload α} (h : holder.payload = some payload) :
      Move store [.made payload] (store.add holder)
  | change (handle : Handle) (f : Holder α → Holder α)
      (h : ∀ holder, store.pool[handle]? = some holder →
        holder.Change store.clock store.pool (f holder)) : Move store [] (store.modify handle f)
  | release (handle : Handle) :
      Move store [.released handle (store.isLive handle)] (store.release handle)
  | link (key : String) (handle : Handle) {holder : Holder α}
      (found : store.pool[handle]? = some holder) (complete : holder.isComplete = true)
      (unused : ∀ name, store.entries.get? name ≠ some handle)
      (gone : ∀ other, store.entries.get? key = some other → store.isLive other = false) :
      Move store [] { store with entries := store.entries.insert key handle }
  | unlink (key : String)
      (gone : ∀ other, store.entries.get? key = some other → store.isLive other = false) :
      Move store [] { store with entries := store.entries.erase key }

/-- Any number of changes of a store, and the marks that they leave. -/
inductive Moves : Store α → List (Mark α) → Store α → Prop where
  | rest (store : Store α) : Moves store [] store
  | step {first next last : Store α} {marks more : List (Mark α)} (head : Move first marks next)
      (tail : Moves next more last) : Moves first (marks ++ more) last

theorem Move.moves {store next : Store α} {marks : List (Mark α)} (h : Move store marks next) :
    Moves store marks next := by
  simpa using Moves.step h (.rest next)

theorem Moves.trans {first next last : Store α} {marks more : List (Mark α)}
    (h : Moves first marks next) (h' : Moves next more last) :
    Moves first (marks ++ more) last := by
  induction h with
  | rest => exact h'
  | step head tail ih =>
    rw [List.append_assoc]
    exact .step head (ih h')

theorem pool_push_of_getElem? {pool : Array (Holder α)} {handle : Handle} {holder : Holder α}
    (h : pool[handle]? = some holder) (other : Holder α) :
    (pool.push other)[handle]? = some holder := by
  obtain ⟨hlt, hget⟩ := Array.getElem?_eq_some_iff.mp h
  rw [Array.getElem?_push_lt hlt, hget]

/-- A holder of the pool stays in it and stays complete, and its value stays or is taken away. -/
theorem Move.holder {store next : Store α} {marks : List (Mark α)} (h : Move store marks next)
    {handle : Handle} {holder : Holder α} (found : store.pool[handle]? = some holder) :
    ∃ later, next.pool[handle]? = some later ∧
      (holder.isComplete = true → later.isComplete = true) ∧
      (later.payload = holder.payload ∨ later.payload = none) := by
  cases h with
  | tick | count | link | unlink => exact ⟨holder, found, id, .inl rfl⟩
  | make _ _ => exact ⟨holder, pool_push_of_getElem? found _, id, .inl rfl⟩
  | change other f h =>
    rw [pool_modify]
    split
    next heq =>
      subst heq
      exact ⟨f holder, by rw [found]; rfl, (h holder found).isComplete,
        .inl (h holder found).payload⟩
    next => exact ⟨holder, found, id, .inl rfl⟩
  | release other =>
    rw [Store.release, pool_modify]
    split
    next => exact ⟨holder.release, by rw [found]; rfl, id, .inr rfl⟩
    next => exact ⟨holder, found, id, .inl rfl⟩

/-- The pool grows by what is made, and by nothing else. -/
theorem Move.size {store next : Store α} {marks : List (Mark α)} (h : Move store marks next) :
    next.pool.size = store.pool.size + (Mark.payloads marks).length := by
  cases h with
  | tick | count | link | unlink => rfl
  | make holder h => exact Array.size_push ..
  | change handle f h => exact Array.size_modify
  | release handle => exact Array.size_modify

/-- A released holder stays so, and a release wins if it is the one that takes the value away. -/
theorem Move.wins {store next : Store α} {marks : List (Mark α)} (h : Move store marks next)
    (handle : Handle) : (store.isReleased handle).toNat + Mark.wins handle marks =
      (next.isReleased handle).toNat := by
  cases h with
  | tick | count | link | unlink => rfl
  | make holder h =>
    have hlive : holder.isReleased = false := by simp [Holder.isReleased, h]
    simp only [isReleased, add, Array.getElem?_push, Mark.wins_made]
    split
    next heq =>
      subst heq
      simp [hlive]
    next => rfl
  | change other f h =>
    simp only [isReleased, pool_modify, Mark.wins_nil]
    split
    next heq =>
      subst heq
      cases found : store.pool[other]? with
      | none => rfl
      | some holder => simp [Holder.isReleased, (h holder found).payload]
    next => rfl
  | release other =>
    simp only [isReleased, Store.release, pool_modify, Mark.wins_released, isLive]
    by_cases heq : other = handle
    · subst heq
      cases store.pool[other]? with
      | none => simp
      | some holder => cases hreleased : holder.isReleased <;> simp [hreleased]
    · simp [heq]

/-- What is on record for a pool: a holder that still has its value has the one it was made with. -/
def Recorded (past : List (Payload α)) (store : Store α) : Prop :=
  store.pool.size = past.length ∧
    ∀ (handle : Handle) (holder : Holder α) (payload : Payload α),
      store.pool[handle]? = some holder → holder.payload = some payload →
        past[handle]? = some payload

/-- What is on record stays so: behind the old pool there is only the holder that a move makes. -/
theorem Move.recorded {store next : Store α} {marks : List (Mark α)} (h : Move store marks next)
    {past : List (Payload α)} (kept : Recorded past store) :
    Recorded (past ++ Mark.payloads marks) next := by
  refine ⟨by rw [h.size, kept.1, List.length_append], ?_⟩
  intro handle later payload found hpayload
  rcases Nat.lt_or_ge handle store.pool.size with hlt | hge
  · obtain ⟨found', hfound', _, hkeeps⟩ := h.holder (Array.getElem?_eq_getElem hlt)
    obtain rfl : later = found' := by simpa [found] using hfound'
    have hsame : store.pool[handle].payload = some payload := by
      rcases hkeeps with hsame | hnone
      · rw [← hsame, hpayload]
      · simp [hnone] at hpayload
    rw [List.getElem?_append_left (by rw [← kept.1]; exact hlt)]
    exact kept.2 handle _ payload (Array.getElem?_eq_getElem hlt) hsame
  · have hsize := h.size
    have hbound := (Array.getElem?_eq_some_iff.mp found).1
    cases h with
    | tick | count | link | unlink => exact absurd hbound (by simpa using hge)
    | change other f h => exact absurd hbound (by simp [modify]; exact hge)
    | release other => exact absurd hbound (by simp [Store.release, modify]; exact hge)
    | @make holder made h =>
      rw [Mark.payloads_made, List.length_singleton] at hsize
      obtain rfl : handle = store.pool.size := Nat.le_antisymm (by omega) hge
      obtain rfl : holder = later := by simpa [add] using found
      obtain rfl : made = payload := by simpa [h] using hpayload
      simp [kept.1]

/-- No move changes the base epoch. -/
theorem Move.base {store next : Store α} {marks : List (Mark α)} (h : Move store marks next) :
    next.clock.base = store.clock.base := by
  cases h with
  | tick clock h => exact h
  | count | make | change | release | link | unlink => rfl

/-- A move keeps a store sound. -/
theorem Move.sound {store next : Store α} {marks : List (Mark α)} (h : Move store marks next)
    (sound : store.Sound) : next.Sound := by
  have stays : ∀ key handle, store.entries.get? key = some handle →
      ∃ holder, next.pool[handle]? = some holder ∧ holder.isComplete = true := by
    intro key handle hk
    obtain ⟨holder, found, complete⟩ := sound.complete key handle hk
    obtain ⟨later, hlater, hcomplete, _⟩ := h.holder found
    exact ⟨later, hlater, hcomplete complete⟩
  cases h with
  | tick | count | make | change | release => exact ⟨stays, sound.unique⟩
  | link key handle found complete unused gone =>
    refine ⟨?_, ?_⟩
    · intro name other hname
      rw [KeyTable.get?_insert] at hname
      split at hname
      · cases hname
        exact ⟨_, found, complete⟩
      · exact stays name other hname
    · intro name name' other hname hname'
      rw [KeyTable.get?_insert] at hname hname'
      split at hname <;> split at hname'
      next h₁ h₂ => rw [h₁, h₂]
      next => cases hname; exact absurd hname' (unused name')
      next => cases hname'; exact absurd hname (unused name)
      next => exact sound.unique name name' other hname hname'
  | unlink key gone =>
    refine ⟨?_, ?_⟩
    · intro name other hname
      rw [KeyTable.get?_erase] at hname
      split at hname
      · cases hname
      · exact stays name other hname
    · intro name name' other hname hname'
      rw [KeyTable.get?_erase] at hname hname'
      split at hname
      · cases hname
      split at hname'
      · cases hname'
      exact sound.unique name name' other hname hname'

/-- A holder keeps its key, or it has been released. -/
theorem Move.linked {store next : Store α} {marks : List (Mark α)} (h : Move store marks next)
    (sound : store.Sound) {key : String} {handle : Handle}
    (hk : store.entries.get? key = some handle) :
    next.entries.get? key = some handle ∨ next.isReleased handle = true := by
  have lost : store.isLive handle = false → store.isReleased handle = true := by
    obtain ⟨holder, found, _⟩ := sound.complete key handle hk
    simp [isLive, isReleased, found]
  cases h with
  | tick | count | make | change | release => exact .inl hk
  | link name other found complete unused gone =>
    rw [KeyTable.get?_insert]
    split
    next heq => exact .inr (lost (gone handle (heq ▸ hk)))
    next => exact .inl hk
  | unlink name gone =>
    rw [KeyTable.get?_erase]
    split
    next heq => exact .inr (lost (gone handle (heq ▸ hk)))
    next => exact .inl hk

theorem Moves.sound {store last : Store α} {marks : List (Mark α)} (h : Moves store marks last)
    (sound : store.Sound) : last.Sound := by
  induction h with
  | rest => exact sound
  | step head tail ih => exact ih (head.sound sound)

theorem Moves.base {store last : Store α} {marks : List (Mark α)} (h : Moves store marks last) :
    last.clock.base = store.clock.base := by
  induction h with
  | rest => rfl
  | step head tail ih => rw [ih, head.base]

theorem Moves.size {store last : Store α} {marks : List (Mark α)} (h : Moves store marks last) :
    last.pool.size = store.pool.size + (Mark.payloads marks).length := by
  induction h with
  | rest => rfl
  | step head tail ih => rw [ih, head.size, Mark.payloads_append, List.length_append, Nat.add_assoc]

theorem Moves.wins {store last : Store α} {marks : List (Mark α)} (h : Moves store marks last)
    (handle : Handle) : (store.isReleased handle).toNat + Mark.wins handle marks =
      (last.isReleased handle).toNat := by
  induction h with
  | rest => rfl
  | step head tail ih => rw [Mark.wins_append, ← Nat.add_assoc, head.wins, ih]

theorem Moves.recorded {store last : Store α} {marks : List (Mark α)} (h : Moves store marks last)
    {past : List (Payload α)} (kept : Recorded past store) :
    Recorded (past ++ Mark.payloads marks) last := by
  induction h generalizing past with
  | rest => simpa using kept
  | step head tail ih =>
    rw [Mark.payloads_append, ← List.append_assoc]
    exact ih (head.recorded kept)

theorem Moves.released {store last : Store α} {marks : List (Mark α)} (h : Moves store marks last)
    {handle : Handle} (released : store.isReleased handle = true) :
    last.isReleased handle = true := by
  have hwins := h.wins handle
  rw [released] at hwins
  cases hlast : last.isReleased handle with
  | true => rfl
  | false =>
    rw [hlast] at hwins
    simp at hwins

theorem Moves.linked {store last : Store α} {marks : List (Mark α)} (h : Moves store marks last)
    (sound : store.Sound) {key : String} {handle : Handle}
    (hk : store.entries.get? key = some handle) :
    last.entries.get? key = some handle ∨ last.isReleased handle = true := by
  induction h with
  | rest => exact .inl hk
  | step head tail ih =>
    rcases head.linked sound hk with hk' | hreleased
    · exact ih (head.sound sound) hk'
    · exact .inr (tail.released hreleased)

end Store

end ExpiringCache
