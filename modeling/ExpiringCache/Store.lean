import ExpiringCache.Holder.Validity
import ExpiringCache.KeyTable
import ExpiringCache.Settings
import ExpiringCache.Statistics

/-!
# Stores

A store publishes holders under keys. Every holder ever made stands in one pool and is named by
its handle, so that a key of the store and a party outside it can share a holder. A store also
carries its clock, its policy, its write mode, the limits of new entries and its counters.
-/

namespace ExpiringCache

/-- The name of a holder: its place in the pool. -/
abbrev Handle := Nat

/-- Why an operation of a store has no answer. -/
inductive StoreError where
  | notFound (key : String)
  | expired (key : String)
  | holder (reason : HolderError)
  /-- An instant could not be recovered from its offset. -/
  | overflow (reason : Overflow)
deriving DecidableEq

def StoreError.message : StoreError → String
  | .notFound key => "Key not found: " ++ key
  | .expired key => "Key expired: " ++ key
  | .holder reason => reason.message
  | .overflow reason => reason.message

/-- Published holders, the pool of all holders, and what governs them. -/
structure Store (α : Type) where
  clock : Clock
  policy : ExpiryPolicy
  mode : WriteMode
  /-- Absolute limit of new entries, in seconds. -/
  maxCache : Int64
  /-- Greatest random absolute limit of new entries, in seconds; `0` for no randomness. -/
  jitter : UInt64
  pool : Array (Holder α)
  entries : KeyTable Handle
  counters : Counters

namespace Store

variable {α : Type}

def empty (settings : Settings) (clock : Clock) : Store α where
  clock := clock
  policy := settings.policy
  mode := settings.writeMode
  maxCache := settings.maxCache
  jitter := settings.expireJitter
  pool := #[]
  entries := KeyTable.empty
  counters := Counters.zero

/-- The handle and the holder under a key. -/
def find? (store : Store α) (key : String) : Option (Handle × Holder α) :=
  match store.entries.get? key with
  | some handle => (store.pool[handle]?).map fun holder => (handle, holder)
  | none => none

/-- Changes one holder of the pool. -/
def modify (store : Store α) (handle : Handle) (change : Holder α → Holder α) : Store α :=
  { store with pool := store.pool.modify handle change }

def release (store : Store α) (handle : Handle) : Store α := store.modify handle Holder.release

def record (store : Store α) (event : Event) : Store α :=
  { store with counters := store.counters.record event }

/-- The number of entries, among them the expired ones that no sweep has met. -/
def size (store : Store α) : Nat := store.entries.size

def snapshot (store : Store α) : Snapshot := ⟨store.counters, store.size⟩

@[simp] theorem pool_record (store : Store α) (event : Event) :
    (store.record event).pool = store.pool := rfl

@[simp] theorem entries_record (store : Store α) (event : Event) :
    (store.record event).entries = store.entries := rfl

@[simp] theorem entries_modify (store : Store α) (handle : Handle)
    (change : Holder α → Holder α) : (store.modify handle change).entries = store.entries := rfl

theorem pool_modify (store : Store α) (handle other : Handle) (change : Holder α → Holder α) :
    (store.modify handle change).pool[other]? =
      if handle = other then (store.pool[other]?).map change else store.pool[other]? :=
  Array.getElem?_modify

end Store

end ExpiringCache
