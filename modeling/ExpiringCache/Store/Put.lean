import ExpiringCache.Store

/-!
# Putting, touching and removing entries

A put makes a holder, takes its idle limit from the policy, completes it and only then publishes
it; the holder that was there is released. A put that fails changes nothing. A removal counts only
if it is the one that releases the holder.
-/

namespace ExpiringCache.Store

variable {α : Type}

/-- Adds a holder to the pool; its handle is the size of the pool before. -/
def add (store : Store α) (holder : Holder α) : Store α :=
  { store with pool := store.pool.push holder }

/-- Publishes a new holder under a key and releases the holder that was there. -/
def publish (store : Store α) (key : String) (holder : Holder α) : Store α :=
  let cleared :=
    match store.entries.get? key with
    | some replaced => store.release replaced
    | none => store
  { cleared.add holder with entries := store.entries.insert key store.pool.size }

/-- The limits of a fresh holder, in view of the holder that it replaces. -/
def assignLimits (store : Store α) (previous : Option (Holder α)) (words : List UInt32)
    (fresh : Holder α) : Holder α :=
  let followed := fresh.followPolicy store.policy previous.isSome previous
  let complete := followed.complete followed.maxIdle.toInt64 store.maxCache
  if store.jitter = 0 then complete
  else (complete.jitterWithin (.seconds store.jitter) words).holder

/-- Stores a value under a key. The words feed the random absolute limit. -/
def put (codec : Codec α) (key : String) (value : α) (words : List UInt32) (store : Store α) :
    Except StoreError Unit × Store α :=
  match Holder.new codec store.mode store.clock value with
  | .error reason => (.error (.holder reason), store)
  | .ok fresh =>
    let previous := (store.find? key).map Prod.snd
    let holder := store.assignLimits previous words fresh
    (.ok (), (store.publish key holder).record .put)

/-- Prolongs the idle limit of an entry. -/
def touch (key : String) (seconds : Int32) (store : Store α) :
    Except StoreError Unit × Store α :=
  match store.find? key with
  | none => (.error (.notFound key), store)
  | some (handle, holder) =>
    match holder.prolong store.clock seconds with
    | .error overflow => (.error (.overflow overflow), store)
    | .ok prolonged => (.ok (), store.modify handle fun _ => prolonged)

/-- A store without one of its entries, whose holder is released, and whether that release won. -/
structure Discarded (α : Type) where
  won : Bool
  store : Store α

/-- Takes an entry out and releases its holder. -/
def discard (store : Store α) (key : String) (handle : Handle) : Discarded α where
  won := (store.pool[handle]?).any fun holder => !holder.isReleased
  store := { store.release handle with entries := store.entries.erase key }

/-- Takes an entry out and releases its holder; counted if that release won. -/
def remove (key : String) (store : Store α) : Except StoreError Unit × Store α :=
  match store.find? key with
  | none => (.error (.notFound key), store)
  | some (handle, _) =>
    let discarded := store.discard key handle
    (.ok (), if discarded.won then discarded.store.record .removal else discarded.store)

end ExpiringCache.Store
