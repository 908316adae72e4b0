import ExpiringCache.Store.Put

/-!
# Sweeping expired entries

A sweep takes out every entry that is invalid at the reading of the clock. It looks at all entries
before it takes one out, so that an overflow leaves the store as it was. It counts the holders that
it releases itself; holders that were released before only leave the store.
-/

namespace ExpiringCache.Store

variable {α : Type}

/-- The entries of a list that are invalid now. -/
def expiredAmong (store : Store α) :
    List (String × Handle) → Except Overflow (List (String × Handle))
  | [] => .ok []
  | (key, handle) :: rest =>
    match store.pool[handle]? with
    | none => store.expiredAmong rest
    | some holder =>
      match holder.isInvalid store.clock with
      | .error overflow => .error overflow
      | .ok invalid =>
        match store.expiredAmong rest with
        | .error overflow => .error overflow
        | .ok found => .ok (if invalid then (key, handle) :: found else found)

/-- A store after a sweep and the number of holders that the sweep released. -/
structure Swept (α : Type) where
  released : Nat
  store : Store α

/-- Takes the entries of a list out one after the other. -/
def discardAll : List (String × Handle) → Store α → Swept α
  | [], store => ⟨0, store⟩
  | (key, handle) :: rest, store =>
    let discarded := store.discard key handle
    if discarded.won then
      let later := discardAll rest (discarded.store.record .expiration)
      ⟨later.released + 1, later.store⟩
    else discardAll rest discarded.store

/-- Takes out every entry that is invalid now. -/
def sweep (store : Store α) : Except Overflow Nat × Store α :=
  match store.expiredAmong store.entries.entries with
  | .error overflow => (.error overflow, store)
  | .ok found =>
    let swept := discardAll found store
    (.ok swept.released, swept.store)

end ExpiringCache.Store
