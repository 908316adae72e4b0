import ExpiringCache.Arithmetic
import ExpiringCache.Binary64

/-!
# Statistics

Five counters of 64 bits that wrap, a snapshot of them beside the number of entries, and the share
of hits among the reads that were counted.
-/

namespace ExpiringCache

/-- The events that are counted. -/
inductive Event where
  | hit
  | miss
  | put
  | removal
  | expiration
deriving DecidableEq

/-- How often each event has happened, modulo `2 ^ 64`. -/
structure Counters where
  hits : UInt64
  misses : UInt64
  puts : UInt64
  removals : UInt64
  expirations : UInt64
deriving DecidableEq

namespace Counters

def zero : Counters := ⟨0, 0, 0, 0, 0⟩

/-- Counts one event. -/
def record (counters : Counters) : Event → Counters
  | .hit => { counters with hits := counters.hits + 1 }
  | .miss => { counters with misses := counters.misses + 1 }
  | .put => { counters with puts := counters.puts + 1 }
  | .removal => { counters with removals := counters.removals + 1 }
  | .expiration => { counters with expirations := counters.expirations + 1 }

end Counters

/-- The counters and the number of entries at one moment. -/
structure Snapshot where
  counters : Counters
  totalEntries : Nat
deriving DecidableEq

namespace Snapshot

/-- The share of hits among hits and misses, `0` if there are neither. Both counts are rounded to
floating-point numbers before they are divided. -/
def hitRate (snapshot : Snapshot) : Except Overflow Binary64 :=
  let hits := snapshot.counters.hits.toNat
  let reads := hits + snapshot.counters.misses.toNat
  if 2 ^ 64 ≤ reads then .error .add
  else if reads = 0 then .ok (.ofMagnitude false 0)
  else .ok (.ofMagnitude false (Binary64.div (Binary64.ofNat hits) (Binary64.ofNat reads)))

end Snapshot

end ExpiringCache
