import ExpiringCache.Proofs.Holder.ExactLimits
import ExpiringCache.Session

/-!
# Timed maps

A timed map says what a cache is for. For each key it has a value, the instants of its last writing
and of its last reading, and an idle limit; all instants and limits are unbounded integers, in
milliseconds and in seconds. Nothing else is kept: no offsets, no holders, no releases.
-/
namespace ExpiringCache

structure TimedEntry (α : Type) where
  value : α
  created : Int
  last : Int
  idle : Int

/-- A map whose entries expire. The absolute limit is `0` for none. -/
structure TimedMap (α : Type) where
  now : Int
  cap : Int
  policy : ExpiryPolicy
  entries : KeyTable (TimedEntry α)

/-- The calls that a cache takes, moves of its clock among them. -/
inductive Call (α : Type) where
  | put (key : String) (value : α) (words : List UInt32)
  | get (key : String)
  | peek (key : String)
  | touch (key : String) (seconds : Int32)
  | remove (key : String)
  | sweep
  | size
  | now
  | advanceMillis (millis : Int64)
  | advanceSeconds (seconds : Int64)
  | setMillis (millis : Int64)

def Call.operation {α : Type} : Call α → Operation α
  | .put key value words => .put key value words
  | .get key => .get key
  | .peek key => .peek key
  | .touch key seconds => .touch key seconds
  | .remove key => .remove key
  | .sweep => .sweep
  | .size => .size
  | .now => .now
  | .advanceMillis millis => .advanceMillis millis
  | .advanceSeconds seconds => .advanceSeconds seconds
  | .setMillis millis => .setMillis millis

def Call.request {α : Type} (call : Call α) : Request α := ⟨call.operation, none⟩

namespace TimedMap

variable {α : Type}

/-- A map without entries whose clock reads `now`. -/
def start (settings : Settings) (policy : Option ExpiryPolicy) (now : Int) : TimedMap α where
  now := now
  cap := max 0 (min 2147483647 settings.maxCache.toInt)
  policy := policy.getD settings.policy
  entries := KeyTable.empty

def isExpired (map : TimedMap α) (entry : TimedEntry α) : Bool :=
  decide (Holder.Passed map.cap entry.idle entry.created entry.last map.now)

def set (map : TimedMap α) (key : String) (entry : TimedEntry α) : TimedMap α :=
  { map with entries := map.entries.insert key entry }

/-- The idle limit of a new entry, in view of the one that it replaces, expired or not. -/
def idleAfter (policy : ExpiryPolicy) (previous : Option (TimedEntry α)) : Int :=
  match if previous.isSome then policy.onUpdate else policy.onCreation, previous with
  | .seconds count, _ => max 0 count.toInt
  | .keep, some entry => entry.idle
  | .keep, none => 0

def put (map : TimedMap α) (key : String) (value : α) : TimedMap α :=
  map.set key ⟨value, map.now, map.now, idleAfter map.policy (map.entries.get? key)⟩

/-- The entry under a key, unless it has expired. -/
def find (map : TimedMap α) (key : String) : Except StoreError (TimedEntry α) :=
  match map.entries.get? key with
  | none => .error (.notFound key)
  | some entry => if map.isExpired entry then .error (.expired key) else .ok entry

/-- Reads the value under a key, and notes the reading. -/
def get (map : TimedMap α) (key : String) : Except StoreError α × TimedMap α :=
  match map.find key with
  | .error reason => (.error reason, map)
  | .ok entry => (.ok entry.value, map.set key { entry with last := map.now })

/-- The idle limit of an entry once it was touched. -/
def touchedIdle (now : Int) (seconds : Int) (entry : TimedEntry α) : Int :=
  if seconds = 0 then 0
  else if 0 < seconds then min 2147483647 (max 0 (now - entry.created) / 1000 + seconds)
  else entry.idle

/-- Sets the idle limit of an entry anew, expired or not. -/
def touch (map : TimedMap α) (key : String) (seconds : Int) :
    Except StoreError Unit × TimedMap α :=
  match map.entries.get? key with
  | none => (.error (.notFound key), map)
  | some entry =>
    (.ok (), map.set key { entry with idle := touchedIdle map.now seconds entry })

/-- Takes an entry out, expired or not. -/
def remove (map : TimedMap α) (key : String) : Except StoreError Unit × TimedMap α :=
  match map.entries.get? key with
  | none => (.error (.notFound key), map)
  | some _ => (.ok (), { map with entries := map.entries.erase key })

def expired (map : TimedMap α) : KeyTable (TimedEntry α) :=
  map.entries.filter fun _ entry => map.isExpired entry

def sweep (map : TimedMap α) : TimedMap α :=
  { map with entries := map.entries.filter fun _ entry => !map.isExpired entry }

/-- The reading of the clock once it has moved. -/
def moveTo (map : TimedMap α) (now : Int) : Answer α × TimedMap α :=
  (.reading (Int64.ofInt now), { map with now := now })

/-- The answer to one call, and the map after it. A move by seconds is refused if it is no 64-bit
number of milliseconds. -/
def act (map : TimedMap α) : Call α → Answer α × TimedMap α
  | .put key value _ => (.done, map.put key value)
  | .get key => (Session.ofValue (map.get key).1, (map.get key).2)
  | .peek key => (Session.ofValue ((map.find key).map TimedEntry.value), map)
  | .touch key seconds =>
    (Session.ofUnit (map.touch key seconds.toInt).1, (map.touch key seconds.toInt).2)
  | .remove key => (Session.ofUnit (map.remove key).1, (map.remove key).2)
  | .sweep => (.count map.expired.size, map.sweep)
  | .size => (.size map.entries.size map.entries.entries.isEmpty, map)
  | .now => (.reading (Int64.ofInt map.now), map)
  | .advanceMillis millis => map.moveTo (map.now + millis.toInt)
  | .advanceSeconds seconds =>
    if Arithmetic.Fits (seconds.toInt * 1000) then map.moveTo (map.now + seconds.toInt * 1000)
    else (.overflow .multiply, map)
  | .setMillis millis => map.moveTo millis.toInt

def run (map : TimedMap α) : List (Call α) → List (Answer α)
  | [] => []
  | call :: calls => (map.act call).1 :: (map.act call).2.run calls

end TimedMap

end ExpiringCache
