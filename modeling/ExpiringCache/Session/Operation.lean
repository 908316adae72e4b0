import ExpiringCache.Holder.View
import ExpiringCache.Store

/-!
# Operations and answers

The operations that a session takes and the answers that it gives. An operation acts on the clock,
on the store, on the sweep tasks, or on the holder in a slot. After each operation the session
shows the holder of the slot that is watched, or else the counters of the store.
-/

namespace ExpiringCache

inductive HolderOperation where
  | complete (idle cache : Int64)
  | get
  | peek
  | isInvalid
  | isInvalidAt (instant : Int64)
  | setIdle (seconds : Int32)
  | prolong (seconds : Int32)
  /-- Takes the idle limit from a policy; `previous` names the slot of the replaced holder. -/
  | followPolicy (policy : ExpiryPolicy) (update : Bool) (previous : Option String)
  | jitter (span : Duration) (words : List UInt32)
  | addUses (count : Nat)
  /-- Several parties each add to the use count. -/
  | addUsesRacing (parties count : Nat)
  | release
  /-- Several parties each release the holder. -/
  | releaseRacing (parties : Nat)
  | describe
  | look

inductive SlotOperation (α : Type) where
  /-- Puts the holder that the store has under `key` into the slot, to be shared. -/
  | take (key : String)
  /-- Puts an incomplete holder into the slot. -/
  | make (mode : WriteMode) (value : α)
  /-- Puts a complete holder into the slot. -/
  | makeComplete (mode : WriteMode) (value : α) (idle cache : Int64)
  /-- Acts on the holder in the slot. -/
  | onHolder (operation : HolderOperation)

inductive Operation (α : Type) where
  | advanceMillis (millis : Int64)
  | advanceSeconds (seconds : Int64)
  | setMillis (millis : Int64)
  | now
  /-- Stores a value; the words feed the random absolute limit. -/
  | put (key : String) (value : α) (words : List UInt32)
  | get (key : String)
  | peek (key : String)
  | racingGet (key : String)
  | racingPeek (key : String)
  | touch (key : String) (seconds : Int32)
  | remove (key : String)
  | sweep
  | size
  | statistics
  | inspect (key : String)
  /-- Asks whether the absolute limit of an entry lies in a range. -/
  | cacheWithin (key : String) (low high : Int)
  /-- Starts a task that sweeps the store once in every interval. -/
  | spawnSweep (seconds : UInt64)
  /-- Lets the time of the tasks pass. -/
  | elapse (millis : Nat)
  | stopSweeps
  | sweepsFinished
  | onSlot (slot : String) (operation : SlotOperation α)

/-- An operation and the slot that is looked at after it, if there is one. Any operation may have a
slot watched, not only one on that slot. -/
structure Request (α : Type) where
  operation : Operation α
  watched : Option String

/-- What a sweep task writes to its log. -/
inductive LogLine where
  | started (seconds : UInt64)
  | swept (released : Nat)
deriving DecidableEq

def LogLine.text : LogLine → String
  | .started seconds =>
    "Starting expiry sweep task with interval of " ++ Decimal.ofNat seconds.toNat ++ " seconds"
  | .swept released =>
    if released = 0 then "Expiry sweep: no expired holders found"
    else "Expiry sweep: released " ++ Decimal.ofNat released ++ " holders"

/-- The answer of one operation. -/
inductive Answer (α : Type) where
  | done
  /-- The slot to act on is empty. -/
  | noSlot
  | storeError (reason : StoreError)
  | holderError (reason : HolderError)
  | overflow (reason : Overflow)
  | reading (millis : Int64)
  | value (value : α)
  /-- There is no value or no holder. -/
  | absent
  | flag (flag : Bool)
  | flags (flags : List Bool)
  | count (count : Nat)
  | size (entries : Nat) (isEmpty : Bool)
  | statistics (snapshot : Snapshot) (hitRate : Except Overflow Binary64)
  | holder (view : HolderView)
  | drawn (words : Nat)
  | text (text : String)
  | log (lines : List LogLine)

/-- What a session shows after an operation. -/
inductive Sight where
  /-- The holder of the slot that is watched, if there is one. -/
  | slot (view : Option HolderView)
  | store (snapshot : Snapshot)

/-- The answer of an operation and what is seen after it. -/
structure Report (α : Type) where
  answer : Answer α
  sight : Sight

end ExpiringCache
