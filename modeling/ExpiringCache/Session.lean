import ExpiringCache.Session.Operation
import ExpiringCache.Store.Read
import ExpiringCache.Store.Sweep
import ExpiringCache.SweepSchedule

/-!
# Sessions

A session is a store, slots in which parties outside the store keep holders, and the sweep tasks.
It takes one request after another; every request is a total function of the session before, and a
run is the list of the reports.
-/

namespace ExpiringCache

/-- A store, the slots outside it, and the sweep tasks. -/
structure Session (α : Type) where
  store : Store α
  slots : KeyTable Handle
  schedule : SweepSchedule

namespace Session

variable {α : Type}

/-- A session on an empty store, whose clock starts at its base epoch. -/
def start (settings : Settings) (policy : Option ExpiryPolicy) (base : Int64) : Session α where
  store :=
    let store := Store.empty settings (Clock.startingAt base)
    { store with policy := policy.getD store.policy }
  slots := KeyTable.empty
  schedule := SweepSchedule.empty

/-- An answer and the session after it. -/
structure Outcome (α : Type) where
  answer : Answer α
  session : Session α

def withStore (session : Session α) (store : Store α) : Session α :=
  { session with store := store }

/-- An answer that leaves the session as it is. -/
def unchanged (session : Session α) (answer : Answer α) : Outcome α := ⟨answer, session⟩

/-- The reading of the clock once it has moved. -/
def moveClock (session : Session α) (clock : Clock) : Outcome α :=
  ⟨.reading clock.now, session.withStore { session.store with clock := clock }⟩

/-- The answer of a store operation that gives nothing back. -/
def ofUnit : Except StoreError Unit → Answer α
  | .ok () => .done
  | .error reason => .storeError reason

/-- The answer of a store operation that gives a value back. -/
def ofValue : Except StoreError α → Answer α
  | .ok value => .value value
  | .error reason => .storeError reason

/-- The answer of reading a holder. -/
def ofRead : Except HolderError (Option α) → Answer α
  | .ok (some value) => .value value
  | .ok none => .absent
  | .error reason => .holderError reason

/-- The answer of a question that can overflow. -/
def ofFlag : Except Overflow Bool → Answer α
  | .ok flag => .flag flag
  | .error reason => .overflow reason

/-- A store that sweep tasks work on, and what each sweep released. -/
structure Sweeping (α : Type) where
  store : Store α
  released : Array Nat

/-- One run of a sweep task. It breaks off if the sweep overflows. -/
def sweepOnce (sweeping : Sweeping α) : Option (Sweeping α) :=
  match sweeping.store.sweep with
  | (.ok released, store) => some ⟨store, sweeping.released.push released⟩
  | (.error _, _) => none

/-- Lets the time of the sweep tasks pass and answers with their log. -/
def elapse (session : Session α) (millis : Nat) : Outcome α :=
  let elapsed := session.schedule.elapse sweepOnce millis ⟨session.store, #[]⟩
  ⟨.log (elapsed.state.released.toList.map .swept),
    { session with store := elapsed.state.store, schedule := elapsed.schedule }⟩

/-- The handle and the holder of a slot. -/
def slot? (session : Session α) (slot : String) : Option (Handle × Holder α) :=
  match session.slots.get? slot with
  | some handle => (session.store.pool[handle]?).map fun holder => (handle, holder)
  | none => none

def fill (session : Session α) (slot : String) (handle : Handle) : Session α :=
  { session with slots := session.slots.insert slot handle }

/-- Puts a new holder into a slot, unless it could not be made. -/
def fillNew (session : Session α) (slot : String) :
    Except HolderError (Holder α) → Outcome α
  | .error reason => session.unchanged (.holderError reason)
  | .ok holder =>
    let stored := session.withStore (session.store.add holder)
    ⟨.done, stored.fill slot session.store.pool.size⟩

def change (session : Session α) (handle : Handle) (holder : Holder α) : Session α :=
  session.withStore (session.store.modify handle fun _ => holder)

/-- The answer of a change that cannot fail. -/
def changed (session : Session α) (handle : Handle) (holder : Holder α) : Outcome α :=
  ⟨.done, session.change handle holder⟩

def stepHolder (codec : Codec α) (session : Session α) (handle : Handle) (holder : Holder α) :
    HolderOperation → Outcome α
  | .complete idle cache => session.changed handle (holder.complete idle cache)
  | .get =>
    let accessed := holder.access session.store.clock
    ⟨ofRead (accessed.peek codec), session.change handle accessed⟩
  | .peek => session.unchanged (ofRead (holder.peek codec))
  | .isInvalid => session.unchanged (ofFlag (holder.isInvalid session.store.clock))
  | .isInvalidAt instant =>
    session.unchanged (ofFlag (holder.isInvalidAt session.store.clock instant))
  | .setIdle seconds => session.changed handle (holder.setIdle seconds)
  | .prolong seconds =>
    match holder.prolong session.store.clock seconds with
    | .ok prolonged => session.changed handle prolonged
    | .error reason => session.unchanged (.overflow reason)
  | .followPolicy policy update previous =>
    let previous := (previous.bind session.slot?).map Prod.snd
    session.changed handle (holder.followPolicy policy update previous)
  | .jitter span words =>
    let jittered := holder.jitterWithin span words
    ⟨.drawn jittered.drawn, session.change handle jittered.holder⟩
  | .addUses count => session.changed handle (holder.addUses (UInt32.ofNat count))
  | .addUsesRacing parties count =>
    ⟨.count 0, session.change handle (holder.addUses (UInt32.ofNat (parties * count)))⟩
  | .release => ⟨.flag (!holder.isReleased), session.change handle holder.release⟩
  | .releaseRacing parties =>
    if parties = 0 then session.unchanged (.count 0)
    else
      ⟨.count (if holder.isReleased then 0 else 1), session.change handle holder.release⟩
  | .describe => session.unchanged (.text holder.describe)
  | .look => session.unchanged .done

/-- An operation on a slot. Taking and making fill the slot; all others need a holder in it. -/
def stepSlot (codec : Codec α) (session : Session α) (slot : String) :
    SlotOperation α → Outcome α
  | .take key =>
    match session.store.entries.get? key with
    | some handle => ⟨.flag true, session.fill slot handle⟩
    | none => session.unchanged (.flag false)
  | .make mode value =>
    session.fillNew slot (Holder.new codec mode session.store.clock value)
  | .makeComplete mode value idle cache =>
    session.fillNew slot (Holder.newComplete codec mode session.store.clock value idle cache)
  | .onHolder operation =>
    match session.slot? slot with
    | none => session.unchanged .noSlot
    | some (handle, holder) => session.stepHolder codec handle holder operation

def act (codec : Codec α) (session : Session α) : Operation α → Outcome α
  | .advanceMillis millis => session.moveClock (session.store.clock.advance millis)
  | .advanceSeconds seconds =>
    match session.store.clock.advanceSeconds seconds with
    | .ok clock => session.moveClock clock
    | .error reason => session.unchanged (.overflow reason)
  | .setMillis millis => session.moveClock (session.store.clock.set millis)
  | .now => session.unchanged (.reading session.store.clock.now)
  | .put key value words =>
    let (result, store) := session.store.put codec key value words
    ⟨ofUnit result, session.withStore store⟩
  | .get key =>
    let (result, store) := session.store.get codec key
    ⟨ofValue result, session.withStore store⟩
  | .peek key => session.unchanged (ofValue (session.store.peek codec key))
  | .racingGet key =>
    let (result, store) := session.store.racingGet codec key
    ⟨ofValue result, session.withStore store⟩
  | .racingPeek key =>
    let (result, store) := session.store.racingPeek codec key
    ⟨ofValue result, session.withStore store⟩
  | .touch key seconds =>
    let (result, store) := session.store.touch key seconds
    ⟨ofUnit result, session.withStore store⟩
  | .remove key =>
    let (result, store) := session.store.remove key
    ⟨ofUnit result, session.withStore store⟩
  | .sweep =>
    match session.store.sweep with
    | (.ok released, store) => ⟨.count released, session.withStore store⟩
    | (.error reason, store) => ⟨.overflow reason, session.withStore store⟩
  | .size =>
    session.unchanged (.size session.store.size session.store.entries.entries.isEmpty)
  | .statistics =>
    let snapshot := session.store.snapshot
    session.unchanged (.statistics snapshot snapshot.hitRate)
  | .inspect key =>
    match session.store.find? key with
    | some (_, holder) => session.unchanged (.holder (holder.view session.store.clock))
    | none => session.unchanged .absent
  | .cacheWithin key low high =>
    match session.store.find? key with
    | some (_, holder) =>
      session.unchanged
        (.flag (low ≤ holder.maxCache.toInt && holder.maxCache.toInt ≤ high))
    | none => session.unchanged (.flag false)
  | .spawnSweep seconds =>
    ⟨.log [.started seconds],
      { session with schedule := session.schedule.spawn seconds.toNat }⟩
  | .elapse millis => session.elapse millis
  | .stopSweeps =>
    let stopped := session.schedule.stop
    ⟨.flags stopped.finished, { session with schedule := stopped }⟩
  | .sweepsFinished => session.unchanged (.flags session.schedule.finished)
  | .onSlot slot operation => session.stepSlot codec slot operation

/-- What is seen of a session: the watched slot, or the counters of the store. -/
def sight (session : Session α) : Option String → Sight
  | some slot => .slot ((session.slot? slot).map fun found => found.2.view session.store.clock)
  | none => .store session.store.snapshot

/-- One operation with its report. -/
def step (codec : Codec α) (session : Session α) (request : Request α) : Report α × Session α :=
  let outcome := session.act codec request.operation
  (⟨outcome.answer, outcome.session.sight request.watched⟩, outcome.session)

/-- The reports of a list of requests, and the session after them. -/
def run (codec : Codec α) (session : Session α) : List (Request α) → List (Report α) × Session α
  | [] => ([], session)
  | request :: requests =>
    let (report, next) := session.step codec request
    let (reports, last) := next.run codec requests
    (report :: reports, last)

end Session

end ExpiringCache
