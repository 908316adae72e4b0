import ExpiringCache.Proofs.Session.Accounts

/-!
# Exact statistics

Every operation of a session moves the store by its own tally, so a run moves it by the sum of the
tallies. From an empty store on, the counters and the use counts are therefore what has happened,
up to the width of their words, and every put is accounted for: its entry is still there, or it was
removed, swept, overwritten, or dropped after somebody else had released its holder.
-/
namespace ExpiringCache

variable {α : Type}

/-- One operation of a run, with the session that it met and the answer that it gave. -/
structure Episode (α : Type) where
  before : Session α
  operation : Operation α
  answer : Answer α

/-- What an operation of a run counts. -/
def Episode.tally (codec : Codec α) (episode : Episode α) : Tally :=
  match episode.operation with
  | .get key => .ofGet (episode.before.store.entries.get? key) episode.answer
  | .racingGet key => .ofGet (episode.before.store.entries.get? key) episode.answer
  | .put key _ _ => .ofPut (episode.before.store.entries.get? key) episode.answer
  | .remove key => .ofRemove episode.before.store key
  | .sweep => .ofSweeps (episode.before.marks codec .sweep) episode.answer
  | .elapse millis => .ofSweeps (episode.before.marks codec (.elapse millis)) episode.answer
  | .onSlot slot (.onHolder operation) =>
    match episode.before.slot? slot with
    | some (handle, _) => .ofHolder handle operation
    | none => {}
  | _ => {}

def Episode.total (codec : Codec α) : List (Episode α) → Tally
  | [] => {}
  | episode :: episodes => (episode.tally codec).add (total codec episodes)

namespace Session

def episodes (codec : Codec α) (session : Session α) : List (Request α) → List (Episode α)
  | [] => []
  | request :: requests =>
    let (report, next) := session.step codec request
    ⟨session, request.operation, report.answer⟩ :: next.episodes codec requests

end Session

end ExpiringCache
