import ExpiringCache.Proofs.Session.Marks

/-!
# Who is told that a release has won

A release takes the value of a holder away at most once, and whoever calls it learns whether it did:
by the answer of a release in a slot, by the number of winners among parties that race, by the
counter of removals, and by the number that a sweep answers or writes to its log. The marks of an
operation and what it tells agree in every session.
-/
namespace ExpiringCache

variable {α : Type}

namespace Store

variable {store next : Store α} {marks : List (Mark α)} {handle : Handle} {holder : Holder α}

theorem isReleased_of_found (found : store.pool[handle]? = some holder) :
    store.isReleased handle = holder.isReleased := by
  rw [isReleased, found, Option.any_some]

/-- Where a holder is released in the end, a release has won unless it was released before. -/
theorem Moves.wins_of_isReleased (h : Moves store marks next)
    (found : store.pool[handle]? = some holder) (released : next.isReleased handle = true) :
    Mark.wins handle marks = (!holder.isReleased).toNat := by
  have hwins := h.wins handle
  rw [isReleased_of_found found, released] at hwins
  cases hbefore : holder.isReleased with
  | true => simpa [hbefore] using hwins
  | false => simpa [hbefore] using hwins

theorem isReleased_release_self (found : store.pool[handle]? = some holder) :
    (store.release handle).isReleased handle = true := by
  rw [isReleased, release, pool_modify, if_pos rfl, found]
  rfl

/-- A removal is counted exactly if it wins. -/
theorem removals_remove {key : String} (hk : store.find? key = some (handle, holder)) :
    (store.remove key).2.counters.removals =
      store.counters.removals + UInt64.ofNat (Mark.wins handle (store.releaseMarks [handle])) := by
  have found := (find?_eq_some_iff.mp hk).2
  have hwins : Mark.wins handle (store.releaseMarks [handle]) = (!holder.isReleased).toNat :=
    (Move.moves (.release handle)).wins_of_isReleased found (isReleased_release_self found)
  have hwon : (store.discard key handle).won = !holder.isReleased := by simp [discard, found]
  rw [hwins]
  simp only [remove, hk, hwon]
  cases holder.isReleased with
  | true => exact (UInt64.add_zero _).symm
  | false => rfl

/-- A sweep counts the releases that it wins, unless it overflows and releases nothing. -/
theorem sweep_tells (store : Store α) :
    store.sweep.1 = .ok ((store.releaseMarks store.sweptHandles).countP Mark.isWon) ∨
      (∃ overflow, store.sweep.1 = .error overflow) ∧ store.sweptHandles = [] := by
  unfold sweep sweptHandles
  cases store.expiredAmong store.entries.entries with
  | error overflow => exact .inr ⟨⟨overflow, rfl⟩, rfl⟩
  | ok found => exact .inl (congrArg Except.ok (released_discardAll found store))

end Store

namespace Session

/-- What a session answers or counts, for each way to release a holder by request, is what the marks
say that was won. -/
structure TellsWins (codec : Codec α) (session : Session α) : Prop where
  /-- A release in a slot answers whether it has won. -/
  release : ∀ slot handle holder, session.slot? slot = some (handle, holder) →
    let operation := Operation.onSlot slot (.onHolder .release)
    (session.act codec operation).answer =
      .flag (Mark.wins handle (session.marks codec operation) == 1)
  /-- Parties that race to release the holder in a slot answer how many of them have won. -/
  race : ∀ slot handle holder parties, session.slot? slot = some (handle, holder) →
    let operation := Operation.onSlot slot (.onHolder (.releaseRacing parties))
    (session.act codec operation).answer =
      .count (Mark.wins handle (session.marks codec operation))
  /-- A removal counts if it has won, and not if another party had released the holder. -/
  remove : ∀ key handle holder, session.store.find? key = some (handle, holder) →
    (session.act codec (.remove key)).answer = .done ∧
      (session.act codec (.remove key)).session.store.counters.removals =
        session.store.counters.removals +
          UInt64.ofNat (Mark.wins handle (session.marks codec (.remove key)))
  /-- A sweep answers how many of its releases have won, or overflows and releases nothing. -/
  sweep : (session.act codec .sweep).answer =
      .count ((session.marks codec .sweep).countP Mark.isWon) ∨
    (∃ overflow, (session.act codec .sweep).answer = .overflow overflow) ∧
      session.marks codec .sweep = []
  /-- The log of the sweep tasks has a line for each sweep, which says how many of its releases have
  won. -/
  elapse : ∀ millis, ∃ sweeps : List (List (Mark α)),
    session.marks codec (.elapse millis) = sweeps.flatten ∧
      (session.act codec (.elapse millis)).answer =
        .log (sweeps.map fun marks => .swept (marks.countP Mark.isWon))

variable {session : Session α} {slot : String} {handle : Handle} {holder : Holder α}

theorem wins_holderMarks (codec : Codec α) (found : session.store.pool[handle]? = some holder)
    {operation : HolderOperation}
    (h : (session.stepHolder codec handle holder operation).session =
      session.change handle holder.release) :
    Mark.wins handle (holderMarks session.store handle operation) =
      (!holder.isReleased).toNat := by
  have hmoves := moves_stepHolder codec found operation
  have hrelease : (session.change handle holder.release).store = session.store.release handle :=
    Store.modify_const found Holder.release
  rw [h, hrelease] at hmoves
  exact hmoves.wins_of_isReleased found (Store.isReleased_release_self found)

theorem answer_release (codec : Codec α) (found : session.slot? slot = some (handle, holder)) :
    (session.stepSlot codec slot (.onHolder .release)).answer =
      .flag (Mark.wins handle (session.slotMarks codec slot (.onHolder .release)) == 1) := by
  have hwins : Mark.wins handle (holderMarks session.store handle .release) = _ :=
    wins_holderMarks codec (slot?_eq_some_iff.mp found).2 rfl
  simp only [stepSlot, slotMarks, found, hwins, stepHolder]
  cases holder.isReleased <;> rfl

theorem answer_releaseRacing (codec : Codec α)
    (found : session.slot? slot = some (handle, holder)) (parties : Nat) :
    (session.stepSlot codec slot (.onHolder (.releaseRacing parties))).answer =
      .count (Mark.wins handle
        (session.slotMarks codec slot (.onHolder (.releaseRacing parties)))) := by
  simp only [stepSlot, slotMarks, found]
  cases parties with
  | zero => rfl
  | succ parties =>
    rw [wins_holderMarks codec (slot?_eq_some_iff.mp found).2 rfl]
    simp only [stepHolder, if_neg (Nat.succ_ne_zero parties)]
    cases holder.isReleased <;> rfl

theorem answer_sweep (codec : Codec α) (session : Session α) :
    (session.act codec .sweep).answer =
        .count ((session.marks codec .sweep).countP Mark.isWon) ∨
      (∃ overflow, (session.act codec .sweep).answer = .overflow overflow) ∧
        session.marks codec .sweep = [] := by
  simp only [act, marks]
  rcases session.store.sweep_tells with htells | ⟨⟨overflow, hoverflow⟩, hnone⟩
  · left
    split
    next h =>
      rw [h] at htells
      exact congrArg Answer.count (Except.ok.inj htells)
    next h =>
      rw [h] at htells
      cases htells
  · right
    rw [hnone]
    split
    next h =>
      rw [h] at hoverflow
      cases hoverflow
    next reason _ _ => exact ⟨⟨reason, rfl⟩, rfl⟩

/-- Sweeps and their marks, which fall into one stretch for each sweep. -/
def LogsWins (sweeping : Sweeping α) (noted : Noted α) : Prop :=
  noted.sweeping = sweeping ∧ ∃ sweeps : List (List (Mark α)), noted.marks = sweeps.flatten ∧
    sweeping.released.toList = sweeps.map (List.countP Mark.isWon)

theorem logsWins_sweep (sweeping : Sweeping α) (noted : Noted α) (h : LogsWins sweeping noted) :
    Option.Rel LogsWins (sweepOnce sweeping) (noteSweep noted) := by
  obtain ⟨rfl, sweeps, hmarks, hreleased⟩ := h
  rw [noteSweep, sweepOnce_eq]
  rcases noted.sweeping.store.sweep_tells with htells | ⟨⟨overflow, hoverflow⟩, -⟩
  · rw [htells]
    let store := noted.sweeping.store
    refine .some ⟨rfl, sweeps ++ [store.releaseMarks store.sweptHandles], ?_, ?_⟩
    · rw [List.flatten_concat, hmarks]
    · rw [Array.toList_push, hreleased, List.map_append, List.map_singleton]
  · rw [hoverflow]
    exact .none

theorem log_elapse (codec : Codec α) (session : Session α) (millis : Nat) :
    ∃ sweeps : List (List (Mark α)),
      session.marks codec (.elapse millis) = sweeps.flatten ∧
        (session.act codec (.elapse millis)).answer =
          .log (sweeps.map fun marks => .swept (marks.countP Mark.isWon)) := by
  have hstart : LogsWins ⟨session.store, #[]⟩ (⟨⟨session.store, #[]⟩, []⟩ : Noted α) :=
    ⟨rfl, [], rfl, rfl⟩
  obtain ⟨-, -, sweeps, hmarks, hreleased⟩ :=
    SweepSchedule.elapse_related logsWins_sweep millis session.schedule hstart
  refine ⟨sweeps, hmarks, ?_⟩
  simp only [act, elapse, hreleased, List.map_map]
  rfl

/-- Every session tells the releases that win to those who call them. -/
theorem tellsWins (codec : Codec α) (session : Session α) : session.TellsWins codec where
  release _ _ _ found := answer_release codec found
  race _ _ _ parties found := answer_releaseRacing codec found parties
  remove key handle holder hk := by
    refine ⟨?_, ?_⟩
    · simp only [act, Store.remove, hk]
      rfl
    · simp only [marks, hk]
      exact Store.removals_remove hk
  sweep := answer_sweep codec session
  elapse := log_elapse codec session

end Session

end ExpiringCache
