import Mathlib.Logic.Relation
import ExpiringCache.Proofs.Holder.RandomDelay
import ExpiringCache.Proofs.Store.NewEntry
import ExpiringCache.Session.Operation

/-!
# What holders undergo

Whoever acts on a holder, a store that has it under a key or a party that keeps it in a slot, acts
by the operations of holders. What has become of a holder is therefore told by the operations that
it may have undergone: none of them moves the instant of its creation, only `complete` can lengthen
its absolute limit or lift it, and no limit is ever negative.
-/
namespace ExpiringCache

variable {α : Type}

def HolderOperation.releases : HolderOperation → Bool
  | .release | .releaseRacing _ => true
  | _ => false

/-- Whether an operation changes nothing of a holder but its limits. -/
def HolderOperation.onlyLimits : HolderOperation → Bool
  | .setIdle _ | .prolong _ | .followPolicy .. | .jitter .. => true
  | _ => false

namespace Holder

/-- A holder that an operation on it turns into another one. A policy may take a limit over from
another holder of the pool; operations that only ask leave no trace and are not listed. -/
inductive Undergoes (clock : Clock) (pool : Array (Holder α)) (holder : Holder α) :
    HolderOperation → Holder α → Prop where
  | complete (idle cache : Int64) :
      Undergoes clock pool holder (.complete idle cache) (holder.complete idle cache)
  | get : Undergoes clock pool holder .get (holder.access clock)
  | setIdle (seconds : Int32) :
      Undergoes clock pool holder (.setIdle seconds) (holder.setIdle seconds)
  | prolong {seconds : Int32} {prolonged : Holder α}
      (h : holder.prolong clock seconds = .ok prolonged) :
      Undergoes clock pool holder (.prolong seconds) prolonged
  | followPolicy (policy : ExpiryPolicy) (update : Bool) (slot : Option String)
      (previous : Option (Holder α)) (h : ∀ other, previous = some other → other ∈ pool) :
      Undergoes clock pool holder (.followPolicy policy update slot)
        (holder.followPolicy policy update previous)
  | jitter (span : Duration) (words : List UInt32) :
      Undergoes clock pool holder (.jitter span words) (holder.jitterWithin span words).holder
  | addUses (count : Nat) :
      Undergoes clock pool holder (.addUses count) (holder.addUses (UInt32.ofNat count))
  | addUsesRacing (parties count : Nat) :
      Undergoes clock pool holder (.addUsesRacing parties count)
        (holder.addUses (UInt32.ofNat (parties * count)))
  | release : Undergoes clock pool holder .release holder.release
  | releaseRacing (parties : Nat) :
      Undergoes clock pool holder (.releaseRacing parties) holder.release

/-- A holder that any number of allowed operations on it turn into another one. -/
def Reaches (clock : Clock) (pool : Array (Holder α)) (allowed : HolderOperation → Prop) :
    Holder α → Holder α → Prop :=
  Relation.ReflTransGen fun holder later =>
    ∃ operation, allowed operation ∧ holder.Undergoes clock pool operation later

variable {clock : Clock} {pool : Array (Holder α)} {holder later : Holder α}
  {operation : HolderOperation} {allowed : HolderOperation → Prop}

theorem Undergoes.reaches (h : holder.Undergoes clock pool operation later)
    (mem : allowed operation) : holder.Reaches clock pool allowed later :=
  .single ⟨operation, mem, h⟩

theorem Reaches.rest (clock : Clock) (pool : Array (Holder α))
    (allowed : HolderOperation → Prop) (holder : Holder α) :
    holder.Reaches clock pool allowed holder := Relation.ReflTransGen.refl

theorem Reaches.trans {last : Holder α} (h : holder.Reaches clock pool allowed later)
    (h' : later.Reaches clock pool allowed last) : holder.Reaches clock pool allowed last :=
  Relation.ReflTransGen.trans h h'

/-- Prolonging changes the idle limit alone, and never to a negative one. -/
theorem exists_of_prolong {seconds : Int32} {prolonged : Holder α}
    (h : holder.prolong clock seconds = .ok prolonged) :
    ∃ idle : Int32, prolonged = { holder with maxIdle := idle } ∧
      (0 ≤ holder.maxIdle.toInt → 0 ≤ idle.toInt) := by
  unfold prolong at h
  split at h
  · cases h
    exact ⟨0, rfl, fun _ => Int.le_refl 0⟩
  · split at h
    · split at h
      · cases h
      · cases h
        refine ⟨_, rfl, fun _ => ?_⟩
        rw [Arithmetic.toInt_limitSeconds]
        omega
    · cases h
      exact ⟨holder.maxIdle, rfl, id⟩

theorem setIdle_nonneg (seconds : Int32) (holder : Holder α) :
    0 ≤ (holder.setIdle seconds).maxIdle.toInt := by
  rw [toInt_setIdle]
  omega

/-- A policy changes the idle limit alone. -/
theorem exists_followPolicy (policy : ExpiryPolicy) (update : Bool)
    (previous : Option (Holder α)) (holder : Holder α) :
    ∃ idle : Int32, holder.followPolicy policy update previous = { holder with maxIdle := idle } ∧
      (0 ≤ holder.maxIdle.toInt → (∀ other, previous = some other → 0 ≤ other.maxIdle.toInt) →
        0 ≤ idle.toInt) := by
  unfold followPolicy
  split
  next seconds _ => exact ⟨_, rfl, fun _ _ => setIdle_nonneg seconds holder⟩
  next other _ => exact ⟨other.maxIdle, rfl, fun _ hprevious => hprevious other rfl⟩
  next => exact ⟨holder.maxIdle, rfl, fun hholder _ => hholder⟩

/-- What the operations on the limits may do to them: only a random delay reaches the absolute
limit, and it sets one or makes it shorter. -/
theorem Undergoes.exists_limits (h : holder.Undergoes clock pool operation later)
    (only : operation.onlyLimits = true) :
    ∃ idle cache : Int32, later = { holder with maxIdle := idle, maxCache := cache } ∧
      (cache = holder.maxCache ∨ (∃ span words, operation = .jitter span words) ∧
        0 < cache.toInt ∧ (holder.maxCache.toInt = 0 ∨ cache.toInt < holder.maxCache.toInt)) := by
  cases h with
  | setIdle seconds => exact ⟨_, _, rfl, .inl rfl⟩
  | prolong h =>
    obtain ⟨idle, rfl, -⟩ := exists_of_prolong h
    exact ⟨idle, _, rfl, .inl rfl⟩
  | followPolicy policy update slot previous _ =>
    obtain ⟨idle, hidle, -⟩ := exists_followPolicy policy update previous holder
    exact ⟨idle, _, hidle, .inl rfl⟩
  | jitter span words =>
    rcases jitterWithin_cases span words holder with hsame | ⟨delay, hpos, -, hshorter, hdelay⟩
    · exact ⟨_, _, hsame, .inl rfl⟩
    · exact ⟨_, delay, hdelay, .inr ⟨⟨span, words, rfl⟩, hpos, hshorter⟩⟩
  | complete | get | addUses | addUsesRacing | release | releaseRacing => cases only

/-- Only a release takes the value of a holder away. -/
theorem Undergoes.payload (h : holder.Undergoes clock pool operation later)
    (keeps : operation.releases = false) : later.payload = holder.payload := by
  have hlimits := h.exists_limits
  cases h with
  | complete | get | addUses | addUsesRacing => rfl
  | setIdle | prolong | followPolicy | jitter =>
    obtain ⟨idle, cache, hlater, -⟩ := hlimits rfl
    rw [hlater]
  | release | releaseRacing => cases keeps

/-- A complete holder stays complete. -/
theorem Undergoes.isComplete (h : holder.Undergoes clock pool operation later)
    (complete : holder.isComplete = true) : later.isComplete = true := by
  have hlimits := h.exists_limits
  cases h with
  | complete => rfl
  | get | addUses | addUsesRacing | release | releaseRacing => exact complete
  | setIdle | prolong | followPolicy | jitter =>
    obtain ⟨idle, cache, hlater, -⟩ := hlimits rfl
    rw [hlater]
    exact complete

/-- Nothing moves the instant at which a holder was created. -/
theorem Undergoes.created (h : holder.Undergoes clock pool operation later) :
    later.created = holder.created := by
  have hlimits := h.exists_limits
  cases h with
  | complete | get | addUses | addUsesRacing | release | releaseRacing => rfl
  | setIdle | prolong | followPolicy | jitter =>
    obtain ⟨idle, cache, hlater, -⟩ := hlimits rfl
    rw [hlater]

/-- An absolute limit only becomes shorter, and never none, unless limits are assigned anew. -/
theorem Undergoes.maxCache (h : holder.Undergoes clock pool operation later)
    (assigns : ∀ idle cache, operation ≠ .complete idle cache)
    (positive : 0 < holder.maxCache.toInt) :
    0 < later.maxCache.toInt ∧ later.maxCache.toInt ≤ holder.maxCache.toInt := by
  have hlimits := h.exists_limits
  cases h with
  | complete idle cache => exact absurd rfl (assigns idle cache)
  | get | addUses | addUsesRacing | release | releaseRacing => exact ⟨positive, Int.le_refl _⟩
  | setIdle | prolong | followPolicy | jitter =>
    obtain ⟨idle, cache, hlater, hcache⟩ := hlimits rfl
    rw [hlater]
    rcases hcache with rfl | ⟨-, hpositive, hshorter⟩
    · exact ⟨positive, Int.le_refl _⟩
    · exact ⟨hpositive, by show cache.toInt ≤ _; omega⟩

/-- A holder whose limits are not negative. That they are at most `2147483647` is in their type. -/
structure InRange (holder : Holder α) : Prop where
  idle : 0 ≤ holder.maxIdle.toInt
  cache : 0 ≤ holder.maxCache.toInt

theorem inRange_complete (idle cache : Int64) (holder : Holder α) :
    (holder.complete idle cache).InRange := by
  constructor
  · show 0 ≤ (Arithmetic.limitSeconds idle).toInt
    rw [Arithmetic.toInt_limitSeconds]
    omega
  · show 0 ≤ (Arithmetic.limitSeconds cache).toInt
    rw [Arithmetic.toInt_limitSeconds]
    omega

theorem InRange.jitterWithin (h : holder.InRange) (span : Duration) (words : List UInt32) :
    (holder.jitterWithin span words).holder.InRange := by
  rcases jitterWithin_cases span words holder with hsame | ⟨delay, hpos, -, -, hdelay⟩
  · rw [hsame]
    exact h
  · rw [hdelay]
    exact ⟨h.idle, Int.le_of_lt hpos⟩

theorem Undergoes.inRange (h : holder.Undergoes clock pool operation later)
    (others : ∀ other ∈ pool, other.InRange) (inRange : holder.InRange) : later.InRange := by
  cases h with
  | complete idle cache => exact inRange_complete idle cache holder
  | get | addUses | addUsesRacing | release | releaseRacing => exact ⟨inRange.idle, inRange.cache⟩
  | setIdle seconds => exact ⟨setIdle_nonneg seconds holder, inRange.cache⟩
  | prolong h =>
    obtain ⟨idle, rfl, hidle⟩ := exists_of_prolong h
    exact ⟨hidle inRange.idle, inRange.cache⟩
  | followPolicy policy update slot previous hprevious =>
    obtain ⟨idle, heq, hidle⟩ := exists_followPolicy policy update previous holder
    rw [heq]
    refine ⟨hidle inRange.idle ?_, inRange.cache⟩
    exact fun other hother => (others other (hprevious other hother)).idle
  | jitter span words => exact inRange.jitterWithin span words

theorem Reaches.created (h : holder.Reaches clock pool allowed later) :
    later.created = holder.created := by
  induction h with
  | refl => rfl
  | tail _ last ih =>
    obtain ⟨operation, -, hlast⟩ := last
    rw [hlast.created, ih]

theorem Reaches.maxCache (h : holder.Reaches clock pool allowed later)
    (assigns : ∀ idle cache, ¬ allowed (.complete idle cache))
    (positive : 0 < holder.maxCache.toInt) :
    0 < later.maxCache.toInt ∧ later.maxCache.toInt ≤ holder.maxCache.toInt := by
  induction h with
  | refl => exact ⟨positive, Int.le_refl _⟩
  | tail _ last ih =>
    obtain ⟨operation, hallowed, hlast⟩ := last
    have hother : ∀ idle cache, operation ≠ .complete idle cache := by
      rintro idle cache rfl
      exact assigns idle cache hallowed
    obtain ⟨hpositive, hle⟩ := hlast.maxCache hother ih.1
    exact ⟨hpositive, Int.le_trans hle ih.2⟩

theorem Reaches.inRange (h : holder.Reaches clock pool allowed later)
    (others : ∀ other ∈ pool, other.InRange) (inRange : holder.InRange) : later.InRange := by
  induction h with
  | refl => exact inRange
  | tail _ last ih =>
    obtain ⟨operation, -, hlast⟩ := last
    exact hlast.inRange others ih

end Holder

end ExpiringCache
