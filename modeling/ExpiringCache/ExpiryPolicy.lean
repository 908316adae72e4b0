/-!
# Expiry policies

A policy decides the idle limit of an entry when it is created and when it is overwritten. A
decision either sets a number of seconds or keeps the limit of the entry that is replaced.
-/

namespace ExpiringCache

/-- What a policy says about an idle limit. -/
inductive IdleDecision where
  /-- Set the limit to this many seconds. -/
  | seconds (count : Int32)
  /-- Keep the limit of the replaced entry. -/
  | keep
deriving DecidableEq

/-- One decision for the creation of an entry and one for its overwriting. -/
structure ExpiryPolicy where
  onCreation : IdleDecision
  onUpdate : IdleDecision
deriving DecidableEq

namespace ExpiryPolicy

/-- Counts from creation: an overwriting keeps the limit. -/
def created (count : Int32) : ExpiryPolicy := ⟨.seconds count, .keep⟩

/-- Counts from the last writing: creation and overwriting set the same limit. -/
def modified (count : Int32) : ExpiryPolicy := ⟨.seconds count, .seconds count⟩

/-- The decision for an overwriting if `update` holds, else for a creation. -/
def decision (policy : ExpiryPolicy) (update : Bool) : IdleDecision :=
  if update then policy.onUpdate else policy.onCreation

end ExpiryPolicy

end ExpiringCache
