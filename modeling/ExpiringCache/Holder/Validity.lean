import ExpiringCache.Holder

/-!
# Validity of holders

A holder is invalid if it is incomplete or released, if its absolute limit has passed since the
creation, if its idle limit is `0`, or if its idle limit has passed since the last access. The
limits are looked at in this order, and an instant is recovered from its offset only when a limit
is compared with it; that recovery may overflow.
-/

namespace ExpiringCache.Holder

variable {α : Type}

/-- Whether more than `limit` seconds lie between two instants. -/
def exceeds (limit : Int32) (since instant : Int64) : Bool :=
  1000 * limit.toInt64 < Arithmetic.subSaturating instant since

/-- Whether the absolute limit has passed at an instant. -/
def cachePassed (clock : Clock) (instant : Int64) (holder : Holder α) : Except Overflow Bool :=
  if 0 < holder.maxCache then
    (clock.instantOf holder.created).map fun created => exceeds holder.maxCache created instant
  else .ok false

/-- Whether the idle limit has passed at an instant; a limit of `0` always has. -/
def idlePassed (clock : Clock) (instant : Int64) (holder : Holder α) : Except Overflow Bool :=
  if holder.maxIdle = 0 then .ok true
  else (clock.instantOf holder.accessed).map fun accessed => exceeds holder.maxIdle accessed instant

/-- Whether one of the limits has passed at an instant, the absolute one first. -/
def limitPassed (clock : Clock) (instant : Int64) (holder : Holder α) : Except Overflow Bool :=
  match holder.cachePassed clock instant with
  | .error overflow => .error overflow
  | .ok true => .ok true
  | .ok false => holder.idlePassed clock instant

/-- Whether a holder is invalid at an instant. -/
def isInvalidAt (clock : Clock) (instant : Int64) (holder : Holder α) : Except Overflow Bool :=
  if !holder.isComplete || holder.isReleased then .ok true else holder.limitPassed clock instant

def isInvalid (clock : Clock) (holder : Holder α) : Except Overflow Bool :=
  holder.isInvalidAt clock clock.now

/-- Whether a check of validity goes as far as reading the base epoch of the clock. -/
def consultsBase (holder : Holder α) : Bool :=
  holder.isComplete && !holder.isReleased && (0 < holder.maxCache || holder.maxIdle != 0)

@[simp] theorem limitPassed_release (clock : Clock) (instant : Int64) (holder : Holder α) :
    holder.release.limitPassed clock instant = holder.limitPassed clock instant := rfl

theorem isInvalidAt_of_isReleased {clock : Clock} {instant : Int64} {holder : Holder α}
    (h : holder.isReleased = true) : holder.isInvalidAt clock instant = .ok true := by
  simp [isInvalidAt, h]

end ExpiringCache.Holder
