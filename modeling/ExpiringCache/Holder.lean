import ExpiringCache.Clock
import ExpiringCache.Codec
import ExpiringCache.ExpiryPolicy
import ExpiringCache.Jitter
import ExpiringCache.WriteMode

/-!
# Entry holders

A holder is the record of one entry: its value, live or written, its narrow timestamps, its idle
and absolute limits and its use count. A holder is incomplete until its limits are assigned, and
released once its value is taken away; both happen once and are never undone.
-/

namespace ExpiringCache

/-- The form in which a value is kept. -/
inductive Form where
  | plain
  | serialized
deriving DecidableEq

def Form.label : Form → String
  | .plain => "None"
  | .serialized => "Serializable"

/-- A value that is kept as it is or as bytes. -/
inductive Payload (α : Type) where
  | live (value : α)
  | written (bytes : List UInt8)

/-- Why a holder cannot be made or read. -/
inductive HolderError where
  /-- The codec refuses the value or its bytes. -/
  | storage (source : CodecError)
  /-- The write mode is not carried out. -/
  | unsupportedMode (mode : WriteMode)
deriving DecidableEq

def HolderError.message : HolderError → String
  | .storage _ => "cannot convert cache value for write mode " ++ WriteMode.serialize.label
  | .unsupportedMode mode => "write mode not supported: " ++ mode.label

/-- The record of one entry. Limits are in seconds, timestamps are offsets on the clock of the
cache. -/
structure Holder (α : Type) where
  /-- The value, until it is released. -/
  payload : Option (Payload α)
  form : Form
  created : Int32
  accessed : Int32
  /-- The idle limit; `0` for an entry that is expired. -/
  maxIdle : Int32
  /-- The absolute limit; `0` for none. -/
  maxCache : Int32
  uses : UInt32
  /-- Whether the limits are assigned. -/
  isComplete : Bool

namespace Holder

variable {α : Type}

/-- The payload that a write mode asks for. -/
def store (codec : Codec α) (mode : WriteMode) (value : α) :
    Except HolderError (Form × Payload α) :=
  match mode with
  | .identity => .ok (.plain, .live value)
  | .serialize =>
    if codec.serializable then
      match codec.encode value with
      | .ok bytes => .ok (.serialized, .written bytes)
      | .error source => .error (.storage source)
    else .error (.unsupportedMode .serialize)
  | .intern => .error (.unsupportedMode .intern)

/-- An incomplete holder of a value, created and accessed at the reading of the clock. -/
def new (codec : Codec α) (mode : WriteMode) (clock : Clock) (value : α) :
    Except HolderError (Holder α) :=
  match store codec mode value with
  | .error fault => .error fault
  | .ok (form, payload) =>
    .ok {
      payload := some payload
      form := form
      created := clock.offsetNow
      accessed := clock.offsetNow
      maxIdle := 0
      maxCache := 0
      uses := 0
      isComplete := false }

/-- Assigns both limits, held to the range of limits, and completes the holder. -/
def complete (holder : Holder α) (idle cache : Int64) : Holder α :=
  { holder with
    maxIdle := Arithmetic.limitSeconds idle
    maxCache := Arithmetic.limitSeconds cache
    isComplete := true }

def newComplete (codec : Codec α) (mode : WriteMode) (clock : Clock) (value : α)
    (idle cache : Int64) : Except HolderError (Holder α) :=
  (new codec mode clock value).map fun holder => holder.complete idle cache

/-- Whether the value was taken away. -/
def isReleased (holder : Holder α) : Bool := holder.payload.isNone

/-- Takes the value away. The release wins if the holder was not released before. -/
def release (holder : Holder α) : Holder α := { holder with payload := none }

/-- The value, if it was not released, decoded if it is kept as bytes. -/
def peek (codec : Codec α) (holder : Holder α) : Except HolderError (Option α) :=
  match holder.payload with
  | none => .ok none
  | some (.live value) => .ok (some value)
  | some (.written bytes) =>
    match codec.decode bytes with
    | .ok value => .ok (some value)
    | .error source => .error (.storage source)

/-- Records an access at the reading of the clock. -/
def access (clock : Clock) (holder : Holder α) : Holder α :=
  { holder with accessed := clock.offsetNow }

/-- Adds to the use count, modulo `2 ^ 32`. -/
def addUses (count : UInt32) (holder : Holder α) : Holder α :=
  { holder with uses := holder.uses + count }

/-- Sets the idle limit; a negative one counts as `0`. -/
def setIdle (seconds : Int32) (holder : Holder α) : Holder α :=
  { holder with maxIdle := if seconds < 0 then 0 else seconds }

/-- Prolongs the idle limit: `0` expires the holder, a positive number of seconds is added to the
whole seconds since the creation, and a negative number changes nothing. -/
def prolong (clock : Clock) (seconds : Int32) (holder : Holder α) :
    Except Overflow (Holder α) :=
  if seconds = 0 then .ok { holder with maxIdle := 0 }
  else if 0 < seconds then
    match clock.instantOf holder.created with
    | .error overflow => .error overflow
    | .ok created =>
      let age := Arithmetic.subSaturating clock.now created
      let whole := (if age < 0 then 0 else age) / 1000
      .ok { holder with maxIdle := Arithmetic.limitSeconds (whole + seconds.toInt64) }
  else .ok holder

/-- Takes the idle limit from a policy. A decision to keep takes the limit of the holder that is
replaced, if there is one. -/
def followPolicy (policy : ExpiryPolicy) (update : Bool) (previous : Option (Holder α))
    (holder : Holder α) : Holder α :=
  match policy.decision update, previous with
  | .seconds seconds, _ => holder.setIdle seconds
  | .keep, some previous => { holder with maxIdle := previous.maxIdle }
  | .keep, none => holder

/-- A holder and the number of random words that its absolute limit took. -/
structure Jittered (α : Type) where
  holder : Holder α
  drawn : Nat

/-- Shortens the absolute limit to a random delay of at most the whole seconds of `span`. A span
below one second draws nothing. -/
def jitterWithin (span : Duration) (words : List UInt32) (holder : Holder α) : Jittered α :=
  let bound := Jitter.bound span
  if bound = 0 then ⟨holder, 0⟩
  else
    let draw := Jitter.draw bound.toInt.toNat words
    let delay := Int32.ofNat draw.delay
    if holder.maxCache = 0 ∨ delay < holder.maxCache then
      ⟨{ holder with maxCache := delay }, draw.used⟩
    else ⟨holder, draw.used⟩

@[simp] theorem isReleased_release (holder : Holder α) : holder.release.isReleased = true := rfl

@[simp] theorem isReleased_access (clock : Clock) (holder : Holder α) :
    (holder.access clock).isReleased = holder.isReleased := rfl

@[simp] theorem isReleased_addUses (count : UInt32) (holder : Holder α) :
    (holder.addUses count).isReleased = holder.isReleased := rfl

@[simp] theorem peek_release (codec : Codec α) (holder : Holder α) :
    holder.release.peek codec = .ok none := rfl

@[simp] theorem peek_access (codec : Codec α) (clock : Clock) (holder : Holder α) :
    (holder.access clock).peek codec = holder.peek codec := rfl

end Holder

end ExpiringCache
