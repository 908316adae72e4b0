import ExpiringCache.ExpiryPolicy
import ExpiringCache.Text.Decimal
import ExpiringCache.Text.Utf8
import ExpiringCache.WriteMode

/-!
# Settings

The six settings of a cache and how they are read from an environment. Each variable is read by
itself: a variable that is absent or is not text counts as unset, one that does not parse is
reported and its default stands.
-/

namespace ExpiringCache

/-- The variables that an environment can set, in the order in which they are read. -/
inductive Variable where
  | defaultIdle
  | updateIdle
  | maxCache
  | expireJitter
  | writeMode
  | sweepInterval
deriving DecidableEq

namespace Variable

/-- The name of a variable in an environment. -/
def name : Variable → String
  | .defaultIdle => "DEFAULT_IDLE_SECS"
  | .updateIdle => "UPDATE_IDLE_SECS"
  | .maxCache => "MAX_CACHE_SECS"
  | .expireJitter => "EXPIRE_JITTER_SECS"
  | .writeMode => "WRITE_MODE"
  | .sweepInterval => "CLEANUP_INTERVAL"

/-- Every variable, in reading order. -/
def all : List Variable :=
  [.defaultIdle, .updateIdle, .maxCache, .expireJitter, .writeMode, .sweepInterval]

theorem mem_all (var : Variable) : var ∈ all := by cases var <;> decide

end Variable

/-- The bytes of the variables that are set. -/
abbrev Environment := Variable → Option (List UInt8)

/-- The parameters of a cache. -/
structure Settings where
  /-- Idle limit of a new entry, in seconds. -/
  defaultIdle : Int32
  /-- Idle limit of an overwritten entry, in seconds; the old limit stays if there is none. -/
  updateIdle : Option Int32
  /-- Absolute limit in seconds; none if not positive. -/
  maxCache : Int64
  /-- Bound of random absolute limits, in seconds; `0` for no randomness. -/
  expireJitter : UInt64
  writeMode : WriteMode
  /-- Seconds between two sweeps. -/
  sweepInterval : UInt64
deriving DecidableEq

/-- A variable whose text does not parse. -/
structure Warning where
  var : Variable
  text : String
deriving DecidableEq

namespace Settings

def standard : Settings where
  defaultIdle := 300
  updateIdle := none
  maxCache := 0
  expireJitter := 0
  writeMode := .identity
  sweepInterval := 1

/-- A signed decimal numeral in the 32-bit range. -/
def parseInt32 (text : String) : Option Int32 :=
  match Decimal.signed? text.toList with
  | some n => if -2 ^ 31 ≤ n ∧ n < 2 ^ 31 then some (Int32.ofInt n) else none
  | none => none

/-- A signed decimal numeral in the 64-bit range. -/
def parseInt64 (text : String) : Option Int64 :=
  match Decimal.signed? text.toList with
  | some n => if -2 ^ 63 ≤ n ∧ n < 2 ^ 63 then some (Int64.ofInt n) else none
  | none => none

/-- An unsigned decimal numeral in the 64-bit range. -/
def parseUInt64 (text : String) : Option UInt64 :=
  match Decimal.unsigned? text.toList with
  | some n => if n < 2 ^ 64 then some (UInt64.ofNat n) else none
  | none => none

def parseMode (text : String) : Option WriteMode := (WriteMode.parse text).toOption

/-- The text of a variable that is set to text. -/
def text? (env : Environment) (var : Variable) : Option String :=
  (env var).bind Utf8.decode

/-- The settings that an environment asks for. -/
def ofEnvironment (env : Environment) : Settings where
  defaultIdle := ((text? env .defaultIdle).bind parseInt32).getD standard.defaultIdle
  updateIdle := (text? env .updateIdle).bind parseInt32
  maxCache := ((text? env .maxCache).bind parseInt64).getD standard.maxCache
  expireJitter := ((text? env .expireJitter).bind parseUInt64).getD standard.expireJitter
  writeMode := ((text? env .writeMode).bind parseMode).getD standard.writeMode
  sweepInterval := ((text? env .sweepInterval).bind parseUInt64).getD standard.sweepInterval

/-- Whether a text is a value of the variable. -/
def accepts (var : Variable) (text : String) : Bool :=
  match var with
  | .defaultIdle | .updateIdle => (parseInt32 text).isSome
  | .maxCache => (parseInt64 text).isSome
  | .expireJitter | .sweepInterval => (parseUInt64 text).isSome
  | .writeMode => (parseMode text).isSome

/-- The variables that are set to a text that does not parse, in reading order. -/
def warnings (env : Environment) : List Warning :=
  Variable.all.filterMap fun var =>
    match text? env var with
    | some text => if accepts var text then none else some ⟨var, text⟩
    | none => none

/-- The policy that the two idle settings ask for. -/
def policy (settings : Settings) : ExpiryPolicy where
  onCreation := .seconds settings.defaultIdle
  onUpdate :=
    match settings.updateIdle with
    | some count => .seconds count
    | none => .keep

end Settings

end ExpiringCache
