import ExpiringCache.Json.Format

/-!
# Codecs

A codec turns the values of a type into bytes and back, and says beforehand whether it can at all.
Beside the JSON codec of a format there are codecs that refuse both directions or one of them.
-/

namespace ExpiringCache

/-- Why a value has no bytes, or bytes no value. -/
inductive CodecError where
  /-- The bytes are no JSON text of a value. -/
  | json (fault : Json.Fault)
  /-- The type of the value has no written form. -/
  | notSerializable
deriving DecidableEq

/-- Conversions between values and bytes. -/
structure Codec (α : Type) where
  /-- Whether values can be written at all. -/
  serializable : Bool
  encode : α → Except CodecError (List UInt8)
  decode : List UInt8 → Except CodecError α

namespace Codec

variable {α : Type}

def json (format : Json.Format α) : Codec α where
  serializable := true
  encode value := .ok (format.write value)
  decode bytes := (format.decode bytes).mapError .json

/-- The codec of values that have no written form. -/
def unserializable : Codec α where
  serializable := false
  encode _ := .error .notSerializable
  decode _ := .error .notSerializable

/-- A codec that writes what it cannot read. -/
def refusingDecode (codec : Codec α) : Codec α :=
  { codec with decode := fun _ => .error .notSerializable }

/-- A codec that reads what it cannot write. -/
def refusingEncode (codec : Codec α) : Codec α :=
  { codec with encode := fun _ => .error .notSerializable }

end Codec

def CodecError.message : CodecError → String
  | .json _ => "json codec failure"
  | .notSerializable => "value type is not serializable"

end ExpiringCache
