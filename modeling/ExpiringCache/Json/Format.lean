import ExpiringCache.Json.FloatText
import ExpiringCache.Json.UserSession

/-!
# Text formats of value types

A format writes the values of a type as JSON text and reads them back. There is one for quoted
texts, for lists of natural numbers, for user sessions and for floating-point numbers.
-/

namespace ExpiringCache.Json

/-- How the values of a type are written and read. -/
structure Format (α : Type) where
  write : α → List UInt8
  read : Reader α

namespace Format

variable {α : Type}

def decode (format : Format α) (bytes : List UInt8) : Except Fault α :=
  readAll format.read bytes

def string : Format String := ⟨Quoted.write, readString⟩

/-- Lists of natural numbers of at most 32 bits. -/
def uint32s : Format (List UInt32) := ⟨Sequence.write, Sequence.read⟩

def userSession : Format UserSession := ⟨UserSession.write, UserSession.read⟩

def binary64 : Format Binary64 := ⟨FloatText.write, readBinary64⟩

end Format

end ExpiringCache.Json
