import ExpiringCache.Json.Mismatch
import ExpiringCache.WriteMode

/-!
# Text of write modes

A write mode is written as its quoted name, or as a record with that name as its only key and
`null` as its value. The name has to match exactly.
-/

namespace ExpiringCache.Json.ModeText

/-- The mode with this name, or the fault of an unknown one. -/
def ofName (name : String) : Except Fault WriteMode :=
  match WriteMode.ofName? name with
  | some mode => .ok mode
  | none => .error .mismatched

/-- The mode of a quoted name, from behind its opening quotation mark. -/
def readName : Reader WriteMode := fun bytes =>
  match Quoted.readText bytes with
  | .error fault => .error fault
  | .ok (name, rest) =>
    match ofName name with
    | .error fault => .error fault
    | .ok mode => .ok (mode, rest)

/-- A record with a mode as its only key, from behind its opening bracket. A key that is not quoted
is malformed, whatever it is; a name that is unknown is refused before its value is looked at. -/
def readRecord : Reader WriteMode := fun bytes =>
  match skipBlank bytes with
  | [] => .error .truncated
  | b :: rest =>
    if b = Byte.quote then
      match readName rest with
      | .error fault => .error fault
      | .ok (mode, rest) =>
        match expectColon rest with
        | .error fault => .error fault
        | .ok rest =>
          match readNull rest with
          | .error fault => .error fault
          | .ok rest =>
            match skipBlank rest with
            | [] => .error .truncated
            | c :: rest => if c = Byte.closeRecord then .ok (mode, rest) else .error .malformed
    else .error .malformed

/-- A write mode. Any other text than a quoted one or a record is malformed. -/
def read : Reader WriteMode := fun bytes =>
  match skipBlank bytes with
  | [] => .error .truncated
  | b :: rest =>
    if b = Byte.quote then readName rest
    else if b = Byte.openRecord then readRecord rest
    else .error .malformed

def parse (text : String) : Except Fault WriteMode := readAll read (Utf8.encode text)

end ExpiringCache.Json.ModeText
