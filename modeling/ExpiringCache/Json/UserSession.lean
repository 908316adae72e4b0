import ExpiringCache.Json.Sequence
import ExpiringCache.Json.Skip

/-!
# User sessions

A record of two fields, a user and a number of hits. It is written with both fields in this order.
Reading takes them in any order and passes over fields with other names, and also takes a list of
the two values.
-/

namespace ExpiringCache

/-- A user and the number of hits of that user. -/
structure UserSession where
  user : String
  hits : UInt32
deriving DecidableEq

namespace Json.UserSession

/-- A session as a record without blanks. -/
def write (session : UserSession) : List UInt8 :=
  Byte.openRecord :: Quoted.write "user" ++ [Byte.colon] ++ Quoted.write session.user ++
    [Byte.comma] ++ Quoted.write "hits" ++ [Byte.colon] ++ writeNat session.hits.toNat ++
    [Byte.closeRecord]

/-- The fields up to the closing bracket, given those that came before. A field that comes a second
time is refused at its key, a field that never comes at the closing bracket. -/
def readFields (first : Bool) (user : Option String) (hits : Option UInt32)
    (bytes : List UInt8) : Except Fault (UserSession × List UInt8) :=
  match hk : nextKey first bytes with
  | .error fault => .error fault
  | .ok (.ends rest) =>
    match user, hits with
    | some user, some hits => .ok (⟨user, hits⟩, rest)
    | _, _ => .error .mismatched
  | .ok (.starts rest) =>
    match ht : Quoted.readText rest with
    | .error fault => .error fault
    | .ok (key, rest) =>
      have := Nat.lt_trans (Quoted.length_lt_of_readText ht) (length_lt_of_nextKey hk)
      if key = "user" then
        if user.isSome then .error .mismatched
        else
          match hc : expectColon rest with
          | .error fault => .error fault
          | .ok rest =>
            have := length_lt_of_expectColon hc
            match hv : readString rest with
            | .error fault => .error fault
            | .ok (user, rest) =>
              have := length_lt_of_readString hv
              readFields false (some user) hits rest
      else if key = "hits" then
        if hits.isSome then .error .mismatched
        else
          match hc : expectColon rest with
          | .error fault => .error fault
          | .ok rest =>
            have := length_lt_of_expectColon hc
            match hv : readUInt32 rest with
            | .error fault => .error fault
            | .ok (hits, rest) =>
              have := length_lt_of_readUInt32 hv
              readFields false user (some hits) rest
      else
        match hc : expectColon rest with
        | .error fault => .error fault
        | .ok rest =>
          have := length_lt_of_expectColon hc
          match hv : Skip.value rest with
          | .error fault => .error fault
          | .ok rest =>
            have := Skip.length_le_of_value hv
            readFields false user hits rest
termination_by bytes.length

/-- The two values of a list, from behind its opening bracket. -/
def readPair : Reader UserSession := fun bytes =>
  match nextItem true bytes with
  | .error fault => .error fault
  | .ok (.ends _) => .error .mismatched
  | .ok (.starts rest) =>
    match readString rest with
    | .error fault => .error fault
    | .ok (user, rest) =>
      match nextItem false rest with
      | .error fault => .error fault
      | .ok (.ends _) => .error .mismatched
      | .ok (.starts rest) =>
        match readUInt32 rest with
        | .error fault => .error fault
        | .ok (hits, rest) =>
          match skipBlank rest with
          | [] => .error .truncated
          | b :: rest =>
            if b = Byte.closeList then .ok (⟨user, hits⟩, rest) else .error .malformed

/-- A session as a record or as a list. -/
def read : Reader UserSession := fun bytes =>
  match skipBlank bytes with
  | [] => .error .truncated
  | b :: rest =>
    if b = Byte.openRecord then readFields true none none rest
    else if b = Byte.openList then readPair rest
    else .error (mismatch (b :: rest))

end Json.UserSession

end ExpiringCache
