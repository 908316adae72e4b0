import ExpiringCache.Json.Mismatch

/-!
# Lists of natural numbers

A list is written in brackets with commas between its items. Reading allows blanks anywhere
between them, and no comma before the closing bracket.
-/

namespace ExpiringCache.Json

namespace Sequence

/-- The items after the first, each behind a comma. -/
def writeRest (items : List UInt32) : List UInt8 :=
  items.flatMap fun item => Byte.comma :: writeNat item.toNat

def write : List UInt32 → List UInt8
  | [] => [Byte.openList, Byte.closeList]
  | item :: items =>
    Byte.openList :: (writeNat item.toNat ++ writeRest items) ++ [Byte.closeList]

/-- The items up to the closing bracket. -/
def readItems (first : Bool) (bytes : List UInt8) : Except Fault (List UInt32 × List UInt8) :=
  match hi : nextItem first bytes with
  | .error fault => .error fault
  | .ok (.ends rest) => .ok ([], rest)
  | .ok (.starts rest) =>
    match hn : readUInt32 rest with
    | .error fault => .error fault
    | .ok (item, rest) =>
      have := Nat.lt_of_lt_of_le (length_lt_of_readUInt32 hn) (length_le_of_nextItem hi)
      match readItems false rest with
      | .error fault => .error fault
      | .ok (items, rest) => .ok (item :: items, rest)
termination_by bytes.length

/-- A list of natural numbers of at most 32 bits. -/
def read : Reader (List UInt32) := fun bytes =>
  match skipBlank bytes with
  | [] => .error .truncated
  | b :: rest =>
    if b = Byte.openList then readItems true rest else .error (mismatch (b :: rest))

end Sequence

end ExpiringCache.Json
