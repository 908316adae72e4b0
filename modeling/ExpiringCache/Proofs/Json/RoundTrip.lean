import ExpiringCache.Codec
import ExpiringCache.Proofs.Json.NumberText
import ExpiringCache.Proofs.Json.QuotedText

/-!
# Texts, lists and user sessions read back

Reading what a format has written gives the value and leaves what follows. The readers of lists
and records are described by the steps that they take on written text, one for the end and one for
each kind of item.
-/
namespace ExpiringCache.Json

variable {β γ : Type} {read : Except Fault β} {next : β → Except Fault γ}

theorem bind_of_ok {found : β} (h : read = .ok found) : read.bind next = next found := by
  rw [h]
  rfl

theorem bind_of_error {fault : Fault} (h : read = .error fault) :
    read.bind next = .error fault := by
  rw [h]
  rfl

/-- What stands before an item inside brackets: nothing before the first, a comma before others. -/
def lead (first : Bool) : List UInt8 := if first then [] else [Byte.comma]

namespace Sequence

/-- One step of the reader of items. -/
theorem readItems_eq (first : Bool) (bytes : List UInt8) :
    readItems first bytes =
      (nextItem first bytes).bind fun
        | .ends rest => .ok ([], rest)
        | .starts inner =>
          (readUInt32 inner).bind fun read =>
            (readItems false read.2).map fun items => (read.1 :: items.1, items.2) := by
  rw [readItems]
  split
  next hfault => exact (bind_of_error hfault).symm
  next hends => rw [bind_of_ok hends]
  next inner hstarts =>
    refine Eq.trans ?_ (bind_of_ok hstarts).symm
    split
    next hfault => exact (bind_of_error hfault).symm
    next item rest hitem =>
      refine Eq.trans ?_ (bind_of_ok hitem).symm
      cases readItems false rest <;> rfl

theorem readItems_of_ends {first : Bool} {bytes rest : List UInt8}
    (h : nextItem first bytes = .ok (.ends rest)) : readItems first bytes = .ok ([], rest) := by
  rw [readItems_eq, bind_of_ok h]

theorem readItems_of_starts {first : Bool} {bytes inner rest : List UInt8} {item : UInt32}
    (h : nextItem first bytes = .ok (.starts inner)) (hitem : readUInt32 inner = .ok (item, rest)) :
    readItems first bytes =
      (readItems false rest).map fun items => (item :: items.1, items.2) := by
  rw [readItems_eq, bind_of_ok h]
  exact bind_of_ok hitem

theorem nextItem_lead (first : Bool) {b : UInt8} (hdigit : isDigit b = true)
    (rest : List UInt8) : nextItem first (lead first ++ b :: rest) = .ok (.starts (b :: rest)) := by
  have hclose : b ≠ Byte.closeList := ne_of_isDigit hdigit (by decide)
  have hinner := skipBlank_cons (isBlank_of_isDigit hdigit) rest
  have hcomma := skipBlank_cons (show isBlank Byte.comma = false by decide) (b :: rest)
  have hends : ¬Byte.comma = Byte.closeList := by decide
  cases first with
  | true => simp [lead, nextItem, hinner, hclose]
  | false => simp [lead, nextItem, hcomma, hends, hinner, hclose]

theorem nextItem_lead_writeNat (first : Bool) (n : Nat) (rest : List UInt8) :
    nextItem first (lead first ++ (writeNat n ++ rest)) = .ok (.starts (writeNat n ++ rest)) := by
  obtain ⟨b, bytes, hbytes, hdigit⟩ := Numeral.exists_writeNat_eq_cons n
  rw [hbytes]
  exact nextItem_lead first hdigit (bytes ++ rest)

/-- What stands between the items of a list ends a numeral. -/
theorem endsNumeral_writeRest (items : List UInt32) (rest : List UInt8) :
    EndsNumeral (writeRest items ++ Byte.closeList :: rest) := by
  cases items with
  | nil =>
    intro b hb
    obtain rfl : Byte.closeList = b := by simpa [writeRest] using hb
    decide
  | cons item items =>
    intro b hb
    obtain rfl : Byte.comma = b := by simpa [writeRest] using hb
    decide

theorem writeRest_append (item : UInt32) (items : List UInt32) (rest : List UInt8) :
    writeRest (item :: items) ++ Byte.closeList :: rest =
      lead false ++ (writeNat item.toNat ++ (writeRest items ++ Byte.closeList :: rest)) := by
  simp [writeRest, lead]

theorem write_append (item : UInt32) (items : List UInt32) (rest : List UInt8) :
    write (item :: items) ++ rest = Byte.openList ::
      (lead true ++ (writeNat item.toNat ++ (writeRest items ++ Byte.closeList :: rest))) := by
  simp [write, lead]

theorem readItems_writeRest (items : List UInt32) (rest : List UInt8) :
    readItems false (writeRest items ++ Byte.closeList :: rest) = .ok (items, rest) := by
  induction items with
  | nil => exact readItems_of_ends rfl
  | cons item items ih =>
    rw [writeRest_append, readItems_of_starts (nextItem_lead_writeNat false _ _)
      (readUInt32_writeNat item (endsNumeral_writeRest items rest)), ih]
    rfl

theorem read_write (items : List UInt32) (rest : List UInt8) :
    Sequence.read (write items ++ rest) = .ok (items, rest) := by
  cases items with
  | nil => exact readItems_of_ends rfl
  | cons item items =>
    have hitems : readItems true (lead true ++ (writeNat item.toNat ++
        (writeRest items ++ Byte.closeList :: rest))) = .ok (item :: items, rest) := by
      rw [readItems_of_starts (nextItem_lead_writeNat true _ _)
        (readUInt32_writeNat item (endsNumeral_writeRest items rest)), readItems_writeRest]
      rfl
    rw [write_append]
    exact hitems

end Sequence

namespace UserSession

theorem nextKey_lead (first : Bool) (rest : List UInt8) :
    nextKey first (lead first ++ Byte.quote :: rest) = .ok (.starts rest) := by
  have hinner := skipBlank_cons (show isBlank Byte.quote = false by decide) rest
  have hcomma := skipBlank_cons (show isBlank Byte.comma = false by decide) (Byte.quote :: rest)
  have hclose : ¬Byte.quote = Byte.closeRecord := by decide
  have hends : ¬Byte.comma = Byte.closeRecord := by decide
  cases first with
  | true => simp [lead, nextKey, hinner, hclose]
  | false => simp [lead, nextKey, hcomma, hends, hinner]

theorem nextKey_lead_write (first : Bool) (text : String) (rest : List UInt8) :
    nextKey first (lead first ++ (Quoted.write text ++ rest)) =
      .ok (.starts (text.toList.flatMap Quoted.writeChar ++ Byte.quote :: rest)) := by
  rw [Quoted.write_append]
  exact nextKey_lead first _

theorem expectColon_cons (rest : List UInt8) : expectColon (Byte.colon :: rest) = .ok rest := rfl

/-- One step of the reader of fields: the key says how the value behind it is read. -/
theorem readFields_eq (first : Bool) (user : Option String) (hits : Option UInt32)
    (bytes : List UInt8) :
    readFields first user hits bytes =
      (nextKey first bytes).bind fun
        | .ends rest =>
          match user, hits with
          | some user, some hits => .ok (⟨user, hits⟩, rest)
          | _, _ => .error .mismatched
        | .starts inner =>
          (Quoted.readText inner).bind fun read =>
            if read.1 = "user" then
              if user.isSome then .error .mismatched
              else
                (expectColon read.2).bind fun value =>
                  (readString value).bind fun found => readFields false (some found.1) hits found.2
            else if read.1 = "hits" then
              if hits.isSome then .error .mismatched
              else
                (expectColon read.2).bind fun value =>
                  (readUInt32 value).bind fun found => readFields false user (some found.1) found.2
            else
              (expectColon read.2).bind fun value =>
                (Skip.value value).bind fun rest => readFields false user hits rest := by
  rw [readFields]
  split
  next hfault => exact (bind_of_error hfault).symm
  next hends =>
    refine Eq.trans ?_ (bind_of_ok hends).symm
    cases user <;> cases hits <;> rfl
  next inner hstarts =>
    refine Eq.trans ?_ (bind_of_ok hstarts).symm
    split
    next hfault => exact (bind_of_error hfault).symm
    next key rest hkey =>
      refine Eq.trans ?_ (bind_of_ok hkey).symm
      refine ite_congr rfl (fun _ => ite_congr rfl (fun _ => rfl) fun _ => ?userValue) fun _ =>
        ite_congr rfl (fun _ => ite_congr rfl (fun _ => rfl) fun _ => ?hitsValue) fun _ =>
          ?otherValue
      all_goals
        split
        next hcolon => exact (bind_of_error hcolon).symm
        next hcolon =>
          refine Eq.trans ?_ (bind_of_ok hcolon).symm
          split
          next hvalue => exact (bind_of_error hvalue).symm
          next hvalue => rw [bind_of_ok hvalue]

/-- A record that ends with both fields known. -/
theorem readFields_of_ends {first : Bool} {user : String} {hits : UInt32} {bytes rest : List UInt8}
    (h : nextKey first bytes = .ok (.ends rest)) :
    readFields first (some user) (some hits) bytes = .ok (⟨user, hits⟩, rest) := by
  rw [readFields_eq, bind_of_ok h]

/-- The user of a record, met for the first time: a colon and a text follow. -/
theorem readFields_of_user {first : Bool} {hits : Option UInt32} {bytes inner rest : List UInt8}
    (hstarts : nextKey first bytes = .ok (.starts inner))
    (hkey : Quoted.readText inner = .ok ("user", rest)) :
    readFields first none hits bytes =
      (expectColon rest).bind fun value =>
        (readString value).bind fun found => readFields false (some found.1) hits found.2 := by
  rw [readFields_eq, bind_of_ok hstarts]
  exact (bind_of_ok hkey).trans ((if_pos rfl).trans (if_neg (by simp)))

/-- The hits of a record, met for the first time: a colon and a number follow. -/
theorem readFields_of_hits {first : Bool} {user : Option String} {bytes inner rest : List UInt8}
    (hstarts : nextKey first bytes = .ok (.starts inner))
    (hkey : Quoted.readText inner = .ok ("hits", rest)) :
    readFields first user none bytes =
      (expectColon rest).bind fun value =>
        (readUInt32 value).bind fun found => readFields false user (some found.1) found.2 := by
  rw [readFields_eq, bind_of_ok hstarts]
  have hother : ¬ ("hits" : String) = "user" := by decide
  exact (bind_of_ok hkey).trans ((if_neg hother).trans ((if_pos rfl).trans (if_neg (by simp))))

theorem endsNumeral_closeRecord (rest : List UInt8) : EndsNumeral (Byte.closeRecord :: rest) := by
  intro b hb
  obtain rfl : Byte.closeRecord = b := by simpa using hb
  decide

/-- A record, with each key behind what stands before it. -/
theorem write_append (session : ExpiringCache.UserSession) (rest : List UInt8) :
    write session ++ rest = Byte.openRecord :: (lead true ++ (Quoted.write "user" ++
      (Byte.colon :: (Quoted.write session.user ++ (lead false ++ (Quoted.write "hits" ++
        (Byte.colon :: (writeNat session.hits.toNat ++ Byte.closeRecord :: rest)))))))) := by
  simp [write, lead]

theorem read_write (session : ExpiringCache.UserSession) (rest : List UInt8) :
    UserSession.read (write session ++ rest) = .ok (session, rest) := by
  have hhits : readFields false (some session.user) none
      (lead false ++ (Quoted.write "hits" ++ (Byte.colon ::
        (writeNat session.hits.toNat ++ Byte.closeRecord :: rest)))) = .ok (session, rest) := by
    rw [readFields_of_hits (nextKey_lead_write false _ _) (Quoted.readText_write _ _),
      expectColon_cons, Except.bind,
      readUInt32_writeNat session.hits (endsNumeral_closeRecord rest)]
    exact readFields_of_ends rfl
  rw [write_append, UserSession.read, skipBlank_cons (by decide)]
  simp only
  rw [if_pos trivial, readFields_of_user (nextKey_lead_write true _ _)
    (Quoted.readText_write _ _), expectColon_cons, Except.bind, readString_write]
  exact hhits

end UserSession

theorem readAll_of_ends {α : Type} {reader : Reader α} {bytes rest : List UInt8} {value : α}
    (h : reader bytes = .ok (value, rest)) (hrest : skipBlank rest = []) :
    readAll reader bytes = .ok value := by
  simp [readAll, h, hrest]

end ExpiringCache.Json

namespace ExpiringCache

open Json

/-- The value types whose texts read back. -/
inductive ValueType where
  | string
  | uint32s
  | userSession
deriving DecidableEq

namespace ValueType

def Carrier : ValueType → Type
  | .string => String
  | .uint32s => List UInt32
  | .userSession => UserSession

def format : (type : ValueType) → Format type.Carrier
  | .string => Format.string
  | .uint32s => Format.uint32s
  | .userSession => Format.userSession

/-- What a format has written reads back, whatever follows it. -/
theorem read_write (type : ValueType) (value : type.Carrier) (rest : List UInt8) :
    type.format.read (type.format.write value ++ rest) = .ok (value, rest) := by
  rcases type with _ | _ | _
  · exact readString_write value rest
  · exact Sequence.read_write value rest
  · exact UserSession.read_write value rest

end ValueType

namespace Codec

variable {α : Type}

/-- A codec that writes every value and reads back what it has written. -/
structure Faithful (codec : Codec α) : Prop where
  serializable : codec.serializable = true
  readsBack : ∀ value, ∃ bytes, codec.encode value = .ok bytes ∧ codec.decode bytes = .ok value

theorem json_decode_of_ok {format : Format α} {bytes : List UInt8} {value : α}
    (h : readAll format.read bytes = .ok value) : (json format).decode bytes = .ok value := by
  show (readAll format.read bytes).mapError CodecError.json = .ok value
  rw [h]
  rfl

theorem faithful_json (type : ValueType) : (json type.format).Faithful where
  serializable := rfl
  readsBack := by
    intro value
    refine ⟨type.format.write value, rfl, ?_⟩
    have hread := type.read_write value []
    rw [List.append_nil] at hread
    exact json_decode_of_ok (readAll_of_ends hread rfl)

end Codec

end ExpiringCache
