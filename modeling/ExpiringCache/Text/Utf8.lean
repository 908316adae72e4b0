/-!
# Text as UTF-8 bytes

Texts and the lists of bytes that encode them. Decoding accepts exactly the encodings: it refuses
stray continuation bytes, cut or overlong sequences, surrogates and values past the last character.
-/

namespace ExpiringCache.Utf8

def encode (text : String) : List UInt8 := text.toList.flatMap String.utf8EncodeChar

/-- The text that `bytes` encode, if they encode one. -/
def decode (bytes : List UInt8) : Option String := String.fromUTF8? bytes.toByteArray

theorem toByteArray_encode (text : String) : (encode text).toByteArray = text.toByteArray := by
  rw [encode, ← List.utf8Encode, ← String.toByteArray_ofList, String.ofList_toList]

/-- Decoding is the inverse of encoding, and nothing but an encoding decodes. -/
theorem decode_eq_some_iff {bytes : List UInt8} {text : String} :
    decode bytes = some text ↔ bytes = encode text := by
  have inj : ∀ {a b : List UInt8}, a.toByteArray = b.toByteArray → a = b := by
    intro a b h
    have := congrArg ByteArray.data h
    rw [List.data_toByteArray, List.data_toByteArray] at this
    simpa using this
  rw [decode, String.fromUTF8?]
  split
  next valid =>
    rw [Option.some.injEq, ← String.toByteArray_inj]
    constructor
    · intro h
      exact inj (by rw [toByteArray_encode, ← h]; rfl)
    · rintro rfl
      exact toByteArray_encode text
  next invalid =>
    constructor
    · nofun
    · rintro rfl
      rw [toByteArray_encode] at invalid
      exact absurd text.isValidUTF8 invalid

@[simp] theorem decode_encode (text : String) : decode (encode text) = some text :=
  decode_eq_some_iff.mpr rfl

end ExpiringCache.Utf8
