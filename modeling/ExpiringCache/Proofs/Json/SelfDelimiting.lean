import ExpiringCache.Proofs.Json.CutText

/-!
# Encodings end where they end

The encoding of a text, a list or a user session says by itself where it ends. It reads back with
any blanks behind it, it is refused as no JSON with anything else behind it, and every beginning of
it is refused as cut off. Hence no encoding is the beginning of another one.
-/
namespace ExpiringCache.Json

theorem CutOff.of_lead {first : Bool} {part whole : List UInt8}
    (cut : CutOff part (lead first ++ whole)) :
    part = [] ∨ ∃ rest, part = lead first ++ rest ∧ CutOff rest whole := by
  cases first with
  | true => exact .inr ⟨part, rfl, cut⟩
  | false => exact cut.of_cons

namespace Sequence

/-- What a numeral and a cut behind it leave to the reader of items. -/
theorem truncates_readItems_writeNat (first : Bool) (item : UInt32) {behind : List UInt8}
    (ends : EndsNumeral behind) (hne : behind ≠ [])
    (hbehind : Truncates (readItems false) behind) :
    Truncates (readItems first) (lead first ++ (writeNat item.toNat ++ behind)) := by
  have hitem : Truncates (fun inner => (readUInt32 inner).bind fun read =>
      (readItems false read.2).map fun items => (read.1 :: items.1, items.2))
      (writeNat item.toNat ++ behind) := by
    refine (passes_readUInt32 item ends hne).truncates fun value rest hrest => ?_
    rw [hbehind rest hrest]
    rfl
  obtain ⟨b, bytes, hbytes, hdigit⟩ := Numeral.exists_writeNat_eq_cons item.toNat
  intro part cut
  rw [readItems_eq]
  obtain rfl | ⟨rest, rfl, hrest⟩ := cut.of_lead
  · rfl
  · have hinner := hitem rest hrest
    rw [hbytes, List.cons_append] at hrest
    obtain rfl | ⟨tail, rfl, -⟩ := hrest.of_cons
    · cases first <;> rfl
    · exact (bind_of_ok (nextItem_lead first hdigit tail)).trans hinner

theorem truncates_readItems_closeList (first : Bool) :
    Truncates (readItems first) [Byte.closeList] := by
  intro part cut
  rw [cut.eq_nil, readItems_eq]
  rfl

theorem truncates_readItems_writeRest (items : List UInt32) :
    Truncates (readItems false) (writeRest items ++ [Byte.closeList]) := by
  induction items with
  | nil => exact truncates_readItems_closeList false
  | cons item items ih =>
    rw [writeRest_append]
    exact truncates_readItems_writeNat false item (endsNumeral_writeRest items []) (by simp) ih

theorem truncates_read (items : List UInt32) : Truncates Sequence.read (write items) := by
  have hopen : ∀ whole, Truncates (readItems true) whole →
      Truncates Sequence.read (Byte.openList :: whole) := by
    intro whole h
    refine .cons rfl fun rest hrest => ?_
    rw [Sequence.read, skipBlank_cons (by decide)]
    exact h rest hrest
  cases items with
  | nil => exact hopen _ (truncates_readItems_closeList true)
  | cons item items =>
    have hbytes := write_append item items []
    rw [List.append_nil] at hbytes
    rw [hbytes]
    exact hopen _ (truncates_readItems_writeNat true item (endsNumeral_writeRest items [])
      (by simp) (truncates_readItems_writeRest items))

end Sequence

namespace UserSession

theorem truncates_expectColon {β : Type} {next : List UInt8 → Except Fault β}
    {whole : List UInt8} (h : Truncates next whole) :
    Truncates (fun bytes => (expectColon bytes).bind next) (Byte.colon :: whole) :=
  .cons rfl fun rest hrest => (bind_of_ok (expectColon_cons rest)).trans (h rest hrest)

/-- A cut in front of a key, or inside it, is met whatever is known of the fields. -/
theorem truncates_readFields_key (first : Bool) (user : Option String) (hits : Option UInt32)
    (key : String) {behind : List UInt8}
    (h : ∀ rest, CutOff rest behind →
      readFields first user hits (lead first ++ (Quoted.write key ++ rest)) = .error .truncated) :
    Truncates (readFields first user hits) (lead first ++ (Quoted.write key ++ behind)) := by
  intro part cut
  obtain rfl | ⟨rest, rfl, hrest⟩ := cut.of_lead
  · rw [readFields_eq]
    rfl
  obtain hkey | ⟨tail, rfl, htail⟩ := hrest.of_append
  · rw [readFields_eq]
    obtain rfl | ⟨inner, rfl, hinner⟩ := hkey.of_cons
    · cases first <;> rfl
    · rw [bind_of_ok (nextKey_lead first inner)]
      exact bind_of_error (Quoted.truncates_readText key inner hinner)
  · exact h tail htail

theorem truncates_readFields_hits (user : String) (hits : UInt32) :
    Truncates (readFields false (some user) none) (lead false ++ (Quoted.write "hits" ++
      (Byte.colon :: (writeNat hits.toNat ++ [Byte.closeRecord])))) := by
  refine truncates_readFields_key false (some user) none "hits" fun rest hrest => ?_
  rw [readFields_of_hits (nextKey_lead_write false _ _) (Quoted.readText_write _ _)]
  refine truncates_expectColon ?_ rest hrest
  refine (passes_readUInt32 hits (endsNumeral_closeRecord []) (by simp)).truncates ?_
  intro value rest hrest
  rw [hrest.eq_nil, readFields_eq]
  rfl

theorem truncates_readFields (session : ExpiringCache.UserSession) :
    Truncates (readFields true none none) (lead true ++ (Quoted.write "user" ++
      (Byte.colon :: (Quoted.write session.user ++ (lead false ++ (Quoted.write "hits" ++
        (Byte.colon :: (writeNat session.hits.toNat ++ [Byte.closeRecord])))))))) := by
  refine truncates_readFields_key true none none "user" fun rest hrest => ?_
  rw [readFields_of_user (nextKey_lead_write true _ _) (Quoted.readText_write _ _)]
  refine truncates_expectColon ?_ rest hrest
  exact (passes_readString session.user _).truncates fun user rest hrest =>
    truncates_readFields_hits user session.hits rest hrest

theorem truncates_read (session : ExpiringCache.UserSession) :
    Truncates UserSession.read (write session) := by
  have hbytes := write_append session []
  rw [List.append_nil] at hbytes
  rw [hbytes]
  refine .cons rfl fun rest hrest => ?_
  rw [UserSession.read, skipBlank_cons (by decide)]
  exact truncates_readFields session rest hrest

end UserSession

theorem skipBlank_append {blanks : List UInt8} (h : ∀ b ∈ blanks, isBlank b = true)
    (rest : List UInt8) : skipBlank (blanks ++ rest) = skipBlank rest :=
  List.dropWhile_append_of_pos h

section

variable {α : Type} {reader : Reader α} {bytes rest : List UInt8} {value : α}

theorem readAll_of_more (h : reader bytes = .ok (value, rest)) (hrest : skipBlank rest ≠ []) :
    readAll reader bytes = .error .malformed := by
  simp [readAll, h, hrest]

theorem readAll_of_error {fault : Fault} (h : reader bytes = .error fault) :
    readAll reader bytes = .error fault := by
  simp [readAll, h]

end

end ExpiringCache.Json

namespace ExpiringCache

open Json

theorem ValueType.truncates_read (type : ValueType) (value : type.Carrier) :
    Truncates type.format.read (type.format.write value) := by
  rcases type with _ | _ | _
  · exact truncates_readString value
  · exact Sequence.truncates_read value
  · exact UserSession.truncates_read value

namespace Codec

variable {α : Type}

/-- What bytes are to a codec that encodes a value as them: they read back, and neither less nor
more does. -/
structure EncodesAs (codec : Codec α) (value : α) (bytes : List UInt8) : Prop where
  encode : codec.encode value = .ok bytes
  /-- Blanks behind the bytes are no part of the value. -/
  decode_blanks : ∀ blanks, (∀ b ∈ blanks, isBlank b = true) →
    codec.decode (bytes ++ blanks) = .ok value
  /-- Anything else behind them, with or without blanks before it, is no JSON. -/
  decode_more : ∀ blanks b more, (∀ b ∈ blanks, isBlank b = true) → isBlank b = false →
    codec.decode (bytes ++ blanks ++ b :: more) = .error (.json .malformed)
  /-- What is less of them is cut off. -/
  decode_cutOff : ∀ part, CutOff part bytes → codec.decode part = .error (.json .truncated)

theorem EncodesAs.decode {codec : Codec α} {value : α} {bytes : List UInt8}
    (h : codec.EncodesAs value bytes) : codec.decode bytes = .ok value := by
  have hblanks := h.decode_blanks [] (by simp)
  rwa [List.append_nil] at hblanks

/-- One encoding at the front of another one is the whole of it, and of the same value. -/
theorem EncodesAs.eq_of_beginning {codec : Codec α} {value other : α} {bytes whole : List UInt8}
    (h : codec.EncodesAs value bytes) (hother : codec.EncodesAs other whole)
    (hbeginning : bytes <+: whole) : value = other := by
  by_cases heq : bytes = whole
  · have hdecode := hother.decode
    rw [← heq, h.decode] at hdecode
    exact Except.ok.inj hdecode
  · have hcut := hother.decode_cutOff bytes ⟨hbeginning, heq⟩
    rw [h.decode] at hcut
    cases hcut

/-- A codec whose encodings tell where they end. -/
structure SelfDelimiting (codec : Codec α) : Prop where
  encodesAs : ∀ value, ∃ bytes, codec.EncodesAs value bytes
  /-- No encoding is the beginning of the encoding of another value. -/
  not_beginning : ∀ value other bytes whole, value ≠ other → codec.encode value = .ok bytes →
    codec.encode other = .ok whole → ¬bytes <+: whole
  /-- Different values have different encodings. -/
  injective : Function.Injective codec.encode

theorem SelfDelimiting.of_encodesAs {codec : Codec α}
    (h : ∀ value, ∃ bytes, codec.EncodesAs value bytes) : codec.SelfDelimiting := by
  have hencode : ∀ value bytes, codec.encode value = .ok bytes → codec.EncodesAs value bytes := by
    intro value bytes hbytes
    obtain ⟨found, hfound⟩ := h value
    rw [Except.ok.inj (hbytes.symm.trans hfound.encode)]
    exact hfound
  refine ⟨h, ?_, ?_⟩
  · intro value other bytes whole hne hbytes hwhole hbeginning
    exact hne ((hencode value bytes hbytes).eq_of_beginning (hencode other whole hwhole) hbeginning)
  · intro value other heq
    obtain ⟨bytes, hbytes⟩ := h value
    exact hbytes.eq_of_beginning (hencode other bytes (heq ▸ hbytes.encode)) List.prefix_rfl

theorem json_decode_of_error {format : Format α} {bytes : List UInt8} {fault : Fault}
    (h : readAll format.read bytes = .error fault) :
    (json format).decode bytes = .error (.json fault) := by
  show (readAll format.read bytes).mapError CodecError.json = .error (.json fault)
  rw [h]
  rfl

theorem encodesAs_json (type : ValueType) (value : type.Carrier) :
    (json type.format).EncodesAs value (type.format.write value) where
  encode := rfl
  decode_blanks := by
    intro blanks hblanks
    have hend := skipBlank_append hblanks []
    rw [List.append_nil] at hend
    exact json_decode_of_ok (readAll_of_ends (type.read_write value blanks) hend)
  decode_more := by
    intro blanks b more hblanks hb
    have hmore : skipBlank (blanks ++ b :: more) = b :: more := by
      rw [skipBlank_append hblanks, skipBlank_cons hb]
    rw [List.append_assoc]
    exact json_decode_of_error
      (readAll_of_more (type.read_write value (blanks ++ b :: more)) (by simp [hmore]))
  decode_cutOff := fun part cut =>
    json_decode_of_error (readAll_of_error (type.truncates_read value part cut))

/-- A cut between the two bytes of a character. -/
example : (json Format.string).decode [Byte.quote, 0xC3] = .error (.json .truncated) := by cbv

/-- The JSON codec of texts, of lists of numbers and of user sessions is exact on what it encodes:
no byte less and nothing but blanks more reads back. -/
theorem selfDelimiting_json (type : ValueType) : (json type.format).SelfDelimiting :=
  .of_encodesAs fun value => ⟨_, encodesAs_json type value⟩

end Codec

end ExpiringCache
