import Mathlib
import ExpiringCache.Proofs.Holder.Dated
import ExpiringCache.Proofs.Session.EntryEffect
import ExpiringCache.Proofs.Session.Evolution
import ExpiringCache.Proofs.Store.Freshness

/-!
# Operations that commute

Two operations on the entries of different keys do not notice each other: either order gives both
the same answers, and leaves the same holder under each key and the same counts. Two reads of one
key commute as long as the clock is within its span, since a recorded access is then no later than
any limit allows at that reading. Reads at one reading may therefore be made in any order.
-/
namespace ExpiringCache

variable {α : Type}

/-- Events are counted in any order. -/
theorem Counters.record_record (counters : Counters) (first second : Event) :
    (counters.record first).record second = (counters.record second).record first := by
  cases first <;> cases second <;> rfl

theorem Counters.note_note (counters : Counters) (first second : Option Event) :
    (counters.note first).note second = (counters.note second).note first := by
  cases first with
  | none => rfl
  | some first =>
    cases second with
    | none => rfl
    | some second => exact counters.record_record first second

namespace Store

theorem note_note (store : Store α) (first second : Option Event) :
    (store.note first).note second = (store.note second).note first := by
  simp only [note, store.counters.note_note first second]

theorem update_none (store : Store α) (key : String) : store.update key none = store := by
  unfold update
  split
  next h => cases h
  next => rfl

theorem update_note (store : Store α) (event : Option Event) (key : String)
    (holder : Option (Holder α)) :
    (store.note event).update key holder = (store.update key holder).note event := by
  have hfind : (store.note event).find? key = store.find? key := rfl
  cases hk : store.find? key with
  | none => rw [update_of_missing hk, update_of_missing (hfind.trans hk)]
  | some found =>
    cases holder with
    | none => rw [update_none, update_none]
    | some changed =>
      rw [update_of_find? hk, update_of_find? (hfind.trans hk)]
      rfl

theorem modify_comm (store : Store α) {first second : Handle} (ne : first ≠ second)
    (change other : Holder α → Holder α) :
    (store.modify first change).modify second other =
      (store.modify second other).modify first change := by
  have hpool : (store.pool.modify first change).modify second other =
      (store.pool.modify second other).modify first change := by
    apply Array.ext_getElem?
    intro handle
    simp only [Array.getElem?_modify]
    by_cases hfirst : first = handle
    · have hsecond : second ≠ handle := fun heq => ne (hfirst.trans heq.symm)
      simp [hfirst, hsecond]
    · simp [hfirst]
  simp only [modify, hpool]

theorem find?_update_of_ne {store : Store α} (sound : store.Sound) {key name : String}
    (ne : key ≠ name) (holder : Option (Holder α)) :
    (store.update key holder).find? name = store.find? name := by
  unfold update
  split
  next handle before changed hk =>
    exact find?_modify_of_ne sound (find?_eq_some_iff.mp hk).1 ne.symm _
  next => rfl

/-- Changes of the holders under different keys can be made in any order. -/
theorem update_update {store : Store α} (sound : store.Sound) {key name : String} (ne : key ≠ name)
    (holder other : Option (Holder α)) :
    (store.update key holder).update name other =
      (store.update name other).update key holder := by
  have hname := find?_update_of_ne sound ne holder
  have hkey := find?_update_of_ne sound ne.symm other
  cases hk : store.find? key with
  | none => rw [update_of_missing hk, update_of_missing (hkey.trans hk)]
  | some found =>
    cases hn : store.find? name with
    | none => rw [update_of_missing hn, update_of_missing (hname.trans hn)]
    | some found' =>
      cases holder with
      | none => rw [update_none, update_none]
      | some changed =>
        cases other with
        | none => rw [update_none, update_none]
        | some changed' =>
          have hdistinct : found.1 ≠ found'.1 := by
            intro heq
            have hlinked := (find?_eq_some_iff.mp hk).1
            rw [heq] at hlinked
            exact ne (sound.unique _ _ _ hlinked (find?_eq_some_iff.mp hn).1)
          rw [update_of_find? (hname.trans hn), update_of_find? hk,
            update_of_find? (hkey.trans hk), update_of_find? hn]
          exact modify_comm store hdistinct _ _

/-- A recorded read of another key leaves what a recorded read comes to. -/
theorem effect_get (codec : Codec α) {store : Store α} (sound : store.Sound) {key name : String}
    (ne : key ≠ name) :
    EntryEffect.ofGet codec (store.get codec key).2.clock name
        ((store.get codec key).2.holder? name) =
      EntryEffect.ofGet codec store.clock name (store.holder? name) := by
  rw [(store.kept_get codec key).clock, (store.get_eq codec key).2, holder?_note, holder?,
    find?_update_of_ne sound ne, holder?]

/-- Recorded reads of different keys can be made in any order. -/
theorem get_get (codec : Codec α) {store : Store α} (sound : store.Sound) {key name : String}
    (ne : key ≠ name) :
    ((store.get codec key).2.get codec name).2 = ((store.get codec name).2.get codec key).2 := by
  rw [((store.get codec key).2.get_eq codec name).2, ((store.get codec name).2.get_eq codec key).2,
    effect_get codec sound ne, effect_get codec sound ne.symm, (store.get_eq codec key).2,
    (store.get_eq codec name).2, update_note, update_note, update_update sound ne, note_note]

/-- Stores with the same holders under the same keys have the same size. -/
theorem size_eq_of_holders {store other : Store α} (sound : store.Sound) (sound' : other.Sound)
    (h : ∀ key, store.holder? key = other.holder? key) : store.size = other.size := by
  refine KeyTable.size_eq_of_isSome_iff fun key => ?_
  have hnone : store.entries.get? key = none ↔ other.entries.get? key = none := by
    rw [← find?_eq_none_iff sound, ← find?_eq_none_iff sound', ← holder?_eq_none_iff,
      ← holder?_eq_none_iff, h]
  rw [← Option.ne_none_iff_isSome, ← Option.ne_none_iff_isSome, Ne, Ne, hnone]

end Store

namespace EntryEffect

/-- After a recorded read every read of the same key still answers the same, as long as the clock
is within its span. -/
theorem answer_ofGet_again (codec : Codec α) {clock : Clock} (covers : clock.Covers clock.now)
    (key : String) {entry : Option (Holder α)} (inRange : ∀ holder ∈ entry, holder.InRange) :
    (ofGet codec clock key (ofGet codec clock key entry).holder).answer =
      (ofGet codec clock key entry).answer := by
  cases entry with
  | none => rfl
  | some holder =>
    cases hcheck : holder.isInvalid clock with
    | error overflow => simp only [ofGet, hcheck]
    | ok invalid =>
      cases invalid with
      | true => simp only [ofGet, hcheck]
      | false =>
        obtain ⟨complete, live, positive, capOpen⟩ := Holder.of_isInvalid_eq_ok_false hcheck
        have hlag : ¬ 1000 * holder.maxIdle.toInt < clock.lag clock.now := by
          have := (inRange holder rfl).idle
          rw [Clock.lag_eq_zero_iff.mpr covers]
          omega
        have hagain : ∀ read : Holder α, read.isComplete = true → read.isReleased = false →
            read.accessed = clock.offsetNow → read.maxIdle = holder.maxIdle →
            read.cachePassed clock clock.now = .ok false → read.isInvalid clock = .ok false := by
          intro read complete live accessed idle capOpen
          rw [Holder.isInvalid_of_accessed_now (Clock.fits_offsetNow covers) complete live accessed
            (idle ▸ positive) capOpen, idle, decide_eq_false hlag]
        have haccess := hagain (holder.access clock) complete live rfl rfl capOpen
        have huse := hagain ((holder.access clock).addUses 1) complete live rfl rfl capOpen
        have hpeek : ((holder.access clock).addUses 1).peek codec = holder.peek codec := rfl
        cases hread : holder.peek codec with
        | error reason => simp only [ofGet, hcheck, hread, haccess, Holder.peek_access]
        | ok value =>
          cases value with
          | none => simp only [ofGet, hcheck, hread, haccess, Holder.peek_access]
          | some value => simp only [ofGet, hcheck, hread, huse, hpeek]

end EntryEffect

def Operation.readKey? : Operation α → Option String
  | .get key => some key
  | .peek key => some key
  | _ => none

namespace Session

def afterBoth (codec : Codec α) (session : Session α) (first second : Operation α) : Session α :=
  ((session.act codec first).session.act codec second).session

/-- Two operations can be made in either order. -/
structure Commute (codec : Codec α) (session : Session α) (first second : Operation α) : Prop where
  /-- The first one answers the same after the second one. -/
  firstAnswer : ((session.act codec second).session.act codec first).answer =
    (session.act codec first).answer
  /-- The second one answers the same after the first one. -/
  secondAnswer : ((session.act codec first).session.act codec second).answer =
    (session.act codec second).answer
  /-- The same holders are left under the keys. -/
  holders : ∀ key, (session.afterBoth codec first second).store.holder? key =
    (session.afterBoth codec second first).store.holder? key
  /-- They look the same. -/
  inspected : ∀ key, ((session.afterBoth codec first second).act codec (.inspect key)).answer =
    ((session.afterBoth codec second first).act codec (.inspect key)).answer
  /-- The same counters and the same number of entries are left. -/
  snapshot : (session.afterBoth codec first second).store.snapshot =
    (session.afterBoth codec second first).store.snapshot

/-- An inspection shows the holder under the key. -/
theorem answer_inspect (codec : Codec α) (session : Session α) (key : String) :
    (session.act codec (.inspect key)).answer =
      (session.store.holder? key).elim .absent fun holder =>
        .holder (holder.view session.store.clock) := by
  simp only [act, Store.holder?]
  cases session.store.find? key <;> rfl

/-- An operation on another key leaves what an operation on an entry comes to. -/
theorem effect_act (codec : Codec α) {session : Session α} (sound : session.store.Sound)
    (first second : EntryOperation α) {key name : String} (ne : key ≠ name) :
    let next := (session.act codec (first.on key)).session
    second.effect codec next.store name (next.store.holder? name) =
      second.effect codec session.store name (session.store.holder? name) := by
  obtain ⟨-, hcomes⟩ := act_on codec sound first key
  intro next
  rw [hcomes.holders, if_neg ne.symm]
  exact Store.effect_congr hcomes.kept codec name _ second

theorem commute_of_ne (codec : Codec α) {session : Session α} (sound : session.store.Sound)
    (first second : EntryOperation α) {key name : String} (ne : key ≠ name) :
    Commute codec session (first.on key) (second.on name) := by
  obtain ⟨hfirst, hone⟩ := act_on codec sound first key
  obtain ⟨hsecond, htwo⟩ := act_on codec sound second name
  obtain ⟨hlater, honeTwo⟩ := act_on codec (sound_act codec sound (first.on key)) second name
  obtain ⟨hlater', htwoOne⟩ := act_on codec (sound_act codec sound (second.on name)) first key
  rw [effect_act codec sound first second ne] at hlater honeTwo
  rw [effect_act codec sound second first ne.symm] at hlater' htwoOne
  have holders : ∀ other,
      (session.afterBoth codec (first.on key) (second.on name)).store.holder? other =
        (session.afterBoth codec (second.on name) (first.on key)).store.holder? other := by
    intro other
    rw [afterBoth, afterBoth, honeTwo.holders, hone.holders, htwoOne.holders, htwo.holders]
    by_cases hkey : other = key
    · have hname : other ≠ name := fun h => ne (hkey.symm.trans h)
      rw [if_neg hname, if_pos hkey, if_pos hkey]
    · rw [if_neg hkey, if_neg hkey]
  have clock : (session.afterBoth codec (first.on key) (second.on name)).store.clock =
      (session.afterBoth codec (second.on name) (first.on key)).store.clock := by
    rw [afterBoth, afterBoth, honeTwo.kept.clock, hone.kept.clock, htwoOne.kept.clock,
      htwo.kept.clock]
  have counters : (session.afterBoth codec (first.on key) (second.on name)).store.counters =
      (session.afterBoth codec (second.on name) (first.on key)).store.counters := by
    rw [afterBoth, afterBoth, honeTwo.counters, hone.counters, htwoOne.counters, htwo.counters,
      Counters.note_note]
  constructor
  case firstAnswer => rw [hlater', hfirst]
  case secondAnswer => rw [hlater, hsecond]
  case holders => exact holders
  case inspected =>
    intro other
    rw [answer_inspect, answer_inspect, holders, clock]
  case snapshot =>
    have hsize := Store.size_eq_of_holders
      (sound_act codec (sound_act codec sound (first.on key)) (second.on name))
      (sound_act codec (sound_act codec sound (second.on name)) (first.on key)) holders
    exact Snapshot.mk.injEq .. ▸ ⟨counters, hsize⟩

/-- Recorded or not, a read answers by the entry of its key. -/
theorem answer_of_readKey? (codec : Codec α) (session : Session α) {operation : Operation α}
    {key : String} (read : operation.readKey? = some key) :
    (session.act codec operation).answer =
      (EntryEffect.ofGet codec session.store.clock key (session.store.holder? key)).answer := by
  cases operation with
  | get name =>
    obtain rfl : name = key := by simpa [Operation.readKey?] using read
    exact (session.store.get_eq codec name).1
  | peek name =>
    obtain rfl : name = key := by simpa [Operation.readKey?] using read
    exact session.store.peek_eq codec name
  | _ => simp [Operation.readKey?] at read

/-- A read answers the same before and after another one. -/
theorem answer_after_read (codec : Codec α) {session : Session α} (sound : session.store.Sound)
    (inRange : ∀ holder ∈ session.store.pool, holder.InRange)
    (covers : session.store.clock.Covers session.store.clock.now) {first second : Operation α}
    (hfirst : first.readKey?.isSome = true) (hsecond : second.readKey?.isSome = true) :
    ((session.act codec first).session.act codec second).answer =
      (session.act codec second).answer := by
  obtain ⟨name, hname⟩ := Option.isSome_iff_exists.mp hsecond
  cases first with
  | peek key => rfl
  | get key =>
    rw [answer_of_readKey? codec _ hname, answer_of_readKey? codec _ hname]
    change (EntryEffect.ofGet codec (session.store.get codec key).2.clock name
      ((session.store.get codec key).2.holder? name)).answer = _
    by_cases heq : key = name
    · subst heq
      have hagain : (session.store.get codec key).2.holder? key =
          (EntryEffect.ofGet codec session.store.clock key (session.store.holder? key)).holder := by
        rw [(session.store.get_eq codec key).2, Store.holder?_note,
          Store.holder?_update sound (Store.isSome_holder_ofGet codec _ key _), if_pos rfl]
      rw [(session.store.kept_get codec key).clock, hagain]
      refine EntryEffect.answer_ofGet_again codec covers key fun holder mem => inRange holder ?_
      obtain ⟨found, hk, rfl⟩ := Option.map_eq_some_iff.mp mem
      exact Array.mem_of_getElem? (Store.find?_eq_some_iff.mp hk).2
    · rw [Store.effect_get codec sound heq]
  | _ => simp [Operation.readKey?] at hfirst

/-- Two reads can be made in either order, and leave the very same session. -/
theorem afterBoth_of_reads (codec : Codec α) {session : Session α} (sound : session.store.Sound)
    {first second : Operation α} (hfirst : first.readKey?.isSome = true)
    (hsecond : second.readKey?.isSome = true) :
    session.afterBoth codec first second = session.afterBoth codec second first := by
  cases first with
  | peek key => rfl
  | get key =>
    cases second with
    | peek name => rfl
    | get name =>
      by_cases heq : key = name
      · rw [heq]
      · exact congrArg session.withStore (Store.get_get codec sound heq)
    | _ => simp [Operation.readKey?] at hsecond
  | _ => simp [Operation.readKey?] at hfirst

theorem after_of_perm (codec : Codec α) {session : Session α} (sound : session.store.Sound)
    {reads others : List (Request α)} (perm : reads.Perm others)
    (all : ∀ request ∈ reads, request.operation.readKey?.isSome = true) :
    session.after codec reads = session.after codec others := by
  induction perm generalizing session with
  | nil => rfl
  | cons request perm ih =>
    exact ih (sound_act codec sound request.operation)
      fun other mem => all other (List.mem_cons_of_mem _ mem)
  | swap first second rest =>
    have hfirst := all first (List.mem_cons_of_mem _ List.mem_cons_self)
    have hsecond := all second List.mem_cons_self
    exact congrArg (after codec · rest) (afterBoth_of_reads codec sound hsecond hfirst)
  | trans perm later ih ih' =>
    exact (ih sound all).trans (ih' sound fun request mem => all request (perm.mem_iff.mpr mem))

theorem clock_read (codec : Codec α) (session : Session α) {operation : Operation α}
    (read : operation.readKey?.isSome = true) :
    (session.act codec operation).session.store.clock = session.store.clock := by
  cases operation with
  | get key => exact (session.store.kept_get codec key).clock
  | peek key => rfl
  | _ => simp [Operation.readKey?] at read

/-- Reads at one reading of the clock answer as each of them would alone. -/
theorem answers_of_reads (codec : Codec α) (settings : Settings) (policy : Option ExpiryPolicy)
    (base : Int64) (requests : List (Request α)) {reads : List (Request α)}
    (all : ∀ request ∈ reads, request.operation.readKey?.isSome = true) :
    let session := (start settings policy base).after codec requests
    session.store.clock.Covers session.store.clock.now →
      (session.run codec reads).1.map Report.answer =
        reads.map fun request => (session.act codec request.operation).answer := by
  induction reads generalizing requests with
  | nil =>
    intro session covers
    rfl
  | cons request reads ih =>
    intro session covers
    have hread := all request List.mem_cons_self
    have hnext : (start settings policy base).after codec (requests ++ [request]) =
        (session.act codec request.operation).session := after_append codec _ requests [request]
    have hclock := clock_read codec session hread
    have hlater := ih (requests ++ [request]) fun other mem =>
      all other (List.mem_cons_of_mem _ mem)
    rw [hnext] at hlater
    have hothers : reads.map (fun other =>
        ((session.act codec request.operation).session.act codec other.operation).answer) =
        reads.map fun other => (session.act codec other.operation).answer := by
      refine List.map_congr_left fun other mem => ?_
      exact answer_after_read codec (sound_after codec settings policy base requests)
        (inRange_after codec settings policy base requests) covers hread
        (all other (List.mem_cons_of_mem _ mem))
    have hanswers := (hlater (by rw [hclock]; exact covers)).trans hothers
    exact congrArg ((session.act codec request.operation).answer :: ·) hanswers

theorem commute_of_reads (codec : Codec α) {session : Session α} (sound : session.store.Sound)
    (inRange : ∀ holder ∈ session.store.pool, holder.InRange)
    (covers : session.store.clock.Covers session.store.clock.now) {first second : Operation α}
    (hfirst : first.readKey?.isSome = true) (hsecond : second.readKey?.isSome = true) :
    Commute codec session first second := by
  have hsame := afterBoth_of_reads codec sound hfirst hsecond
  constructor
  case firstAnswer => exact answer_after_read codec sound inRange covers hsecond hfirst
  case secondAnswer => exact answer_after_read codec sound inRange covers hfirst hsecond
  case holders => exact fun key => by rw [hsame]
  case inspected => exact fun key => by rw [hsame]
  case snapshot => rw [hsame]

/-- The operations that can be made in either order at one reading of the clock. -/
structure CommutesAtOnce (codec : Codec α) (session : Session α) : Prop where
  /-- Any two operations on the entries of different keys. -/
  entries : ∀ (first second : EntryOperation α) (key name : String), key ≠ name →
    Commute codec session (first.on key) (second.on name)
  /-- A get and a peek of one key, while the clock is within its span. -/
  sameKey : session.store.clock.Covers session.store.clock.now →
    ∀ key, Commute codec session (.get key) (.peek key)
  /-- Within the span every read of a list answers as it would without the other ones. -/
  answers : session.store.clock.Covers session.store.clock.now → ∀ reads : List (Request α),
    (∀ request ∈ reads, request.operation.readKey?.isSome = true) →
      (session.run codec reads).1.map Report.answer =
        reads.map fun request => (session.act codec request.operation).answer
  /-- Any permutation of a list of reads leaves the same session. -/
  permuted : ∀ reads others : List (Request α),
    (∀ request ∈ reads, request.operation.readKey?.isSome = true) → reads.Perm others →
      session.after codec reads = session.after codec others

/-- In every session that can be reached, whatever its codec, its write mode and its random delays:
operations on the entries of different keys can be made in either order, and so can all reads, of
one key or of several, as long as the clock is within its span. -/
theorem commutes_at_once (codec : Codec α) (settings : Settings) (policy : Option ExpiryPolicy)
    (base : Int64) (requests : List (Request α)) :
    CommutesAtOnce codec ((start settings policy base).after codec requests) := by
  have sound := sound_after codec settings policy base requests
  constructor
  case entries => exact fun first second key name ne => commute_of_ne codec sound first second ne
  case sameKey =>
    intro covers key
    exact commute_of_reads codec sound (inRange_after codec settings policy base requests) covers
      rfl rfl
  case answers =>
    intro covers reads all
    exact answers_of_reads codec settings policy base requests all covers
  case permuted => exact fun reads others all perm => after_of_perm codec sound perm all

/-- Values of this codec are written but cannot be read back, so that a recorded read fails after it
has recorded the access; it still commutes with the other reads, and with a removal of another
entry. -/
theorem commutes_at_once_of_unreadable_value :
    let codec : Codec String :=
      { Codec.json .string with decode := fun _ => .error .notSerializable }
    let settings : Settings := { Settings.standard with writeMode := .serialize }
    let session := (start settings none 0).after codec
      [⟨.put "a" "v" [], none⟩, ⟨.put "b" "w" [], none⟩, ⟨.advanceSeconds 5, none⟩]
    let reads : List (Request String) :=
      [⟨.get "a", none⟩, ⟨.peek "a", none⟩, ⟨.get "b", none⟩, ⟨.get "a", none⟩]
    session.store.clock.Covers session.store.clock.now ∧
      (session.act codec (.get "a")).answer =
        .storeError (.holder (.storage .notSerializable)) ∧
      ((session.act codec (.get "a")).session.store.holder? "a").map Holder.accessed = some 5000 ∧
      (session.run codec reads).1.map Report.answer =
        reads.map (fun request => (session.act codec request.operation).answer) ∧
      session.after codec reads = session.after codec reads.reverse ∧
      Commute codec session (.get "a") (.peek "a") ∧
      Commute codec session (.get "a") (.remove "b") := by
  intro codec settings session reads
  have covers : session.store.clock.Covers session.store.clock.now := by decide +kernel
  have all : ∀ request ∈ reads, request.operation.readKey?.isSome = true := by simp [reads,
    Operation.readKey?]
  have hcommutes := commutes_at_once codec settings none 0
    [⟨.put "a" "v" [], none⟩, ⟨.put "b" "w" [], none⟩, ⟨.advanceSeconds 5, none⟩]
  exact ⟨covers, by cbv, by cbv, hcommutes.answers covers reads all,
    hcommutes.permuted reads reads.reverse all reads.reverse_perm.symm,
    hcommutes.sameKey covers "a", hcommutes.entries .get .remove "a" "b" (by decide)⟩

end Session

end ExpiringCache
