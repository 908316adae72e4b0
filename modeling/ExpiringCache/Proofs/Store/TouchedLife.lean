import ExpiringCache.Proofs.Store.Touching

/-!
# The life that a touch grants

A touch for some seconds reckons the new idle limit from the age in whole seconds, but the limit is
measured from the last access. The part of a second that the age has begun is lost in this way, so
that the entry stays valid for the seconds asked for less `999` milliseconds, whatever its idle
limit was and as long as its absolute limit lets it. An entry that was not read since it was made
and is `999` milliseconds old loses all of them, and is invalid one millisecond later.
-/
namespace ExpiringCache

variable {α : Type}

namespace Holder

variable {clock : Clock} {created accessed : Int64} {holder : Holder α}

/-- The limit that a touch leads to is short of its maximum if the age and the seconds asked for
add up to no more than it. -/
theorem touchedLimit_of_le {now created seconds : Int}
    (fits : (now - created) / 1000 + seconds ≤ 2147483647) :
    touchedLimit now created seconds = (now - created) / 1000 + seconds :=
  Int.min_eq_right fits

/-- A touched holder is valid for the seconds asked for, up to the second that its age has begun. -/
theorem IsPresent.isInvalidAt_granted (h : holder.IsPresent clock created accessed)
    {seconds idle : Int32} (positive : 0 < seconds)
    (limit : idle.toInt = touchedLimit clock.now.toInt created.toInt seconds.toInt)
    (fits : (clock.now.toInt - created.toInt) / 1000 + seconds.toInt ≤ 2147483647)
    {instant : Int64} (before : instant.toInt ≤ clock.now.toInt + 1000 * seconds.toInt - 999)
    (within : holder.WithinCache created instant) :
    Holder.isInvalidAt clock instant { holder with maxIdle := idle } = .ok false := by
  rw [h.isInvalidAt_touched positive limit within, Except.ok.injEq, decide_eq_false_iff_not]
  rw [touchedLimit_of_le fits] at limit
  have horder := Int64.le_iff_toInt_le.mp h.order
  have hwhole : clock.now.toInt - created.toInt - 999 ≤
      1000 * ((clock.now.toInt - created.toInt) / 1000) := by omega
  omega

/-- A holder without absolute limit that was not read since it was made. -/
def unread (clock : Clock) (created : Int64) (idle : Int32) (value : α) : Holder α where
  payload := some (.live value)
  form := .plain
  created := clock.offsetOf created
  accessed := clock.offsetOf created
  maxIdle := idle
  maxCache := 0
  uses := 0
  isComplete := true

/-- A clock that has run for `999` milliseconds since its base epoch. -/
theorem toInt_base_add_999 {base : Int64} (room : base.toInt + 999 < 2 ^ 63) :
    (base + 999).toInt = base.toInt + 999 := by
  have hlow := base.le_toInt
  have hdelay : (999 : Int64).toInt = 999 := rfl
  rw [Int64.toInt_add, hdelay]
  exact Int.bmod_eq_of_le (by omega) (by omega)

theorem isPresent_unread {base : Int64} (room : base.toInt + 999 < 2 ^ 63) (idle : Int32)
    (value : α) :
    (unread ⟨base, base + 999⟩ base idle value).IsPresent ⟨base, base + 999⟩ base base := by
  have hnow := toInt_base_add_999 room
  have hcovers : Clock.Covers ⟨base, base + 999⟩ base := by
    rw [Clock.Covers]
    dsimp only
    omega
  refine ⟨rfl, rfl, rfl, rfl, hcovers, hcovers, ?_, Int64.le_refl base, ?_⟩
  · rw [Clock.Covers]
    dsimp only
    omega
  · rw [Int64.le_iff_toInt_le]
    dsimp only
    omega

end Holder

namespace Store

theorem touch_of_prolong {store : Store α} {key : String} {handle : Handle}
    {holder touched : Holder α} {seconds : Int32} (found : store.find? key = some (handle, holder))
    (h : holder.prolong store.clock seconds = .ok touched) :
    (store.touch key seconds).1 = .ok () ∧
      (store.touch key seconds).2.find? key = some (handle, touched) := by
  simp only [touch, found, h]
  exact ⟨trivial, find?_modify_self found _⟩

end Store

namespace Holder

/-- What a touch for some seconds at the reading of a clock makes sure of. -/
structure Grants (clock : Clock) (created : Int64) (seconds : Int32) (holder touched : Holder α) :
    Prop where
  touched_eq : holder.prolong clock seconds = .ok touched
  /-- Through a store that has the holder under a key it is the same touch. -/
  through : ∀ (store : Store α) (key : String) (handle : Handle), store.clock = clock →
    store.find? key = some (handle, holder) →
      (store.touch key seconds).1 = .ok () ∧
        (store.touch key seconds).2.find? key = some (handle, touched)
  /-- The holder is valid for the seconds asked for less `999` milliseconds. -/
  valid : ∀ instant : Int64, clock.now ≤ instant →
    instant.toInt ≤ clock.now.toInt + 1000 * seconds.toInt - 999 →
      holder.WithinCache created instant → touched.isInvalidAt clock instant = .ok false

/-- Whatever its idle limit was, a holder that is present and touched for a positive number of
seconds is valid from now on for these seconds less `999` milliseconds, as long as its absolute
limit is open. The loss cannot be bounded by less: for every number of seconds and every base epoch
that leaves room for the instants there is a holder, not read since it was made, that is invalid
`998` milliseconds before the seconds are over. -/
theorem touch_grants_life {seconds : Int32} (positive : 0 < seconds) :
    (∀ (clock : Clock) (created accessed : Int64) (holder : Holder α),
      holder.IsPresent clock created accessed →
        (clock.now.toInt - created.toInt) / 1000 + seconds.toInt ≤ 2147483647 →
          ∃ touched, Grants clock created seconds holder touched) ∧
      ∀ (base : Int64) (idle : Int32) (value : α),
        Arithmetic.Fits (base.toInt + 999 + 1000 * seconds.toInt - 998) →
          ∃ (clock : Clock) (created : Int64) (instant : Int64) (touched : Holder α),
            clock.base = base ∧
              (unread clock created idle value).IsPresent clock created created ∧
              (clock.now.toInt - created.toInt) / 1000 + seconds.toInt ≤ 2147483647 ∧
              instant.toInt = clock.now.toInt + 1000 * seconds.toInt - 998 ∧
              (unread clock created idle value).prolong clock seconds = .ok touched ∧
              touched.isInvalidAt clock instant = .ok true := by
  constructor
  · intro clock created accessed holder present fits
    obtain ⟨idle, hprolong, hlimit⟩ := present.prolong positive
    refine ⟨_, hprolong, ?_, ?_⟩
    · rintro store key handle rfl found
      exact Store.touch_of_prolong found hprolong
    · intro instant _ before within
      exact present.isInvalidAt_granted positive hlimit fits before within
  · intro base idle value room
    have hseconds : 0 < seconds.toInt := (int32_pos_iff seconds).mp positive
    have hhigh := seconds.toInt_lt
    have hroom : base.toInt + 999 < 2 ^ 63 := by
      have := room.2
      omega
    have hnow := toInt_base_add_999 hroom
    obtain ⟨instant, hinstant⟩ : ∃ instant : Int64,
        instant.toInt = base.toInt + 999 + 1000 * seconds.toInt - 998 :=
      ⟨_, Int64.toInt_ofInt_of_le room.1 room.2⟩
    have present := isPresent_unread hroom idle value
    obtain ⟨limit, hprolong, hlimit⟩ := present.prolong positive
    have fits : ((base + 999).toInt - base.toInt) / 1000 + seconds.toInt ≤ 2147483647 := by
      rw [hnow]
      omega
    refine ⟨⟨base, base + 999⟩, base, instant, _, rfl, present, fits, ?_, hprolong, ?_⟩
    · rw [hinstant, hnow]
    · have within : (unread ⟨base, base + 999⟩ base idle value).WithinCache base instant :=
        fun limited => absurd limited (Int.lt_irrefl 0)
      rw [present.isInvalidAt_touched positive hlimit within, Except.ok.injEq, decide_eq_true_eq,
        hlimit, touchedLimit_of_le fits, hinstant, hnow]
      omega

/-- Touched for two seconds, an entry with an idle limit of zero is valid for another `1001`
milliseconds, `3500` milliseconds after its last access; one that was made `999` milliseconds before
the touch, close to the end of the epochs, is invalid one millisecond later than that. -/
theorem touch_grants_life_of_two_seconds :
    let clock : Clock := ⟨0, 8500⟩
    let holder : Holder String :=
      { payload := some (.live "v"), form := .plain, created := 0, accessed := 5000,
        maxIdle := 0, maxCache := 10, uses := 1, isComplete := true }
    (0 : Int32) < 2 ∧ holder.IsPresent clock 0 5000 ∧
      (∃ touched, holder.prolong clock 2 = .ok touched ∧
        touched.isInvalidAt clock 9501 = .ok false) ∧
      Arithmetic.Fits ((Int64.maxValue - 2001).toInt + 999 + 1000 * (2 : Int32).toInt - 998) ∧
      ∃ (clock : Clock) (created instant : Int64) (touched : Holder String),
        clock.base = Int64.maxValue - 2001 ∧
          instant.toInt = clock.now.toInt + 1000 * (2 : Int32).toInt - 998 ∧
          (unread clock created 300 "v").prolong clock 2 = .ok touched ∧
          touched.isInvalidAt clock instant = .ok true := by
  intro clock holder
  have positive : (0 : Int32) < 2 := by decide
  have present : holder.IsPresent clock 0 5000 :=
    ⟨rfl, rfl, by decide, by decide, by decide, by decide, by decide, by decide, by decide⟩
  have room : Arithmetic.Fits
      ((Int64.maxValue - 2001).toInt + 999 + 1000 * (2 : Int32).toInt - 998) := by decide
  obtain ⟨grants, tight⟩ := @touch_grants_life String 2 positive
  obtain ⟨touched, granted⟩ := grants clock 0 5000 holder present (by decide)
  obtain ⟨late, created, instant, spent, hbase, -, -, hinstant, hprolong, hinvalid⟩ :=
    tight (Int64.maxValue - 2001) 300 "v" room
  have within : holder.WithinCache 0 9501 := fun _ => by decide
  exact ⟨positive, present,
    ⟨touched, granted.touched_eq, granted.valid 9501 (by decide) (by decide) within⟩,
    room, late, created, instant, spent, hbase, hinstant, hprolong, hinvalid⟩

end Holder

end ExpiringCache
