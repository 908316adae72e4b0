import ExpiringCache.Holder.Validity
import ExpiringCache.Proofs.Clock.Span

/-!
# Limits in exact arithmetic

The comparison of an age with a limit is the one in the unbounded integers: the scaled limit fits
its word, and a difference that is held at an end of the word is still on the same side of it. A
complete holder whose value is there is therefore invalid exactly when one of its limits has
passed, measured from the instants that its timestamps stand for.
-/
namespace ExpiringCache.Holder

variable {α : Type}

/-- Whether one of two limits has passed, in unbounded integers: instants in milliseconds, limits in
seconds, an absolute limit of `0` for none and an idle limit of `0` for one that has passed. -/
def Passed (cap idle created accessed instant : Int) : Prop :=
  (0 < cap ∧ 1000 * cap < instant - created) ∨ idle = 0 ∨ 1000 * idle < instant - accessed

instance (cap idle created accessed instant : Int) :
    Decidable (Passed cap idle created accessed instant) :=
  inferInstanceAs (Decidable (_ ∨ _))

theorem toInt_scaled (limit : Int32) : (1000 * limit.toInt64).toInt = 1000 * limit.toInt := by
  have hlow := limit.le_toInt
  have hhigh := limit.toInt_lt
  have hthousand : (1000 : Int64).toInt = 1000 := rfl
  rw [Int64.toInt_mul, hthousand, Int32.toInt_toInt64]
  exact Int.bmod_eq_of_le (by omega) (by omega)

theorem exceeds_eq (limit : Int32) (since instant : Int64) :
    exceeds limit since instant = decide (1000 * limit.toInt < instant.toInt - since.toInt) := by
  have hlow := limit.le_toInt
  have hhigh := limit.toInt_lt
  rw [exceeds, decide_eq_decide, Int64.lt_iff_toInt_lt, toInt_scaled,
    Arithmetic.toInt_subSaturating]
  omega

theorem int32_eq_zero_iff (n : Int32) : n = 0 ↔ n.toInt = 0 := by
  rw [← Int32.toInt_inj]
  rfl

theorem int32_pos_iff (n : Int32) : 0 < n ↔ 0 < n.toInt := by
  rw [Int32.lt_iff_toInt_lt]
  rfl

theorem cachePassed_eq {clock : Clock} {instant : Int64} {holder : Holder α} {created : Int64}
    (h : 0 < holder.maxCache.toInt → clock.instantOf holder.created = .ok created) :
    holder.cachePassed clock instant = .ok (decide (0 < holder.maxCache.toInt ∧
      1000 * holder.maxCache.toInt < instant.toInt - created.toInt)) := by
  simp only [cachePassed, int32_pos_iff]
  split
  next hpos => simp [h hpos, Except.map, exceeds_eq, hpos]
  next hzero => simp [hzero]

theorem idlePassed_eq {clock : Clock} {instant : Int64} {holder : Holder α} {accessed : Int64}
    (h : holder.maxIdle.toInt ≠ 0 → clock.instantOf holder.accessed = .ok accessed) :
    holder.idlePassed clock instant = .ok (decide (holder.maxIdle.toInt = 0 ∨
      1000 * holder.maxIdle.toInt < instant.toInt - accessed.toInt)) := by
  simp only [idlePassed, int32_eq_zero_iff]
  split
  next hzero => simp [hzero]
  next hpos => simp [h hpos, Except.map, exceeds_eq, hpos]

/-- An instant is needed only for a limit that is compared with it. -/
theorem limitPassed_eq {clock : Clock} {instant : Int64} {holder : Holder α}
    {created accessed : Int64}
    (hc : 0 < holder.maxCache.toInt → clock.instantOf holder.created = .ok created)
    (ha : holder.maxIdle.toInt ≠ 0 → clock.instantOf holder.accessed = .ok accessed) :
    holder.limitPassed clock instant = .ok (decide (Passed holder.maxCache.toInt
      holder.maxIdle.toInt created.toInt accessed.toInt instant.toInt)) := by
  rw [limitPassed, cachePassed_eq hc]
  by_cases h : 0 < holder.maxCache.toInt ∧
      1000 * holder.maxCache.toInt < instant.toInt - created.toInt
  · simp [Passed, h]
  · simp [Passed, h, idlePassed_eq ha]

theorem isInvalidAt_eq_limitPassed {clock : Clock} {instant : Int64} {holder : Holder α}
    (complete : holder.isComplete = true) (live : holder.isReleased = false) :
    holder.isInvalidAt clock instant = holder.limitPassed clock instant := by
  simp [isInvalidAt, complete, live]

/-- Past its absolute limit a holder is invalid, whatever its idle limit and its value. -/
theorem isInvalidAt_of_past_limit {clock : Clock} {instant created : Int64} {holder : Holder α}
    (h : clock.instantOf holder.created = .ok created) (limited : 0 < holder.maxCache.toInt)
    (past : created.toInt + 1000 * holder.maxCache.toInt < instant.toInt) :
    holder.isInvalidAt clock instant = .ok true := by
  have hpassed : 0 < holder.maxCache.toInt ∧
      1000 * holder.maxCache.toInt < instant.toInt - created.toInt := ⟨limited, by omega⟩
  have hcache : holder.cachePassed clock instant = .ok true := by
    rw [cachePassed_eq fun _ => h, decide_eq_true hpassed]
  unfold isInvalidAt
  split
  next => rfl
  next => rw [limitPassed, hcache]

/-- A comparison with the absolute limit that goes through has recovered the instant it needs. -/
theorem exists_created_of_cachePassed {clock : Clock} {instant : Int64} {holder : Holder α}
    {passed : Bool} (h : holder.cachePassed clock instant = .ok passed) :
    ∃ created, 0 < holder.maxCache.toInt → clock.instantOf holder.created = .ok created := by
  simp only [cachePassed, int32_pos_iff] at h
  split at h
  next =>
    cases hinstant : clock.instantOf holder.created with
    | error overflow => simp [hinstant, Except.map] at h
    | ok created => exact ⟨created, fun _ => rfl⟩
  next hnone => exact ⟨0, fun hpos => absurd hpos hnone⟩

theorem exists_accessed_of_idlePassed {clock : Clock} {instant : Int64} {holder : Holder α}
    {passed : Bool} (h : holder.idlePassed clock instant = .ok passed) :
    ∃ accessed, holder.maxIdle.toInt ≠ 0 → clock.instantOf holder.accessed = .ok accessed := by
  simp only [idlePassed, int32_eq_zero_iff] at h
  split at h
  next hzero => exact ⟨0, fun hpos => absurd hzero hpos⟩
  next =>
    cases hinstant : clock.instantOf holder.accessed with
    | error overflow => simp [hinstant, Except.map] at h
    | ok accessed => exact ⟨accessed, fun _ => rfl⟩

/-- A comparison of both limits that goes through decides whether one of them has passed, measured
from the sums of the base epoch and the timestamps. -/
theorem eq_passed_of_limitPassed {clock : Clock} {instant : Int64} {holder : Holder α}
    {passed : Bool} (h : holder.limitPassed clock instant = .ok passed) :
    passed = decide (Passed holder.maxCache.toInt holder.maxIdle.toInt
      (clock.base.toInt + holder.created.toInt) (clock.base.toInt + holder.accessed.toInt)
      instant.toInt) := by
  unfold limitPassed at h
  cases hcache : holder.cachePassed clock instant with
  | error overflow => simp [hcache] at h
  | ok aged =>
    obtain ⟨created, hcreated⟩ := exists_created_of_cachePassed hcache
    have hsince : 0 < holder.maxCache.toInt →
        created.toInt = clock.base.toInt + holder.created.toInt :=
      fun hpos => Clock.instantOf_eq_ok_iff.mp (hcreated hpos)
    have haged := Except.ok.inj ((cachePassed_eq hcreated).symm.trans hcache)
    rw [hcache] at h
    cases aged with
    | true =>
      rw [decide_eq_true_eq] at haged
      have hpassed : Passed holder.maxCache.toInt holder.maxIdle.toInt
          (clock.base.toInt + holder.created.toInt) (clock.base.toInt + holder.accessed.toInt)
          instant.toInt := .inl ⟨haged.1, hsince haged.1 ▸ haged.2⟩
      rw [decide_eq_true hpassed]
      exact (Except.ok.inj h).symm
    | false =>
      obtain ⟨accessed, haccessed⟩ := exists_accessed_of_idlePassed h
      have hsinceAccess : holder.maxIdle.toInt ≠ 0 →
          accessed.toInt = clock.base.toInt + holder.accessed.toInt :=
        fun hpos => Clock.instantOf_eq_ok_iff.mp (haccessed hpos)
      have hidle := Except.ok.inj ((idlePassed_eq haccessed).symm.trans h)
      rw [decide_eq_false_iff_not] at haged
      rw [← hidle, decide_eq_decide, Passed]
      omega

/-- What has passed has passed at every later instant, and a comparison that goes through once goes
through at every instant. -/
theorem cachePassed_later {clock moved : Clock} {instant later : Int64} {holder : Holder α}
    {passed : Bool} (base : moved.base = clock.base) (le : instant.toInt ≤ later.toInt)
    (h : holder.cachePassed clock instant = .ok passed) :
    ∃ still, holder.cachePassed moved later = .ok still ∧ (passed = true → still = true) := by
  obtain ⟨created, hcreated⟩ := exists_created_of_cachePassed h
  have hmoved : 0 < holder.maxCache.toInt → moved.instantOf holder.created = .ok created :=
    fun hpos => (Clock.instantOf_of_base_eq base _).trans (hcreated hpos)
  have hpassed := Except.ok.inj ((cachePassed_eq hcreated).symm.trans h)
  refine ⟨_, cachePassed_eq hmoved, ?_⟩
  rw [← hpassed, decide_eq_true_eq, decide_eq_true_eq]
  omega

theorem idlePassed_later {clock moved : Clock} {instant later : Int64} {holder : Holder α}
    (base : moved.base = clock.base) (le : instant.toInt ≤ later.toInt)
    (h : holder.idlePassed clock instant = .ok true) :
    holder.idlePassed moved later = .ok true := by
  obtain ⟨accessed, haccessed⟩ := exists_accessed_of_idlePassed h
  have hmoved : holder.maxIdle.toInt ≠ 0 → moved.instantOf holder.accessed = .ok accessed :=
    fun hpos => (Clock.instantOf_of_base_eq base _).trans (haccessed hpos)
  have hpassed := Except.ok.inj ((idlePassed_eq haccessed).symm.trans h)
  rw [decide_eq_true_eq] at hpassed
  rw [idlePassed_eq hmoved, Except.ok.injEq, decide_eq_true_eq]
  omega

/-- A holder that nobody changes and that is invalid at one instant is invalid at every later one,
whatever the base epoch: a check that went through does not overflow later. -/
theorem isInvalidAt_later {clock moved : Clock} {instant later : Int64} {holder : Holder α}
    (base : moved.base = clock.base) (le : instant.toInt ≤ later.toInt)
    (h : holder.isInvalidAt clock instant = .ok true) :
    holder.isInvalidAt moved later = .ok true := by
  unfold isInvalidAt at h ⊢
  split at h
  next hgone => rw [if_pos hgone]
  next hopen =>
    rw [if_neg hopen]
    unfold limitPassed at h ⊢
    cases hcache : holder.cachePassed clock instant with
    | error overflow => simp [hcache] at h
    | ok aged =>
      obtain ⟨still, hstill, hkeeps⟩ := cachePassed_later base le hcache
      rw [hcache] at h
      rw [hstill]
      cases still with
      | true => rfl
      | false =>
        cases aged with
        | true => cases hkeeps rfl
        | false => exact idlePassed_later base le h

theorem toInt_wholeSeconds (age : Int64) :
    ((if age < 0 then 0 else age) / 1000).toInt = max 0 age.toInt / 1000 := by
  have hhigh := age.toInt_lt
  have hthousand : (1000 : Int64).toInt = 1000 := rfl
  have hpositive : (if age < 0 then 0 else age).toInt = max 0 age.toInt := by
    have hzero : (0 : Int64).toInt = 0 := rfl
    simp only [Int64.lt_iff_toInt_lt, hzero]
    split <;> omega
  rw [Int64.toInt_div, hpositive, hthousand, Int.tdiv_eq_ediv_of_nonneg (by omega)]
  exact Int.bmod_eq_of_le (by omega) (by omega)

/-- A prolonged limit in unbounded integers; it stops at the largest limit. -/
theorem toInt_prolongedLimit (now created : Int64) {seconds : Int32} (h : 0 < seconds.toInt) :
    let age := Arithmetic.subSaturating now created
    (Arithmetic.limitSeconds ((if age < 0 then 0 else age) / 1000 + seconds.toInt64)).toInt =
      min 2147483647 (max 0 (now.toInt - created.toInt) / 1000 + seconds.toInt) := by
  intro age
  have hage : age.toInt = max (-2 ^ 63) (min (2 ^ 63 - 1) (now.toInt - created.toInt)) :=
    Arithmetic.toInt_subSaturating now created
  have hhigh := seconds.toInt_lt
  have hwhole := toInt_wholeSeconds age
  have hsum : ((if age < 0 then 0 else age) / 1000 + seconds.toInt64).toInt =
      max 0 age.toInt / 1000 + seconds.toInt := by
    rw [Int64.toInt_add, hwhole, Int32.toInt_toInt64]
    exact Int.bmod_eq_of_le (by omega) (by omega)
  rw [Arithmetic.toInt_limitSeconds, hsum]
  omega

end ExpiringCache.Holder
