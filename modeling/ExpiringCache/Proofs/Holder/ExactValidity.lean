import ExpiringCache.Proofs.Holder.Fate

/-!
# Validity in exact arithmetic

The check of a holder is decided as if instants were integers without bound. It overflows only where
it needs an instant that does not fit its word: that of the creation for an absolute limit, that of
the last access for an idle limit that the absolute one does not make superfluous. Everywhere else
it says whether the holder is incomplete, released or past a limit.
-/
namespace ExpiringCache

namespace Holder

variable {α : Type}

/-- The instant of the creation in unbounded integers, whether or not it fits its word. -/
def createdAt (clock : Clock) (holder : Holder α) : Int :=
  clock.base.toInt + holder.created.toInt

def accessedAt (clock : Clock) (holder : Holder α) : Int :=
  clock.base.toInt + holder.accessed.toInt

/-- Whether a holder is invalid at an instant, in unbounded integers. -/
def IsInvalidAt (clock : Clock) (instant : Int) (holder : Holder α) : Prop :=
  holder.isComplete = false ∨ holder.isReleased = true ∨
    Passed holder.maxCache.toInt holder.maxIdle.toInt (holder.createdAt clock)
      (holder.accessedAt clock) instant

instance (clock : Clock) (instant : Int) (holder : Holder α) :
    Decidable (holder.IsInvalidAt clock instant) :=
  inferInstanceAs (Decidable (_ ∨ _))

/-- Whether the check of a holder needs an instant that does not fit its word. -/
def Overflows (clock : Clock) (instant : Int) (holder : Holder α) : Prop :=
  holder.isComplete = true ∧ holder.isReleased = false ∧
    (0 < holder.maxCache.toInt ∧ ¬ Arithmetic.Fits (holder.createdAt clock) ∨
      (holder.maxCache.toInt = 0 ∨
        instant - holder.createdAt clock ≤ 1000 * holder.maxCache.toInt) ∧
      0 < holder.maxIdle.toInt ∧ ¬ Arithmetic.Fits (holder.accessedAt clock))

instance (clock : Clock) (instant : Int) (holder : Holder α) :
    Decidable (holder.Overflows clock instant) :=
  inferInstanceAs (Decidable (_ ∧ _))

variable {clock : Clock} {holder : Holder α}

theorem cachePassed_of_overflow (limited : 0 < holder.maxCache.toInt)
    (h : ¬ Arithmetic.Fits (holder.createdAt clock)) (instant : Int64) :
    holder.cachePassed clock instant = .error .add := by
  rw [cachePassed, if_pos ((int32_pos_iff _).mpr limited), Clock.instantOf_eq_error_iff.mpr h]
  rfl

theorem cachePassed_of_fits
    (h : 0 < holder.maxCache.toInt → Arithmetic.Fits (holder.createdAt clock)) (instant : Int64) :
    holder.cachePassed clock instant = .ok (decide (0 < holder.maxCache.toInt ∧
      1000 * holder.maxCache.toInt < instant.toInt - holder.createdAt clock)) := by
  by_cases limited : 0 < holder.maxCache.toInt
  · obtain ⟨created, hcreated, hexact⟩ := Clock.exists_instantOf (h limited)
    rw [cachePassed_eq fun _ => hcreated, hexact, createdAt]
  · have hnone : 0 < holder.maxCache.toInt → clock.instantOf holder.created = .ok 0 :=
      fun hpos => absurd hpos limited
    rw [cachePassed_eq hnone, decide_eq_false (fun hpassed => limited hpassed.1),
      decide_eq_false (fun hpassed => limited hpassed.1)]

theorem idlePassed_of_overflow (limited : 0 < holder.maxIdle.toInt)
    (h : ¬ Arithmetic.Fits (holder.accessedAt clock)) (instant : Int64) :
    holder.idlePassed clock instant = .error .add := by
  have hne : ¬ holder.maxIdle = 0 := by
    rw [int32_eq_zero_iff]
    omega
  rw [idlePassed, if_neg hne, Clock.instantOf_eq_error_iff.mpr h]
  rfl

theorem idlePassed_of_fits
    (h : holder.maxIdle.toInt ≠ 0 → Arithmetic.Fits (holder.accessedAt clock)) (instant : Int64) :
    holder.idlePassed clock instant = .ok (decide (holder.maxIdle.toInt = 0 ∨
      1000 * holder.maxIdle.toInt < instant.toInt - holder.accessedAt clock)) := by
  by_cases expired : holder.maxIdle.toInt = 0
  · have hnone : holder.maxIdle.toInt ≠ 0 → clock.instantOf holder.accessed = .ok 0 :=
      fun hne => absurd expired hne
    rw [idlePassed_eq hnone, decide_eq_true (.inl expired), decide_eq_true (.inl expired)]
  · obtain ⟨accessed, haccessed, hexact⟩ := Clock.exists_instantOf (h expired)
    rw [idlePassed_eq fun _ => haccessed, hexact, accessedAt]

theorem isInvalidAt_of_overflows {instant : Int64} (h : holder.Overflows clock instant.toInt) :
    holder.isInvalidAt clock instant = .error .add := by
  obtain ⟨complete, live, needs⟩ := h
  rw [isInvalidAt_eq_limitPassed complete live, limitPassed]
  by_cases created : 0 < holder.maxCache.toInt ∧ ¬ Arithmetic.Fits (holder.createdAt clock)
  · rw [cachePassed_of_overflow created.1 created.2]
  · obtain ⟨undecided, limited, haccessed⟩ := needs.resolve_left created
    have hcreated : 0 < holder.maxCache.toInt → Arithmetic.Fits (holder.createdAt clock) :=
      fun hpos => Decidable.not_not.mp fun hfits => created ⟨hpos, hfits⟩
    have hnot : ¬ (0 < holder.maxCache.toInt ∧
        1000 * holder.maxCache.toInt < instant.toInt - holder.createdAt clock) := by omega
    rw [cachePassed_of_fits hcreated, decide_eq_false hnot]
    exact idlePassed_of_overflow limited haccessed instant

theorem isInvalidAt_of_not_overflows (inRange : holder.InRange) {instant : Int64}
    (h : ¬ holder.Overflows clock instant.toInt) :
    holder.isInvalidAt clock instant = .ok (decide (holder.IsInvalidAt clock instant.toInt)) := by
  unfold isInvalidAt
  split
  next hgone =>
    have hinvalid : holder.IsInvalidAt clock instant.toInt := by
      rcases Bool.or_eq_true_iff.mp hgone with hincomplete | hreleased
      · exact .inl (by simpa using hincomplete)
      · exact .inr (.inl hreleased)
    rw [decide_eq_true hinvalid]
  next hopen =>
    obtain ⟨complete, live⟩ : holder.isComplete = true ∧ holder.isReleased = false := by
      simpa using hopen
    have hcreated : 0 < holder.maxCache.toInt → Arithmetic.Fits (holder.createdAt clock) :=
      fun hpos => Decidable.not_not.mp fun hfits => h ⟨complete, live, .inl ⟨hpos, hfits⟩⟩
    rw [limitPassed, cachePassed_of_fits hcreated]
    by_cases aged : 0 < holder.maxCache.toInt ∧
        1000 * holder.maxCache.toInt < instant.toInt - holder.createdAt clock
    · rw [decide_eq_true aged, decide_eq_true (.inr (.inr (.inl aged)))]
    · have hcache := inRange.cache
      have hidle := inRange.idle
      have haccessed : holder.maxIdle.toInt ≠ 0 → Arithmetic.Fits (holder.accessedAt clock) :=
        fun hne => Decidable.not_not.mp fun hfits =>
          h ⟨complete, live, .inr ⟨by omega, by omega, hfits⟩⟩
      rw [decide_eq_false aged, idlePassed_of_fits haccessed]
      simp [IsInvalidAt, Passed, complete, live, aged]

/-- For every holder whose limits are not negative, every base epoch and every instant: the check
overflows exactly if it needs an instant that does not fit its word; else it says whether the holder
is invalid in unbounded integers; and a holder that stays as it is stays invalid. -/
theorem validity_decided_exactly (clock : Clock) (holder : Holder α) (inRange : holder.InRange)
    (instant : Int64) :
    (holder.isInvalidAt clock instant = .error .add ↔ holder.Overflows clock instant.toInt) ∧
      (¬ holder.Overflows clock instant.toInt →
        holder.isInvalidAt clock instant =
          .ok (decide (holder.IsInvalidAt clock instant.toInt))) ∧
      ∀ later : Int64, instant ≤ later → holder.isInvalidAt clock instant = .ok true →
        holder.isInvalidAt clock later = .ok true := by
  refine ⟨⟨?needs, isInvalidAt_of_overflows⟩, isInvalidAt_of_not_overflows inRange, ?stays⟩
  case needs =>
    intro hoverflow
    refine Decidable.byContradiction fun hfits => ?_
    rw [isInvalidAt_of_not_overflows inRange hfits] at hoverflow
    cases hoverflow
  case stays =>
    intro later le invalid
    exact isInvalidAt_later rfl (Int64.le_iff_toInt_le.mp le) invalid

/-- Ten seconds before the end of the word, a holder whose last access lies past that end: its check
overflows as long as its absolute limit of five seconds is open, and no longer. -/
theorem validity_decided_exactly_near_end :
    let clock : Clock := Clock.startingAt (Int64.maxValue - 10000)
    let holder : Holder String :=
      { payload := some (.live "v"), form := .plain, created := 0, accessed := 20000,
        maxIdle := 10, maxCache := 5, uses := 0, isComplete := true }
    holder.InRange ∧
      holder.isInvalidAt clock (Int64.maxValue - 5000) = .error .add ∧
      holder.isInvalidAt clock (Int64.maxValue - 4999) = .ok true ∧
      holder.isInvalidAt clock Int64.maxValue = .ok true := by
  intro clock holder
  have inRange : holder.InRange := ⟨by decide, by decide⟩
  have early := validity_decided_exactly clock holder inRange (Int64.maxValue - 5000)
  have late := validity_decided_exactly clock holder inRange (Int64.maxValue - 4999)
  have hlate : holder.isInvalidAt clock (Int64.maxValue - 4999) = .ok true :=
    (late.2.1 (by decide)).trans (congrArg Except.ok (by decide))
  exact ⟨inRange, early.1.mpr (by decide), hlate, late.2.2 _ (by decide) hlate⟩

end Holder

end ExpiringCache
