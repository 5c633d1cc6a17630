import AdaptiveTables.Proofs.Exact
import AdaptiveTables.Bivariate.Bisection

/-!
What a search for a probability answers. An outcome holds the points at its own probability, and
its estimate was accepted, at the last step also for a small absolute error. In exact arithmetic
both phases of the search stay in the unit interval, and for a target that is not zero the
tolerances bound the distance of the estimate from the target.
-/

namespace AdaptiveTables

theorem exists_of_bind_eq_ok {ε β γ : Type} {first : Except ε β} {next : β → Except ε γ} {c : γ}
    (h : (first >>= next) = .ok c) : ∃ a, first = .ok a ∧ next a = .ok c := by
  cases first with
  | error e => cases h
  | ok a => exact ⟨a, rfl, h⟩

theorem EvaluationSettings.tolerance_mem {s : EvaluationSettings ℝ} (h : s.check = .ok ())
    (which : EvaluationTolerance) : s.tolerance which ∈ Set.Ico (0 : ℝ) 1 := by
  have hmem : which ∈ EvaluationTolerance.all := by
    cases which <;> decide
  rw [check] at h
  split at h
  next => cases h
  next hnone =>
    have hunit := List.find?_eq_none.mp hnone which hmem
    simpa [Scalar.inHalfOpenUnit] using hunit

namespace Bisection

section Accepted

variable {α : Type} [Scalar α] {b : Bisection α} {target norm tolerance lo hi : α}
  {f : α → MatchedPoints α} {left taken : Nat} {outcome : Outcome α}

/-- An outcome after at most a number of halvings, with an estimate that ends a search. -/
structure Settles (b : Bisection α) (target norm tolerance : α) (f : α → MatchedPoints α)
    (limit : Nat) (outcome : Outcome α) : Prop where
  points : outcome.points = f outcome.probability
  within : outcome.iterations ≤ limit
  accepted : accepts target norm tolerance outcome.points.estimate = true ∨
    outcome.iterations = limit ∧
      Scalar.abs (target - outcome.points.estimate) < b.settings.error

theorem settles_of_halve
    (h : b.halve target norm tolerance f left taken lo hi = .ok outcome) :
    b.Settles target norm tolerance f (taken + left + 1) outcome := by
  induction left generalizing taken lo hi with
  | zero =>
      simp only [halve] at h
      split at h
      next haccepted =>
        obtain rfl := Except.ok.inj h
        rw [Bool.or_eq_true, decide_eq_true_eq] at haccepted
        exact ⟨rfl, le_refl _, haccepted.imp_right fun herror => ⟨rfl, herror⟩⟩
      next => cases h
  | succ left ih =>
      have hlimit : taken + 1 + left + 1 = taken + (left + 1) + 1 := by omega
      simp only [halve] at h
      split at h
      next haccepted =>
        obtain rfl := Except.ok.inj h
        exact ⟨rfl, by simp only [attempt]; omega, Or.inl haccepted⟩
      next =>
        split at h
        next => exact hlimit ▸ ih h
        next => exact hlimit ▸ ih h

end Accepted

variable {b : Bisection ℝ} {target norm tolerance lo hi : ℝ} {f : ℝ → MatchedPoints ℝ}
  {left taken : Nat} {outcome : Outcome ℝ}

theorem probability_of_halve
    (h : b.halve target norm tolerance f left taken lo hi = .ok outcome)
    (hlo : lo ∈ Set.Icc (0 : ℝ) 1) (hhi : hi ∈ Set.Icc (0 : ℝ) 1) :
    outcome.probability ∈ Set.Icc (0 : ℝ) 1 := by
  have hmiddle : ∀ {lo hi : ℝ}, lo ∈ Set.Icc (0 : ℝ) 1 → hi ∈ Set.Icc (0 : ℝ) 1 →
      (0.5 : ℝ) * (lo + hi) ∈ Set.Icc (0 : ℝ) 1 := by
    intro lo hi hlo hhi
    constructor
    · linarith [hlo.1, hhi.1]
    · linarith [hlo.2, hhi.2]
  induction left generalizing taken lo hi with
  | zero =>
      simp only [halve] at h
      split at h
      next =>
        obtain rfl := Except.ok.inj h
        exact hmiddle hlo hhi
      next => cases h
  | succ left ih =>
      simp only [halve] at h
      split at h
      next =>
        obtain rfl := Except.ok.inj h
        exact hmiddle hlo hhi
      next =>
        split at h
        next => exact ih h (hmiddle hlo hhi) hhi
        next => exact ih h hlo (hmiddle hlo hhi)

/-- A bracket inside the unit interval. -/
def Bracket.InUnit (k : Bracket ℝ) : Prop :=
  k.lower ∈ Set.Icc (0 : ℝ) 1 ∧ k.upper ∈ Set.Icc (0 : ℝ) 1

theorem lowerEnd_inUnit {estimate : ℝ → ℝ} {steps : Nat} {k : Bracket ℝ}
    (widening : b.widening ∈ Set.Ioo (0 : ℝ) 1) (h : k.InUnit) :
    (b.lowerEnd target estimate steps k).InUnit := by
  induction steps generalizing k with
  | zero => exact h
  | succ steps ih =>
      rw [lowerEnd]
      split
      next =>
        split
        next =>
          refine ih ⟨?_, h.1⟩
          change (if steps = 0 then 0 else k.lower * (1 - b.widening)) ∈ Set.Icc (0 : ℝ) 1
          split
          next => exact ⟨le_refl 0, zero_le_one⟩
          next =>
            have hshrink : 0 ≤ 1 - b.widening := le_of_lt (sub_pos.mpr widening.2)
            refine ⟨mul_nonneg h.1.1 hshrink, mul_le_one₀ h.1.2 hshrink ?_⟩
            exact sub_le_self 1 (le_of_lt widening.1)
        next => exact h
      next => exact h

theorem upperEnd_inUnit {estimate : ℝ → ℝ} {steps : Nat} {k : Bracket ℝ}
    (widening : b.widening ∈ Set.Ioo (0 : ℝ) 1) (h : k.InUnit) :
    (b.upperEnd target estimate steps k).InUnit := by
  induction steps generalizing k with
  | zero => exact h
  | succ steps ih =>
      rw [upperEnd]
      split
      next =>
        split
        next =>
          refine ih ⟨h.2, ?_⟩
          have hgrown : 0 ≤ k.upper * (1 + b.widening) :=
            mul_nonneg h.2.1 (add_nonneg zero_le_one (le_of_lt widening.1))
          simp only [Exact.min_eq]
          split
          next => exact ⟨zero_le_one, le_refl 1⟩
          next =>
            split
            next => exact ⟨le_min (le_of_lt widening.1) zero_le_one, min_le_right _ _⟩
            next => exact ⟨le_min hgrown zero_le_one, min_le_right _ _⟩
        next => exact h
      next => exact h

theorem clamp_mem_unit (a : ℝ) : Scalar.clamp 0 1 a ∈ Set.Icc (0 : ℝ) 1 := by
  rw [Scalar.clamp]
  split
  next => exact ⟨le_refl 0, zero_le_one⟩
  next hlow =>
    split
    next => exact ⟨zero_le_one, le_refl 1⟩
    next hhigh => exact ⟨not_lt.mp hlow, not_lt.mp hhigh⟩

theorem widen_inUnit {estimate : ℝ → ℝ} (widening : b.widening ∈ Set.Ioo (0 : ℝ) 1)
    (target lo hi : ℝ) : (b.widen target lo hi estimate).InUnit :=
  upperEnd_inUnit widening (lowerEnd_inUnit widening ⟨clamp_mem_unit lo, clamp_mem_unit hi⟩)

/-- For a target that is not zero, the tolerance is relative to it. -/
theorem accepts_iff_close (nonzero : target ≠ 0) (htolerance : 0 ≤ tolerance) (e : ℝ) :
    accepts target target tolerance e = true ↔ |target - e| ≤ tolerance * |target| := by
  rw [accepts, Bool.or_eq_true, decide_eq_true_eq, beq_iff_eq, scaledError, Exact.abs_eq, abs_div,
    div_le_iff₀ (abs_pos.mpr nonzero)]
  constructor
  · intro h
    cases h with
    | inl hhit =>
        rw [hhit, sub_self, abs_zero]
        exact mul_nonneg htolerance (abs_nonneg _)
    | inr hclose => exact hclose
  · exact Or.inr

/-- The estimate of an outcome is as close to a target other than zero as the tolerances say. -/
theorem solve_eq_ok (widening : b.widening ∈ Set.Ioo (0 : ℝ) 1)
    (checked : b.settings.check = .ok ()) (nonzero : target ≠ 0)
    (h : b.solve target lo hi f = .ok outcome) :
    outcome.probability ∈ Set.Icc (0 : ℝ) 1 ∧ outcome.points = f outcome.probability ∧
      |target - outcome.points.estimate| ≤
        Max.max (b.settings.relativeError * |target|) b.settings.error := by
  have hzero : ¬(target == 0) = true := fun heq => nonzero (beq_iff_eq.mp heq)
  simp only [solve, if_neg hzero] at h
  have hinside := @widen_inUnit b (fun c => (f c).estimate) widening target lo hi
  have hsettles := settles_of_halve h
  refine ⟨probability_of_halve h hinside.1 hinside.2, hsettles.points, ?_⟩
  have hrelative : 0 ≤ b.settings.relativeError :=
    (EvaluationSettings.tolerance_mem checked .relativeError).1
  cases hsettles.accepted with
  | inl haccepted =>
      exact le_max_of_le_left ((accepts_iff_close nonzero hrelative _).mp haccepted)
  | inr hlast => exact le_max_of_le_right hlast.2.le

theorem lowerEnd_of_le {estimate : ℝ → ℝ} {steps : Nat} {k : Bracket ℝ}
    (h : estimate k.lower ≤ target) :
    (b.lowerEnd target estimate steps k).lower = k.lower ∧
      (b.lowerEnd target estimate steps k).upper = k.upper := by
  cases steps with
  | zero => exact ⟨rfl, rfl⟩
  | succ steps =>
      rw [lowerEnd]
      simp only [if_neg (not_lt.mpr h)]
      split <;> exact ⟨rfl, rfl⟩

theorem upperEnd_of_le {estimate : ℝ → ℝ} {steps : Nat} {k : Bracket ℝ}
    (h : target ≤ estimate k.upper) :
    (b.upperEnd target estimate steps k).lower = k.lower ∧
      (b.upperEnd target estimate steps k).upper = k.upper := by
  cases steps with
  | zero => exact ⟨rfl, rfl⟩
  | succ steps =>
      rw [upperEnd]
      simp only [if_neg (not_lt.mpr h)]
      split <;> exact ⟨rfl, rfl⟩

/-- A bracket that holds the target is not widened. -/
theorem widen_of_holds {estimate : ℝ → ℝ} (hlo : lo ∈ Set.Icc (0 : ℝ) 1)
    (hhi : hi ∈ Set.Icc (0 : ℝ) 1) (hlow : estimate lo ≤ target) (hhigh : target ≤ estimate hi) :
    (b.widen target lo hi estimate).lower = lo ∧ (b.widen target lo hi estimate).upper = hi := by
  rw [widen, Exact.clamp_of_mem hlo, Exact.clamp_of_mem hhi]
  obtain ⟨hlower, hupper⟩ := @lowerEnd_of_le b target estimate b.stepLimit ⟨lo, hi, 0⟩ hlow
  have hends := @upperEnd_of_le b target estimate b.stepLimit
    (b.lowerEnd target estimate b.stepLimit ⟨lo, hi, 0⟩) (by rwa [hupper])
  rwa [hlower, hupper] at hends

/-- A search is over at once if its bracket holds the target and the middle comes close to it. -/
theorem solve_of_accepted (nonzero : target ≠ 0) (hlo : lo ∈ Set.Icc (0 : ℝ) 1)
    (hhi : hi ∈ Set.Icc (0 : ℝ) 1) (hlow : (f lo).estimate ≤ target)
    (hhigh : target ≤ (f hi).estimate)
    (close : accepts target target b.settings.relativeError
      (attempt f 0 lo hi).points.estimate = true) :
    b.solve target lo hi f = .ok (attempt f 0 lo hi) := by
  have hzero : ¬(target == 0) = true := fun heq => nonzero (beq_iff_eq.mp heq)
  obtain ⟨hlower, hupper⟩ :=
    @widen_of_holds b target lo hi (fun c => (f c).estimate) hlo hhi hlow hhigh
  simp only [solve, if_neg hzero, hlower, hupper]
  cases b.stepLimit - 1 with
  | zero => simp only [halve, close, Bool.true_or, if_true]
  | succ left => simp only [halve, close, if_true]

/-- A search that starts at one probability is over at once if the target is met there. -/
theorem solve_of_hit {c : ℝ} (hc : c ∈ Set.Icc (0 : ℝ) 1) (hit : (f c).estimate = target) :
    b.solve target c c f = .ok ⟨c, f c, 1⟩ := by
  have hmiddle : (0.5 : ℝ) * (c + c) = c := by ring
  have haccepted : ∀ norm tolerance, accepts target norm tolerance (f c).estimate = true := by
    intro norm tolerance
    simp [accepts, hit]
  have hhalve : ∀ norm tolerance left,
      b.halve target norm tolerance f left 0 c c = .ok ⟨c, f c, 1⟩ := by
    intro norm tolerance left
    cases left with
    | zero => simp [halve, attempt, hmiddle, haccepted]
    | succ left => simp [halve, attempt, hmiddle, haccepted]
  obtain ⟨hlower, hupper⟩ := @widen_of_holds b target c c (fun c => (f c).estimate) hc hc
    (le_of_eq hit) (ge_of_eq hit)
  simp only [solve, hlower, hupper]
  exact hhalve _ _ _

end Bisection
end AdaptiveTables
