import AdaptiveTables.Proofs.Brackets

/-!
Searches with enough iterations. Halving keeps the target between the estimates at the ends of the
bracket and leaves half of the bracket with every trial. Estimates that change at a bounded rate
therefore come as close to the target as the number of trials says, and a search succeeds when the
trials allowed bring them within one of its tolerances.
-/

namespace AdaptiveTables
namespace Bisection

variable {b : Bisection ℝ} {target norm tolerance lo hi : ℝ} {f : ℝ → MatchedPoints ℝ}
  {s t : Turns ℝ} {rate : NNReal}

/-- The target lies between the estimates at the ends, and the bracket has been halved with every
trial. -/
structure Turns.Straddles (s : Turns ℝ) (estimate : ℝ → ℝ) (target : ℝ) : Prop
    extends Inside s.lower s.upper where
  below : estimate s.lower ≤ target
  above : target ≤ estimate s.upper
  narrow : (s.upper - s.lower) * 2 ^ s.count ≤ 1

/-- A bracket found by widening holds every target that the unit interval holds. -/
theorem Encloses.straddles {estimate : ℝ → ℝ} (encloses : Encloses estimate target lo hi)
    (bottom : estimate 0 ≤ target) (top : target ≤ estimate 1) :
    Turns.Straddles ⟨lo, hi, 0⟩ estimate target where
  toInside := encloses.toInside
  below := encloses.below.elim (fun hzero => hzero ▸ bottom) id
  above := encloses.above.elim (fun hone => hone ▸ top) id
  narrow := by
    change (hi - lo) * 2 ^ 0 ≤ 1
    rw [pow_zero, mul_one]
    linarith [encloses.nonneg, encloses.le_one]

theorem probability_trial (f : ℝ → MatchedPoints ℝ) (s : Turns ℝ) :
    (trial f s).probability = (s.lower + s.upper) / 2 := by
  change (0.5 : ℝ) * (s.lower + s.upper) = _
  norm_num
  ring

theorem Turns.Straddles.middle_mem {estimate : ℝ → ℝ} (straddles : s.Straddles estimate target) :
    (trial f s).probability ∈ Set.Icc s.lower s.upper := by
  have hordered := straddles.ordered
  rw [probability_trial]
  constructor <;> linarith

/-- What the estimate in the middle decides is on which side of it the target remains. -/
theorem straddles_of_halving (h : b.halving target norm tolerance f s = some t)
    (straddles : s.Straddles (fun c => (f c).estimate) target) :
    t.Straddles (fun c => (f c).estimate) target := by
  obtain ⟨hleft, hright⟩ := straddles.middle_mem (f := f)
  have hmiddle := probability_trial f s
  have hnarrow := straddles.narrow
  simp only [halving] at h
  split at h
  next => cases h
  next =>
    split at h
    next hbelow =>
      obtain rfl := Option.some.inj h
      refine ⟨⟨straddles.nonneg.trans hleft, hright, straddles.le_one⟩, hbelow.le,
        straddles.above, ?_⟩
      change (s.upper - (trial f s).probability) * 2 ^ (s.count + 1) ≤ 1
      rw [hmiddle, pow_succ]
      linarith
    next habove =>
      obtain rfl := Option.some.inj h
      refine ⟨⟨straddles.nonneg, hleft, hright.trans straddles.le_one⟩, straddles.below,
        not_lt.mp habove, ?_⟩
      change ((trial f s).probability - s.lower) * 2 ^ (s.count + 1) ≤ 1
      rw [hmiddle, pow_succ]
      linarith

/-- The middle is half a width away from both ends, between whose estimates the target lies. -/
theorem Turns.Straddles.abs_trial_sub_le
    (straddles : s.Straddles (fun c => (f c).estimate) target)
    (bounded : LipschitzOnWith rate (fun c => (f c).estimate) (Set.Icc 0 1)) :
    |(trial f s).points.estimate - target| ≤ rate / 2 ^ (trial f s).iterations := by
  obtain ⟨hleft, hright⟩ := straddles.middle_mem (f := f)
  have hmiddle := probability_trial f s
  obtain ⟨hlower, hupper⟩ := straddles.mem_unit
  have hinside : (trial f s).probability ∈ Set.Icc (0 : ℝ) 1 :=
    ⟨hlower.1.trans hleft, hright.trans hupper.2⟩
  have hhalf : (s.upper - s.lower) / 2 ≤ 1 / 2 ^ (s.count + 1) := by
    rw [le_div_iff₀ (pow_pos two_pos _), pow_succ]
    linarith [straddles.narrow]
  have hspread : rate * ((s.upper - s.lower) / 2) ≤ rate / 2 ^ (s.count + 1) := by
    rw [div_eq_mul_one_div (rate : ℝ)]
    exact mul_le_mul_of_nonneg_left hhalf rate.coe_nonneg
  have hdown : dist (trial f s).probability s.lower = (s.upper - s.lower) / 2 := by
    rw [Real.dist_eq, abs_of_nonneg (sub_nonneg.mpr hleft), hmiddle]
    ring
  have hup : dist s.upper (trial f s).probability = (s.upper - s.lower) / 2 := by
    rw [Real.dist_eq, abs_of_nonneg (sub_nonneg.mpr hright), hmiddle]
    ring
  have hrise : (trial f s).points.estimate ≤ (f s.lower).estimate +
      rate * ((s.upper - s.lower) / 2) := hdown ▸ bounded.le_add_mul hinside hlower
  have hfall : (f s.upper).estimate ≤ (trial f s).points.estimate +
      rate * ((s.upper - s.lower) / 2) := hup ▸ bounded.le_add_mul hupper hinside
  have hbelow := straddles.below
  have habove := straddles.above
  change |(trial f s).points.estimate - target| ≤ rate / 2 ^ (s.count + 1)
  rw [abs_le]
  constructor <;> linarith

/-- The iterations allowed are enough for estimates of a bounded rate to come within a tolerance:
the one relative to the target, the one for a target of zero, or the one of the last iteration. -/
inductive Affords (b : Bisection ℝ) (target : ℝ) (rate : NNReal) : Prop
  | relative (nonzero : target ≠ 0)
      (enough : rate ≤ 2 ^ b.settings.maxIterations * b.settings.relativeError * |target|)
  | zero (zero : target = 0) (enough : rate ≤ 2 ^ b.settings.maxIterations * b.settings.error)
  | last (enough : rate < 2 ^ b.settings.maxIterations * b.settings.error)

/-- The unit of errors for a target of zero is at least one. -/
theorem one_le_normAt_zero (f : ℝ → MatchedPoints ℝ) (s : Turns ℝ) : 1 ≤ normAt 0 f s := by
  rw [normAt, if_pos (beq_iff_eq.mpr rfl), Exact.max_eq]
  exact le_max_right _ _

/-- The last trial that is allowed hits the target when enough iterations are. -/
theorem hits_of_affords {o : Outcome ℝ} (affords : b.Affords target rate)
    (spent : b.settings.maxIterations ≤ o.iterations)
    (near : |o.points.estimate - target| ≤ rate / 2 ^ o.iterations) :
    b.Hits target (normAt target f s) (b.toleranceFor target) o := by
  have hpow : (0 : ℝ) < 2 ^ b.settings.maxIterations := pow_pos two_pos _
  have hclose : |target - o.points.estimate| ≤ rate / 2 ^ b.settings.maxIterations := by
    rw [abs_sub_comm]
    refine near.trans (div_le_div_of_nonneg_left rate.coe_nonneg hpow ?_)
    exact pow_le_pow_right₀ one_le_two spent
  cases affords with
  | relative nonzero enough =>
      have hne : ¬(target == 0) = true := fun heq => nonzero (beq_iff_eq.mp heq)
      refine Or.inr (Or.inl ?_)
      rw [normAt, toleranceFor, if_neg hne, if_neg hne, Exact.abs_eq, abs_div,
        div_le_iff₀ (abs_pos.mpr nonzero)]
      refine hclose.trans ((div_le_iff₀ hpow).mpr ?_)
      linarith
  | zero zero enough =>
      subst zero
      have hnorm := (one_le_normAt_zero f s).trans (le_abs_self _)
      refine Or.inr (Or.inl ?_)
      rw [toleranceFor, if_pos (beq_iff_eq.mpr rfl), Exact.abs_eq, abs_div]
      refine (div_le_self (abs_nonneg _) hnorm).trans (hclose.trans ?_)
      rwa [div_le_iff₀ hpow, mul_comm]
  | last enough =>
      refine Or.inr (Or.inr ⟨spent, hclose.trans_lt ?_⟩)
      rwa [div_lt_iff₀ hpow, mul_comm]

/-- For estimates that change at a bounded rate, every answer is as close to the target as its
number of iterations says, and there is an answer if enough iterations are allowed. The estimate
need not rise, as long as its ends have the target between them. -/
theorem solve_of_affords (widening : b.widening ∈ Set.Ioo (0 : ℝ) 1) (ordered : lo ≤ hi)
    (bounded : LipschitzOnWith rate (fun c => (f c).estimate) (Set.Icc 0 1))
    (bottom : (f 0).estimate ≤ target) (top : target ≤ (f 1).estimate) :
    (b.Affords target rate → ∃ outcome, b.solve target lo hi f = .ok outcome) ∧
      ∀ outcome, b.solve target lo hi f = .ok outcome →
        |outcome.points.estimate - target| ≤ rate / 2 ^ outcome.iterations := by
  obtain ⟨lowered, raised, last, searches⟩ := exists_searches one_pos b target lo hi f
  have encloses := encloses_of_halts widening (inside_clamp ordered) searches.lowering
    searches.raising
  have straddles := searches.halving.keeps (fun _ _ => straddles_of_halving)
    (encloses.straddles bottom top)
  have near := straddles.abs_trial_sub_le bounded
  constructor
  · intro affords
    cases hsolve : b.solve target lo hi f with
    | ok outcome => exact ⟨outcome, rfl⟩
    | error e =>
        obtain ⟨_, spent, missed⟩ := (searches.error_iff e).mp hsolve
        exact absurd (hits_of_affords affords spent near) missed
  · intro outcome hsolve
    obtain ⟨rfl, _⟩ := (searches.ok_iff outcome).mp hsolve
    exact near

/-- Four iterations for a quarter of a third, from a bracket that does not hold the target. -/
theorem solve_of_affords_third :
    let f : ℝ → MatchedPoints ℝ := fun c => ⟨c, c, c⟩
    let b : Bisection ℝ := ⟨⟨0, 1 / 4, 0, 4⟩, 1 / 100⟩
    b.widening ∈ Set.Ioo (0 : ℝ) 1 ∧ (1 / 2 : ℝ) ≤ 3 / 4 ∧
      LipschitzOnWith 1 (fun c => (f c).estimate) (Set.Icc 0 1) ∧
      (f 0).estimate ≤ 1 / 3 ∧ 1 / 3 ≤ (f 1).estimate ∧ b.Affords (1 / 3) 1 ∧
      ∃ outcome, b.solve (1 / 3) (1 / 2) (3 / 4) f = .ok outcome ∧
        |outcome.points.estimate - 1 / 3| ≤ 1 / 2 ^ outcome.iterations := by
  intro f b
  have widening : b.widening ∈ Set.Ioo (0 : ℝ) 1 := by
    change (1 / 100 : ℝ) ∈ Set.Ioo (0 : ℝ) 1
    norm_num
  have ordered : (1 / 2 : ℝ) ≤ 3 / 4 := by norm_num
  have bounded : LipschitzOnWith 1 (fun c => (f c).estimate) (Set.Icc 0 1) :=
    LipschitzWith.id.lipschitzOnWith
  have bottom : (f 0).estimate ≤ 1 / 3 := by
    change (0 : ℝ) ≤ 1 / 3
    norm_num
  have top : 1 / 3 ≤ (f 1).estimate := by
    change (1 / 3 : ℝ) ≤ 1
    norm_num
  have affords : b.Affords (1 / 3) 1 := by
    refine .relative (by norm_num) ?_
    change ((1 : NNReal) : ℝ) ≤ 2 ^ 4 * (1 / 4) * |1 / 3|
    norm_num
  obtain ⟨answers, near⟩ := solve_of_affords widening ordered bounded bottom top
  obtain ⟨outcome, hsolve⟩ := answers affords
  exact ⟨widening, ordered, bounded, bottom, top, affords, outcome, hsolve, near outcome hsolve⟩

end Bisection
end AdaptiveTables
