import AdaptiveTables.Proofs.MatchedRoundTrip
import AdaptiveTables.Proofs.SearchLoops
import AdaptiveTables.Proofs.SearchSuccess
import AdaptiveTables.Proofs.TableSlopes

/-!
Which values the correlated policy can evaluate, on a linear secondary axis. Matched samples rise
with the probability, but they jump over stretches where one side has no density. A value that is
a limit of samples is answered once enough iterations are allowed, and without such stretches
every value between the limits is one. A value in a jump, farther from every sample than the
tolerances, makes the search give up, however many iterations are allowed.
-/

namespace AdaptiveTables

namespace Table.Sound

variable {t : Table ℝ} {p x : ℝ}

theorem rising_sample (sound : t.Sound) : Rising t.sample := by
  refine ⟨sound.monotone_sample, fun q hq v hv => ?_⟩
  obtain ⟨_, _, _, hbefore⟩ := sound.sample_spec hq.1 hq.2
  refine ⟨t.cdf v, hbefore v hv, fun c hc => not_le.mp fun hle => ?_⟩
  have hpos : 0 < c := lt_of_le_of_lt (sound.cdf_mem v).1 hc.1
  exact absurd ((sound.sample_le_iff hpos (hc.2.trans hq.2)).mp hle) (not_le.mpr hc.1)

theorem sample_lt (sound : t.Sound) (hp : 0 < p) (h : p < t.cdf x) : t.sample p < x := by
  have hone : p < 1 := lt_of_lt_of_le h (sound.cdf_mem x).2
  refine lt_of_le_of_ne ((sound.sample_le_iff hp hone).mpr h.le) fun heq => ?_
  rw [← heq, sound.cdf_sample hp.le hone.le] at h
  exact lt_irrefl p h

/-- Without stretches of zero density the samples fill the domain, so the sampler cannot jump. -/
theorem continuous_sample (sound : t.Sound) (positive : t.PositiveInside) :
    Continuous t.sample := by
  let S : ℝ → Set.Icc t.lowerBound t.upperBound := fun p => ⟨t.sample p, sound.sample_mem p⟩
  have hmono : Monotone S := fun p q hpq => sound.monotone_sample hpq
  have hsurjective : Function.Surjective S := fun x =>
    ⟨t.cdf x, Subtype.ext (sound.sample_cdf positive x.2)⟩
  have hdense : DenselyOrdered (Set.Icc t.lowerBound t.upperBound) := inferInstance
  exact continuous_subtype_val.comp (hmono.continuous_of_surjective hsurjective)

end Table.Sound

namespace Correlated

variable {b : Bin ℝ} {y : ℝ}

theorem rising_estimate (proper : b.Proper) (linear : b.scale = .linear) :
    Rising fun c => (pointsAt b c).estimate := by
  simp only [estimate_pointsAt linear, sample_eq linear]
  exact (proper.sound .lower).rising_sample.mix (proper.sound .upper).rising_sample
    proper.fraction_mem

/-- Up to the lower and below the higher of the probabilities of a value, the samples lie below
the value. -/
theorem estimate_lt (proper : b.Proper) (linear : b.scale = .linear) (hy : b.lowerLimit < y)
    {c : ℝ} (nonneg : 0 ≤ c) (hlow : c ≤ min (b.lower.cdf y) (b.upper.cdf y))
    (hhigh : c < max (b.lower.cdf y) (b.upper.cdf y)) : (pointsAt b c).estimate < y := by
  have sound₀ : b.lower.Sound := proper.sound .lower
  have sound₁ : b.upper.Sound := proper.sound .upper
  obtain ⟨hlow₀, hlow₁⟩ := le_min_iff.mp hlow
  rw [estimate_pointsAt linear]
  cases eq_or_lt_of_le nonneg with
  | inl hzero =>
      rw [← hzero, sample_zero linear]
      exact hy
  | inr positive =>
      have hone : c < 1 :=
        lt_of_lt_of_le hhigh (max_le (sound₀.cdf_mem y).2 (sound₁.cdf_mem y).2)
      have hle₀ := (sound₀.sample_le_iff positive hone).mpr hlow₀
      have hle₁ := (sound₁.sample_le_iff positive hone).mpr hlow₁
      have hrest : 0 < 1 - b.fraction := sub_pos.mpr proper.fraction_mem.2
      have hmix : sample b c =
          (1 - b.fraction) * b.lower.sample c + b.fraction * b.upper.sample c := by
        rw [sample_eq linear]
        ring
      have hvalue : y = (1 - b.fraction) * y + b.fraction * y := by ring
      rw [hmix, hvalue]
      cases lt_max_iff.mp hhigh with
      | inl hlt =>
          exact add_lt_add_of_lt_of_le
            (mul_lt_mul_of_pos_left (sound₀.sample_lt positive hlt) hrest)
            (mul_le_mul_of_nonneg_left hle₁ proper.fraction_mem.1.le)
      | inr hlt =>
          exact add_lt_add_of_le_of_lt (mul_le_mul_of_nonneg_left hle₀ hrest.le)
            (mul_lt_mul_of_pos_left (sound₁.sample_lt positive hlt) proper.fraction_mem.1)

end Correlated

theorem EvaluationSettings.check_withIterations {s : EvaluationSettings ℝ} {n : Nat}
    (checked : s.check = .ok ()) (hn : 0 < n) :
    check { s with maxIterations := n } = .ok () := by
  rw [check] at checked ⊢
  split at checked
  next => cases checked
  next hnone =>
    have hnone' : EvaluationTolerance.all.find? (fun which =>
        !Scalar.inHalfOpenUnit (tolerance { s with maxIterations := n } which)) = none := hnone
    rw [hnone']
    exact if_neg hn.ne'

/-- The bin with another limit of iterations. -/
def Bin.withIterations (b : Bin ℝ) (n : Nat) : Bin ℝ :=
  { b with settings := { b.settings with maxIterations := n } }

namespace Correlated

variable {b : Bin ℝ} {y : ℝ}

/-- A limit of samples is matched once enough iterations are allowed. -/
theorem exists_matching (proper : b.Proper) (linear : b.scale = .linear)
    (tolerant : 0 < b.settings.relativeError) (nonzero : y ≠ 0)
    (hy : y ∈ Set.Ioo b.lowerLimit b.upperLimit)
    (reached : y ∈ closure (sample b '' Set.Ioo 0 1)) :
    ∃ enough, ∀ n ≥ enough, ∃ outcome, matching (b.withIterations n) y = .ok outcome := by
  have hcdf₀ := (proper.sound .lower).cdf_mem y
  have hcdf₁ := (proper.sound .upper).cdf_mem y
  have hestimate : (fun c => (pointsAt b c).estimate) = sample b :=
    funext (estimate_pointsAt linear)
  have hzero : (pointsAt b 0).estimate < y := by
    rw [estimate_pointsAt linear, sample_zero linear]
    exact hy.1
  have hone : y ≤ (pointsAt b 1).estimate := by
    rw [estimate_pointsAt linear, sample_one linear]
    exact hy.2.le
  obtain ⟨enough, solved⟩ := Bisection.exists_solve (f := pointsAt b) (w := 0.1)
    (rising_estimate proper linear) (by norm_num) tolerant nonzero
    (le_min hcdf₀.1 hcdf₁.1) min_le_max (max_le hcdf₀.2 hcdf₁.2) hzero hone
    (fun c => estimate_lt proper linear hy.1) (hestimate ▸ reached)
  refine ⟨enough, fun n hn => ?_⟩
  obtain ⟨outcome, h⟩ := solved ⟨(b.withIterations n).settings, 0.1⟩ rfl rfl hn
  refine ⟨outcome, ?_⟩
  rw [matching_eq, Bin.searchBetween, Exact.min_eq, Exact.max_eq]
  exact h

/-- Between the limits both queries only read the outcome of the search. -/
theorem queries_eq (proper : b.Proper) (hy : y ∈ Set.Ioo b.lowerLimit b.upperLimit) :
    cdf b y = (matching b y).map (·.probability) ∧
      ∀ q, ∃ answer, evaluate b q y = (matching b y).map answer := by
  have hinside := proper.isOutside_eq_false (Set.Ioo_subset_Icc_self hy)
  constructor
  · rw [cdf, if_neg (not_le.mpr hy.1), if_neg (not_le.mpr hy.2)]
    rfl
  · intro q
    refine ⟨fun outcome => density b (Scalar.clamp b.lowerLimit b.upperLimit y)
      outcome.points.lower (b.lower.quantity q outcome.points.lower)
      outcome.points.upper (b.upper.quantity q outcome.points.upper), ?_⟩
    simp only [evaluate, hinside, Bool.false_eq_true, if_false, matchedValues,
      if_neg (not_le.mpr hy.1), if_neg (not_le.mpr hy.2)]
    cases matching b y with
    | ok outcome => rfl
    | error e => rfl

/-- A value that is far from all samples is not matched. -/
theorem matching_of_far (proper : b.Proper) (linear : b.scale = .linear) (nonzero : y ≠ 0)
    (far : ∀ p ∈ Set.Icc (0 : ℝ) 1,
      max (b.settings.relativeError * |y|) b.settings.error < |y - sample b p|) :
    ∃ relative tolerance error, matching b y = .error
      (.convergenceFailure b.settings.maxIterations relative tolerance error b.settings.error) := by
  cases h : matching b y with
  | ok outcome =>
      obtain ⟨hp, hclose⟩ := close_of_matching proper linear nonzero h
      exact absurd hclose (not_le.mpr (far _ hp))
  | error e =>
      rw [matching_eq] at h
      obtain ⟨relative, tolerance, error, rfl⟩ := Bisection.solve_eq_error one_pos h
      exact ⟨relative, tolerance, error, rfl⟩

/-- Without stretches of zero density every value between the limits is a sample. -/
theorem exists_sample_eq (proper : b.Proper) (linear : b.scale = .linear)
    (positive₀ : b.lower.PositiveInside) (positive₁ : b.upper.PositiveInside)
    (hy : y ∈ Set.Ioo b.lowerLimit b.upperLimit) : ∃ p ∈ Set.Ioo (0 : ℝ) 1, sample b p = y := by
  have hcontinuous : Continuous (sample b) := by
    have h₀ := (proper.sound .lower).continuous_sample positive₀
    have h₁ := (proper.sound .upper).continuous_sample positive₁
    rw [funext (sample_eq linear)]
    exact h₀.add ((h₁.sub h₀).mul_const _)
  rw [← sample_zero linear, ← sample_one linear] at hy
  exact intermediate_value_Ioo zero_le_one hcontinuous.continuousOn hy

end Correlated
namespace BivariateDistribution

variable {grid : PrimaryGrid ℝ (Table ℝ)} {policy : Policy} {rule : PlaneRule}
  {settings : EvaluationSettings ℝ} {d : BivariateDistribution ℝ} {x y low high : ℝ} {i n : Nat}
  {lower upper : PrimaryEntry ℝ (Table ℝ)}

/-- The distribution with another limit of iterations. -/
def withIterations (d : BivariateDistribution ℝ) (n : Nat) : BivariateDistribution ℝ :=
  { d with settings := { d.settings with maxIterations := n } }

/-- No check depends on the limit of iterations, as long as there is one. -/
theorem build_withIterations (built : build grid policy rule settings = .ok d) (hn : 0 < n) :
    build grid policy rule { settings with maxIterations := n } = .ok (d.withIterations n) := by
  have hsettings := EvaluationSettings.check_withIterations (checks_of_build built).1 hn
  obtain rfl := eq_of_build built
  rw [build] at built ⊢
  rw [hsettings]
  split at built
  next => cases built
  next =>
    split at built
    next => cases built
    next =>
      split at built
      next => cases built
      next => rfl

/-- Both queries for a value succeed. -/
def Answers (d : BivariateDistribution ℝ) (x y : ℝ) : Prop :=
  (∃ c, d.conditionalCdf x y = .ok c) ∧ ∃ e, d.conditionalPdf x y = .ok e

/-- Both queries for a value run out of iterations. -/
def GivesUp (d : BivariateDistribution ℝ) (x y : ℝ) : Prop :=
  ∃ relative tolerance error,
    let failure := TableError.convergenceFailure d.settings.maxIterations relative tolerance error
      d.settings.error
    d.conditionalCdf x y = .error failure ∧ d.conditionalPdf x y = .error failure

section Inside

variable (built : build grid .correlated rule settings = .ok d)
  (tables : ∀ e ∈ grid.entries, ∃ xs ys, Table.ofColumns xs ys = .ok e.item)
  (interior : d.grid.locate x = .ok (.bin i lower upper))
  (hy : y ∈ Set.Ioo (d.bin x i lower upper).lowerLimit (d.bin x i lower upper).upperLimit)

include built tables interior hy

theorem correlated_queries_eq :
    d.conditionalCdf x y =
        (Correlated.matching (d.bin x i lower upper) y).map (·.probability) ∧
      ∃ answer, d.conditionalPdf x y =
        (Correlated.matching (d.bin x i lower upper) y).map answer := by
  have proper := proper_of_locate built (by decide) tables interior
  obtain ⟨hcdf, hquantity⟩ := Correlated.queries_eq proper hy
  obtain ⟨answer, hdensity⟩ := hquantity .density
  obtain rfl := eq_of_build built
  rw [conditionalCdf_eq interior, conditionalPdf, quantity_eq interior]
  exact ⟨hcdf, answer, hdensity⟩

theorem answers_of_matching {outcome : Bisection.Outcome ℝ}
    (h : Correlated.matching (d.bin x i lower upper) y = .ok outcome) : d.Answers x y := by
  obtain ⟨hcdf, answer, hdensity⟩ := correlated_queries_eq built tables interior hy
  rw [Answers, hcdf, hdensity, h]
  exact ⟨⟨_, rfl⟩, _, rfl⟩

theorem givesUp_of_far (linear : rule.secondary = .linear) (nonzero : y ≠ 0)
    (far : ∀ p ∈ Set.Icc (0 : ℝ) 1, max (settings.relativeError * |y|) settings.error <
      |y - Correlated.sample (d.bin x i lower upper) p|) : d.GivesUp x y := by
  have proper := proper_of_locate built (by decide) tables interior
  obtain ⟨hcdf, answer, hdensity⟩ := correlated_queries_eq built tables interior hy
  obtain rfl := eq_of_build built
  obtain ⟨relative, tolerance, error, h⟩ :=
    Correlated.matching_of_far proper linear nonzero far
  rw [h] at hcdf hdensity
  exact ⟨relative, tolerance, error, hcdf, hdensity⟩

end Inside

/-- A value is answered from some limit of iterations on if it is a limit of samples, and
never if it is far from all of them. -/
theorem correlated_answers_at_limits (built : build grid .correlated rule settings = .ok d)
    (tables : ∀ e ∈ grid.entries, ∃ xs ys, Table.ofColumns xs ys = .ok e.item)
    (linear : rule.secondary = .linear) (tolerant : 0 < settings.relativeError)
    (interior : d.grid.locate x = .ok (.bin i lower upper))
    (hlow : d.conditionalLowerBound x = .ok low) (hhigh : d.conditionalUpperBound x = .ok high)
    (hy : y ∈ Set.Ioo low high) (nonzero : y ≠ 0) :
    (∀ n, 0 < n → build grid .correlated rule { settings with maxIterations := n } =
      .ok (d.withIterations n)) ∧
    (y ∈ closure {s | ∃ p ∈ Set.Ioo (0 : ℝ) 1, d.sampleSingle x p = .ok s} →
      ∃ enough, ∀ n ≥ enough, (d.withIterations n).Answers x y) ∧
    (lower.item.PositiveInside → upper.item.PositiveInside →
      ∃ enough, ∀ n ≥ enough, (d.withIterations n).Answers x y) ∧
    ((∀ p ∈ Set.Icc (0 : ℝ) 1, ∀ s, d.sampleSingle x p = .ok s →
        max (settings.relativeError * |y|) settings.error < |y - s|) →
      ∀ n, 0 < n → (d.withIterations n).GivesUp x y) := by
  have proper := proper_of_locate built (by decide) tables interior
  have rebuilt : ∀ n, 0 < n → build grid .correlated rule { settings with maxIterations := n } =
      .ok (d.withIterations n) := fun n hn => build_withIterations built hn
  obtain rfl := eq_of_build built
  let b := bin ⟨grid, .correlated, rule, settings⟩ x i lower upper
  have hlimits : y ∈ Set.Ioo b.lowerLimit b.upperLimit := by
    have bounded : Policy.correlated ≠ .direct := by decide
    obtain ⟨rfl, rfl⟩ := limits_of_bounds interior bounded hlow hhigh
    exact hy
  have hsampled : ∀ p ∈ Set.Icc (0 : ℝ) 1, sampleSingle ⟨grid, .correlated, rule, settings⟩ x p =
      .ok (Correlated.sample b p) := fun p hp => sampleSingle_eq interior rfl hp
  have hanswers : y ∈ closure (Correlated.sample b '' Set.Ioo 0 1) → ∃ enough, ∀ n ≥ enough,
      (withIterations ⟨grid, .correlated, rule, settings⟩ n).Answers x y := by
    intro reached
    obtain ⟨enough, matched⟩ :=
      Correlated.exists_matching proper linear tolerant nonzero hlimits reached
    refine ⟨enough + 1, fun n hn => ?_⟩
    obtain ⟨outcome, h⟩ := matched n (Nat.le_of_succ_le hn)
    have hpos : 0 < n := Nat.lt_of_lt_of_le (Nat.succ_pos _) hn
    exact answers_of_matching (rebuilt n hpos) tables interior hlimits h
  refine ⟨rebuilt, fun reached => ?_, fun positive₀ positive₁ => ?_, fun far n hn => ?_⟩
  · apply hanswers
    refine closure_mono ?_ reached
    rintro s ⟨p, hp, hs⟩
    rw [hsampled p (Set.Ioo_subset_Icc_self hp)] at hs
    exact ⟨p, hp, Except.ok.inj hs⟩
  · apply hanswers
    exact subset_closure (Correlated.exists_sample_eq proper linear positive₀ positive₁ hlimits)
  · exact givesUp_of_far (rebuilt n hn) tables interior hlimits linear nonzero
      fun p hp => far p hp _ (hsampled p hp)

end BivariateDistribution

namespace Table

/-- A table without density between one half and one. -/
noncomputable def notched : Table ℝ where
  first := ⟨0, 0.5, 0.5, -1, 0⟩
  later := [⟨0.5, 1, 0, 0, 0.125⟩, ⟨1, 1.5, 0, 1, 0.125⟩]
  last := ⟨1.5, 0.5⟩
  total := 0.25

theorem ofColumns_notched : ofColumns [0, 0.5, 1, 1.5] [0.5, 0, 0, 0.5] = .ok notched := by
  have hascending : ([⟨0, 0.5⟩, ⟨0.5, 0⟩, ⟨1, 0⟩, ⟨1.5, 0.5⟩] : List (Knot ℝ)).Pairwise
      (fun k k' => k.abscissa < k'.abscissa) := by
    norm_num
  have hbuilt := ofColumns_of_ascending hascending (by norm_num)
  simp only [List.map] at hbuilt
  rw [hbuilt]
  norm_num [ofKnots, Segment.chain, Segment.area, Segment.between, notched]

theorem cdf_notched {y : ℝ} (hy : y ∈ Set.Icc (0.5 : ℝ) 1) : notched.cdf y = 1 / 2 := by
  have sound := sound_of_ofColumns ofColumns_notched
  have hbounds : notched.lowerBound = 0 ∧ notched.upperBound = 1.5 := ⟨rfl, rfl⟩
  have hends : notched.cdf 0.5 = 1 / 2 ∧ notched.cdf 1 = 1 / 2 := by
    constructor
    · rw [sound.cdf_eq (by norm_num [hbounds.1]) (by norm_num [hbounds.2])]
      norm_num [notched, Segment.integralOver, Segment.holding, advance, Segment.cumulativeAt]
    · rw [sound.cdf_eq (by norm_num [hbounds.1]) (by norm_num [hbounds.2])]
      norm_num [notched, Segment.integralOver, Segment.holding, advance, Segment.cumulativeAt]
  apply le_antisymm
  · exact (sound.monotone_cdf hy.2).trans_eq hends.2
  · exact hends.1.symm.trans_le (sound.monotone_cdf hy.1)

theorem sample_notched_half : notched.sample 0.5 = 0.5 := by
  norm_num [sample, notched, segmentReaching, segments, advance, Segment.abscissaAt, Exact.max_eq,
    Exact.min_eq, Exact.sqrt_eq]

theorem sample_notched {p : ℝ} (hp : p ∈ Set.Icc (0 : ℝ) 1) :
    notched.sample p ≤ 0.5 ∨ 1 ≤ notched.sample p := by
  have sound := sound_of_ofColumns ofColumns_notched
  by_contra hinside
  rw [not_or, not_le, not_le] at hinside
  -- All of the gap has one probability, and its sample is where the gap starts.
  have hhalf : p = 0.5 := by
    rw [← sound.cdf_sample hp.1 hp.2, cdf_notched ⟨hinside.1.le, hinside.2.le⟩]
    norm_num
  rw [hhalf, sample_notched_half] at hinside
  exact lt_irrefl _ hinside.1

end Table

noncomputable def notchedGrid : PrimaryGrid ℝ (Table ℝ) where
  first := ⟨0, .notched⟩
  second := ⟨1, .notched⟩
  rest := []
  finite _ _ := rfl
  ascending := by norm_num [firstDescent?]

namespace BivariateDistribution

noncomputable def notchedMatch : BivariateDistribution ℝ :=
  ⟨notchedGrid, .correlated, .linear, .standard⟩

theorem build_notchedMatch :
    build notchedGrid .correlated .linear .standard = .ok notchedMatch := by
  rw [build, EvaluationSettings.check_standard]
  norm_num [notchedMatch, notchedGrid, PrimaryGrid.values, PrimaryGrid.entries, PlaneRule.linear,
    boundsAdmitted, Scale.admits]

theorem columns_of_notchedGrid (e : PrimaryEntry ℝ (Table ℝ)) (he : e ∈ notchedGrid.entries) :
    ∃ xs ys, Table.ofColumns xs ys = .ok e.item :=
  PrimaryGrid.columns_of_pair rfl ⟨_, _, Table.ofColumns_notched⟩
    ⟨_, _, Table.ofColumns_notched⟩ e he

theorem locate_notchedGrid :
    notchedMatch.grid.locate 0.5 = .ok (.bin 0 ⟨0, .notched⟩ ⟨1, .notched⟩) := by
  norm_num [notchedMatch, PrimaryGrid.locate, notchedGrid, advance, Exact.isNumber_eq]

noncomputable def notchedBin : Bin ℝ := notchedMatch.bin 0.5 0 ⟨0, .notched⟩ ⟨1, .notched⟩

theorem limits_notchedBin : notchedBin.lowerLimit = 0 ∧ notchedBin.upperLimit = 1.5 := by
  norm_num [notchedBin, notchedMatch, Bin.lowerLimit, Bin.upperLimit, Bin.blendSecondary, Bin.scale,
    bin, PlaneRule.linear, Scale.blend, Table.notched, Table.lowerBound, Table.upperBound]

theorem sample_notchedBin (p : ℝ) : Correlated.sample notchedBin p = Table.notched.sample p := by
  simp [Correlated.sample, notchedBin, notchedMatch, bin]

theorem limits_notchedMatch :
    notchedMatch.conditionalLowerBound 0.5 = .ok 0 ∧
      notchedMatch.conditionalUpperBound 0.5 = .ok 1.5 := by
  rw [← limits_notchedBin.1, ← limits_notchedBin.2]
  exact ⟨conditionalLowerBound_eq locate_notchedGrid, conditionalUpperBound_eq locate_notchedGrid⟩

theorem sampleSingle_notchedMatch {p : ℝ} (hp : p ∈ Set.Icc (0 : ℝ) 1) :
    notchedMatch.sampleSingle 0.5 p = .ok (Table.notched.sample p) := by
  rw [← sample_notchedBin]
  exact sampleSingle_eq locate_notchedGrid rfl hp

theorem far_of_notched {s : ℝ} (h : s ≤ 0.5 ∨ 1 ≤ s) :
    max ((EvaluationSettings.standard : EvaluationSettings ℝ).relativeError * |0.75|)
      (EvaluationSettings.standard : EvaluationSettings ℝ).error < |0.75 - s| := by
  have hdistance : 1 / 4 ≤ |0.75 - s| := by
    cases h with
    | inl hle => exact le_trans (by linarith) (le_abs_self _)
    | inr hge => exact le_trans (by linarith) (neg_le_abs _)
  refine lt_of_lt_of_le ?_ hdistance
  norm_num [EvaluationSettings.standard]

theorem notched_answers_at_limits :
    build notchedGrid .correlated .linear .standard = .ok notchedMatch ∧
      notchedMatch.sampleSingle 0.5 0.5 = .ok 0.5 ∧
      (∃ enough, ∀ n ≥ enough, (notchedMatch.withIterations n).Answers 0.5 0.5) ∧
      ∀ n, 0 < n → (notchedMatch.withIterations n).GivesUp 0.5 0.75 := by
  have hsample : notchedMatch.sampleSingle 0.5 0.5 = .ok 0.5 := by
    rw [sampleSingle_notchedMatch (by norm_num), Table.sample_notched_half]
  have htolerant : 0 < (EvaluationSettings.standard : EvaluationSettings ℝ).relativeError := by
    norm_num [EvaluationSettings.standard]
  obtain ⟨_, hlimit, _⟩ := correlated_answers_at_limits build_notchedMatch columns_of_notchedGrid
    rfl htolerant locate_notchedGrid limits_notchedMatch.1 limits_notchedMatch.2
    (show (0.5 : ℝ) ∈ Set.Ioo 0 1.5 by norm_num) (by norm_num)
  obtain ⟨_, _, _, hfar⟩ := correlated_answers_at_limits build_notchedMatch columns_of_notchedGrid
    rfl htolerant locate_notchedGrid limits_notchedMatch.1 limits_notchedMatch.2
    (show (0.75 : ℝ) ∈ Set.Ioo 0 1.5 by norm_num) (by norm_num)
  refine ⟨build_notchedMatch, hsample, hlimit (subset_closure ⟨0.5, by norm_num, hsample⟩),
    hfar fun p hp s hs => ?_⟩
  rw [sampleSingle_notchedMatch hp] at hs
  obtain rfl := Except.ok.inj hs
  exact far_of_notched (Table.sample_notched hp)

/-- In the middle of the gap both queries run out of iterations, whatever the limit. -/
theorem notched_gives_up :
    Table.ofColumns [0, 0.5, 1, 1.5] [0.5, 0, 0, 0.5] = .ok Table.notched ∧
      notchedMatch.grid.locate 0.5 = .ok (.bin 0 ⟨0, .notched⟩ ⟨1, .notched⟩) ∧
      notchedMatch.conditionalLowerBound 0.5 = .ok 0 ∧
      notchedMatch.conditionalUpperBound 0.5 = .ok 1.5 ∧
      ∀ n, 0 < n →
        build notchedGrid .correlated .linear { EvaluationSettings.standard with
          maxIterations := n } = .ok (notchedMatch.withIterations n) ∧
        (notchedMatch.withIterations n).GivesUp 0.5 0.75 := by
  refine ⟨Table.ofColumns_notched, locate_notchedGrid, limits_notchedMatch.1,
    limits_notchedMatch.2, fun n hn => ?_⟩
  have hbuilt := build_withIterations build_notchedMatch hn
  have hlimits : (0.75 : ℝ) ∈ Set.Ioo notchedBin.lowerLimit notchedBin.upperLimit := by
    norm_num [limits_notchedBin]
  refine ⟨hbuilt, givesUp_of_far hbuilt columns_of_notchedGrid locate_notchedGrid hlimits rfl
    (by norm_num) fun p hp => ?_⟩
  have hsample : Correlated.sample
      ((notchedMatch.withIterations n).bin 0.5 0 ⟨0, .notched⟩ ⟨1, .notched⟩) p =
        Table.notched.sample p := sample_notchedBin p
  rw [hsample]
  exact far_of_notched (Table.sample_notched hp)

end BivariateDistribution
end AdaptiveTables
