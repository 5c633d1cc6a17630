import AdaptiveTables.Proofs.MatchedRoundTrip
import AdaptiveTables.Proofs.TableSlopes

/-!
Bins with the same table on both sides. The policies reach the interior of such a bin by blends,
mixtures, unit bases and searches, and all of them fall back to the one table: a blend of a value
with itself is the value, the unit bases of the sides and of the bin are one, and a search starts
at the probability that it looks for.
-/

namespace AdaptiveTables

namespace Bin

variable {b : Bin ℝ} {y : ℝ}

theorem table_eq (same : b.upper = b.lower) (side : Side) : b.table side = b.lower := by
  cases side with
  | lower => rfl
  | upper => exact same

theorem unitBase_eq (same : b.upper = b.lower) (side : Side) :
    b.unitBase side = b.unitBase .lower := by
  cases side with
  | lower => rfl
  | upper => simp only [unitBase, table, same]

namespace Proper

variable (proper : b.Proper)

include proper

theorem covers_of_mem (hy : y ∈ Set.Icc b.lower.lowerBound b.lower.upperBound) :
    b.scale.Covers y :=
  Scale.covers_between (proper.covers_lower .lower) (proper.covers_upper .lower) hy.1 hy.2

variable (same : b.upper = b.lower)

include same

theorem lowerLimit_eq : b.lowerLimit = b.lower.lowerBound := by
  rw [lowerLimit, same]
  exact Scale.blend_self b.fraction (proper.covers_lower .lower)

theorem upperLimit_eq : b.upperLimit = b.lower.upperBound := by
  rw [upperLimit, same]
  exact Scale.blend_self b.fraction (proper.covers_upper .lower)

theorem middleBase_eq : b.middleBase = b.unitBase .lower := by
  rw [Bin.middleBase, proper.lowerLimit_eq same, unitBase_eq same .upper, mix_self]
  rfl

/-- The unit bases of the bin and of a side carry a value to one coordinate and back. -/
theorem sideValue_coordinate (side : Side)
    (hy : y ∈ Set.Icc b.lower.lowerBound b.lower.upperBound) :
    b.sideValue side (b.middleBase.coordinate y) = y := by
  rw [sideValue, unitBase_eq same, proper.middleBase_eq same]
  exact (proper.side_coordinate .lower hy).2

theorem mem_of_inside (hy : y ∈ Set.Ioo b.lowerLimit b.upperLimit) :
    y ∈ Set.Icc b.lower.lowerBound b.lower.upperBound := by
  rw [← proper.lowerLimit_eq same, ← proper.upperLimit_eq same]
  exact Set.Ioo_subset_Icc_self hy

theorem isOutside_of_mem (hy : y ∈ Set.Icc b.lower.lowerBound b.lower.upperBound) :
    b.isOutside y = false := by
  apply proper.isOutside_eq_false
  rwa [proper.lowerLimit_eq same, proper.upperLimit_eq same]

/-- A search that starts between the probabilities of one value starts at one probability. -/
theorem searchBetween_eq {search : Bisection ℝ} {target : ℝ} {f : ℝ → MatchedPoints ℝ}
    (hit : (f (b.lower.cdf y)).estimate = target) :
    b.searchBetween search target y y f = .ok ⟨b.lower.cdf y, f (b.lower.cdf y), 1⟩ := by
  simp only [searchBetween, same, Exact.min_eq, Exact.max_eq, min_self, max_self]
  exact Bisection.solve_of_hit ((proper.sound .lower).cdf_mem y) hit

end Proper
end Bin

/-- A policy answers the queries of a bin as a table answers them. The sampler of the cumulative
points is left out, since it only comes within the tolerances of its search. -/
structure Policy.AnswersLike (p : Policy) (b : Bin ℝ) (t : Table ℝ) : Prop where
  lowerBound : p.lowerBound b = t.lowerBound
  upperBound : p.upperBound b = t.upperBound
  evaluate : ∀ q, ∀ y ∈ Set.Icc t.lowerBound t.upperBound, p.evaluate b q y = .ok (t.quantity q y)
  cdf : ∀ y, p.cdf b y = .ok (t.cdf y)
  sample : p ≠ .cumulativePoints → ∀ u r, (p.sample b u r).map (·.sample) = .ok (t.sample r)

/-- Outside the bounds a cumulative distribution is settled, so it is enough to know it inside. -/
theorem Bin.Proper.cdf_of_inside {b : Bin ℝ} (proper : b.Proper) (same : b.upper = b.lower)
    {C : ℝ → Except (TableError ℝ) ℝ}
    (below : ∀ y, y ≤ b.lowerLimit → C y = .ok 0)
    (above : ∀ y, b.lowerLimit < y → b.upperLimit ≤ y → C y = .ok 1)
    (inside : ∀ y ∈ Set.Ioo b.lowerLimit b.upperLimit, C y = .ok (b.lower.cdf y)) (y : ℝ) :
    C y = .ok (b.lower.cdf y) := by
  cases le_or_gt y b.lowerLimit with
  | inl hle =>
      rw [below y hle, Table.Sound.cdf_of_le (hle.trans_eq (proper.lowerLimit_eq same))]
  | inr hgt =>
      cases le_or_gt b.upperLimit y with
      | inl hge =>
          have hbound : b.lower.upperBound ≤ y := by
            rwa [← proper.upperLimit_eq same]
          have hone : b.lower.cdf y = 1 := (proper.sound .lower).cdf_of_ge hbound
          rw [above y hgt hge, hone]
      | inr hlt => exact inside y ⟨hgt, hlt⟩

theorem Direct.answersLike {b : Bin ℝ} (same : b.upper = b.lower) :
    Policy.direct.AnswersLike b b.lower where
  lowerBound := by
    simp only [Policy.lowerBound, lowerBound, same, Exact.min_eq, min_self]
  upperBound := by
    simp only [Policy.upperBound, upperBound, same, Exact.max_eq, max_self]
  evaluate q y _ := by
    simp only [Policy.evaluate, Direct.evaluate, same, b.blendSigned_self]
  cdf y := by
    simp only [Policy.cdf, Direct.cdf, same, b.blendSigned_self]
  sample _ u r := by
    simp only [Policy.sample, Direct.sample, Bin.table_eq same]
    rfl

section Mixtures

variable {b : Bin ℝ} (proper : b.Proper) (same : b.upper = b.lower)

include proper same

theorem Bin.Proper.mixtureCdf_eq (y : ℝ) : b.mixtureCdf y = b.lower.cdf y := by
  have hcdf := proper.cdf_of_inside same (C := fun y => .ok (b.mixtureCdf y)) (y := y)
    (fun y hle => by rw [mixtureCdf, if_pos hle])
    (fun y hgt hge => by rw [mixtureCdf, if_neg (not_le.mpr hgt), if_pos hge])
    (fun y hy => ?_)
  · exact Except.ok.inj hcdf
  · rw [mixtureCdf, if_neg (not_le.mpr hy.1), if_neg (not_le.mpr hy.2)]
    simp only [mixtureAt, proper.sideValue_coordinate same _ (proper.mem_of_inside same hy), same,
      mix_self]

/-- Both sides give one density, and the two unit bases cancel. -/
theorem Bin.Proper.perUnit_eq (q : Quantity) {y : ℝ}
    (hy : y ∈ Set.Icc b.lower.lowerBound b.lower.upperBound) :
    b.perUnit q .upper (b.sideValue .upper (b.middleBase.coordinate y)) =
        b.perUnit q .lower (b.sideValue .lower (b.middleBase.coordinate y)) ∧
      b.perUnit q .lower (b.sideValue .lower (b.middleBase.coordinate y)) /
        b.middleBase.jacobian y = b.lower.quantity q y := by
  have hjacobian : (b.unitBase .lower).jacobian y ≠ 0 :=
    (proper.unitBase .lower).jacobian_ne_zero (proper.covers_of_mem hy)
  simp only [proper.sideValue_coordinate same _ hy]
  simp only [Bin.perUnit, Bin.table_eq same, Bin.unitBase_eq same .upper,
    proper.middleBase_eq same]
  exact ⟨trivial, mul_div_cancel_right₀ _ hjacobian⟩

theorem Bin.Proper.clamp_eq {y : ℝ} (hy : y ∈ Set.Icc b.lower.lowerBound b.lower.upperBound) :
    Scalar.clamp b.lowerLimit b.upperLimit y = y := by
  rw [proper.lowerLimit_eq same, proper.upperLimit_eq same, Exact.clamp_of_mem hy]

theorem UnitBased.answersLike : Policy.unitBase.AnswersLike b b.lower where
  lowerBound := proper.lowerLimit_eq same
  upperBound := proper.upperLimit_eq same
  evaluate q y hy := by
    obtain ⟨hsides, hdensity⟩ := proper.perUnit_eq same q hy
    simp only [Policy.evaluate, UnitBased.evaluate, proper.isOutside_of_mem same hy,
      Bool.false_eq_true, if_false, hsides, b.blendSigned_self, hdensity]
  cdf y := congrArg Except.ok (proper.mixtureCdf_eq same y)
  sample _ u r := by
    have hrescale : UnitBased.rescale b (b.pick u) (b.lower.sample r) = b.lower.sample r := by
      rw [rescale, Bin.unitBase_eq same, proper.middleBase_eq same]
      exact (proper.side_coordinate .lower ((proper.sound .lower).sample_mem r)).2
    simp only [Policy.sample, UnitBased.sample, Bin.table_eq same, hrescale]
    rfl

theorem CumulativePoints.answersLike : Policy.cumulativePoints.AnswersLike b b.lower where
  lowerBound := proper.lowerLimit_eq same
  upperBound := proper.upperLimit_eq same
  evaluate q y hy := by
    obtain ⟨hsides, hdensity⟩ := proper.perUnit_eq same q hy
    simp only [Policy.evaluate, CumulativePoints.evaluate, proper.isOutside_of_mem same hy,
      Bool.false_eq_true, if_false, proper.clamp_eq same hy, hsides, b.mix_self, hdensity]
  cdf y := congrArg Except.ok (proper.mixtureCdf_eq same y)
  sample h := absurd rfl h

end Mixtures

theorem UnitBaseCorrelated.blendCoordinates_self (b : Bin ℝ) (η : ℝ) :
    blendCoordinates b η η = η := by
  rw [blendCoordinates]
  split
  next => exact Scale.blendOrLinear_self _ _ _
  next => exact b.mix_self η

section Matched

variable {b : Bin ℝ} {y : ℝ} (proper : b.Proper) (same : b.upper = b.lower)
  (positive : b.lower.PositiveInside)

include proper same positive

theorem Bin.Proper.samples_of_cdf (hy : y ∈ Set.Icc b.lower.lowerBound b.lower.upperBound) :
    b.lower.sample (b.lower.cdf y) = y ∧ b.upper.sample (b.lower.cdf y) = y := by
  rw [same, and_self]
  exact (proper.sound .lower).sample_cdf positive hy

theorem Correlated.matching_of_mem (hy : y ∈ Set.Icc b.lower.lowerBound b.lower.upperBound) :
    matching b y = .ok ⟨b.lower.cdf y, pointsAt b (b.lower.cdf y), 1⟩ := by
  obtain ⟨hlower, hupper⟩ := proper.samples_of_cdf same positive hy
  rw [matching_eq]
  apply proper.searchBetween_eq same
  simp only [pointsAt, hlower, hupper]
  exact Scale.blend_self b.fraction (proper.covers_of_mem hy)

theorem Correlated.matchedValues_of_mem
    (hy : y ∈ Set.Icc b.lower.lowerBound b.lower.upperBound) : matchedValues b y = .ok (y, y) := by
  obtain ⟨hlower, hupper⟩ := proper.samples_of_cdf same positive hy
  rw [matchedValues, proper.lowerLimit_eq same, proper.upperLimit_eq same]
  split
  next hle => rw [same, le_antisymm hle hy.1]
  next =>
    split
    next hge => rw [same, le_antisymm hy.2 hge]
    next =>
      rw [matching_of_mem proper same positive hy]
      simp only [bind, Except.bind, pure, Except.pure, pointsAt, hlower, hupper]

theorem Correlated.answersLike : Policy.correlated.AnswersLike b b.lower where
  lowerBound := proper.lowerLimit_eq same
  upperBound := proper.upperLimit_eq same
  evaluate q y hy := by
    simp only [Policy.evaluate, Correlated.evaluate, proper.isOutside_of_mem same hy,
      Bool.false_eq_true, if_false, matchedValues_of_mem proper same positive hy, bind,
      Except.bind, pure, Except.pure, density, same, beq_self_eq_true, if_true]
  cdf := by
    apply proper.cdf_of_inside same
    · intro y hle
      rw [Policy.cdf, Correlated.cdf, if_pos hle]
    · intro y hgt hge
      rw [Policy.cdf, Correlated.cdf, if_neg (not_le.mpr hgt), if_pos hge]
    · intro y hy
      rw [Policy.cdf, Correlated.cdf, if_neg (not_le.mpr hy.1), if_neg (not_le.mpr hy.2),
        matching_of_mem proper same positive (proper.mem_of_inside same hy)]
      rfl
  sample _ u r := by
    simp only [Policy.sample, Correlated.sample, same, beq_self_eq_true, if_true]
    rfl

theorem UnitBaseCorrelated.matching_of_mem
    (hy : y ∈ Set.Icc b.lower.lowerBound b.lower.upperBound) :
    matching b (b.middleBase.coordinate y) =
      .ok ⟨b.lower.cdf y, pointsAt b (b.lower.cdf y), 1⟩ := by
  obtain ⟨hlower, hupper⟩ := proper.samples_of_cdf same positive hy
  have hvalue : ∀ side, (b.unitBase side).value (b.middleBase.coordinate y) = y :=
    fun side => proper.sideValue_coordinate same side hy
  rw [matching, hvalue, hvalue]
  apply proper.searchBetween_eq same
  simp only [pointsAt, hlower, hupper, sideCoordinate, Bin.unitBase_eq same .upper,
    proper.middleBase_eq same, blendCoordinates_self]

theorem UnitBaseCorrelated.exists_matchedValues
    (hy : y ∈ Set.Icc b.lower.lowerBound b.lower.upperBound) :
    ∃ η, matchedValues b y = .ok (η, y, y) := by
  obtain ⟨hlower, hupper⟩ := proper.samples_of_cdf same positive hy
  rw [matchedValues, proper.lowerLimit_eq same, proper.upperLimit_eq same]
  split
  next hle => exact ⟨0, by rw [same, le_antisymm hle hy.1]⟩
  next =>
    split
    next hge => exact ⟨1, by rw [same, le_antisymm hy.2 hge]⟩
    next =>
      refine ⟨b.middleBase.coordinate y, ?_⟩
      simp only [matching_of_mem proper same positive hy, bind, Except.bind, pure, Except.pure,
        pointsAt, hlower, hupper]

theorem UnitBaseCorrelated.answersLike : Policy.unitBaseCorrelated.AnswersLike b b.lower where
  lowerBound := proper.lowerLimit_eq same
  upperBound := proper.upperLimit_eq same
  evaluate q y hy := by
    have hjacobian : (b.unitBase .lower).jacobian y ≠ 0 :=
      (proper.unitBase .lower).jacobian_ne_zero (proper.covers_of_mem hy)
    obtain ⟨η, hmatched⟩ := exists_matchedValues proper same positive hy
    simp only [Policy.evaluate, UnitBaseCorrelated.evaluate, proper.isOutside_of_mem same hy,
      Bool.false_eq_true, if_false, hmatched, bind, Except.bind, pure, Except.pure,
      coordinateDensity, same, Bin.unitBase_eq same .upper, beq_self_eq_true, if_true,
      proper.clamp_eq same hy, proper.middleBase_eq same]
    rw [mul_div_cancel_right₀ _ hjacobian]
  cdf := by
    apply proper.cdf_of_inside same
    · intro y hle
      rw [Policy.cdf, UnitBaseCorrelated.cdf, if_pos hle]
    · intro y hgt hge
      rw [Policy.cdf, UnitBaseCorrelated.cdf, if_neg (not_le.mpr hgt), if_pos hge]
    · intro y hy
      rw [Policy.cdf, UnitBaseCorrelated.cdf, if_neg (not_le.mpr hy.1),
        if_neg (not_le.mpr hy.2),
        matching_of_mem proper same positive (proper.mem_of_inside same hy)]
      rfl
  sample _ u r := by
    have hsample : UnitBaseCorrelated.sample b r = b.lower.sample r := by
      simp only [UnitBaseCorrelated.sample, sideCoordinate, same, Bin.unitBase_eq same .upper,
        blendCoordinates_self, proper.middleBase_eq same]
      exact (proper.side_coordinate .lower ((proper.sound .lower).sample_mem r)).2
    rw [Policy.sample, hsample]
    rfl

end Matched

theorem Table.positiveInside_uniform {width : ℝ} (positive : 0 < width) :
    (uniform width).PositiveInside := by
  intro y hy
  have hmem : y ∈ Set.Icc 0 width := Set.Ioo_subset_Icc_self hy
  rw [evaluate_uniform hmem positive]
  exact one_pos

namespace BivariateDistribution

variable {grid : PrimaryGrid ℝ (Table ℝ)} {policy : Policy} {rule : PlaneRule}
  {settings : EvaluationSettings ℝ} {d : BivariateDistribution ℝ} {x : ℝ} {i : Nat}
  {lower upper : PrimaryEntry ℝ (Table ℝ)}

theorem answersLike_of_locate (built : build grid policy rule settings = .ok d)
    (tables : ∀ e ∈ grid.entries, ∃ xs ys, Table.ofColumns xs ys = .ok e.item)
    (interior : d.grid.locate x = .ok (.bin i lower upper)) (same : upper.item = lower.item)
    (positive : lower.item.PositiveInside) :
    policy.AnswersLike (d.bin x i lower upper) lower.item := by
  have proper (bounded : policy ≠ .direct) : (d.bin x i lower upper).Proper :=
    proper_of_locate built bounded tables interior
  cases policy with
  | direct => exact Direct.answersLike same
  | unitBase => exact UnitBased.answersLike (proper (by decide)) same
  | correlated => exact Correlated.answersLike (proper (by decide)) same positive
  | unitBaseCorrelated => exact UnitBaseCorrelated.answersLike (proper (by decide)) same positive
  | cumulativePoints => exact CumulativePoints.answersLike (proper (by decide)) same

/-- Between two equal tables every policy answers as the one table does. -/
theorem equal_sides_answer_alike (built : build grid policy rule settings = .ok d)
    (tables : ∀ e ∈ grid.entries, ∃ xs ys, Table.ofColumns xs ys = .ok e.item)
    (interior : d.grid.locate x = .ok (.bin i lower upper)) (same : upper.item = lower.item)
    (positive : lower.item.PositiveInside) :
    let t := lower.item
    d.conditionalLowerBound x = .ok t.lowerBound ∧ d.conditionalUpperBound x = .ok t.upperBound ∧
      (∀ y ∈ Set.Icc t.lowerBound t.upperBound,
        d.evaluate x y = .ok (t.evaluate y) ∧ d.conditionalPdf x y = .ok (t.pdf y)) ∧
      (∀ y, d.conditionalCdf x y = .ok (t.cdf y)) ∧
      (policy ≠ .cumulativePoints → ∀ u ∈ Set.Icc (0 : ℝ) 1, ∀ p ∈ Set.Icc (0 : ℝ) 1,
        d.sample x u p = .ok (t.sample p)) := by
  have answers := answersLike_of_locate built tables interior same positive
  obtain rfl := eq_of_build built
  refine ⟨?_, ?_, fun y hy => ⟨?_, ?_⟩, fun y => ?_, fun sampled u hu p hp => ?_⟩
  · rw [conditionalLowerBound_eq interior, answers.lowerBound]
  · rw [conditionalUpperBound_eq interior, answers.upperBound]
  · exact (quantity_eq interior .value y).trans (answers.evaluate .value y hy)
  · exact (quantity_eq interior .density y).trans (answers.evaluate .density y hy)
  · rw [conditionalCdf_eq interior]
    exact answers.cdf y
  · rw [sample_eq interior hu hp]
    exact answers.sample sampled u p

/-- Two entries with the uniform table of width one. -/
noncomputable def levelGrid : PrimaryGrid ℝ (Table ℝ) where
  first := ⟨0.5, .uniform 1⟩
  second := wideEntry
  rest := []
  finite _ _ := rfl
  ascending := by norm_num [firstDescent?, wideEntry]

/-- The rule with curved scales on all three axes. -/
def curvedRule : PlaneRule :=
  { logRule with
    secondary := .nudgedLogCosine
    primary := .logarithmic
    primaryStraight := logRule.dependentStraight }

theorem locate_levelGrid :
    levelGrid.locate 0.75 = .ok (.bin 0 ⟨0.5, .uniform 1⟩ wideEntry) := by
  norm_num [PrimaryGrid.locate, levelGrid, wideEntry, advance, Exact.isNumber_eq]

theorem build_levelGrid :
    build levelGrid .unitBaseCorrelated curvedRule looseSettings =
      .ok ⟨levelGrid, .unitBaseCorrelated, curvedRule, looseSettings⟩ := by
  rw [build, EvaluationSettings.check_looseSettings]
  norm_num [levelGrid, wideEntry, PrimaryGrid.values, PrimaryGrid.entries, curvedRule,
    boundsAdmitted, Scale.admits, Table.lowerBound, Table.upperBound, Table.uniform]

theorem levelGrid_answers_alike :
    let d : BivariateDistribution ℝ :=
      ⟨levelGrid, .unitBaseCorrelated, curvedRule, looseSettings⟩
    build levelGrid .unitBaseCorrelated curvedRule looseSettings = .ok d ∧
      d.grid.locate 0.75 = .ok (.bin 0 ⟨0.5, .uniform 1⟩ wideEntry) ∧
      (Table.uniform 1).PositiveInside ∧
      d.conditionalUpperBound 0.75 = .ok 1 ∧
      d.conditionalPdf 0.75 (1 / 4) = .ok ((Table.uniform 1).pdf (1 / 4)) ∧
      d.conditionalCdf 0.75 (1 / 4) = .ok ((Table.uniform 1).cdf (1 / 4)) ∧
      d.sample 0.75 0 (1 / 4) = .ok ((Table.uniform 1).sample (1 / 4)) := by
  have hcolumns := Table.ofColumns_uniform one_pos
  have columns : ∀ e ∈ levelGrid.entries, ∃ xs ys, Table.ofColumns xs ys = .ok e.item :=
    PrimaryGrid.columns_of_pair rfl ⟨_, _, hcolumns⟩ ⟨_, _, hcolumns⟩
  obtain ⟨_, hupper, hinside, hcdf, hsample⟩ := equal_sides_answer_alike build_levelGrid columns
    locate_levelGrid rfl (Table.positiveInside_uniform one_pos)
  refine ⟨build_levelGrid, locate_levelGrid, Table.positiveInside_uniform one_pos, hupper,
    (hinside (1 / 4) ?_).2, hcdf (1 / 4), ?_⟩
  · change (1 / 4 : ℝ) ∈ Set.Icc 0 1
    norm_num
  · exact hsample (by decide) 0 (by norm_num) (1 / 4) (by norm_num)

end BivariateDistribution
end AdaptiveTables
