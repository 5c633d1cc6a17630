import AdaptiveTables.Proofs.MixtureDensities

/-!
The density of the unit base. It blends what the two sides contribute along the dependent axis,
while the cumulative distribution mixes the sides whatever the axis is. On a linear axis the density
is the slope of the distribution and integrates to one. On a logarithmic axis it is so only where
the two contributions agree or one is zero. Between two different positive ones it is their weighted
geometric mean, so it falls short of the slope, and integrates to one at most.
-/

namespace AdaptiveTables

open MeasureTheory

/-- Whether the unit base blends the densities of the sides at a value to a geometric mean. -/
def Bin.GeometricAt (b : Bin ℝ) (y : ℝ) : Prop :=
  b.BlendsGeometrically (b.sideDensity .lower y) (b.sideDensity .upper y)

namespace UnitBased

variable {b : Bin ℝ} {y y' : ℝ}

theorem evaluate_eq (proper : b.Proper) (linear : b.scale = .linear)
    (hy : y ∈ Set.Icc b.lowerLimit b.upperLimit) :
    evaluate b .density y =
      b.blendSigned (b.sideDensity .lower y) (b.sideDensity .upper y) / b.middleBase.length := by
  rw [evaluate, proper.isOutside_eq_false hy]
  simp only [Bool.false_eq_true, if_false, Bin.Proper.middle_jacobian_linear linear]
  rfl

theorem evaluate_of_mixed (proper : b.Proper) (linear : b.scale = .linear)
    (hy : y ∈ Set.Icc b.lowerLimit b.upperLimit) (mixed : ¬b.GeometricAt y) :
    evaluate b .density y = b.mixtureDensity y := by
  rw [evaluate_eq proper linear hy,
    Bin.blendSigned_of_mixed (proper.sideDensity_nonneg linear _ _) mixed, Bin.mixtureDensity,
    Bin.Proper.middle_jacobian_linear linear]

theorem evaluate_of_geometric (proper : b.Proper) (linear : b.scale = .linear)
    (hy : y ∈ Set.Icc b.lowerLimit b.upperLimit) (geometric : b.GeometricAt y) :
    evaluate b .density y = b.sideDensity .lower y ^ (1 - b.fraction) *
        b.sideDensity .upper y ^ b.fraction / (b.upperLimit - b.lowerLimit) ∧
      evaluate b .density y < b.mixtureDensity y := by
  rw [evaluate_eq proper linear hy, Bin.blendSigned_of_geometric geometric, Bin.mixtureDensity,
    Bin.Proper.middle_jacobian_linear linear, proper.middleBase_length_linear linear]
  exact ⟨rfl, div_lt_div_of_pos_right (Bin.geometric_lt_mix proper.fraction_mem geometric)
    (sub_pos.mpr proper.lowerLimit_lt_upperLimit)⟩

theorem evaluate_le (proper : b.Proper) (linear : b.scale = .linear)
    (hy : y ∈ Set.Icc b.lowerLimit b.upperLimit) : evaluate b .density y ≤ b.mixtureDensity y := by
  by_cases geometric : b.GeometricAt y
  · exact (evaluate_of_geometric proper linear hy geometric).2.le
  · exact (evaluate_of_mixed proper linear hy geometric).le

theorem evaluate_nonneg (proper : b.Proper) (linear : b.scale = .linear)
    (hy : y ∈ Set.Icc b.lowerLimit b.upperLimit) : 0 ≤ evaluate b .density y := by
  have hside := fun side => proper.sideDensity_nonneg linear side y
  rw [evaluate_eq proper linear hy]
  refine div_nonneg ?_ (proper.length_pos_linear linear .lower).2.le
  by_cases geometric : b.GeometricAt y
  · rw [Bin.blendSigned_of_geometric geometric]
    exact mul_nonneg (Real.rpow_nonneg (hside .lower) _) (Real.rpow_nonneg (hside .upper) _)
  · rw [Bin.blendSigned_of_mixed (hside .lower) geometric, ← b.mix_self 0]
    exact Bin.mix_mono proper.fraction_mem (hside .lower) (hside .upper)

/-- What a side contributes is the slope of a continuous function, so it can be integrated. -/
theorem aemeasurable_sideDensity (proper : b.Proper) (linear : b.scale = .linear) (side : Side) :
    AEMeasurable (b.sideDensity side) (volume.restrict (Set.Ioc b.lowerLimit b.upperLimit)) := by
  have hlength := (proper.length_pos_linear linear side).2
  have hintegrable : IntegrableOn (fun y => b.sideDensity side y / b.middleBase.length)
      (Set.Ioc b.lowerLimit b.upperLimit) := by
    refine intervalIntegral.integrableOn_deriv_of_nonneg (proper.continuousOn_sideCdf side)
      (fun y hy => ?_) fun y _ => div_nonneg (proper.sideDensity_nonneg linear side y) hlength.le
    rw [← Bin.Proper.middle_jacobian_linear linear y]
    exact proper.hasDerivAt_sideCdf side hy
  refine (hintegrable.aestronglyMeasurable.aemeasurable.mul_const b.middleBase.length).congr ?_
  exact ae_of_all _ fun y => div_mul_cancel₀ _ hlength.ne'

theorem aemeasurable_evaluate (proper : b.Proper) (linear : b.scale = .linear) :
    AEMeasurable (evaluate b .density)
      (volume.restrict (Set.Ioc b.lowerLimit b.upperLimit)) := by
  classical
  let blend (q : ℝ × ℝ) : ℝ := if b.BlendsGeometrically q.1 q.2 then
    q.1 ^ (1 - b.fraction) * q.2 ^ b.fraction else (1 - b.fraction) * q.1 + b.fraction * q.2
  have hset : MeasurableSet {q : ℝ × ℝ | b.BlendsGeometrically q.1 q.2} :=
    (MeasurableSet.const _).inter <| (measurableSet_lt measurable_const measurable_fst).inter <|
      (measurableSet_lt measurable_const measurable_snd).inter
        (measurableSet_eq_fun measurable_fst measurable_snd).compl
  have hblend : Measurable blend := by
    refine Measurable.ite hset ?_ ?_
    · exact (measurable_fst.pow_const _).mul (measurable_snd.pow_const _)
    · exact (measurable_fst.const_mul _).add (measurable_snd.const_mul _)
  have hpair := (aemeasurable_sideDensity proper linear .lower).prodMk
    (aemeasurable_sideDensity proper linear .upper)
  refine ((hblend.comp_aemeasurable hpair).div_const b.middleBase.length).congr ?_
  refine (ae_restrict_iff' measurableSet_Ioc).mpr (ae_of_all _ fun y hy => ?_)
  rw [evaluate_eq proper linear (Set.Ioc_subset_Icc_self hy)]
  by_cases geometric : b.GeometricAt y
  · rw [Bin.blendSigned_of_geometric geometric]
    exact congrArg (· / _) (if_pos geometric)
  · rw [Bin.blendSigned_of_mixed (proper.sideDensity_nonneg linear _ _) geometric, Bin.mix_eq]
    exact congrArg (· / _) (if_neg geometric)

/-- The blended density integrates to one at most. -/
theorem integral_evaluate (proper : b.Proper) (linear : b.scale = .linear) :
    IntervalIntegrable (evaluate b .density) volume b.lowerLimit b.upperLimit ∧
      ∫ y in b.lowerLimit..b.upperLimit, evaluate b .density y ≤ 1 := by
  have hends := proper.lowerLimit_lt_upperLimit.le
  obtain ⟨hmixture, hone⟩ := proper.integral_mixtureDensity
  have hintegrable : IntervalIntegrable (evaluate b .density) volume b.lowerLimit b.upperLimit := by
    have hmeasurable := (aemeasurable_evaluate proper linear).aestronglyMeasurable
    rw [← Set.uIoc_of_le hends] at hmeasurable
    refine hmixture.mono_fun' hmeasurable ?_
    rw [Set.uIoc_of_le hends]
    refine (ae_restrict_iff' measurableSet_Ioc).mpr (ae_of_all _ fun y hy => ?_)
    have hmem := Set.Ioc_subset_Icc_self hy
    change |evaluate b .density y| ≤ _
    rw [abs_of_nonneg (evaluate_nonneg proper linear hmem)]
    exact evaluate_le proper linear hmem
  refine ⟨hintegrable, ?_⟩
  rw [← hone]
  exact intervalIntegral.integral_mono_on hends hintegrable hmixture fun y hy =>
    evaluate_le proper linear hy

/-- What the density of the unit base is to its cumulative distribution. -/
structure BlendedDensity (b : Bin ℝ) (low high : ℝ) (F p : ℝ → ℝ) : Prop where
  trapezoid : ∀ y y', low ≤ y → y < y' → y' ≤ high → b.NodeFree y y' → ¬b.GeometricAt y →
    ¬b.GeometricAt y' → F y' - F y = (y' - y) * (p y + p y') / 2
  short : ∀ y y', low ≤ y → y < y' → y' ≤ high → b.NodeFree y y' →
    b.GeometricAt y ∨ b.GeometricAt y' → (y' - y) * (p y + p y') / 2 < F y' - F y
  slope : ∀ y ∈ Set.Ioo low high, ∃ slope, HasDerivAt F slope y ∧
    (¬b.GeometricAt y → p y = slope) ∧ (b.GeometricAt y → p y < slope)
  geometric : ∀ y ∈ Set.Icc low high, b.GeometricAt y →
    p y = b.sideDensity .lower y ^ (1 - b.fraction) * b.sideDensity .upper y ^ b.fraction /
      (high - low)
  integrable : IntervalIntegrable p volume low high
  integral_le : ∫ y in low..high, p y ≤ 1
  integral_eq : b.rule.dependent = .linear → ∫ y in low..high, p y = 1

theorem blendedDensity (proper : b.Proper) (linear : b.scale = .linear) :
    BlendedDensity b b.lowerLimit b.upperLimit b.mixtureCdf (evaluate b .density) where
  trapezoid y y' hy hyy' hy' free mixed mixed' := by
    rw [proper.mixtureCdf_sub linear hy hyy'.le hy' free,
      evaluate_of_mixed proper linear ⟨hy, hyy'.le.trans hy'⟩ mixed,
      evaluate_of_mixed proper linear ⟨hy.trans hyy'.le, hy'⟩ mixed']
  short y y' hy hyy' hy' free geometric := by
    have hmem : y ∈ Set.Icc b.lowerLimit b.upperLimit := ⟨hy, hyy'.le.trans hy'⟩
    have hmem' : y' ∈ Set.Icc b.lowerLimit b.upperLimit := ⟨hy.trans hyy'.le, hy'⟩
    have hsum : evaluate b .density y + evaluate b .density y' <
        b.mixtureDensity y + b.mixtureDensity y' := by
      cases geometric with
      | inl h =>
          have hlt := (evaluate_of_geometric proper linear hmem h).2
          exact add_lt_add_of_lt_of_le hlt (evaluate_le proper linear hmem')
      | inr h =>
          have hlt := (evaluate_of_geometric proper linear hmem' h).2
          exact add_lt_add_of_le_of_lt (evaluate_le proper linear hmem) hlt
    rw [proper.mixtureCdf_sub linear hy hyy'.le hy' free]
    exact div_lt_div_of_pos_right (mul_lt_mul_of_pos_left hsum (sub_pos.mpr hyy')) two_pos
  slope y hy := by
    have hmem := Set.Ioo_subset_Icc_self hy
    exact ⟨b.mixtureDensity y, proper.hasDerivAt_mixtureCdf hy,
      evaluate_of_mixed proper linear hmem,
      fun h => (evaluate_of_geometric proper linear hmem h).2⟩
  geometric y hy h := (evaluate_of_geometric proper linear hy h).1
  integrable := (integral_evaluate proper linear).1
  integral_le := (integral_evaluate proper linear).2
  integral_eq axis := by
    rw [← proper.integral_mixtureDensity.2]
    refine intervalIntegral.integral_congr fun y hy => ?_
    rw [Set.uIcc_of_le proper.lowerLimit_lt_upperLimit.le] at hy
    refine evaluate_of_mixed proper linear hy fun geometric => ?_
    cases axis.symm.trans geometric.1

end UnitBased

namespace BivariateDistribution

variable {grid : PrimaryGrid ℝ (Table ℝ)} {rule : PlaneRule} {settings : EvaluationSettings ℝ}
  {d : BivariateDistribution ℝ} {x low high : ℝ} {i : Nat}
  {lower upper : PrimaryEntry ℝ (Table ℝ)}

/-- The density of the unit base is the derivative of its cumulative distribution except where it
is a geometric mean of the two sides, and there it is less. -/
theorem unitBase_density_of_slope (built : build grid .unitBase rule settings = .ok d)
    (linear : rule.secondary = .linear)
    (tables : ∀ e ∈ grid.entries, ∃ xs ys, Table.ofColumns xs ys = .ok e.item)
    (interior : d.grid.locate x = .ok (.bin i lower upper))
    (hlow : d.conditionalLowerBound x = .ok low) (hhigh : d.conditionalUpperBound x = .ok high) :
    ∃ F p : ℝ → ℝ, (∀ y, d.conditionalCdf x y = .ok (F y)) ∧
      (∀ y, d.conditionalPdf x y = .ok (p y)) ∧
      UnitBased.BlendedDensity (d.bin x i lower upper) low high F p := by
  have bounded : Policy.unitBase ≠ .direct := by decide
  have proper := proper_of_locate built bounded tables interior
  obtain rfl := eq_of_build built
  obtain ⟨rfl, rfl⟩ := limits_of_bounds interior bounded hlow hhigh
  exact ⟨_, _, fun y => conditionalCdf_eq interior y, fun y => quantity_eq interior _ y,
    UnitBased.blendedDensity proper linear⟩

theorem unitBase_density_of_ramped :
    let d := ramped .unitBase .linear
    build rampGrid .unitBase .linear .standard = .ok d ∧ PlaneRule.linear.secondary = .linear ∧
      d.grid.locate 0.5 = .ok (.bin 0 ⟨0, .uniform 1⟩ ⟨1, .ramp⟩) ∧
      d.conditionalLowerBound 0.5 = .ok 0 ∧ d.conditionalUpperBound 0.5 = .ok 1 ∧
      ∃ F p : ℝ → ℝ, (∀ y, d.conditionalCdf 0.5 y = .ok (F y)) ∧
        (∀ y, d.conditionalPdf 0.5 y = .ok (p y)) ∧
        F (1 / 2) - F (1 / 8) = (1 / 2 - 1 / 8) * (p (1 / 8) + p (1 / 2)) / 2 ∧
        ∫ y in (0 : ℝ)..1, p y = 1 := by
  intro d
  have built : build rampGrid .unitBase .linear .standard = .ok d := build_ramped _ rfl rfl
  obtain ⟨hlow, hhigh⟩ := limits_ramped .unitBase .linear (by decide) rfl rfl
  obtain ⟨F, p, hcdf, hpdf, blended⟩ := unitBase_density_of_slope built rfl
    PrimaryGrid.columns_of_rampGrid PrimaryGrid.locate_rampGrid hlow hhigh
  have hbin : d.bin 0.5 0 ⟨0, .uniform 1⟩ ⟨1, .ramp⟩ = rampBin .linear := bin_ramped _ rfl
  rw [hbin] at blended
  have free : (rampBin .linear).NodeFree (1 / 8) (1 / 2) :=
    Bin.nodeFree_rampBin rfl rfl (by norm_num) (by norm_num)
  have mixed : ∀ y, ¬(rampBin .linear).GeometricAt y := fun y h => nomatch h.1
  exact ⟨built, rfl, PrimaryGrid.locate_rampGrid, hlow, hhigh, F, p, hcdf, hpdf,
    blended.trapezoid _ _ (by norm_num) (by norm_num) (by norm_num) free (mixed _) (mixed _),
    blended.integral_eq rfl⟩

/-- On a logarithmic dependent axis the density at the first of two values is the geometric mean of
one and a quarter, and the trapezoid over the density is less than the probability. -/
theorem unitBase_density_falls_short :
    let d := ramped .unitBase logRule
    build rampGrid .unitBase logRule .standard = .ok d ∧ logRule.secondary = .linear ∧
      d.grid.locate 0.5 = .ok (.bin 0 ⟨0, .uniform 1⟩ ⟨1, .ramp⟩) ∧
      d.conditionalLowerBound 0.5 = .ok 0 ∧ d.conditionalUpperBound 0.5 = .ok 1 ∧
      (d.bin 0.5 0 ⟨0, .uniform 1⟩ ⟨1, .ramp⟩).NodeFree (1 / 8) (1 / 2) ∧
      d.conditionalCdf 0.5 (1 / 8) = .ok (9 / 128) ∧ d.conditionalCdf 0.5 (1 / 2) = .ok (3 / 8) ∧
      d.conditionalPdf 0.5 (1 / 8) = .ok (1 / 2) ∧ d.conditionalPdf 0.5 (1 / 2) = .ok 1 ∧
      (3 / 8 - 9 / 128 : ℝ) ≠ (1 / 2 - 1 / 8) * (1 / 2 + 1) / 2 := by
  intro d
  have hlocate : d.grid.locate 0.5 = .ok (.bin 0 ⟨0, .uniform 1⟩ ⟨1, .ramp⟩) :=
    PrimaryGrid.locate_rampGrid
  obtain ⟨hlow, hhigh⟩ := limits_ramped .unitBase logRule (by decide) rfl rfl
  have hbin : d.bin 0.5 0 ⟨0, .uniform 1⟩ ⟨1, .ramp⟩ = rampBin logRule := bin_ramped _ rfl
  have proper : (rampBin logRule).Proper := Bin.proper_rampBin rfl rfl
  have hearly : (1 / 8 : ℝ) ∈ Set.Icc (0 : ℝ) 1 := by norm_num
  have hlate : (1 / 2 : ℝ) ∈ Set.Icc (0 : ℝ) 1 := by norm_num
  have hcdf : ∀ y ∈ Set.Icc (0 : ℝ) 1, d.conditionalCdf 0.5 y = .ok ((y + y ^ 2) / 2) := by
    intro y hy
    rw [conditionalCdf_eq hlocate, hbin]
    exact congrArg Except.ok (Bin.mixtureCdf_rampBin rfl rfl hy)
  have hpdf : ∀ y, d.conditionalPdf 0.5 y =
      .ok (UnitBased.evaluate (rampBin logRule) .density y) := by
    intro y
    rw [← hbin]
    exact quantity_eq hlocate _ y
  have hdensity : ∀ y ∈ Set.Icc (0 : ℝ) 1, UnitBased.evaluate (rampBin logRule) .density y =
      (rampBin logRule).blendSigned 1 (2 * y) := by
    intro y hy
    obtain ⟨hone, htwo⟩ := @Bin.sideDensity_rampBin logRule y rfl rfl hy
    rw [UnitBased.evaluate_eq proper rfl (Bin.mem_rampBin rfl hy), hone, htwo,
      (Bin.lengths_rampBin rfl rfl .lower).2, div_one]
  have hgeometric : (rampBin logRule).blendSigned 1 (2 * (1 / 8)) = 1 / 2 := by
    have hroot : Real.sqrt (2 * (1 / 8)) = 1 / 2 := by
      rw [Real.sqrt_eq_iff_mul_self_eq] <;> norm_num
    rw [Bin.blendSigned_of_geometric ⟨rfl, by norm_num⟩, Real.one_rpow, one_mul, ← hroot,
      Real.sqrt_eq_rpow]
    norm_num [rampBin]
  refine ⟨build_ramped _ rfl rfl, rfl, hlocate, hlow, hhigh, ?_, ?_, ?_, ?_, ?_, by norm_num⟩
  · rw [hbin]
    exact Bin.nodeFree_rampBin rfl rfl hearly.1 hlate.2
  · rw [hcdf _ hearly]
    norm_num
  · rw [hcdf _ hlate]
    norm_num
  · rw [hpdf, hdensity _ hearly, hgeometric]
  · rw [hpdf, hdensity _ hlate, mul_one_div_cancel two_ne_zero, Bin.blendSigned_self]

end BivariateDistribution
end AdaptiveTables
