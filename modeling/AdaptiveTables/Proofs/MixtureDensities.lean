import AdaptiveTables.Proofs.DirectMixtures
import AdaptiveTables.Proofs.TableSlopes

/-!
Densities of mixtures on the unit base. Each side contributes its density per unit of its own
coordinate, and the mixture of both over the Jacobian of the bin's own grid is the slope of the
mixed cumulative distribution. On a linear secondary scale that slope is itself linear between the
nodes of both sides, so the distribution gains the area of a trapezoid from one value to the next.
The cumulative points have this very mixture as their density.
-/

namespace AdaptiveTables

open MeasureTheory

namespace Bin

/-- The value of a side at the unit coordinate that a value has on the bin's own grid. -/
noncomputable def onSide (b : Bin ℝ) (side : Side) (y : ℝ) : ℝ :=
  b.sideValue side (b.middleBase.coordinate y)

/-- The density of a side per unit of its coordinate, where the bin's own grid has a value. -/
noncomputable def sideDensity (b : Bin ℝ) (side : Side) (y : ℝ) : ℝ :=
  b.perUnit .density side (b.onSide side y)

noncomputable def mixtureDensity (b : Bin ℝ) (y : ℝ) : ℝ :=
  b.mix (b.sideDensity .lower y) (b.sideDensity .upper y) / b.middleBase.jacobian y

/-- No node of either side is carried strictly between two values of the bin's own grid. -/
def NodeFree (b : Bin ℝ) (y y' : ℝ) : Prop :=
  ∀ side, ∀ n ∈ (b.table side).independent, UnitBased.rescale b side n ∉ Set.Ioo y y'

namespace Proper

variable {b : Bin ℝ} {y y' : ℝ} {side : Side}

theorem middle_coordinate_mem (proper : b.Proper) (hy : y ∈ Set.Icc b.lowerLimit b.upperLimit) :
    b.middleBase.coordinate y ∈ Set.Icc (0 : ℝ) 1 ∧
      b.middleBase.value (b.middleBase.coordinate y) = y := by
  rw [← proper.middleBase_value_one] at hy
  exact ⟨proper.middleBase.coordinate_mem hy, proper.middleBase.value_coordinate hy⟩

theorem strictMonoOn_onSide (proper : b.Proper) (side : Side) :
    StrictMonoOn (b.onSide side) (Set.Icc b.lowerLimit b.upperLimit) := by
  intro y hy y' hy' hlt
  obtain ⟨hη, hvalue⟩ := proper.middle_coordinate_mem hy
  obtain ⟨hη', hvalue'⟩ := proper.middle_coordinate_mem hy'
  rw [← hvalue, ← hvalue', proper.middleBase.strictMonoOn_value.lt_iff_lt hη.1 hη'.1] at hlt
  exact (proper.unitBase side).value_lt_value hη.1 hlt

theorem onSide_lowerLimit (proper : b.Proper) (side : Side) :
    b.onSide side b.lowerLimit = (b.table side).lowerBound := by
  have hvalue : b.middleBase.value 0 = b.lowerLimit := proper.middleBase.value_zero
  rw [onSide, ← hvalue, proper.middleBase.coordinate_value ⟨le_refl 0, zero_le_one⟩]
  exact (proper.unitBase side).value_zero

theorem onSide_upperLimit (proper : b.Proper) (side : Side) :
    b.onSide side b.upperLimit = (b.table side).upperBound := by
  rw [onSide, ← proper.middleBase_value_one,
    proper.middleBase.coordinate_value ⟨zero_le_one, le_refl 1⟩]
  exact proper.unitBase_value_one side

theorem onSide_mem (proper : b.Proper) (side : Side)
    (hy : y ∈ Set.Icc b.lowerLimit b.upperLimit) :
    b.onSide side y ∈ Set.Icc (b.table side).lowerBound (b.table side).upperBound := by
  have hends := proper.lowerLimit_lt_upperLimit.le
  rw [← proper.onSide_lowerLimit, ← proper.onSide_upperLimit]
  have monotone := (proper.strictMonoOn_onSide side).monotoneOn
  exact ⟨monotone ⟨le_refl _, hends⟩ hy hy.1, monotone hy ⟨hends, le_refl _⟩ hy.2⟩

theorem onSide_mem_Ioo (proper : b.Proper) (side : Side)
    (hy : y ∈ Set.Ioo b.lowerLimit b.upperLimit) :
    b.onSide side y ∈ Set.Ioo (b.table side).lowerBound (b.table side).upperBound := by
  have hends := proper.lowerLimit_lt_upperLimit.le
  rw [← proper.onSide_lowerLimit, ← proper.onSide_upperLimit]
  have strictMono := proper.strictMonoOn_onSide side
  exact ⟨strictMono ⟨le_refl _, hends⟩ (Set.Ioo_subset_Icc_self hy) hy.1,
    strictMono (Set.Ioo_subset_Icc_self hy) ⟨hends, le_refl _⟩ hy.2⟩

/-- The mixture at a value of the bin's own grid, at the limits too. -/
theorem mixtureCdf_between_limits (proper : b.Proper) (hy : y ∈ Set.Icc b.lowerLimit b.upperLimit) :
    b.mixtureCdf y = b.mix (b.lower.cdf (b.onSide .lower y)) (b.upper.cdf (b.onSide .upper y)) := by
  obtain ⟨hη, hvalue⟩ := proper.middle_coordinate_mem hy
  have hmixture := proper.mixtureCdf_value hη
  rw [hvalue] at hmixture
  exact hmixture

theorem mixtureCdf_of_le (h : y ≤ b.lowerLimit) : b.mixtureCdf y = 0 := if_pos h

theorem mixtureCdf_of_ge (proper : b.Proper) (h : b.upperLimit ≤ y) : b.mixtureCdf y = 1 := by
  rw [mixtureCdf, if_neg (not_le.mpr (proper.lowerLimit_lt_upperLimit.trans_le h)), if_pos h]

theorem mixtureCdf_mem (proper : b.Proper) (y : ℝ) : b.mixtureCdf y ∈ Set.Icc (0 : ℝ) 1 := by
  rcases le_or_gt y b.lowerLimit with hle | hgt
  · rw [mixtureCdf_of_le hle]
    exact ⟨le_refl 0, zero_le_one⟩
  rcases le_or_gt b.upperLimit y with hge | hlt
  · rw [proper.mixtureCdf_of_ge hge]
    exact ⟨zero_le_one, le_refl 1⟩
  · rw [proper.mixtureCdf_between_limits ⟨hgt.le, hlt.le⟩, ← b.mix_self 0, ← b.mix_self 1]
    have hlower := (proper.sound .lower).cdf_mem (b.onSide .lower y)
    have hupper := (proper.sound .upper).cdf_mem (b.onSide .upper y)
    exact ⟨mix_mono proper.fraction_mem hlower.1 hupper.1,
      mix_mono proper.fraction_mem hlower.2 hupper.2⟩

theorem monotone_mixtureCdf (proper : b.Proper) : Monotone b.mixtureCdf := by
  intro y y' hle
  rcases le_or_gt y b.lowerLimit with hlow | hlow
  · rw [mixtureCdf_of_le hlow]
    exact (proper.mixtureCdf_mem y').1
  rcases le_or_gt b.upperLimit y' with hhigh | hhigh
  · rw [proper.mixtureCdf_of_ge hhigh]
    exact (proper.mixtureCdf_mem y).2
  · have hy : y ∈ Set.Icc b.lowerLimit b.upperLimit := ⟨hlow.le, hle.trans hhigh.le⟩
    have hy' : y' ∈ Set.Icc b.lowerLimit b.upperLimit := ⟨hlow.le.trans hle, hhigh.le⟩
    rw [proper.mixtureCdf_between_limits hy, proper.mixtureCdf_between_limits hy']
    exact mix_mono proper.fraction_mem
      ((proper.sound .lower).monotone_cdf ((proper.strictMonoOn_onSide _).monotoneOn hy hy' hle))
      ((proper.sound .upper).monotone_cdf ((proper.strictMonoOn_onSide _).monotoneOn hy hy' hle))

theorem onSide_eq (proper : b.Proper) (side : Side) (hy : y ∈ Set.Icc b.lowerLimit b.upperLimit) :
    b.onSide side y = b.scale.inverse (b.scale.transform (b.table side).lowerBound +
      (b.unitBase side).length *
        ((b.scale.transform y - b.scale.transform b.lowerLimit) / b.middleBase.length)) := by
  obtain ⟨hη, _⟩ := proper.middle_coordinate_mem hy
  rw [← proper.middleBase_value_one] at hy
  have hcoordinate := proper.middleBase.coordinate_of_mem hy
  rw [onSide, sideValue, (proper.unitBase side).value_eq hη.1, hcoordinate]
  rfl

theorem hasDerivAt_onSide (proper : b.Proper) (side : Side)
    (hy : y ∈ Set.Ioo b.lowerLimit b.upperLimit) :
    HasDerivAt (b.onSide side)
      ((b.unitBase side).jacobian (b.onSide side y) / b.middleBase.jacobian y) y := by
  have hinside := Set.Ioo_subset_Icc_self hy
  have htransform := Scale.hasDerivAt_transform (proper.covers_between_limits hinside)
  have harrived := (((htransform.sub_const (b.scale.transform b.lowerLimit)).div_const
    b.middleBase.length).const_mul (b.unitBase side).length).const_add
      (b.scale.transform (b.table side).lowerBound)
  have hslope := (b.scale.hasDerivAt_inverse _).comp y harrived
  refine (hslope.congr_of_eventuallyEq ?_).congr_deriv ?_
  · filter_upwards [Ioo_mem_nhds hy.1 hy.2] with z hz using
      proper.onSide_eq side (Set.Ioo_subset_Icc_self hz)
  · rw [← proper.onSide_eq side hinside]
    change b.scale.inverseDeriv (b.onSide side y) *
      ((b.unitBase side).length * ((b.scale.inverseDeriv y)⁻¹ / b.middleBase.length)) =
        (b.unitBase side).length * b.scale.inverseDeriv (b.onSide side y) /
          (b.middleBase.length * b.scale.inverseDeriv y)
    rw [mul_comm, mul_div_mul_comm]
    ring

theorem hasDerivAt_sideCdf (proper : b.Proper) (side : Side)
    (hy : y ∈ Set.Ioo b.lowerLimit b.upperLimit) :
    HasDerivAt (fun z => (b.table side).cdf (b.onSide side z))
      (b.sideDensity side y / b.middleBase.jacobian y) y := by
  obtain ⟨hlower, hupper⟩ := proper.onSide_mem_Ioo side hy
  refine (((proper.sound side).hasDerivAt_cdf hlower hupper).comp y
    (proper.hasDerivAt_onSide side hy)).congr_deriv ?_
  change _ = (b.table side).pdf (b.onSide side y) *
    (b.unitBase side).jacobian (b.onSide side y) / b.middleBase.jacobian y
  ring

theorem hasDerivAt_mixtureCdf (proper : b.Proper) (hy : y ∈ Set.Ioo b.lowerLimit b.upperLimit) :
    HasDerivAt b.mixtureCdf (b.mixtureDensity y) y := by
  have hmixed := ((proper.hasDerivAt_sideCdf .lower hy).const_mul (1 - b.fraction)).add
    ((proper.hasDerivAt_sideCdf .upper hy).const_mul b.fraction)
  refine (hmixed.congr_of_eventuallyEq ?_).congr_deriv ?_
  · filter_upwards [Ioo_mem_nhds hy.1 hy.2] with z hz using
      (proper.mixtureCdf_between_limits (Set.Ioo_subset_Icc_self hz)).trans (b.mix_eq _ _)
  · rw [mixtureDensity, mix_eq]
    ring

theorem continuousOn_sideCdf (proper : b.Proper) (side : Side) :
    ContinuousOn (fun z => (b.table side).cdf (b.onSide side z))
      (Set.Icc b.lowerLimit b.upperLimit) := by
  have htransform : ContinuousOn b.scale.transform (Set.Icc b.lowerLimit b.upperLimit) :=
    fun z hz => (Scale.hasDerivAt_transform
      (proper.covers_between_limits hz)).continuousAt.continuousWithinAt
  have hinverse : Continuous b.scale.inverse :=
    continuous_iff_continuousAt.mpr fun t => (b.scale.hasDerivAt_inverse t).continuousAt
  have honSide : ContinuousOn (b.onSide side) (Set.Icc b.lowerLimit b.upperLimit) := by
    refine ContinuousOn.congr (hinverse.comp_continuousOn ?_) fun z hz => proper.onSide_eq side hz
    exact continuousOn_const.add (continuousOn_const.mul
      ((htransform.sub continuousOn_const).div_const _))
  exact (proper.sound side).continuousOn_cdf.comp honSide fun z hz => proper.onSide_mem side hz

theorem continuousOn_mixtureCdf (proper : b.Proper) :
    ContinuousOn b.mixtureCdf (Set.Icc b.lowerLimit b.upperLimit) := by
  refine ContinuousOn.congr ?_ fun z hz =>
    (proper.mixtureCdf_between_limits hz).trans (b.mix_eq _ _)
  exact (continuousOn_const.mul (proper.continuousOn_sideCdf .lower)).add
    (continuousOn_const.mul (proper.continuousOn_sideCdf .upper))

/-- The density of the mixture integrates to one. -/
theorem integral_mixtureDensity (proper : b.Proper) :
    IntervalIntegrable b.mixtureDensity volume b.lowerLimit b.upperLimit ∧
      ∫ y in b.lowerLimit..b.upperLimit, b.mixtureDensity y = 1 := by
  have hends := proper.lowerLimit_lt_upperLimit.le
  have hderiv : ∀ y ∈ Set.Ioo b.lowerLimit b.upperLimit,
      HasDerivAt b.mixtureCdf (b.mixtureDensity y) y := fun y hy => proper.hasDerivAt_mixtureCdf hy
  have hintegrable : IntervalIntegrable b.mixtureDensity volume b.lowerLimit b.upperLimit :=
    (intervalIntegrable_iff_integrableOn_Ioc_of_le hends).mpr
      (intervalIntegral.integrableOn_deriv_of_nonneg proper.continuousOn_mixtureCdf hderiv
        fun y hy => (hderiv y hy).nonneg_of_monotone proper.monotone_mixtureCdf)
  refine ⟨hintegrable, ?_⟩
  rw [intervalIntegral.integral_eq_sub_of_hasDerivAt_of_le hends proper.continuousOn_mixtureCdf
    hderiv hintegrable, proper.mixtureCdf_of_ge (le_refl _), mixtureCdf_of_le (le_refl _), sub_zero]

theorem not_between_of_nodeFree (proper : b.Proper) (free : b.NodeFree y y')
    (hy : y ∈ Set.Icc b.lowerLimit b.upperLimit) (hy' : y' ∈ Set.Icc b.lowerLimit b.upperLimit)
    (side : Side) :
    ∀ n ∈ (b.table side).independent, n ∉ Set.Ioo (b.onSide side y) (b.onSide side y') := by
  intro n hn ⟨hlt, hlt'⟩
  have hmem : n ∈ Set.Icc (b.table side).lowerBound (b.table side).upperBound :=
    ⟨(proper.onSide_mem side hy).1.trans hlt.le, hlt'.le.trans (proper.onSide_mem side hy').2⟩
  obtain ⟨hσ, hback⟩ := proper.side_coordinate side hmem
  obtain ⟨hη, hvalue⟩ := proper.middle_coordinate_mem hy
  obtain ⟨hη', hvalue'⟩ := proper.middle_coordinate_mem hy'
  have strictMono := (proper.unitBase side).strictMonoOn_value
  rw [← hback] at hlt hlt'
  refine free side n hn ⟨?_, ?_⟩
  · rw [← hvalue]
    exact proper.middleBase.value_lt_value hη.1 ((strictMono.lt_iff_lt hη.1 hσ.1).mp hlt)
  · rw [← hvalue']
    exact proper.middleBase.value_lt_value hσ.1 ((strictMono.lt_iff_lt hσ.1 hη'.1).mp hlt')

theorem middle_jacobian_linear (linear : b.scale = .linear) (y : ℝ) :
    b.middleBase.jacobian y = b.middleBase.length := by
  change b.middleBase.length * b.scale.inverseDeriv y = _
  rw [linear]
  exact mul_one _

theorem side_jacobian_linear (linear : b.scale = .linear) (side : Side) (y : ℝ) :
    (b.unitBase side).jacobian y = (b.unitBase side).length := by
  change (b.unitBase side).length * b.scale.inverseDeriv y = _
  rw [linear]
  exact mul_one _

theorem onSide_sub (proper : b.Proper) (linear : b.scale = .linear) (side : Side)
    (hy : y ∈ Set.Icc b.lowerLimit b.upperLimit) (hy' : y' ∈ Set.Icc b.lowerLimit b.upperLimit) :
    b.onSide side y' - b.onSide side y =
      (y' - y) * ((b.unitBase side).length / b.middleBase.length) := by
  rw [proper.onSide_eq side hy, proper.onSide_eq side hy', linear]
  simp only [Scale.inverse, Scale.transform]
  ring

/-- On a linear scale the mixture gains the area of a trapezoid between two nodes. -/
theorem mixtureCdf_sub (proper : b.Proper) (linear : b.scale = .linear)
    (hy : b.lowerLimit ≤ y) (hyy' : y ≤ y') (hy' : y' ≤ b.upperLimit) (free : b.NodeFree y y') :
    b.mixtureCdf y' - b.mixtureCdf y =
      (y' - y) * (b.mixtureDensity y + b.mixtureDensity y') / 2 := by
  have hmem : y ∈ Set.Icc b.lowerLimit b.upperLimit := ⟨hy, hyy'.trans hy'⟩
  have hmem' : y' ∈ Set.Icc b.lowerLimit b.upperLimit := ⟨hy.trans hyy', hy'⟩
  have hside : ∀ side, (b.table side).cdf (b.onSide side y') -
      (b.table side).cdf (b.onSide side y) =
        (y' - y) * ((b.sideDensity side y + b.sideDensity side y') / b.middleBase.length) / 2 := by
    intro side
    rw [(proper.sound side).cdf_sub (proper.onSide_mem side hmem).1
      ((proper.strictMonoOn_onSide side).monotoneOn hmem hmem' hyy')
      (proper.onSide_mem side hmem').2 (proper.not_between_of_nodeFree free hmem hmem' side),
      proper.onSide_sub linear side hmem hmem', sideDensity, sideDensity, perUnit, perUnit,
      side_jacobian_linear linear, side_jacobian_linear linear]
    simp only [Table.quantity]
    ring
  have hlower := hside .lower
  have hupper := hside .upper
  simp only [table] at hlower hupper
  rw [proper.mixtureCdf_between_limits hmem, proper.mixtureCdf_between_limits hmem',
    mixtureDensity, mixtureDensity, middle_jacobian_linear linear, middle_jacobian_linear linear]
  simp only [mix_eq]
  calc _ = (1 - b.fraction) * (b.lower.cdf (b.onSide .lower y') - b.lower.cdf (b.onSide .lower y)) +
        b.fraction * (b.upper.cdf (b.onSide .upper y') - b.upper.cdf (b.onSide .upper y)) := by ring
    _ = _ := by
      rw [hlower, hupper]
      ring

theorem length_pos_linear (proper : b.Proper) (linear : b.scale = .linear) (side : Side) :
    0 < (b.unitBase side).length ∧ 0 < b.middleBase.length := by
  have hside := (proper.unitBase side).length_pos
  have hmiddle := proper.middleBase.length_pos
  have hsign : b.scale.sign = 1 := by
    rw [linear]
    rfl
  change 0 < b.scale.sign * _ at hside hmiddle
  rw [hsign, one_mul] at hside hmiddle
  exact ⟨hside, hmiddle⟩

theorem middleBase_length_linear (proper : b.Proper) (linear : b.scale = .linear) :
    b.middleBase.length = b.upperLimit - b.lowerLimit := by
  have hspan := proper.length_limits
  rw [linear] at hspan
  exact hspan.symm

theorem sideDensity_nonneg (proper : b.Proper) (linear : b.scale = .linear) (side : Side) (y : ℝ) :
    0 ≤ b.sideDensity side y := by
  rw [sideDensity, perUnit, side_jacobian_linear linear]
  exact mul_nonneg ((proper.sound side).pdf_nonneg _) (proper.length_pos_linear linear side).1.le

end Proper
end Bin

/-- Where the only nodes of a side are its bounds, none is carried strictly between the limits. -/
theorem Bin.Proper.nodeFree_of_bounds {b : Bin ℝ} (proper : b.Proper) {y y' : ℝ}
    (bounds : ∀ side, ∀ n ∈ (b.table side).independent,
      n = (b.table side).lowerBound ∨ n = (b.table side).upperBound)
    (hy : b.lowerLimit ≤ y) (hy' : y' ≤ b.upperLimit) : b.NodeFree y y' := by
  intro side n hn hmem
  have unitBase := proper.unitBase side
  cases bounds side n hn with
  | inl hlower =>
      have hcarried : UnitBased.rescale b side n = b.lowerLimit := by
        have hzero : (b.unitBase side).value 0 = n := unitBase.value_zero.trans hlower.symm
        rw [UnitBased.rescale, ← hzero, unitBase.coordinate_value ⟨le_refl 0, zero_le_one⟩]
        exact proper.middleBase.value_zero
      exact absurd (hcarried ▸ hmem.1) (not_lt.mpr hy)
  | inr hupper =>
      have hcarried : UnitBased.rescale b side n = b.upperLimit := by
        have hone : (b.unitBase side).value 1 = n :=
          (proper.unitBase_value_one side).trans hupper.symm
        rw [UnitBased.rescale, ← hone, unitBase.coordinate_value ⟨zero_le_one, le_refl 1⟩,
          proper.middleBase_value_one]
      exact absurd (hcarried ▸ hmem.2) (not_lt.mpr hy')

namespace Table

/-- The table whose density rises from zero to two over the unit interval. -/
noncomputable def ramp : Table ℝ := ⟨⟨0, 1, 0, 2.0, 0⟩, [], ⟨1, 2.0⟩, 1⟩

theorem ofColumns_ramp : ofColumns [0, 1] [0, 2] = .ok ramp := by
  have hascending : ([⟨0, 0⟩, ⟨1, 2⟩] : List (Knot ℝ)).Pairwise
      (fun k k' => k.abscissa < k'.abscissa) := by
    simp
  have hbuilt := ofColumns_of_ascending hascending (by norm_num)
  simp only [List.map] at hbuilt
  rw [hbuilt]
  norm_num [ofKnots, Segment.chain, Segment.area, Segment.between, ramp]

theorem cdf_ramp {y : ℝ} (hy : y ∈ Set.Icc (0 : ℝ) 1) : ramp.cdf y = y ^ 2 := by
  rw [(sound_of_ofColumns ofColumns_ramp).cdf_eq hy.1 hy.2]
  norm_num [ramp, Segment.integralOver, Segment.holding, advance, Segment.cumulativeAt]
  ring

theorem pdf_ramp {y : ℝ} (hy : y ∈ Set.Icc (0 : ℝ) 1) : ramp.pdf y = 2 * y := by
  rw [pdf, (sound_of_ofColumns ofColumns_ramp).evaluate_eq hy.1 hy.2]
  norm_num [ramp, normalisation, Segment.densityOver, Segment.holding, advance, Segment.densityAt]

end Table

noncomputable def rampGrid : PrimaryGrid ℝ (Table ℝ) where
  first := ⟨0, .uniform 1⟩
  second := ⟨1, .ramp⟩
  rest := []
  finite _ _ := rfl
  ascending := by norm_num [firstDescent?]

theorem PrimaryGrid.columns_of_rampGrid (e : PrimaryEntry ℝ (Table ℝ)) (he : e ∈ rampGrid.entries) :
    ∃ xs ys, Table.ofColumns xs ys = .ok e.item :=
  columns_of_pair rfl ⟨_, _, Table.ofColumns_uniform one_pos⟩ ⟨_, _, Table.ofColumns_ramp⟩ e he

theorem PrimaryGrid.locate_rampGrid :
    rampGrid.locate 0.5 = .ok (.bin 0 ⟨0, .uniform 1⟩ ⟨1, .ramp⟩) := by
  norm_num [locate, rampGrid, advance, Exact.isNumber_eq]

noncomputable def rampBin (rule : PlaneRule) : Bin ℝ :=
  ⟨.uniform 1, .ramp, 0, 0.5, rule, .standard⟩

namespace BivariateDistribution

variable {rule : PlaneRule}

noncomputable def ramped (policy : Policy) (rule : PlaneRule) : BivariateDistribution ℝ :=
  ⟨rampGrid, policy, rule, .standard⟩

theorem build_ramped (policy : Policy) (primary : rule.primary = .linear)
    (secondary : rule.secondary = .linear) :
    build rampGrid policy rule .standard = .ok (ramped policy rule) := by
  rw [build, EvaluationSettings.check_standard]
  norm_num [ramped, rampGrid, PrimaryGrid.values, PrimaryGrid.entries, primary, secondary,
    boundsAdmitted, Scale.admits]

theorem bin_ramped (policy : Policy) (primary : rule.primary = .linear) :
    (ramped policy rule).bin 0.5 0 ⟨0, .uniform 1⟩ ⟨1, .ramp⟩ = rampBin rule := by
  norm_num [bin, ramped, rampBin, primary, Scale.fraction, Scale.transform]

end BivariateDistribution

namespace Bin

variable {rule : PlaneRule} {y y' : ℝ}

theorem proper_rampBin (primary : rule.primary = .linear) (secondary : rule.secondary = .linear) :
    (rampBin rule).Proper := by
  have proper := BivariateDistribution.proper_of_locate
    (BivariateDistribution.build_ramped .unitBase primary secondary) (by decide)
    PrimaryGrid.columns_of_rampGrid PrimaryGrid.locate_rampGrid
  rwa [BivariateDistribution.bin_ramped _ primary] at proper

theorem limits_rampBin (secondary : rule.secondary = .linear) :
    (rampBin rule).lowerLimit = 0 ∧ (rampBin rule).upperLimit = 1 := by
  norm_num [lowerLimit, upperLimit, rampBin, blendSecondary, scale, secondary, Scale.blend,
    Table.uniform, Table.ramp, Table.lowerBound, Table.upperBound]

theorem ends_rampBin (side : Side) :
    ((rampBin rule).table side).lowerBound = 0 ∧ ((rampBin rule).table side).upperBound = 1 := by
  cases side <;> exact ⟨rfl, rfl⟩

theorem lengths_rampBin (primary : rule.primary = .linear) (secondary : rule.secondary = .linear)
    (side : Side) :
    ((rampBin rule).unitBase side).length = 1 ∧ (rampBin rule).middleBase.length = 1 := by
  have proper := proper_rampBin primary secondary
  obtain ⟨hlower, hupper⟩ := limits_rampBin secondary
  rw [proper.middleBase_length_linear secondary, hlower, hupper]
  refine ⟨?_, sub_zero 1⟩
  have hlength : ((rampBin rule).unitBase side).length =
      (rampBin rule).scale.length ((rampBin rule).table side).lowerBound
        ((rampBin rule).table side).upperBound := rfl
  rw [hlength, (ends_rampBin side).1, (ends_rampBin side).2, scale, rampBin, secondary]
  exact sub_zero 1

theorem mem_rampBin (secondary : rule.secondary = .linear) (hy : y ∈ Set.Icc (0 : ℝ) 1) :
    y ∈ Set.Icc (rampBin rule).lowerLimit (rampBin rule).upperLimit := by
  rwa [(limits_rampBin secondary).1, (limits_rampBin secondary).2]

/-- Both sides and the bin have one grid. -/
theorem onSide_rampBin (primary : rule.primary = .linear) (secondary : rule.secondary = .linear)
    (side : Side) (hy : y ∈ Set.Icc (0 : ℝ) 1) : (rampBin rule).onSide side y = y := by
  have proper := proper_rampBin primary secondary
  have hends := proper.lowerLimit_lt_upperLimit.le
  have hsub := proper.onSide_sub secondary side ⟨le_refl _, hends⟩ (mem_rampBin secondary hy)
  obtain ⟨hlength, hmiddle⟩ := lengths_rampBin primary secondary side
  rw [proper.onSide_lowerLimit, (ends_rampBin side).1, (limits_rampBin secondary).1, hlength,
    hmiddle] at hsub
  linarith

theorem sideDensity_rampBin (primary : rule.primary = .linear)
    (secondary : rule.secondary = .linear) (hy : y ∈ Set.Icc (0 : ℝ) 1) :
    (rampBin rule).sideDensity .lower y = 1 ∧ (rampBin rule).sideDensity .upper y = 2 * y := by
  have linear : (rampBin rule).scale = .linear := secondary
  have hjacobian : ∀ side, ((rampBin rule).unitBase side).jacobian y = 1 := fun side =>
    (Proper.side_jacobian_linear linear side y).trans (lengths_rampBin primary secondary side).1
  rw [sideDensity, sideDensity, onSide_rampBin primary secondary _ hy,
    onSide_rampBin primary secondary _ hy, perUnit, perUnit, hjacobian, hjacobian, mul_one, mul_one]
  refine ⟨?_, Table.pdf_ramp hy⟩
  exact (Table.pdf_uniform hy one_pos).trans (div_one 1)

theorem mixtureCdf_rampBin (primary : rule.primary = .linear)
    (secondary : rule.secondary = .linear) (hy : y ∈ Set.Icc (0 : ℝ) 1) :
    (rampBin rule).mixtureCdf y = (y + y ^ 2) / 2 := by
  have proper := proper_rampBin primary secondary
  rw [proper.mixtureCdf_between_limits (mem_rampBin secondary hy),
    onSide_rampBin primary secondary _ hy, onSide_rampBin primary secondary _ hy, mix_eq]
  change (1 - 0.5) * (Table.uniform 1).cdf y + 0.5 * Table.ramp.cdf y = _
  rw [Table.cdf_uniform hy one_pos, Table.cdf_ramp hy]
  ring

theorem nodeFree_rampBin (primary : rule.primary = .linear) (secondary : rule.secondary = .linear)
    (hy : 0 ≤ y) (hy' : y' ≤ 1) : (rampBin rule).NodeFree y y' := by
  obtain ⟨hlower, hupper⟩ := limits_rampBin secondary
  apply (proper_rampBin primary secondary).nodeFree_of_bounds
  · refine Side.forall_sides ?_ ?_ <;>
      simp [rampBin, table, Table.uniform, Table.ramp, Table.independent, Table.segments,
        Table.lowerBound, Table.upperBound]
  · rwa [hlower]
  · rwa [hupper]

end Bin

theorem BivariateDistribution.limits_ramped (policy : Policy) (rule : PlaneRule)
    (bounded : policy ≠ .direct) (primary : rule.primary = .linear)
    (secondary : rule.secondary = .linear) :
    (ramped policy rule).conditionalLowerBound 0.5 = .ok 0 ∧
      (ramped policy rule).conditionalUpperBound 0.5 = .ok 1 := by
  have hlocate : (ramped policy rule).grid.locate 0.5 =
      .ok (.bin 0 ⟨0, .uniform 1⟩ ⟨1, .ramp⟩) := PrimaryGrid.locate_rampGrid
  obtain ⟨hlower, hupper⟩ := Bin.limits_rampBin secondary
  obtain ⟨hlow, hhigh⟩ := Policy.bounds_of_bounded (b := rampBin rule) bounded
  rw [conditionalLowerBound_eq hlocate, conditionalUpperBound_eq hlocate, bin_ramped _ primary]
  exact ⟨congrArg Except.ok (hlow.trans hlower), congrArg Except.ok (hhigh.trans hupper)⟩

theorem CumulativePoints.evaluate_eq {b : Bin ℝ} (proper : b.Proper) {y : ℝ}
    (hy : y ∈ Set.Icc b.lowerLimit b.upperLimit) :
    evaluate b .density y = b.mixtureDensity y := by
  rw [evaluate, proper.isOutside_eq_false hy]
  simp only [Bool.false_eq_true, if_false, Exact.clamp_of_mem hy]
  rfl

namespace BivariateDistribution

variable {grid : PrimaryGrid ℝ (Table ℝ)} {rule : PlaneRule} {settings : EvaluationSettings ℝ}
  {d : BivariateDistribution ℝ} {x low high : ℝ} {i : Nat}
  {lower upper : PrimaryEntry ℝ (Table ℝ)}

/-- The density of the cumulative points is the derivative of their cumulative distribution, which
rises from zero to one and gains the area of a trapezoid between two nodes. -/
theorem cumulativePoints_density_is_slope
    (built : build grid .cumulativePoints rule settings = .ok d)
    (linear : rule.secondary = .linear)
    (tables : ∀ e ∈ grid.entries, ∃ xs ys, Table.ofColumns xs ys = .ok e.item)
    (interior : d.grid.locate x = .ok (.bin i lower upper))
    (hlow : d.conditionalLowerBound x = .ok low) (hhigh : d.conditionalUpperBound x = .ok high) :
    ∃ F p : ℝ → ℝ, (∀ y, d.conditionalCdf x y = .ok (F y)) ∧
      (∀ y, d.conditionalPdf x y = .ok (p y)) ∧
      (∀ y y', low ≤ y → y < y' → y' ≤ high → (d.bin x i lower upper).NodeFree y y' →
        F y' - F y = (y' - y) * (p y + p y') / 2) ∧
      (∀ y ∈ Set.Ioo low high, HasDerivAt F (p y) y) ∧
      Monotone F ∧ F low = 0 ∧ F high = 1 := by
  have bounded : Policy.cumulativePoints ≠ .direct := by decide
  have proper := proper_of_locate built bounded tables interior
  obtain rfl := eq_of_build built
  let b := bin ⟨grid, .cumulativePoints, rule, settings⟩ x i lower upper
  have hscale : b.scale = .linear := linear
  obtain ⟨rfl, rfl⟩ := limits_of_bounds interior bounded hlow hhigh
  refine ⟨b.mixtureCdf, CumulativePoints.evaluate b .density, fun y => conditionalCdf_eq interior y,
    fun y => quantity_eq interior _ y, fun y y' hy hyy' hy' free => ?_, fun y hy => ?_,
    proper.monotone_mixtureCdf, Bin.Proper.mixtureCdf_of_le (le_refl _),
    proper.mixtureCdf_of_ge (le_refl _)⟩
  · rw [CumulativePoints.evaluate_eq proper ⟨hy, hyy'.le.trans hy'⟩,
      CumulativePoints.evaluate_eq proper ⟨hy.trans hyy'.le, hy'⟩]
    exact proper.mixtureCdf_sub hscale hy hyy'.le hy' free
  · rw [CumulativePoints.evaluate_eq proper (Set.Ioo_subset_Icc_self hy)]
    exact proper.hasDerivAt_mixtureCdf hy

theorem cumulativePoints_density_of_ramped :
    let d := ramped .cumulativePoints logRule
    build rampGrid .cumulativePoints logRule .standard = .ok d ∧
      logRule.secondary = .linear ∧
      d.grid.locate 0.5 = .ok (.bin 0 ⟨0, .uniform 1⟩ ⟨1, .ramp⟩) ∧
      d.conditionalLowerBound 0.5 = .ok 0 ∧ d.conditionalUpperBound 0.5 = .ok 1 ∧
      ∃ F p : ℝ → ℝ, (∀ y, d.conditionalCdf 0.5 y = .ok (F y)) ∧
        (∀ y, d.conditionalPdf 0.5 y = .ok (p y)) ∧
        F (1 / 2) - F (1 / 8) = (1 / 2 - 1 / 8) * (p (1 / 8) + p (1 / 2)) / 2 ∧
        HasDerivAt F (p (1 / 2)) (1 / 2) ∧ Monotone F ∧ F 0 = 0 ∧ F 1 = 1 := by
  intro d
  have built : build rampGrid .cumulativePoints logRule .standard = .ok d := build_ramped _ rfl rfl
  obtain ⟨hlow, hhigh⟩ := limits_ramped .cumulativePoints logRule (by decide) rfl rfl
  obtain ⟨F, p, hcdf, hpdf, htrapezoid, hslope, hends⟩ := cumulativePoints_density_is_slope
    built rfl PrimaryGrid.columns_of_rampGrid PrimaryGrid.locate_rampGrid hlow hhigh
  have hbin : d.bin 0.5 0 ⟨0, .uniform 1⟩ ⟨1, .ramp⟩ = rampBin logRule := bin_ramped _ rfl
  rw [hbin] at htrapezoid
  have free : (rampBin logRule).NodeFree (1 / 8) (1 / 2) :=
    Bin.nodeFree_rampBin rfl rfl (by norm_num) (by norm_num)
  exact ⟨built, rfl, PrimaryGrid.locate_rampGrid, hlow, hhigh, F, p, hcdf, hpdf,
    htrapezoid _ _ (by norm_num) (by norm_num) (by norm_num) free, hslope _ (by norm_num), hends⟩

end BivariateDistribution
end AdaptiveTables
