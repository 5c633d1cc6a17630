import AdaptiveTables.Proofs.SampleRanges

/-!
The density of matched unit coordinates. On the unit base of its side a sample moves with the
reciprocal of the side's density per unit of its coordinate. The blended coordinate moves with the
mixture of both reciprocals, or, on a logarithmic axis, with the mixture of the relative rates. The
density is the reciprocal of that slope except where its shortcut for equal densities is taken at
two different coordinates of a logarithmic axis. There it is too high.
-/

namespace AdaptiveTables
namespace UnitBaseCorrelated

variable {b : Bin ℝ} {η₀ η₁ g₀ g₁ p y : ℝ}

/-- How fast the blend of two matched coordinates moves with the probability. -/
noncomputable def coordinateSlope (b : Bin ℝ) (η₀ g₀ η₁ g₁ : ℝ) : ℝ :=
  if b.scale = .logarithmic then
    blendCoordinates b η₀ η₁ * ((1 - b.fraction) / (η₀ * g₀) + b.fraction / (η₁ * g₁))
  else (1 - b.fraction) / g₀ + b.fraction / g₁

/-- Whether two different coordinates of a logarithmic axis have equal densities. -/
def TakesShortcut (b : Bin ℝ) (η₀ g₀ η₁ g₁ : ℝ) : Prop :=
  b.scale = .logarithmic ∧ g₀ = g₁ ∧ η₀ ≠ η₁

theorem blendCoordinates_of_ne (straight : b.scale ≠ .logarithmic) (η₀ η₁ : ℝ) :
    blendCoordinates b η₀ η₁ = b.mix η₀ η₁ :=
  if_neg (mt Scale.isLogarithmic_iff.mp straight)

theorem blendCoordinates_of_logarithmic (logarithmic : b.scale = .logarithmic) (h₀ : 0 < η₀)
    (h₁ : 0 < η₁) :
    blendCoordinates b η₀ η₁ =
      Real.exp (Real.log η₀ + (Real.log η₁ - Real.log η₀) * b.fraction) := by
  have hadmits : Scale.logarithmic.admits η₀ = true ∧ Scale.logarithmic.admits η₁ = true := by
    simp [Scale.admits, Exact.isFinite_eq, h₀, h₁]
  rw [blendCoordinates, if_pos (Scale.isLogarithmic_iff.mpr logarithmic), logarithmic,
    Scale.blendOrLinear, hadmits.1, hadmits.2]
  exact @Scale.blend_eq .logarithmic η₀ η₁ b.fraction h₀ h₁

/-- Between equal densities the blend keeps the density, whatever the slope is. -/
theorem density_mul_slope_of_eq (logarithmic : b.scale = .logarithmic) (h₀ : 0 < η₀) (h₁ : 0 < η₁)
    (hg₀ : 0 < g₀) :
    let δ := Real.log η₁ - Real.log η₀
    coordinateDensity b (blendCoordinates b η₀ η₁) η₀ g₀ η₁ g₀ * coordinateSlope b η₀ g₀ η₁ g₀ =
      (1 - b.fraction) * Real.exp (δ * b.fraction) +
        b.fraction * Real.exp (-(δ * (1 - b.fraction))) := by
  intro δ
  -- The ratios of the blend to both coordinates have exponents that average to zero.
  have hlower : Real.exp (δ * b.fraction) = blendCoordinates b η₀ η₁ / η₀ := by
    rw [blendCoordinates_of_logarithmic logarithmic h₀ h₁, Real.exp_add, Real.exp_log h₀,
      mul_div_cancel_left₀ _ h₀.ne']
  have hupper : Real.exp (-(δ * (1 - b.fraction))) = blendCoordinates b η₀ η₁ / η₁ := by
    have hexponent : -(δ * (1 - b.fraction)) =
        Real.log η₀ + (Real.log η₁ - Real.log η₀) * b.fraction - Real.log η₁ := by ring
    rw [hexponent, Real.exp_sub, Real.exp_log h₁,
      blendCoordinates_of_logarithmic logarithmic h₀ h₁]
  rw [coordinateDensity, if_pos (beq_self_eq_true g₀), coordinateSlope, if_pos logarithmic, hlower,
    hupper]
  field_simp

section Law

variable (hfraction : b.fraction ∈ Set.Ioo (0 : ℝ) 1) (h₀ : 0 < η₀) (h₁ : 0 < η₁) (hg₀ : 0 < g₀)

include hfraction h₀ h₁ hg₀

theorem density_mul_slope_of_ne (hg₁ : 0 < g₁) (ne : g₀ ≠ g₁) :
    coordinateDensity b (blendCoordinates b η₀ η₁) η₀ g₀ η₁ g₁ * coordinateSlope b η₀ g₀ η₁ g₁ =
      1 := by
  rw [coordinateDensity, if_neg (by simpa using ne), coordinateSlope]
  by_cases hlog : b.scale = .logarithmic
  · have hη : 0 < blendCoordinates b η₀ η₁ := by
      rw [blendCoordinates_of_logarithmic hlog h₀ h₁]
      exact Real.exp_pos _
    have hslope :=
      quotientOrZero_mul_slope hfraction (mul_pos h₀ hg₀) (mul_pos h₁ hg₁) hη
    rw [if_pos (by simp [Scale.isLogarithmic_iff.mpr hlog, hη, h₀, h₁]), if_pos hlog]
    rwa [mul_comm (η₁ * g₁ + _) _] at hslope
  · have hslope := quotientOrZero_mul_slope hfraction hg₀ hg₁ one_pos
    rw [if_neg (by simp [mt Scale.isLogarithmic_iff.mp hlog]), if_neg hlog]
    rwa [mul_one, one_mul] at hslope

/-- The density is the reciprocal of the slope unless the shortcut is taken, and then it is too
high. -/
theorem coordinateDensity_mul_slope (hg₁ : 0 < g₁) :
    (¬TakesShortcut b η₀ g₀ η₁ g₁ →
      coordinateDensity b (blendCoordinates b η₀ η₁) η₀ g₀ η₁ g₁ * coordinateSlope b η₀ g₀ η₁ g₁ =
        1) ∧
    (TakesShortcut b η₀ g₀ η₁ g₁ →
      1 < coordinateDensity b (blendCoordinates b η₀ η₁) η₀ g₀ η₁ g₁ *
        coordinateSlope b η₀ g₀ η₁ g₁) := by
  constructor
  · intro hlaw
    by_cases heq : g₀ = g₁
    · obtain rfl := heq
      by_cases hlog : b.scale = .logarithmic
      · have hsame : η₀ = η₁ := not_not.mp fun ne => hlaw ⟨hlog, rfl, ne⟩
        rw [density_mul_slope_of_eq hlog h₀ h₁ hg₀, hsame]
        simp
      · rw [coordinateDensity, if_pos (beq_self_eq_true g₀), coordinateSlope, if_neg hlog]
        field_simp
        ring
    · exact density_mul_slope_of_ne hfraction h₀ h₁ hg₀ hg₁ heq
  · rintro ⟨hlog, rfl, ne⟩
    have hdistance : Real.log η₁ - Real.log η₀ ≠ 0 := fun hzero =>
      ne (Real.log_injOn_pos h₀ h₁ (sub_eq_zero.mp hzero).symm)
    rw [density_mul_slope_of_eq hlog h₀ h₁ hg₀]
    exact Correlated.one_lt_mixed_exp hfraction hdistance

/-- The law of the density, written out for both kinds of axes. -/
theorem coordinateDensity_law (hg₁ : 0 < g₁) :
    let η := blendCoordinates b η₀ η₁
    let g := coordinateDensity b η η₀ g₀ η₁ g₁
    (b.scale = .logarithmic → ¬TakesShortcut b η₀ g₀ η₁ g₁ →
      g * η * ((1 - b.fraction) / (η₀ * g₀) + b.fraction / (η₁ * g₁)) = 1) ∧
    (b.scale ≠ .logarithmic → g * ((1 - b.fraction) / g₀ + b.fraction / g₁) = 1) ∧
    (TakesShortcut b η₀ g₀ η₁ g₁ →
      1 < g * η * ((1 - b.fraction) / (η₀ * g₀) + b.fraction / (η₁ * g₁))) := by
  intro η g
  obtain ⟨hlaw, hshortcut⟩ := coordinateDensity_mul_slope hfraction h₀ h₁ hg₀ hg₁
  refine ⟨fun hlog hregular => ?_, fun hstraight => ?_, fun htaken => ?_⟩
  · have hslope := hlaw hregular
    rwa [coordinateSlope, if_pos hlog, ← mul_assoc] at hslope
  · have hslope := hlaw fun htaken => hstraight htaken.1
    rwa [coordinateSlope, if_neg hstraight] at hslope
  · have hslope := hshortcut htaken
    rwa [coordinateSlope, if_pos htaken.1, ← mul_assoc] at hslope

end Law

/-- The density of a side per unit of its coordinate, at the sample of a probability. -/
noncomputable def densityAt (b : Bin ℝ) (side : Side) (c : ℝ) : ℝ :=
  (b.table side).pdf ((b.table side).sample c) *
    (b.unitBase side).jacobian ((b.table side).sample c)

noncomputable def coordinateAt (b : Bin ℝ) (side : Side) (c : ℝ) : ℝ :=
  sideCoordinate b side ((b.table side).sample c)

theorem coordinateAt_mem (proper : b.Proper) (side : Side) (c : ℝ) :
    coordinateAt b side c ∈ Set.Icc (0 : ℝ) 1 :=
  (proper.side_coordinate side ((proper.sound side).sample_mem c)).1

theorem coordinateAt_pos (proper : b.Proper) (side : Side) (hp : p ∈ Set.Ioo (0 : ℝ) 1) :
    0 < coordinateAt b side p := by
  obtain ⟨hlower, hupper⟩ := (proper.sound side).sample_mem_Ioo hp
  have hback := (proper.side_coordinate side ⟨hlower.le, hupper.le⟩).2
  refine lt_of_le_of_ne (coordinateAt_mem proper side p).1 fun hzero => ?_
  have hstart : (b.unitBase side).value 0 = (b.table side).lowerBound :=
    (proper.unitBase side).value_zero
  rw [coordinateAt, sideCoordinate] at hzero
  rw [← hzero, hstart] at hback
  exact absurd hlower (not_lt.mpr hback.ge)

theorem hasDerivAt_coordinateAt (proper : b.Proper) (side : Side) (hp : p ∈ Set.Ioo (0 : ℝ) 1)
    (positive : 0 < (b.table side).pdf ((b.table side).sample p)) :
    HasDerivAt (coordinateAt b side) (densityAt b side p)⁻¹ p := by
  have hsample := (proper.sound side).hasDerivAt_sample hp positive
  have hmoved := (((Scale.hasDerivAt_transform (proper.covers_sample side p)).comp p
    hsample).sub_const (b.scale.transform (b.table side).lowerBound)).div_const
      (b.unitBase side).length
  have hcoordinate : coordinateAt b side = fun q =>
      (b.scale.transform ((b.table side).sample q) -
        b.scale.transform (b.table side).lowerBound) / (b.unitBase side).length := by
    funext q
    have hmem := (proper.sound side).sample_mem q
    rw [← proper.unitBase_value_one] at hmem
    exact (proper.unitBase side).coordinate_of_mem hmem
  rw [hcoordinate]
  refine hmoved.congr_deriv ?_
  rw [densityAt, UnitBase.jacobian, mul_inv, mul_inv]
  change _ = _ * (_ * (b.scale.inverseDeriv _)⁻¹)
  ring

/-- A blend of coordinates moves with the mixture of their rates, which are relative rates on a
logarithmic axis. -/
theorem hasDerivAt_blendCoordinates {S₀ S₁ : ℝ → ℝ} (h₀ : HasDerivAt S₀ g₀⁻¹ p)
    (h₁ : HasDerivAt S₁ g₁⁻¹ p) (pos₀ : 0 < S₀ p) (pos₁ : 0 < S₁ p) :
    HasDerivAt (fun q => blendCoordinates b (S₀ q) (S₁ q))
      (coordinateSlope b (S₀ p) g₀ (S₁ p) g₁) p := by
  rw [coordinateSlope]
  split
  next hlog =>
    have hrate₀ := h₀.log pos₀.ne'
    have hrate₁ := h₁.log pos₁.ne'
    have hblend := (hrate₀.add ((hrate₁.sub hrate₀).mul_const b.fraction)).exp
    refine (hblend.congr_of_eventuallyEq ?_).congr_deriv ?_
    · filter_upwards [h₀.continuousAt.eventually (lt_mem_nhds pos₀),
        h₁.continuousAt.eventually (lt_mem_nhds pos₁)] with q hq₀ hq₁
      exact blendCoordinates_of_logarithmic hlog hq₀ hq₁
    · rw [blendCoordinates_of_logarithmic hlog pos₀ pos₁]
      simp only [Pi.add_apply, Pi.sub_apply]
      ring
  next hstraight =>
    have hmix := (h₀.const_mul (1 - b.fraction)).add (h₁.const_mul b.fraction)
    refine (hmix.congr_of_eventuallyEq (.of_eq (funext fun q => ?_))).congr_deriv ?_
    · exact (blendCoordinates_of_ne hstraight _ _).trans (b.mix_eq _ _)
    · rw [div_eq_mul_inv, div_eq_mul_inv]

theorem blendedCoordinate_mem (proper : b.Proper) (c : ℝ) :
    blendCoordinates b (coordinateAt b .lower c) (coordinateAt b .upper c) ∈ Set.Icc (0 : ℝ) 1 :=
  blendCoordinates_mem proper (coordinateAt_mem proper .lower c) (coordinateAt_mem proper .upper c)

/-- Where both densities are positive the sampler moves with the blended coordinate. -/
theorem hasDerivAt_sample (proper : b.Proper) (hp : p ∈ Set.Ioo (0 : ℝ) 1)
    (positive : ∀ side, 0 < (b.table side).pdf ((b.table side).sample p)) :
    HasDerivAt (sample b) (b.middleBase.jacobian (sample b p) *
      coordinateSlope b (coordinateAt b .lower p) (densityAt b .lower p)
        (coordinateAt b .upper p) (densityAt b .upper p)) p := by
  have hcoordinate := hasDerivAt_blendCoordinates (b := b)
    (hasDerivAt_coordinateAt proper .lower hp (positive .lower))
    (hasDerivAt_coordinateAt proper .upper hp (positive .upper))
    (coordinateAt_pos proper .lower hp) (coordinateAt_pos proper .upper hp)
  have hsample : sample b = fun q => b.scale.inverse (b.scale.transform b.lowerLimit +
      b.middleBase.length *
        blendCoordinates b (coordinateAt b .lower q) (coordinateAt b .upper q)) :=
    funext fun q => proper.middleBase.value_eq (blendedCoordinate_mem proper q).1
  have hslope := (b.scale.hasDerivAt_inverse _).comp p
    ((hcoordinate.const_mul b.middleBase.length).const_add (b.scale.transform b.lowerLimit))
  rw [hsample]
  refine hslope.congr_deriv ?_
  rw [UnitBase.jacobian]
  change b.scale.inverseDeriv _ * _ = b.middleBase.length * b.scale.inverseDeriv _ * _
  ring

theorem evaluate_eq (proper : b.Proper) (hy : y ∈ Set.Ioo b.lowerLimit b.upperLimit) :
    evaluate b .density y = (cdf b y).map fun c =>
      coordinateDensity b (b.middleBase.coordinate y) (coordinateAt b .lower c)
        (densityAt b .lower c) (coordinateAt b .upper c) (densityAt b .upper c) /
          b.middleBase.jacobian y := by
  have hinside := Set.Ioo_subset_Icc_self hy
  simp only [evaluate, cdf, matchedValues, proper.isOutside_eq_false hinside,
    Exact.clamp_of_mem hinside, if_neg (not_le.mpr hy.1), if_neg (not_le.mpr hy.2),
    Bool.false_eq_true, if_false]
  cases h : matching b (b.middleBase.coordinate y) with
  | error e => rfl
  | ok outcome =>
      have hwidening : b.bisection.widening ∈ Set.Ioo (0 : ℝ) 1 := by
        norm_num [Bin.bisection, Bisection.standard]
      have hnonzero := ne_of_gt (proper.middle_coordinate hy).1.1
      -- The points that the density is asked for are the samples of the probability found.
      obtain ⟨_, hpoints, _⟩ := Bisection.solve_eq_ok hwidening proper.settings hnonzero h
      change Except.ok _ = Except.ok _
      rw [hpoints]
      rfl

theorem coordinate_sample (proper : b.Proper) (c : ℝ) :
    b.middleBase.coordinate (sample b c) =
      blendCoordinates b (coordinateAt b .lower c) (coordinateAt b .upper c) :=
  proper.middleBase.coordinate_value (blendedCoordinate_mem proper c)

/-- A value that is found as a sample is found at a probability strictly inside the unit
interval. -/
theorem probability_mem (proper : b.Proper) {c : ℝ} (hy : y ∈ Set.Ioo b.lowerLimit b.upperLimit)
    (found : cdf b y = .ok c) (met : sample b c = y) : c ∈ Set.Ioo (0 : ℝ) 1 := by
  obtain ⟨hη, hvalue⟩ := proper.middle_coordinate hy
  have spans := UnitBaseCorrelated.spansLimits proper
  have hzero : sample b 0 = b.lowerLimit := Except.ok.inj (spans.sample_zero 0)
  have hone : sample b 1 = b.upperLimit := Except.ok.inj (spans.sample_one 0)
  rw [← hvalue] at found
  obtain ⟨hle, _⟩ | ⟨hge, _⟩ | ⟨hc, _⟩ :=
    answer_of_cdf proper (Set.Ioo_subset_Icc_self hη) found
  · exact absurd hle (not_le.mpr hη.1)
  · exact absurd hge (not_le.mpr hη.2)
  · refine ⟨lt_of_le_of_ne hc.1 fun heq => ?_, lt_of_le_of_ne hc.2 fun heq => ?_⟩
    · rw [← heq, hzero] at met
      exact absurd met (ne_of_lt hy.1)
    · rw [heq, hone] at met
      exact absurd met (ne_of_gt hy.2)

/-- Whether the shortcut is taken at the matched samples of a probability. -/
def ShortcutAt (b : Bin ℝ) (c : ℝ) : Prop :=
  TakesShortcut b (coordinateAt b .lower c) (densityAt b .lower c) (coordinateAt b .upper c)
    (densityAt b .upper c)

/-- At a value that is the sample of the probability found for it, the density is the reciprocal of
the slope of the sampler or, where the shortcut is taken, more than that. -/
theorem density_of_slope (proper : b.Proper) {c : ℝ} (hy : y ∈ Set.Ioo b.lowerLimit b.upperLimit)
    (found : cdf b y = .ok c) (met : sample b c = y) (positive : ∀ side, 0 < densityAt b side c) :
    ∃ v slope, evaluate b .density y = .ok v ∧ HasDerivAt (sample b) slope c ∧
      (¬ShortcutAt b c → v * slope = 1) ∧ (ShortcutAt b c → 1 < v * slope) := by
  have hc := probability_mem proper hy found met
  have hpdf : ∀ side, 0 < (b.table side).pdf ((b.table side).sample c) := fun side =>
    lt_of_le_of_ne ((proper.sound side).pdf_nonneg _)
      (left_ne_zero_of_mul (positive side).ne').symm
  have hjacobian : b.middleBase.jacobian y ≠ 0 := proper.middleBase.jacobian_ne_zero
    (proper.covers_between_limits (Set.Ioo_subset_Icc_self hy))
  have hslope := hasDerivAt_sample proper hc hpdf
  rw [met] at hslope
  have hevaluate := evaluate_eq proper hy
  rw [found, ← met, coordinate_sample proper, met] at hevaluate
  refine ⟨_, _, hevaluate, hslope, ?_⟩
  have hcancel (g s : ℝ) : g / b.middleBase.jacobian y * (b.middleBase.jacobian y * s) = g * s := by
    field_simp
  rw [hcancel]
  exact coordinateDensity_mul_slope proper.fraction_mem (coordinateAt_pos proper .lower hc)
    (coordinateAt_pos proper .upper hc) (positive .lower) (positive .upper)

end UnitBaseCorrelated

namespace Table

variable {m w y : ℝ}

/-- The table over the domain from one to 32 whose density is a triangle with its peak at `m`. -/
noncomputable def peaked (m w : ℝ) : Table ℝ where
  first := ⟨1, m - w, 0, 0, 0⟩
  later := [⟨m - w, m, 0, 1 / w, 0⟩, ⟨m, m + w, 1, -1 / w, 0.5 * w⟩, ⟨m + w, 32, 0, 0, w⟩]
  last := ⟨32, 0⟩
  total := w

theorem sample_peaked (hw : 0 < w) : (peaked m w).sample (1 / 2) = m := by
  have hroot : 2 * w⁻¹ * (1 / 2 * w) = 1 := by
    field_simp
  have harrived : m ≤ m - w + 2 * (1 / 2 * w) := by linarith
  norm_num [sample, peaked, segmentReaching, segments, advance, Segment.abscissaAt, Exact.max_eq,
    Exact.min_eq, Exact.sqrt_eq, hw, hw.le, hroot, harrived]

section Peaked

variable (hw : 0 < w) (hlow : 1 < m - w) (hhigh : m + w < 32)

include hw hlow hhigh

theorem ofColumns_peaked :
    ofColumns [1, m - w, m, m + w, 32] [0, 0, 1, 0, 0] = .ok (peaked m w) := by
  have hascending : ([⟨1, 0⟩, ⟨m - w, 0⟩, ⟨m, 1⟩, ⟨m + w, 0⟩, ⟨32, 0⟩] : List (Knot ℝ)).Pairwise
      (fun k k' => k.abscissa < k'.abscissa) := by
    refine pairwise_of_adjacent (fun hleft hright => hleft.trans hright) ?_
    simp [adjacent, hw, hlow, hhigh]
  have hbuilt := ofColumns_of_ascending hascending (by norm_num)
  simp only [List.map] at hbuilt
  rw [hbuilt]
  have htotal : 1 / 2 * w + 1 / 2 * w = w := by ring
  norm_num [ofKnots, Segment.chain, Segment.area, Segment.between, peaked, hw, htotal]

theorem pdf_peaked : (peaked m w).pdf m = 1 / w := by
  have sound := sound_of_ofColumns (ofColumns_peaked hw hlow hhigh)
  have hlower : (peaked m w).lowerBound ≤ m := by
    change 1 ≤ m
    linarith
  have hupper : m ≤ (peaked m w).upperBound := by
    change m ≤ 32
    linarith
  rw [pdf, sound.evaluate_eq hlower hupper]
  norm_num [peaked, normalisation, Segment.densityOver, Segment.holding, advance,
    Segment.densityAt, hw.le, hw.not_ge]

theorem cdf_peaked_before (hy : 1 ≤ y) (hy' : y < m - w) : (peaked m w).cdf y = 0 := by
  have hupper : y ≤ (peaked m w).upperBound := by
    change y ≤ 32
    linarith
  rw [(sound_of_ofColumns (ofColumns_peaked hw hlow hhigh)).cdf_eq hy hupper, peaked,
    Segment.integralOver_of_lt hy']
  simp [Segment.cumulativeAt]

theorem cdf_peaked_after (hy : m + w ≤ y) (hy' : y ≤ 32) : (peaked m w).cdf y = 1 := by
  have hlower : (peaked m w).lowerBound ≤ y := by
    change 1 ≤ y
    linarith
  have hrising : m - w ≤ y := by linarith
  have hfalling : m ≤ y := by linarith
  rw [(sound_of_ofColumns (ofColumns_peaked hw hlow hhigh)).cdf_eq hlower hy', peaked,
    Segment.integralOver_of_le hrising, Segment.integralOver_of_le hfalling,
    Segment.integralOver_of_le hy]
  simp [Segment.integralOver, Segment.holding, advance, Segment.cumulativeAt, hw.ne']

end Peaked

end Table

noncomputable def nearPeak : PrimaryEntry ℝ (Table ℝ) := ⟨0, .peaked 2.0 0.5⟩

noncomputable def farPeak : PrimaryEntry ℝ (Table ℝ) := ⟨1, .peaked 16.0 4.0⟩

noncomputable def peakGrid : PrimaryGrid ℝ (Table ℝ) where
  first := nearPeak
  second := farPeak
  rest := []
  finite _ _ := rfl
  ascending := by norm_num [firstDescent?, nearPeak, farPeak]

def logSecondary : PlaneRule := { PlaneRule.linear with secondary := .logarithmic }

theorem PrimaryGrid.columns_of_peakGrid (e : PrimaryEntry ℝ (Table ℝ)) (he : e ∈ peakGrid.entries) :
    ∃ xs ys, Table.ofColumns xs ys = .ok e.item :=
  columns_of_pair rfl
    ⟨_, _, Table.ofColumns_peaked (by norm_num) (by norm_num) (by norm_num)⟩
    ⟨_, _, Table.ofColumns_peaked (by norm_num) (by norm_num) (by norm_num)⟩ e he

/-- The bin halfway between two tables whose peaks lie at the fifth and at four fifths of the
logarithmic domain. -/
noncomputable def peakBin : Bin ℝ :=
  ⟨.peaked 2.0 0.5, .peaked 16.0 4.0, 0, 0.5, logSecondary, .standard⟩

namespace BivariateDistribution

noncomputable def peakMatch : BivariateDistribution ℝ :=
  ⟨peakGrid, .unitBaseCorrelated, logSecondary, .standard⟩

theorem build_peakMatch :
    build peakGrid .unitBaseCorrelated logSecondary .standard = .ok peakMatch := by
  rw [build, EvaluationSettings.check_standard]
  norm_num [peakMatch, peakGrid, nearPeak, farPeak, PrimaryGrid.values, PrimaryGrid.entries,
    logSecondary, PlaneRule.linear, boundsAdmitted, Scale.admits, Table.peaked, Table.lowerBound,
    Table.upperBound, Exact.isFinite_eq]

theorem locate_peakMatch : peakMatch.grid.locate 0.5 = .ok (.bin 0 nearPeak farPeak) := by
  norm_num [PrimaryGrid.locate, peakMatch, peakGrid, nearPeak, farPeak, advance,
    Exact.isNumber_eq]

theorem bin_peakMatch : peakMatch.bin 0.5 0 nearPeak farPeak = peakBin := by
  norm_num [bin, peakMatch, peakBin, nearPeak, farPeak, logSecondary, PlaneRule.linear,
    Scale.fraction, Scale.transform]

end BivariateDistribution

namespace Bin

theorem proper_peakBin : peakBin.Proper := by
  have proper := BivariateDistribution.proper_of_locate BivariateDistribution.build_peakMatch
    (by decide) PrimaryGrid.columns_of_peakGrid BivariateDistribution.locate_peakMatch
  rwa [BivariateDistribution.bin_peakMatch] at proper

theorem ends_peakBin (side : Side) :
    (peakBin.table side).lowerBound = 1 ∧ (peakBin.table side).upperBound = 32 := by
  cases side <;> exact ⟨rfl, rfl⟩

theorem limits_peakBin : peakBin.lowerLimit = 1 ∧ peakBin.upperLimit = 32 :=
  ⟨@Scale.blend_self .logarithmic 1 peakBin.fraction one_pos,
    @Scale.blend_self .logarithmic 32 peakBin.fraction (by norm_num [Scale.Covers])⟩

theorem mem_peakBin : (4 : ℝ) ∈ Set.Ioo peakBin.lowerLimit peakBin.upperLimit := by
  rw [limits_peakBin.1, limits_peakBin.2]
  norm_num

/-- On a grid over the logarithmic domain powers of two have multiples of a fifth as their
coordinates. -/
theorem coordinate_power {u : UnitBase ℝ} (proper : u.Proper) (scale : u.scale = .logarithmic)
    (lower : u.lower = 1) (upper : u.value 1 = 32) (length : u.length = Real.log 32 - Real.log 1)
    {n : ℕ} (hn : n ≤ 5) : u.coordinate (2 ^ n) = n / 5 := by
  have hlog : Real.log 32 = 5 * Real.log 2 := by
    have hpower : (32 : ℝ) = 2 ^ 5 := by norm_num
    rw [hpower, Real.log_pow]
    norm_num
  have hmem : (2 : ℝ) ^ n ∈ Set.Icc u.lower (u.value 1) := by
    have hlast : (2 : ℝ) ^ n ≤ 2 ^ 5 := pow_le_pow_right₀ one_le_two hn
    rw [lower, upper]
    exact ⟨one_le_pow₀ one_le_two, hlast.trans_eq (by norm_num)⟩
  have htwo := (Real.log_pos one_lt_two).ne'
  rw [proper.coordinate_of_mem hmem, scale, lower, length]
  change (Real.log (2 ^ n) - Real.log 1) / (Real.log 32 - Real.log 1) = _
  rw [Real.log_pow, Real.log_one, sub_zero, sub_zero, hlog]
  field_simp

theorem side_coordinate_peakBin (side : Side) {n : ℕ} (hn : n ≤ 5) :
    UnitBaseCorrelated.sideCoordinate peakBin side (2 ^ n) = n / 5 := by
  refine coordinate_power (proper_peakBin.unitBase side) rfl (ends_peakBin side).1 ?_ ?_ hn
  · rw [proper_peakBin.unitBase_value_one, (ends_peakBin side).2]
  · cases side <;> rfl

theorem middle_coordinate_peakBin {n : ℕ} (hn : n ≤ 5) :
    peakBin.middleBase.coordinate (2 ^ n) = n / 5 := by
  refine coordinate_power proper_peakBin.middleBase rfl limits_peakBin.1 ?_ (peakBin.mix_self _) hn
  rw [proper_peakBin.middleBase_value_one, limits_peakBin.2]

end Bin

namespace UnitBaseCorrelated

theorem sample_peakBin :
    (peakBin.table .lower).sample (1 / 2) = 2 ^ 1 ∧
      (peakBin.table .upper).sample (1 / 2) = 2 ^ 4 := by
  have hlower := @Table.sample_peaked 2.0 0.5 (by norm_num)
  have hupper := @Table.sample_peaked 16.0 4.0 (by norm_num)
  exact ⟨hlower.trans (by norm_num), hupper.trans (by norm_num)⟩

theorem coordinateAt_peakBin :
    coordinateAt peakBin .lower (1 / 2) = 1 / 5 ∧ coordinateAt peakBin .upper (1 / 2) = 4 / 5 := by
  rw [coordinateAt, coordinateAt, sample_peakBin.1, sample_peakBin.2,
    Bin.side_coordinate_peakBin _ (by norm_num), Bin.side_coordinate_peakBin _ (by norm_num)]
  norm_num

theorem sharpness_pos : 0 < 4 * Real.log 32 := mul_pos four_pos (Real.log_pos (by norm_num))

/-- The peaks are equally sharp on the logarithmic axis. -/
theorem densityAt_peakBin (side : Side) : densityAt peakBin side (1 / 2) = 4 * Real.log 32 := by
  have hpeak {m w : ℝ} (hw : 0 < w) (hlow : 1 < m - w) (hhigh : m + w < 32) (sharp : m / w = 4) :
      (Table.peaked m w).pdf ((Table.peaked m w).sample (1 / 2)) *
        ((Real.log 32 - Real.log 1) * (Table.peaked m w).sample (1 / 2)) = 4 * Real.log 32 := by
    rw [Table.sample_peaked hw, Table.pdf_peaked hw hlow hhigh, Real.log_one, sub_zero, ← sharp]
    ring
  cases side with
  | lower => exact hpeak (by norm_num) (by norm_num) (by norm_num) (by norm_num)
  | upper => exact hpeak (by norm_num) (by norm_num) (by norm_num) (by norm_num)

theorem blendCoordinates_peakBin : blendCoordinates peakBin (1 / 5) (4 / 5) = 2 / 5 := by
  have hratio : Real.log (4 / 5) - Real.log (1 / 5) = 2 * Real.log 2 := by
    have hsquare : (4 / 5 / (1 / 5) : ℝ) = 2 ^ 2 := by norm_num
    rw [← Real.log_div (by norm_num) (by norm_num), hsquare, Real.log_pow]
    rfl
  have hexponent : Real.log (1 / 5) + 2 * Real.log 2 * 0.5 = Real.log (2 / 5) := by
    have hproduct : (2 / 5 : ℝ) = 1 / 5 * 2 := by norm_num
    rw [hproduct, Real.log_mul (by norm_num) two_ne_zero]
    ring
  rw [blendCoordinates_of_logarithmic rfl (by norm_num) (by norm_num), hratio]
  exact (congrArg Real.exp hexponent).trans (Real.exp_log (by norm_num))

theorem estimate_peakBin :
    (pointsAt peakBin 0).estimate = 0 ∧ (pointsAt peakBin (1 / 2)).estimate = 2 / 5 ∧
      (pointsAt peakBin 1).estimate = 1 := by
  have hestimate (c : ℝ) : (pointsAt peakBin c).estimate =
      blendCoordinates peakBin (coordinateAt peakBin .lower c) (coordinateAt peakBin .upper c) :=
    rfl
  have hends := sideCoordinate_ends Bin.proper_peakBin
  refine ⟨?_, ?_, ?_⟩
  · rw [hestimate, coordinateAt, coordinateAt, (hends .lower).1, (hends .upper).1,
      blendCoordinates_self]
  · rw [hestimate, coordinateAt_peakBin.1, coordinateAt_peakBin.2, blendCoordinates_peakBin]
  · rw [hestimate, coordinateAt, coordinateAt, (hends .lower).2, (hends .upper).2,
      blendCoordinates_self]

/-- The first middle of the bracket meets the coordinate. -/
theorem matching_peakBin :
    matching peakBin (2 / 5) = .ok (Bisection.attempt (pointsAt peakBin) 0 0 1) := by
  have hvalue (side : Side) : (peakBin.unitBase side).value (2 / 5) = 4 := by
    have hmem : (2 : ℝ) ^ 2 ∈ Set.Icc (peakBin.table side).lowerBound
        (peakBin.table side).upperBound := by
      rw [(Bin.ends_peakBin side).1, (Bin.ends_peakBin side).2]
      norm_num
    have hback := (Bin.proper_peakBin.side_coordinate side hmem).2
    have hcoordinate := Bin.side_coordinate_peakBin side (n := 2) (by norm_num)
    rw [sideCoordinate] at hcoordinate
    rw [hcoordinate] at hback
    norm_num at hback
    exact hback
  have hlower : peakBin.lower.cdf 4 = 1 :=
    Table.cdf_peaked_after (by norm_num) (by norm_num) (by norm_num) (by norm_num) (by norm_num)
  have hupper : peakBin.upper.cdf 4 = 0 :=
    Table.cdf_peaked_before (by norm_num) (by norm_num) (by norm_num) (by norm_num) (by norm_num)
  obtain ⟨hzero, hhalf, hone⟩ := estimate_peakBin
  have hmiddle : (0.5 * (0 + 1) : ℝ) = 1 / 2 := by norm_num
  simp only [matching, Bin.searchBetween, hvalue, hlower, hupper, Exact.min_eq, Exact.max_eq,
    min_eq_right zero_le_one, max_eq_left zero_le_one]
  refine Bisection.solve_of_accepted (by norm_num) ⟨le_refl 0, zero_le_one⟩
    ⟨zero_le_one, le_refl 1⟩ ?_ ?_ ?_
  · rw [hzero]
    norm_num
  · rw [hone]
    norm_num
  · rw [Bisection.attempt, hmiddle, hhalf, Bisection.accepts, beq_self_eq_true, Bool.true_or]

theorem middle_peakBin :
    peakBin.middleBase.coordinate 4 = 2 / 5 ∧ peakBin.middleBase.value (2 / 5) = 4 ∧
      peakBin.middleBase.jacobian 4 = 4 * Real.log 32 := by
  have hcoordinate := Bin.middle_coordinate_peakBin (n := 2) (by norm_num)
  norm_num at hcoordinate
  have hback := (Bin.proper_peakBin.middle_coordinate Bin.mem_peakBin).2
  have hlength : peakBin.middleBase.length = Real.log 32 - Real.log 1 := peakBin.mix_self _
  have hjacobian : peakBin.middleBase.jacobian 4 = peakBin.middleBase.length * 4 := rfl
  rw [hcoordinate] at hback
  rw [hjacobian, hlength, Real.log_one, sub_zero, mul_comm]
  exact ⟨hcoordinate, hback, rfl⟩

theorem sample_peakBin_half : sample peakBin (1 / 2) = 4 := by
  have hsample : sample peakBin (1 / 2) = peakBin.middleBase.value (blendCoordinates peakBin
      (coordinateAt peakBin .lower (1 / 2)) (coordinateAt peakBin .upper (1 / 2))) := rfl
  rw [hsample, coordinateAt_peakBin.1, coordinateAt_peakBin.2, blendCoordinates_peakBin,
    middle_peakBin.2.1]

theorem cdf_peakBin : cdf peakBin 4 = .ok (1 / 2) := by
  obtain ⟨hlow, hhigh⟩ := Bin.limits_peakBin
  rw [cdf, hlow, hhigh, if_neg (by norm_num), if_neg (by norm_num), middle_peakBin.1,
    matching_peakBin]
  exact congrArg Except.ok (by norm_num [Bisection.attempt])

theorem evaluate_peakBin : evaluate peakBin .density 4 = .ok 1 := by
  rw [evaluate_eq Bin.proper_peakBin Bin.mem_peakBin, cdf_peakBin]
  refine congrArg Except.ok ?_
  simp only [densityAt_peakBin, middle_peakBin.2.2]
  rw [coordinateDensity, if_pos (beq_self_eq_true _), div_self sharpness_pos.ne']

end UnitBaseCorrelated

namespace BivariateDistribution

open UnitBaseCorrelated

theorem limits_peakMatch :
    peakMatch.conditionalLowerBound 0.5 = .ok 1 ∧ peakMatch.conditionalUpperBound 0.5 = .ok 32 := by
  obtain ⟨hlow, hhigh⟩ := Bin.limits_peakBin
  rw [conditionalLowerBound_eq locate_peakMatch, conditionalUpperBound_eq locate_peakMatch,
    bin_peakMatch]
  exact ⟨congrArg Except.ok hlow, congrArg Except.ok hhigh⟩

theorem queries_peakMatch :
    peakMatch.conditionalCdf 0.5 4 = .ok (1 / 2) ∧ peakMatch.conditionalPdf 0.5 4 = .ok 1 := by
  rw [conditionalCdf_eq locate_peakMatch, conditionalPdf, quantity_eq locate_peakMatch,
    bin_peakMatch]
  exact ⟨cdf_peakBin, evaluate_peakBin⟩

variable {grid : PrimaryGrid ℝ (Table ℝ)} {rule : PlaneRule} {settings : EvaluationSettings ℝ}
  {d : BivariateDistribution ℝ} {x low high : ℝ} {i : Nat}
  {lower upper : PrimaryEntry ℝ (Table ℝ)}

/-- The density of matched coordinates is the reciprocal of the slope of their sampler, unless the
shortcut for equal densities is taken, and then it is too high. -/
theorem unitBaseCorrelated_density_of_slope
    (built : build grid .unitBaseCorrelated rule settings = .ok d)
    (tables : ∀ e ∈ grid.entries, ∃ xs ys, Table.ofColumns xs ys = .ok e.item)
    (interior : d.grid.locate x = .ok (.bin i lower upper))
    (hlow : d.conditionalLowerBound x = .ok low) (hhigh : d.conditionalUpperBound x = .ok high) :
    let b := d.bin x i lower upper
    (∀ y ∈ Set.Ioo low high, d.conditionalPdf x y = (d.conditionalCdf x y).map fun c =>
      coordinateDensity b (b.middleBase.coordinate y) (coordinateAt b .lower c)
        (densityAt b .lower c) (coordinateAt b .upper c) (densityAt b .upper c) /
          b.middleBase.jacobian y) ∧
    (∀ η₀ g₀ η₁ g₁ : ℝ, 0 < η₀ → 0 < g₀ → 0 < η₁ → 0 < g₁ →
      let η := blendCoordinates b η₀ η₁
      let g := coordinateDensity b η η₀ g₀ η₁ g₁
      (rule.secondary = .logarithmic → ¬TakesShortcut b η₀ g₀ η₁ g₁ →
        g * η * ((1 - b.fraction) / (η₀ * g₀) + b.fraction / (η₁ * g₁)) = 1) ∧
      (rule.secondary ≠ .logarithmic → g * ((1 - b.fraction) / g₀ + b.fraction / g₁) = 1) ∧
      (TakesShortcut b η₀ g₀ η₁ g₁ →
        1 < g * η * ((1 - b.fraction) / (η₀ * g₀) + b.fraction / (η₁ * g₁)))) ∧
    ∃ Y : ℝ → ℝ, (∀ q ∈ Set.Icc (0 : ℝ) 1, d.sampleSingle x q = .ok (Y q)) ∧
      ∀ y ∈ Set.Ioo low high, ∀ c, d.conditionalCdf x y = .ok c → Y c = y →
        (∀ side, 0 < densityAt b side c) →
        ∃ v slope, d.conditionalPdf x y = .ok v ∧ HasDerivAt Y slope c ∧
          (¬ShortcutAt b c → v * slope = 1) ∧ (ShortcutAt b c → 1 < v * slope) := by
  intro b
  have bounded : Policy.unitBaseCorrelated ≠ .direct := by decide
  have proper : b.Proper := proper_of_locate built bounded tables interior
  obtain rfl := eq_of_build built
  obtain ⟨rfl, rfl⟩ := limits_of_bounds interior bounded hlow hhigh
  refine ⟨fun y hy => ?_, fun η₀ g₀ η₁ g₁ h₀ hg₀ h₁ hg₁ => ?_, UnitBaseCorrelated.sample b,
    fun q hq => sampleSingle_eq interior rfl hq, fun y hy c hc hsample positive => ?_⟩
  · rw [conditionalPdf, quantity_eq interior, conditionalCdf_eq interior]
    exact evaluate_eq proper hy
  · exact coordinateDensity_law proper.fraction_mem h₀ h₁ hg₀ hg₁
  · rw [conditionalCdf_eq interior] at hc
    rw [conditionalPdf, quantity_eq interior]
    exact density_of_slope proper hy hc hsample positive

theorem unitBaseCorrelated_density_of_peaked :
    build peakGrid .unitBaseCorrelated logSecondary .standard = .ok peakMatch ∧
      peakMatch.grid.locate 0.5 = .ok (.bin 0 nearPeak farPeak) ∧
      peakMatch.conditionalLowerBound 0.5 = .ok 1 ∧ peakMatch.conditionalUpperBound 0.5 = .ok 32 ∧
      coordinateDensity peakBin (2 / 5) (1 / 5) 1 (4 / 5) 2 * (2 / 5) *
        ((1 - peakBin.fraction) / (1 / 5 * 1) + peakBin.fraction / (4 / 5 * 2)) = 1 ∧
      ∃ (Y : ℝ → ℝ) (slope : ℝ), (∀ q ∈ Set.Icc (0 : ℝ) 1, peakMatch.sampleSingle 0.5 q =
          .ok (Y q)) ∧ Y (1 / 2) = 4 ∧ peakMatch.conditionalPdf 0.5 4 = .ok 1 ∧
        HasDerivAt Y slope (1 / 2) ∧ 1 < 1 * slope := by
  obtain ⟨hlow, hhigh⟩ := limits_peakMatch
  obtain ⟨_, hlaw, Y, hsample, hslope⟩ := unitBaseCorrelated_density_of_slope build_peakMatch
    PrimaryGrid.columns_of_peakGrid locate_peakMatch hlow hhigh
  rw [bin_peakMatch] at hlaw hslope
  have hpeak : (1 / 2 : ℝ) ∈ Set.Icc (0 : ℝ) 1 := by norm_num
  obtain ⟨hcdf, hpdf⟩ := queries_peakMatch
  have hY : Y (1 / 2) = 4 := by
    have hhalf := hsample (1 / 2) hpeak
    rw [sampleSingle_eq locate_peakMatch rfl hpeak, bin_peakMatch] at hhalf
    exact (Except.ok.inj hhalf).symm.trans sample_peakBin_half
  have hpositive (side : Side) : 0 < densityAt peakBin side (1 / 2) := by
    rw [densityAt_peakBin]
    exact sharpness_pos
  obtain ⟨v, slope, hv, hderiv, _, hshortcut⟩ :=
    hslope 4 ⟨by norm_num, by norm_num⟩ (1 / 2) hcdf hY hpositive
  obtain rfl := Except.ok.inj (hpdf.symm.trans hv)
  obtain ⟨hdifferent, _⟩ :=
    hlaw (1 / 5) 1 (4 / 5) 2 (by norm_num) one_pos (by norm_num) two_pos
  rw [blendCoordinates_peakBin] at hdifferent
  refine ⟨build_peakMatch, locate_peakMatch, hlow, hhigh, hdifferent rfl fun h => ?_, Y, slope,
    hsample, hY, hpdf, hderiv, hshortcut ⟨rfl, ?_, ?_⟩⟩
  · exact absurd h.2.1 (by norm_num)
  · rw [densityAt_peakBin, densityAt_peakBin]
  · rw [coordinateAt_peakBin.1, coordinateAt_peakBin.2]
    norm_num

/-- The peaks have one density per unit of their different coordinates, and the density of the
blend keeps it. The slope of the sampler is `5 / 4`, though. -/
theorem unitBaseCorrelated_density_exceeds_slope :
    let G := 4 * Real.log 32
    let g := coordinateDensity peakBin (2 / 5) (1 / 5) G (4 / 5) G
    Table.ofColumns [1, 2.0 - 0.5, 2.0, 2.0 + 0.5, 32] [0, 0, 1, 0, 0] = .ok nearPeak.item ∧
      Table.ofColumns [1, 16.0 - 4.0, 16.0, 16.0 + 4.0, 32] [0, 0, 1, 0, 0] = .ok farPeak.item ∧
      build peakGrid .unitBaseCorrelated logSecondary .standard = .ok peakMatch ∧
      peakMatch.grid.locate 0.5 = .ok (.bin 0 nearPeak farPeak) ∧
      peakMatch.bin 0.5 0 nearPeak farPeak = peakBin ∧
      peakMatch.conditionalCdf 0.5 4 = .ok (1 / 2) ∧ peakMatch.conditionalPdf 0.5 4 = .ok 1 ∧
      coordinateAt peakBin .lower (1 / 2) = 1 / 5 ∧ coordinateAt peakBin .upper (1 / 2) = 4 / 5 ∧
      blendCoordinates peakBin (1 / 5) (4 / 5) = 2 / 5 ∧
      peakBin.middleBase.coordinate 4 = 2 / 5 ∧ (∀ side, densityAt peakBin side (1 / 2) = G) ∧
      g / peakBin.middleBase.jacobian 4 = 1 ∧
      g * (2 / 5) * ((1 - peakBin.fraction) / (1 / 5 * G) + peakBin.fraction / (4 / 5 * G)) ≠
        1 := by
  intro G g
  have hG : G ≠ 0 := sharpness_pos.ne'
  have hg : g = G := if_pos (beq_self_eq_true G)
  refine ⟨Table.ofColumns_peaked (by norm_num) (by norm_num) (by norm_num),
    Table.ofColumns_peaked (by norm_num) (by norm_num) (by norm_num), build_peakMatch,
    locate_peakMatch, bin_peakMatch, queries_peakMatch.1, queries_peakMatch.2,
    coordinateAt_peakBin.1, coordinateAt_peakBin.2, blendCoordinates_peakBin, middle_peakBin.1,
    densityAt_peakBin, ?_, ?_⟩
  · rw [hg, middle_peakBin.2.2, div_self hG]
  · have hhalf : peakBin.fraction = 1 / 2 := by norm_num [peakBin]
    have hproduct : G * (2 / 5) * ((1 - 1 / 2) / (1 / 5 * G) + 1 / 2 / (4 / 5 * G)) = 5 / 4 := by
      field_simp
      norm_num
    rw [hg, hhalf, hproduct]
    norm_num

end BivariateDistribution
end AdaptiveTables
