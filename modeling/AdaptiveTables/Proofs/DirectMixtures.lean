import AdaptiveTables.Proofs.MixtureLaws
import Mathlib.Analysis.MeanInequalities

/-!
The direct policy. Its sampler follows the mixture of the two sides. Its cumulative distribution
is the blend along the dependent axis, which is the mixture on a linear axis. On a logarithmic
axis it is the mixture only where a side still has probability zero, or where the sides agree.
Between two different positive probabilities it is their weighted geometric mean, and so less
than the probability of the sampler.
-/

namespace AdaptiveTables

open MeasureTheory

namespace Bin

variable {b : Bin ℝ} {p q : ℝ}

theorem mix_mono (hfraction : b.fraction ∈ Set.Ioo (0 : ℝ) 1) {p' q' : ℝ} (hp : p ≤ p')
    (hq : q ≤ q') : b.mix p q ≤ b.mix p' q' := by
  rw [mix_eq, mix_eq]
  apply add_le_add
  · exact mul_le_mul_of_nonneg_left hp (sub_nonneg.mpr hfraction.2.le)
  · exact mul_le_mul_of_nonneg_left hq hfraction.1.le

/-- Whether a blend of two numbers is a geometric mean and not a mixture. -/
def BlendsGeometrically (b : Bin ℝ) (p q : ℝ) : Prop :=
  b.rule.dependent = .logarithmic ∧ 0 < p ∧ 0 < q ∧ p ≠ q

theorem blendSigned_of_mixed (hp : 0 ≤ p) (mixed : ¬b.BlendsGeometrically p q) :
    b.blendSigned p q = b.mix p q := by
  by_cases hne : p = q
  · rw [hne, blendSigned_self, mix_self]
  · rw [blendSigned]
    split
    next hprod =>
      -- Two positive numbers that differ, so the axis is not logarithmic.
      have hpos := (pos_and_pos_or_neg_and_neg_of_mul_pos hprod).resolve_right
        fun hneg => absurd hp (not_le.mpr hneg.1)
      have haxis : b.rule.dependent ≠ .logarithmic := fun haxis =>
        mixed ⟨haxis, hpos.1, hpos.2, hne⟩
      have hstraight := b.rule.dependentStraight
      rw [blendDependent]
      cases hdependent : b.rule.dependent with
      | linear => exact ite_self _
      | logarithmic => exact absurd hdependent haxis
      | logCosine | nudgedLogCosine =>
          rw [hdependent] at hstraight
          cases hstraight
    next => rfl

theorem blendSigned_of_geometric (geometric : b.BlendsGeometrically p q) :
    b.blendSigned p q = p ^ (1 - b.fraction) * q ^ b.fraction := by
  obtain ⟨haxis, hp, hq, _⟩ := geometric
  have hadmits : Scale.logarithmic.admits p = true ∧ Scale.logarithmic.admits q = true := by
    simp [Scale.admits, Exact.isFinite_eq, hp, hq]
  rw [blendSigned, if_pos (mul_pos hp hq), blendDependent, haxis, Scale.blendOrLinear, hadmits.1,
    hadmits.2]
  change p * (q / p) ^ b.fraction = _
  rw [Real.div_rpow hq.le hp.le, Real.rpow_sub hp, Real.rpow_one]
  ring

theorem geometric_lt_mix (hfraction : b.fraction ∈ Set.Ioo (0 : ℝ) 1)
    (geometric : b.BlendsGeometrically p q) :
    p ^ (1 - b.fraction) * q ^ b.fraction < b.mix p q := by
  obtain ⟨_, hp, hq, hne⟩ := geometric
  rw [mix_eq]
  exact (Real.geom_mean_lt_arith_mean2_weighted_iff_of_pos (sub_pos.mpr hfraction.2) hfraction.1
    hp.le hq.le (sub_add_cancel 1 _)).mpr hne

end Bin

namespace BivariateDistribution

variable {grid : PrimaryGrid ℝ (Table ℝ)} {rule : PlaneRule} {settings : EvaluationSettings ℝ}
  {d : BivariateDistribution ℝ} {x : ℝ} {i : Nat} {lower upper : PrimaryEntry ℝ (Table ℝ)}

/-- The direct sampler stays below a value with the mixture of the sides as its probability. -/
theorem volume_drawsBelow_direct (built : build grid .direct rule settings = .ok d)
    (tables : ∀ e ∈ grid.entries, ∃ xs ys, Table.ofColumns xs ys = .ok e.item)
    (interior : d.grid.locate x = .ok (.bin i lower upper)) (y : ℝ) :
    volume (d.drawsBelow x y) =
      ENNReal.ofReal ((d.bin x i lower upper).mix (lower.item.cdf y) (upper.item.cdf y)) := by
  have hfraction := fraction_mem_of_locate built interior
  obtain rfl := eq_of_build built
  have sound := sound_of_locate tables interior
  exact volume_drawsBelow (F := fun side => (bin _ x i lower upper |>.table side).cdf y) interior
    hfraction (fun _ _ => rfl) (fun side => (sound side).cdf_mem y)
    (fun side p hp => (sound side).sample_le_iff hp.1 hp.2)

/-- The direct sampler follows the mixture of the sides, and the cumulative distribution is that
mixture wherever the dependent axis does not ask for a geometric mean. -/
theorem direct_cdf_of_sampler (built : build grid .direct rule settings = .ok d)
    (tables : ∀ e ∈ grid.entries, ∃ xs ys, Table.ofColumns xs ys = .ok e.item)
    (interior : d.grid.locate x = .ok (.bin i lower upper)) :
    let β := rule.primary.fraction lower.value upper.value x
    let F₀ := lower.item.cdf
    let F₁ := upper.item.cdf
    let mixture (y : ℝ) := (1 - β) * F₀ y + β * F₁ y
    let geometric (y : ℝ) :=
      rule.dependent = .logarithmic ∧ 0 < F₀ y ∧ 0 < F₁ y ∧ F₀ y ≠ F₁ y
    ∃ C : ℝ → ℝ, (∀ y, d.conditionalCdf x y = .ok (C y)) ∧
      (∀ y, volume (d.drawsBelow x y) = ENNReal.ofReal (mixture y)) ∧
      (∀ y, ¬geometric y → C y = mixture y) ∧
      (∀ y, geometric y → C y = F₀ y ^ (1 - β) * F₁ y ^ β ∧ C y < mixture y) ∧
      (rule.dependent = .linear → Monotone C) ∧
      ∃ low high, d.conditionalLowerBound x = .ok low ∧ d.conditionalUpperBound x = .ok high ∧
        C low = 0 ∧ C high = 1 := by
  intro β F₀ F₁ mixture geometric
  have hfraction := fraction_mem_of_locate built interior
  have hvolume := volume_drawsBelow_direct built tables interior
  obtain rfl := eq_of_build built
  let b := bin ⟨grid, .direct, rule, settings⟩ x i lower upper
  have hmix : ∀ y, b.mix (F₀ y) (F₁ y) = mixture y := fun y => b.mix_eq _ _
  have sound₀ : lower.item.Sound := sound_of_locate tables interior .lower
  have sound₁ : upper.item.Sound := sound_of_locate tables interior .upper
  have hmixed : ∀ y, ¬geometric y → Direct.cdf b y = mixture y := by
    intro y mixed
    rw [← hmix]
    exact Bin.blendSigned_of_mixed (sound₀.cdf_mem y).1 mixed
  refine ⟨Direct.cdf b, fun y => conditionalCdf_eq interior y, fun y => ?_, hmixed,
    fun y hgeometric => ⟨?_, ?_⟩, fun haxis => ?_, _, _, conditionalLowerBound_eq interior,
    conditionalUpperBound_eq interior, ?_, ?_⟩
  · rw [hvolume, ← hmix]
  · exact Bin.blendSigned_of_geometric hgeometric
  · rw [← hmix]
    exact lt_of_eq_of_lt (Bin.blendSigned_of_geometric hgeometric)
      (Bin.geometric_lt_mix hfraction hgeometric)
  · have hlinear : ∀ y, ¬geometric y := by
      intro y hgeometric
      cases haxis.symm.trans hgeometric.1
    intro y y' hle
    rw [hmixed y (hlinear y), hmixed y' (hlinear y'), ← hmix, ← hmix]
    exact Bin.mix_mono hfraction (sound₀.monotone_cdf hle) (sound₁.monotone_cdf hle)
  · have hzero : F₀ (Direct.lowerBound b) = 0 ∧ F₁ (Direct.lowerBound b) = 0 := by
      rw [Direct.lowerBound, Exact.min_eq]
      exact ⟨Table.Sound.cdf_of_le (min_le_left _ _), Table.Sound.cdf_of_le (min_le_right _ _)⟩
    change b.blendSigned (F₀ (Direct.lowerBound b)) (F₁ (Direct.lowerBound b)) = 0
    rw [hzero.1, hzero.2, Bin.blendSigned_self]
  · have hone : F₀ (Direct.upperBound b) = 1 ∧ F₁ (Direct.upperBound b) = 1 := by
      rw [Direct.upperBound, Exact.max_eq]
      exact ⟨sound₀.cdf_of_ge (le_max_left _ _), sound₁.cdf_of_ge (le_max_right _ _)⟩
    change b.blendSigned (F₀ (Direct.upperBound b)) (F₁ (Direct.upperBound b)) = 1
    rw [hone.1, hone.2, Bin.blendSigned_self]

/-- Two tables, of which one has no probability until the other has all of its own. -/
noncomputable def lateGrid : PrimaryGrid ℝ (Table ℝ) where
  first := ⟨0, .tent⟩
  second := wideEntry
  rest := []
  finite _ _ := rfl
  ascending := by norm_num [firstDescent?, wideEntry]

noncomputable def lateDirect : BivariateDistribution ℝ := ⟨lateGrid, .direct, logRule, .standard⟩

theorem build_lateDirect : build lateGrid .direct logRule .standard = .ok lateDirect := by
  rw [build, EvaluationSettings.check_standard]
  norm_num [lateDirect, lateGrid, wideEntry, PrimaryGrid.values, PrimaryGrid.entries, logRule,
    PlaneRule.linear, Scale.admits]

theorem columns_of_lateGrid (e : PrimaryEntry ℝ (Table ℝ)) (he : e ∈ lateGrid.entries) :
    ∃ xs ys, Table.ofColumns xs ys = .ok e.item :=
  PrimaryGrid.columns_of_pair rfl ⟨_, _, Table.ofColumns_tent⟩
    ⟨_, _, Table.ofColumns_uniform one_pos⟩ e he

theorem locate_lateGrid :
    lateDirect.grid.locate 0.5 = .ok (.bin 0 ⟨0, .tent⟩ wideEntry) := by
  norm_num [lateDirect, PrimaryGrid.locate, lateGrid, wideEntry, advance, Exact.isNumber_eq]

theorem fraction_lateGrid : logRule.primary.fraction 0 wideEntry.value 0.5 = 1 / 2 := by
  norm_num [logRule, PlaneRule.linear, Scale.fraction, Scale.transform, wideEntry]

theorem sides_lateGrid :
    Table.tent.cdf 1 = 0 ∧ Table.tent.cdf (5 / 4) = 1 / 32 ∧
      wideEntry.item.cdf 1 = 1 ∧ wideEntry.item.cdf (5 / 4) = 1 := by
  have soundTent := Table.sound_of_ofColumns Table.ofColumns_tent
  have soundWide := Table.sound_of_ofColumns (Table.ofColumns_uniform one_pos)
  have htent : Table.tent.lowerBound = 0 ∧ Table.tent.upperBound = 4 := ⟨rfl, rfl⟩
  have hwide : (Table.uniform 1).upperBound = 1 := rfl
  refine ⟨?_, ?_, ?_, ?_⟩
  · rw [soundTent.cdf_eq (by norm_num [htent.1]) (by norm_num [htent.2])]
    norm_num [Table.tent, Segment.integralOver, Segment.holding, advance, Segment.cumulativeAt]
  · rw [soundTent.cdf_eq (by norm_num [htent.1]) (by norm_num [htent.2])]
    norm_num [Table.tent, Segment.integralOver, Segment.holding, advance, Segment.cumulativeAt]
  · exact soundWide.cdf_of_ge (by rw [hwide])
  · exact soundWide.cdf_of_ge (by norm_num [hwide])

theorem direct_cdf_of_late_sampler :
    ∃ C : ℝ → ℝ, (∀ y, lateDirect.conditionalCdf 0.5 y = .ok (C y)) ∧ C 1 = 1 / 2 ∧
      volume (lateDirect.drawsBelow 0.5 (5 / 4)) = ENNReal.ofReal (33 / 64) ∧
      C (5 / 4) < 33 / 64 := by
  obtain ⟨C, hC, hvolume, hmixed, hgeometric, _⟩ :=
    direct_cdf_of_sampler build_lateDirect columns_of_lateGrid locate_lateGrid
  obtain ⟨htent, htent', hwide, hwide'⟩ := sides_lateGrid
  have hone := hmixed 1
  have hlater := hgeometric (5 / 4)
  have hprobability := hvolume (5 / 4)
  simp only [htent, htent', hwide, hwide', fraction_lateGrid] at hone hlater hprobability
  refine ⟨C, hC, ?_, ?_, ?_⟩
  · rw [hone (by norm_num)]
    norm_num
  · rw [hprobability]
    norm_num
  · refine lt_of_lt_of_eq (hlater ⟨rfl, by norm_num⟩).2 ?_
    norm_num

/-- At the second point more samples stay below than at the first, but the cumulative
distribution is smaller there. -/
theorem direct_cdf_falls :
    build lateGrid .direct logRule .standard = .ok lateDirect ∧
      lateDirect.grid.locate 0.5 = .ok (.bin 0 ⟨0, .tent⟩ wideEntry) ∧
      volume (lateDirect.drawsBelow 0.5 (5 / 4)) = ENNReal.ofReal (33 / 64) ∧
      lateDirect.conditionalCdf 0.5 1 = .ok (1 / 2) ∧
      ∃ c, lateDirect.conditionalCdf 0.5 (5 / 4) = .ok c ∧ c < 1 / 2 := by
  obtain ⟨htent, htent', hwide, hwide'⟩ := sides_lateGrid
  let b := lateDirect.bin 0.5 0 ⟨0, .tent⟩ wideEntry
  have hfraction : b.fraction = 1 / 2 := fraction_lateGrid
  have hone : Direct.cdf b 1 = 1 / 2 := by
    change b.blendSigned (Table.tent.cdf 1) (wideEntry.item.cdf 1) = 1 / 2
    rw [htent, hwide, Bin.blendSigned_of_mixed (le_refl 0) fun h => lt_irrefl _ h.2.1, Bin.mix_eq,
      hfraction]
    norm_num
  have hlater : Direct.cdf b (5 / 4) < 1 / 2 := by
    change b.blendSigned (Table.tent.cdf (5 / 4)) (wideEntry.item.cdf (5 / 4)) < 1 / 2
    have hhalf : (1 : ℝ) - 1 / 2 = 1 / 2 := by norm_num
    rw [htent', hwide', Bin.blendSigned_of_geometric ⟨rfl, by norm_num⟩, hfraction, Real.one_rpow,
      mul_one, hhalf, ← Real.sqrt_eq_rpow, Real.sqrt_lt' one_half_pos]
    norm_num
  refine ⟨build_lateDirect, locate_lateGrid, ?_, ?_, _, conditionalCdf_eq locate_lateGrid _,
    hlater⟩
  · rw [volume_drawsBelow_direct build_lateDirect columns_of_lateGrid locate_lateGrid]
    change ENNReal.ofReal (b.mix (Table.tent.cdf (5 / 4)) (wideEntry.item.cdf (5 / 4))) = _
    rw [htent', hwide', Bin.mix_eq, hfraction]
    norm_num
  · rw [conditionalCdf_eq locate_lateGrid, ← hone]
    rfl

end BivariateDistribution
end AdaptiveTables
