import AdaptiveTables.Proofs.Bins
import AdaptiveTables.Proofs.Searches

/-!
The round trip of the cumulative points. The sampler searches the mixture of the two cumulative
distributions over unit coordinates and maps the coordinate to the bin's own grid. The cumulative
distribution maps the sample back to the same coordinate, so what is left of the round trip is the
tolerance of the search.
-/

namespace AdaptiveTables

namespace Bin.Proper

variable {b : Bin ℝ} {η : ℝ}

theorem mixtureAt_zero (proper : b.Proper) : (b.mixtureAt 0).estimate = 0 := by
  have hvalue : ∀ side, b.sideValue side 0 = (b.table side).lowerBound := fun side =>
    (proper.unitBase side).value_zero
  change b.mix (b.lower.cdf (b.sideValue .lower 0)) (b.upper.cdf (b.sideValue .upper 0)) = 0
  rw [hvalue, hvalue, table, table, Table.Sound.cdf_of_le (le_refl _),
    Table.Sound.cdf_of_le (le_refl _)]
  change (0 : ℝ) + (0 - 0) * b.fraction = 0
  ring

theorem mixtureAt_one (proper : b.Proper) : (b.mixtureAt 1).estimate = 1 := by
  have hcdf : ∀ side, (b.table side).cdf (b.sideValue side 1) = 1 := by
    intro side
    rw [sideValue, proper.unitBase_value_one]
    exact (proper.sound side).cdf_of_ge (le_refl _)
  have hlower : b.lower.cdf (b.sideValue .lower 1) = 1 := hcdf .lower
  have hupper : b.upper.cdf (b.sideValue .upper 1) = 1 := hcdf .upper
  change b.mix (b.lower.cdf (b.sideValue .lower 1)) (b.upper.cdf (b.sideValue .upper 1)) = 1
  rw [hlower, hupper]
  change (1 : ℝ) + (1 - 1) * b.fraction = 1
  ring

/-- The cumulative distribution at a value of the bin's grid is the mixture at the coordinate that
the value was made from, at the limits too. -/
theorem mixtureCdf_value (proper : b.Proper) (hη : η ∈ Set.Icc (0 : ℝ) 1) :
    b.mixtureCdf (b.middleBase.value η) = (b.mixtureAt η).estimate := by
  rcases eq_or_lt_of_le hη.1 with rfl | hpos
  · have hvalue : b.middleBase.value 0 = b.lowerLimit := proper.middleBase.value_zero
    rw [mixtureCdf, hvalue, if_pos (le_refl _), proper.mixtureAt_zero]
  · have habove : b.lowerLimit < b.middleBase.value η :=
      lt_of_eq_of_lt proper.middleBase.value_zero.symm
        (proper.middleBase.value_lt_value (le_refl 0) hpos)
    rw [mixtureCdf, if_neg (not_le.mpr habove)]
    rcases eq_or_lt_of_le hη.2 with rfl | hlt
    · rw [if_pos (ge_of_eq proper.middleBase_value_one), proper.mixtureAt_one]
    · have hbelow : b.middleBase.value η < b.upperLimit :=
        lt_of_lt_of_eq (proper.middleBase.value_lt_value hη.1 hlt) proper.middleBase_value_one
      rw [if_neg (not_le.mpr hbelow), proper.middleBase.coordinate_value hη]

end Bin.Proper

namespace CumulativePoints

variable {b : Bin ℝ} {p : ℝ} {s : SecondarySample ℝ}

/-- A sample is the value at a coordinate whose mixture is as close to the probability as the
tolerances say. At the ends it is exact. -/
theorem coordinate_of_sample (proper : b.Proper) (hp : p ∈ Set.Icc (0 : ℝ) 1)
    (h : sample b p = .ok s) :
    ∃ η ∈ Set.Icc (0 : ℝ) 1, s.sample = b.middleBase.value η ∧
      |(b.mixtureAt η).estimate - p| ≤ Max.max (b.settings.relativeError * p) b.settings.error ∧
      (p = 0 ∨ p = 1 → (b.mixtureAt η).estimate = p) := by
  have htolerance : 0 ≤ Max.max (b.settings.relativeError * p) b.settings.error :=
    le_max_of_le_right (EvaluationSettings.tolerance_mem proper.settings .error).1
  rw [sample] at h
  split at h
  next hle =>
    obtain rfl : p = 0 := le_antisymm hle hp.1
    obtain rfl := Except.ok.inj h
    refine ⟨0, ⟨le_refl 0, zero_le_one⟩, proper.middleBase.value_zero.symm, ?_, ?_⟩
    · rwa [proper.mixtureAt_zero, sub_self, abs_zero]
    · exact fun _ => proper.mixtureAt_zero
  next hpos =>
    split at h
    next hge =>
      obtain rfl : p = 1 := le_antisymm hp.2 hge
      obtain rfl := Except.ok.inj h
      refine ⟨1, ⟨zero_le_one, le_refl 1⟩, proper.middleBase_value_one.symm, ?_, ?_⟩
      · rwa [proper.mixtureAt_one, sub_self, abs_zero]
      · exact fun _ => proper.mixtureAt_one
    next hlt =>
      obtain ⟨outcome, hsolve, hs⟩ := exists_of_bind_eq_ok h
      obtain rfl := Except.ok.inj hs
      have hwidening : b.bisection.widening ∈ Set.Ioo (0 : ℝ) 1 := by
        norm_num [Bin.bisection, Bisection.standard]
      obtain ⟨hη, hpoints, hclose⟩ := Bisection.solve_eq_ok hwidening proper.settings
        (ne_of_gt (not_le.mp hpos)) hsolve
      refine ⟨outcome.probability, hη, rfl, ?_, ?_⟩
      · rw [hpoints, abs_of_nonneg hp.1, abs_sub_comm] at hclose
        exact hclose
      · rintro (rfl | rfl)
        · exact absurd (le_refl 0) hpos
        · exact absurd (le_refl 1) hlt

end CumulativePoints

namespace BivariateDistribution

variable {grid : PrimaryGrid ℝ (Table ℝ)} {rule : PlaneRule} {settings : EvaluationSettings ℝ}
  {d : BivariateDistribution ℝ} {x p y : ℝ} {i : Nat} {lower upper : PrimaryEntry ℝ (Table ℝ)}

/-- The cumulative distribution of a sample is its probability, up to the tolerances. -/
theorem cdf_of_cumulativePoints_sample
    (built : build grid .cumulativePoints rule settings = .ok d)
    (tables : ∀ e ∈ grid.entries, ∃ xs ys, Table.ofColumns xs ys = .ok e.item)
    (interior : d.grid.locate x = .ok (.bin i lower upper)) (hp : p ∈ Set.Icc (0 : ℝ) 1)
    (sampled : d.sampleSingle x p = .ok y) :
    ∃ q, d.conditionalCdf x y = .ok q ∧
      |q - p| ≤ Max.max (settings.relativeError * p) settings.error ∧
      (p = 0 ∨ p = 1 → q = p) := by
  have proper := proper_of_locate built (by decide) tables interior
  obtain rfl := eq_of_build built
  rw [sampleSingle_eq interior rfl hp] at sampled
  cases hsample : CumulativePoints.sample
      ((⟨grid, .cumulativePoints, rule, settings⟩ : BivariateDistribution ℝ).bin x i lower upper)
      p with
  | error e =>
      rw [Policy.sample, hsample] at sampled
      cases sampled
  | ok s =>
      rw [Policy.sample, hsample] at sampled
      obtain rfl : s.sample = y := Except.ok.inj sampled
      obtain ⟨η, hη, hvalue, hclose, hends⟩ :=
        CumulativePoints.coordinate_of_sample proper hp hsample
      refine ⟨_, ?_, hclose, hends⟩
      rw [conditionalCdf_eq interior, hvalue]
      change Except.ok (Bin.mixtureCdf _ _) = _
      rw [proper.mixtureCdf_value hη]

end BivariateDistribution

namespace Bin

theorem sideValue_uniformBin (side : Side) {η : ℝ} (hη : 0 ≤ η) :
    uniformBin.sideValue side η = η * (uniformBin.table side).upperBound := by
  rw [sideValue, (proper_uniformBin.unitBase side).value_eq hη]
  cases side <;>
    norm_num [uniformBin, unitBase, UnitBase.ofEnds, table, scale, PlaneRule.linear, Scale.length,
      Scale.transform, Scale.inverse, Table.uniform, Table.lowerBound, Table.upperBound, mul_comm]

theorem estimate_uniformBin : (uniformBin.mixtureAt (1 / 2)).estimate = 1 / 2 := by
  rw [mixtureAt, sideValue_uniformBin _ one_half_pos.le, sideValue_uniformBin _ one_half_pos.le]
  change uniformBin.mix ((Table.uniform 0.5).cdf (1 / 2 * 0.5)) ((Table.uniform 1).cdf (1 / 2 * 1))
    = 1 / 2
  rw [Table.cdf_uniform (by norm_num) (by norm_num), Table.cdf_uniform (by norm_num) one_pos]
  norm_num [mix, Scale.blend]

theorem middleValue_uniformBin : uniformBin.middleBase.value (1 / 2) = 3 / 8 := by
  rw [proper_uniformBin.middleBase.value_eq (by norm_num)]
  change uniformBin.lowerLimit + uniformBin.mix (0.5 - 0) (1 - 0) * (1 / 2) = 3 / 8
  rw [limits_uniformBin.1]
  norm_num [mix, uniformBin, Scale.blend]

end Bin

/-- The search for `1 / 3` accepts its first estimate, which is `1 / 2`. -/
theorem CumulativePoints.sample_uniformBin :
    sample uniformBin (1 / 3) = .ok (uniformBin.sharedSample (3 / 8)) := by
  have hmiddle : (0.5 : ℝ) * (0 + 1) = 1 / 2 := by norm_num
  have hlow : (uniformBin.mixtureAt 0).estimate ≤ 1 / 3 := by
    rw [Bin.proper_uniformBin.mixtureAt_zero]
    norm_num
  have hhigh : 1 / 3 ≤ (uniformBin.mixtureAt 1).estimate := by
    rw [Bin.proper_uniformBin.mixtureAt_one]
    norm_num
  have hclose : Bisection.accepts (1 / 3) (1 / 3) uniformBin.settings.relativeError
      (Bisection.attempt uniformBin.mixtureAt 0 0 1).points.estimate = true := by
    simp only [Bisection.attempt, hmiddle, Bin.estimate_uniformBin]
    norm_num [Bisection.accepts, Bisection.scaledError, uniformBin, looseSettings, abs_div]
  have hsolve : uniformBin.bisection.solve (1 / 3) 0 1 uniformBin.mixtureAt =
      .ok (Bisection.attempt uniformBin.mixtureAt 0 0 1) :=
    Bisection.solve_of_accepted (by norm_num) (by norm_num) (by norm_num) hlow hhigh hclose
  rw [sample, if_neg (by norm_num), if_neg (by norm_num), hsolve]
  simp only [Bisection.attempt, hmiddle]
  change Except.ok (uniformBin.sharedSample (uniformBin.middleBase.value (1 / 2))) = _
  rw [Bin.middleValue_uniformBin]

namespace BivariateDistribution

noncomputable def uniformMixture : BivariateDistribution ℝ :=
  ⟨uniformGrid, .cumulativePoints, .linear, looseSettings⟩

theorem sampleSingle_uniformMixture : uniformMixture.sampleSingle 0.5 (1 / 3) = .ok (3 / 8) := by
  have hlocate : uniformMixture.grid.locate 0.5 = .ok (.bin 0 narrowEntry wideEntry) :=
    PrimaryGrid.locate_uniformGrid
  rw [sampleSingle_eq hlocate rfl (by norm_num), uniformMixture, bin_uniformGrid, Policy.sample,
    CumulativePoints.sample_uniformBin]
  rfl

theorem cdf_of_uniformMixture_sample :
    build uniformGrid .cumulativePoints .linear looseSettings = .ok uniformMixture ∧
      uniformMixture.grid.locate 0.5 = .ok (.bin 0 narrowEntry wideEntry) ∧
      uniformMixture.sampleSingle 0.5 (1 / 3) = .ok (3 / 8) ∧
      ∃ q, uniformMixture.conditionalCdf 0.5 (3 / 8) = .ok q ∧
        |q - 1 / 3| ≤ Max.max (0.5 * (1 / 3)) 0 := by
  obtain ⟨q, hq, hclose, _⟩ := cdf_of_cumulativePoints_sample (build_uniformGrid .cumulativePoints)
    PrimaryGrid.columns_of_uniformGrid PrimaryGrid.locate_uniformGrid (by norm_num)
    sampleSingle_uniformMixture
  exact ⟨build_uniformGrid _, PrimaryGrid.locate_uniformGrid, sampleSingle_uniformMixture, q, hq,
    hclose⟩

end BivariateDistribution
end AdaptiveTables
