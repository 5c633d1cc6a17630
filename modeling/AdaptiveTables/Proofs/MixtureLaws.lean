import AdaptiveTables.Proofs.MixtureRoundTrip

/-!
Laws of the samplers that pick a side of a bin. If the sample of each side stays below a value
exactly for the random numbers up to some level, then the sampler stays below it with the mixture
of the two levels as its probability. On the unit base the sampler carries a sample over the unit
base of its side to the bin's own grid, and the cumulative distribution carries a value the other
way. Both routes keep the order, so the cumulative distribution is the law of the sampler.
-/

namespace AdaptiveTables

open MeasureTheory

namespace Bin

variable {b : Bin ℝ}

section Pick

variable {S : Side → ℝ → ℝ} {F : Side → ℝ} {y : ℝ}

/-- The random numbers of the bin and of the side with a sample that does not exceed `y`. -/
def picksBelow (b : Bin ℝ) (S : Side → ℝ → ℝ) (y : ℝ) : Set (ℝ × ℝ) :=
  {q | q.1 ∈ Set.Icc (0 : ℝ) 1 ∧ q.2 ∈ Set.Icc (0 : ℝ) 1 ∧ S (b.pick q.1) q.2 ≤ y}

theorem volume_picksBelow_le (hF : ∀ side, 0 ≤ F side)
    (law : ∀ side, ∀ p ∈ Set.Ioo (0 : ℝ) 1, S side p ≤ y ↔ p ≤ F side) :
    volume (b.picksBelow S y) ≤ ENNReal.ofReal b.fraction * ENNReal.ofReal (F .upper) +
      ENNReal.ofReal (1 - b.fraction) * ENNReal.ofReal (F .lower) := by
  -- The random number one may lie beyond both levels, but it has no weight.
  have hcover : b.picksBelow S y ⊆
      (Set.Ico 0 b.fraction ×ˢ Set.Icc 0 (F .upper) ∪
        Set.Icc b.fraction 1 ×ˢ Set.Icc 0 (F .lower)) ∪ Set.univ ×ˢ {1} := by
    rintro ⟨u, p⟩ ⟨hu, hp, hle⟩
    by_cases hone : p = 1
    · exact Or.inr ⟨trivial, hone⟩
    left
    have hlevel : ∀ side, S side p ≤ y → p ∈ Set.Icc 0 (F side) := by
      intro side h
      refine ⟨hp.1, ?_⟩
      cases eq_or_lt_of_le hp.1 with
      | inl hzero => exact le_of_eq_of_le hzero.symm (hF side)
      | inr hpos => exact (law side p ⟨hpos, lt_of_le_of_ne hp.2 hone⟩).mp h
    simp only [pick] at hle
    split at hle
    next hlt => exact Or.inl ⟨⟨hu.1, hlt⟩, hlevel .upper hle⟩
    next hge => exact Or.inr ⟨⟨not_lt.mp hge, hu.2⟩, hlevel .lower hle⟩
  refine (measure_mono hcover).trans ((measure_union_le _ _).trans ?_)
  rw [Measure.volume_eq_prod, Measure.prod_prod, Real.volume_singleton, mul_zero, add_zero]
  refine (measure_union_le _ _).trans ?_
  simp only [Measure.prod_prod, Real.volume_Ico, Real.volume_Icc, sub_zero, le_refl]

theorem le_volume_picksBelow (hfraction : b.fraction ∈ Set.Ioo (0 : ℝ) 1)
    (hF : ∀ side, F side ≤ 1)
    (law : ∀ side, ∀ p ∈ Set.Ioo (0 : ℝ) 1, S side p ≤ y ↔ p ≤ F side) :
    ENNReal.ofReal b.fraction * ENNReal.ofReal (F .upper) +
      ENNReal.ofReal (1 - b.fraction) * ENNReal.ofReal (F .lower) ≤
        volume (b.picksBelow S y) := by
  have hbelow : ∀ side, ∀ p ∈ Set.Ioo 0 (F side), p ∈ Set.Icc (0 : ℝ) 1 ∧ S side p ≤ y := by
    intro side p hp
    have hone : p < 1 := lt_of_lt_of_le hp.2 (hF side)
    exact ⟨⟨hp.1.le, hone.le⟩, (law side p ⟨hp.1, hone⟩).mpr hp.2.le⟩
  have hinside : Set.Ico 0 b.fraction ×ˢ Set.Ioo 0 (F .upper) ∪
      Set.Icc b.fraction 1 ×ˢ Set.Ioo 0 (F .lower) ⊆ b.picksBelow S y := by
    rintro ⟨u, p⟩ (⟨hu, hp⟩ | ⟨hu, hp⟩)
    · have hpick : b.pick u = .upper := if_pos hu.2
      obtain ⟨hunit, hle⟩ := hbelow .upper p hp
      exact ⟨⟨hu.1, hu.2.le.trans hfraction.2.le⟩, hunit, hpick ▸ hle⟩
    · have hpick : b.pick u = .lower := if_neg (not_lt.mpr hu.1)
      obtain ⟨hunit, hle⟩ := hbelow .lower p hp
      exact ⟨⟨hfraction.1.le.trans hu.1, hu.2⟩, hunit, hpick ▸ hle⟩
  have hdisjoint : Disjoint (Set.Ico 0 b.fraction ×ˢ Set.Ioo 0 (F .upper))
      (Set.Icc b.fraction 1 ×ˢ Set.Ioo 0 (F .lower)) := by
    rw [Set.disjoint_left]
    rintro ⟨u, p⟩ hu hu'
    exact absurd hu.1.2 (not_lt.mpr hu'.1.1)
  refine le_trans (le_of_eq ?_) (measure_mono hinside)
  rw [measure_union hdisjoint (measurableSet_Icc.prod measurableSet_Ioo),
    Measure.volume_eq_prod, Measure.prod_prod, Measure.prod_prod]
  simp only [Real.volume_Ico, Real.volume_Icc, Real.volume_Ioo, sub_zero]

/-- If the sample of each side stays below `y` up to a level, the mixture of the levels is the
probability of staying below. -/
theorem volume_picksBelow (hfraction : b.fraction ∈ Set.Ioo (0 : ℝ) 1)
    (hF : ∀ side, F side ∈ Set.Icc (0 : ℝ) 1)
    (law : ∀ side, ∀ p ∈ Set.Ioo (0 : ℝ) 1, S side p ≤ y ↔ p ≤ F side) :
    volume (b.picksBelow S y) = ENNReal.ofReal (b.mix (F .lower) (F .upper)) := by
  have hrest : 0 ≤ 1 - b.fraction := sub_nonneg.mpr hfraction.2.le
  rw [mix_eq, ENNReal.ofReal_add (mul_nonneg hrest (hF .lower).1)
    (mul_nonneg hfraction.1.le (hF .upper).1), ENNReal.ofReal_mul hfraction.1.le,
    ENNReal.ofReal_mul hrest, add_comm]
  apply le_antisymm
  · exact volume_picksBelow_le (fun side => (hF side).1) law
  · exact le_volume_picksBelow hfraction (fun side => (hF side).2) law

end Pick

end Bin

namespace BivariateDistribution

variable {d : BivariateDistribution ℝ} {x y : ℝ} {i : Nat}
  {lower upper : PrimaryEntry ℝ (Table ℝ)}

/-- The pairs of random numbers with a sample that does not exceed a value. Numbers outside the
unit interval have none. -/
def drawsBelow (d : BivariateDistribution ℝ) (x y : ℝ) : Set (ℝ × ℝ) :=
  {q | ∃ s, d.sample x q.1 q.2 = .ok s ∧ s ≤ y}

theorem mem_unit_of_checkRandomNumber {u : ℝ} {r : Unit} (h : checkRandomNumber u = .ok r) :
    u ∈ Set.Icc (0 : ℝ) 1 := by
  rw [checkRandomNumber] at h
  split at h
  next hunit => simpa [Scalar.inUnit] using hunit
  next => cases h

theorem mem_unit_of_sample {u p s : ℝ} (h : d.sample x u p = .ok s) :
    u ∈ Set.Icc (0 : ℝ) 1 ∧ p ∈ Set.Icc (0 : ℝ) 1 := by
  rw [sample, sampleDetailed] at h
  cases hu : checkRandomNumber u with
  | error e =>
      rw [hu] at h
      cases h
  | ok _ =>
      cases hp : checkRandomNumber p with
      | error e =>
          rw [hu, hp] at h
          cases h
      | ok _ => exact ⟨mem_unit_of_checkRandomNumber hu, mem_unit_of_checkRandomNumber hp⟩

/-- The probability that a sampler which picks a side stays below a value. -/
theorem volume_drawsBelow {S : Side → ℝ → ℝ} {F : Side → ℝ}
    (interior : d.grid.locate x = .ok (.bin i lower upper))
    (hfraction : (d.bin x i lower upper).fraction ∈ Set.Ioo (0 : ℝ) 1)
    (sampled : ∀ u p, (d.policy.sample (d.bin x i lower upper) u p).map (·.sample) =
      .ok (S ((d.bin x i lower upper).pick u) p))
    (hF : ∀ side, F side ∈ Set.Icc (0 : ℝ) 1)
    (law : ∀ side, ∀ p ∈ Set.Ioo (0 : ℝ) 1, S side p ≤ y ↔ p ≤ F side) :
    volume (d.drawsBelow x y) =
      ENNReal.ofReal ((d.bin x i lower upper).mix (F .lower) (F .upper)) := by
  rw [← Bin.volume_picksBelow hfraction hF law]
  congr 1
  ext ⟨u, p⟩
  constructor
  · rintro ⟨s, hs, hle⟩
    obtain ⟨hu, hp⟩ := mem_unit_of_sample hs
    rw [sample_eq interior hu hp, sampled] at hs
    obtain rfl := Except.ok.inj hs
    exact ⟨hu, hp, hle⟩
  · rintro ⟨hu, hp, hle⟩
    refine ⟨_, ?_, hle⟩
    rw [sample_eq interior hu hp, sampled]

end BivariateDistribution

namespace Bin.Proper

variable {b : Bin ℝ} {s y : ℝ}

/-- A value of a side is carried below `y` exactly if it lies below the value that `y` is carried
to on the side. -/
theorem rescale_le_iff (proper : b.Proper) (side : Side)
    (hs : s ∈ Set.Icc (b.table side).lowerBound (b.table side).upperBound)
    (hy : y ∈ Set.Ioo b.lowerLimit b.upperLimit) :
    UnitBased.rescale b side s ≤ y ↔ s ≤ b.sideValue side (b.middleBase.coordinate y) := by
  obtain ⟨hη, hvalue⟩ := proper.middle_coordinate hy
  obtain ⟨hσ, hback⟩ := proper.side_coordinate side hs
  calc UnitBased.rescale b side s ≤ y
      ↔ b.middleBase.value ((b.unitBase side).coordinate s) ≤
          b.middleBase.value (b.middleBase.coordinate y) := by
        rw [hvalue]
        rfl
    _ ↔ (b.unitBase side).coordinate s ≤ b.middleBase.coordinate y :=
        proper.middleBase.strictMonoOn_value.le_iff_le hσ.1 hη.1.le
    _ ↔ (b.unitBase side).value ((b.unitBase side).coordinate s) ≤
          (b.unitBase side).value (b.middleBase.coordinate y) :=
        ((proper.unitBase side).strictMonoOn_value.le_iff_le hσ.1 hη.1.le).symm
    _ ↔ s ≤ b.sideValue side (b.middleBase.coordinate y) := by
        rw [hback]
        rfl

theorem rescaled_sample_le_iff (proper : b.Proper) (side : Side)
    (hy : y ∈ Set.Ioo b.lowerLimit b.upperLimit) {p : ℝ} (hp : p ∈ Set.Ioo (0 : ℝ) 1) :
    UnitBased.rescale b side ((b.table side).sample p) ≤ y ↔
      p ≤ (b.table side).cdf (b.sideValue side (b.middleBase.coordinate y)) := by
  rw [proper.rescale_le_iff side ((proper.sound side).sample_mem p) hy]
  exact (proper.sound side).sample_le_iff hp.1 hp.2

theorem mixtureCdf_of_mem (b : Bin ℝ) (hy : y ∈ Set.Ioo b.lowerLimit b.upperLimit) :
    b.mixtureCdf y =
      b.mix (b.lower.cdf (b.sideValue .lower (b.middleBase.coordinate y)))
        (b.upper.cdf (b.sideValue .upper (b.middleBase.coordinate y))) := by
  rw [Bin.mixtureCdf, if_neg (not_le.mpr hy.1), if_neg (not_le.mpr hy.2)]
  rfl

end Bin.Proper

namespace BivariateDistribution

variable {grid : PrimaryGrid ℝ (Table ℝ)} {policy : Policy} {rule : PlaneRule}
  {settings : EvaluationSettings ℝ} {d : BivariateDistribution ℝ} {x y low high : ℝ} {i : Nat}
  {lower upper : PrimaryEntry ℝ (Table ℝ)}

/-- The conditional distribution of both unit-base policies is the mixture of the sides at the
values with one coordinate, and the sampler that picks a side follows it. -/
theorem mixture_is_law_of_sampler (built : build grid policy rule settings = .ok d)
    (mixes : policy = .unitBase ∨ policy = .cumulativePoints)
    (tables : ∀ e ∈ grid.entries, ∃ xs ys, Table.ofColumns xs ys = .ok e.item)
    (interior : d.grid.locate x = .ok (.bin i lower upper))
    (hlow : d.conditionalLowerBound x = .ok low) (hhigh : d.conditionalUpperBound x = .ok high)
    (hy : y ∈ Set.Ioo low high) :
    let b := d.bin x i lower upper
    let β := rule.primary.fraction lower.value upper.value x
    let level (side : Side) :=
      (b.table side).cdf (b.sideValue side (b.middleBase.coordinate y))
    d.conditionalCdf x y = .ok ((1 - β) * level .lower + β * level .upper) ∧
      (policy = .unitBase →
        (∀ u ∈ Set.Icc (0 : ℝ) 1, ∀ p ∈ Set.Ioo (0 : ℝ) 1, ∃ s, d.sample x u p = .ok s ∧
          (s ≤ y ↔ p ≤ if u < β then level .upper else level .lower)) ∧
        volume (d.drawsBelow x y) =
          ENNReal.ofReal ((1 - β) * level .lower + β * level .upper)) := by
  intro b β level
  have bounded : policy ≠ .direct := by
    rintro rfl
    simp at mixes
  have proper : b.Proper := proper_of_locate built bounded tables interior
  obtain rfl := eq_of_build built
  have hlimits : y ∈ Set.Ioo b.lowerLimit b.upperLimit := by
    obtain ⟨rfl, rfl⟩ := limits_of_bounds interior bounded hlow hhigh
    exact hy
  have hmixture : b.mixtureCdf y = (1 - β) * level .lower + β * level .upper :=
    (Bin.Proper.mixtureCdf_of_mem b hlimits).trans (b.mix_eq _ _)
  refine ⟨?_, ?_⟩
  · rw [conditionalCdf_eq interior, ← hmixture]
    cases mixes with
    | inl h =>
        subst h
        rfl
    | inr h =>
        subst h
        rfl
  · rintro rfl
    have hsampled : ∀ u p, (Policy.unitBase.sample b u p).map (·.sample) =
        .ok (UnitBased.rescale b (b.pick u) ((b.table (b.pick u)).sample p)) := fun _ _ => rfl
    refine ⟨fun u hu p hp => ?_, ?_⟩
    · refine ⟨_, (sample_eq interior hu ⟨hp.1.le, hp.2.le⟩).trans (hsampled u p), ?_⟩
      rw [proper.rescaled_sample_le_iff _ hlimits hp]
      change p ≤ level (if u < β then .upper else .lower) ↔ _
      rw [apply_ite level]
    · rw [volume_drawsBelow interior proper.fraction_mem hsampled
        (fun side => (proper.sound side).cdf_mem _)
        (fun side p hp => proper.rescaled_sample_le_iff side hlimits hp), Bin.mix_eq]
      rfl

noncomputable def uniformPick : BivariateDistribution ℝ :=
  ⟨uniformGrid, .unitBase, .linear, looseSettings⟩

theorem limits_uniformPick :
    uniformPick.conditionalLowerBound 0.5 = .ok 0 ∧
      uniformPick.conditionalUpperBound 0.5 = .ok (3 / 4) := by
  have hlocate : uniformPick.grid.locate 0.5 = .ok (.bin 0 narrowEntry wideEntry) :=
    PrimaryGrid.locate_uniformGrid
  obtain ⟨hlower, hupper⟩ := Bin.limits_uniformBin
  rw [conditionalLowerBound_eq hlocate, conditionalUpperBound_eq hlocate, uniformPick,
    bin_uniformGrid, ← hlower, ← hupper]
  exact ⟨rfl, rfl⟩

theorem level_uniformPick (side : Side) :
    (uniformBin.table side).cdf
      (uniformBin.sideValue side (uniformBin.middleBase.coordinate (3 / 8))) = 1 / 2 := by
  have hcoordinate : uniformBin.middleBase.coordinate (3 / 8) = 1 / 2 := by
    rw [← Bin.middleValue_uniformBin,
      Bin.proper_uniformBin.middleBase.coordinate_value (by norm_num)]
  rw [hcoordinate, Bin.sideValue_uniformBin side one_half_pos.le]
  cases side with
  | lower =>
      change (Table.uniform 0.5).cdf (1 / 2 * 0.5) = 1 / 2
      rw [Table.cdf_uniform (by norm_num) (by norm_num)]
      norm_num
  | upper =>
      change (Table.uniform 1).cdf (1 / 2 * 1) = 1 / 2
      rw [Table.cdf_uniform (by norm_num) one_pos]
      norm_num

/-- Half of all samples stay below the middle of the domain. -/
theorem mixture_is_law_of_uniformPick :
    build uniformGrid .unitBase .linear looseSettings = .ok uniformPick ∧
      uniformPick.grid.locate 0.5 = .ok (.bin 0 narrowEntry wideEntry) ∧
      uniformPick.conditionalLowerBound 0.5 = .ok 0 ∧
      uniformPick.conditionalUpperBound 0.5 = .ok (3 / 4) ∧
      uniformPick.conditionalCdf 0.5 (3 / 8) = .ok (1 / 2) ∧
      (∃ s, uniformPick.sample 0.5 (1 / 4) (1 / 3) = .ok s ∧
        (s ≤ 3 / 8 ↔ (1 / 3 : ℝ) ≤ 1 / 2)) ∧
      volume (uniformPick.drawsBelow 0.5 (3 / 8)) = ENNReal.ofReal (1 / 2) := by
  obtain ⟨hlow, hhigh⟩ := limits_uniformPick
  have hlaw := mixture_is_law_of_sampler (build_uniformGrid .unitBase) (Or.inl rfl)
    PrimaryGrid.columns_of_uniformGrid PrimaryGrid.locate_uniformGrid hlow hhigh
    (show (3 / 8 : ℝ) ∈ Set.Ioo 0 (3 / 4) by norm_num)
  rw [bin_uniformGrid] at hlaw
  simp only [level_uniformPick, ite_self] at hlaw
  obtain ⟨hcdf, hsampler⟩ := hlaw
  obtain ⟨hsample, hvolume⟩ := hsampler trivial
  have hmixed : ∀ β : ℝ, (1 - β) * (1 / 2) + β * (1 / 2) = 1 / 2 := fun β => by ring
  rw [hmixed] at hcdf hvolume
  exact ⟨build_uniformGrid _, PrimaryGrid.locate_uniformGrid, hlow, hhigh, hcdf,
    hsample (1 / 4) (by norm_num) (1 / 3) (by norm_num), hvolume⟩

end BivariateDistribution
end AdaptiveTables
