import AdaptiveTables.Proofs.CorrelatedDensity
import AdaptiveTables.Proofs.EqualSides
import AdaptiveTables.Proofs.MixtureRoundTrip

/-!
The range of the samplers. Each policy carries samples of the two sides to its bin in its own way:
as they are, through unit bases, by a blend of matched values or coordinates, or by a search. A
blend rises with both of its ends and a unit base with its coordinate, so every sample stays
between the conditional bounds, the ends of the unit interval give the bounds themselves, and a
sampler that is cut off does not pass the cut.
-/

namespace AdaptiveTables

namespace Scale

variable {fraction a b : ℝ}

theorem linear_blend_mem_unit (hfraction : fraction ∈ Set.Icc (0 : ℝ) 1)
    (ha : a ∈ Set.Icc (0 : ℝ) 1) (hb : b ∈ Set.Icc (0 : ℝ) 1) :
    linear.blend fraction a b ∈ Set.Icc (0 : ℝ) 1 := by
  have hzero := blend_le_blend (s := linear) hfraction trivial trivial trivial trivial ha.1 hb.1
  have hone := blend_le_blend (s := linear) hfraction trivial trivial trivial trivial ha.2 hb.2
  rw [blend_self (s := linear) fraction trivial] at hzero hone
  exact ⟨hzero, hone⟩

theorem logarithmic_blend_mem_unit (hfraction : fraction ∈ Set.Icc (0 : ℝ) 1)
    (ha : a ∈ Set.Ioc (0 : ℝ) 1) (hb : b ∈ Set.Ioc (0 : ℝ) 1) :
    logarithmic.blend fraction a b ∈ Set.Icc (0 : ℝ) 1 := by
  have hcovers : logarithmic.Covers (1 : ℝ) := one_pos
  have hpos : 0 < logarithmic.blend fraction a b :=
    covers_blend (s := logarithmic) fraction ha.1 hb.1
  have hone := blend_le_blend (s := logarithmic) hfraction ha.1 hb.1 hcovers hcovers ha.2 hb.2
  rw [blend_self fraction hcovers] at hone
  exact ⟨hpos.le, hone⟩

end Scale

namespace Table.Sound

variable {t : Table ℝ}

theorem sampleBelow_mem (sound : t.Sound) (p limit : ℝ) :
    t.sampleBelow p limit ∈ Set.Icc t.lowerBound t.upperBound := by
  cases le_or_gt limit t.lowerBound with
  | inl hbelow =>
      rw [sampleBelow, if_pos hbelow]
      exact ⟨le_refl _, sound.lower_lt_upper.le⟩
  | inr habove =>
      obtain ⟨hlow, hhigh⟩ := sound.sampleBelow_mem_cut habove p
      exact ⟨hlow, hhigh.trans (min_le_right _ _)⟩

end Table.Sound

namespace Bin.Proper

variable {b : Bin ℝ} {v limit η : ℝ}

theorem fraction_mem_Icc (proper : b.Proper) : b.fraction ∈ Set.Icc (0 : ℝ) 1 :=
  Set.Ioo_subset_Icc_self proper.fraction_mem

theorem middle_value_mem (proper : b.Proper) (hη : η ∈ Set.Icc (0 : ℝ) 1) :
    b.middleBase.value η ∈ Set.Icc b.lowerLimit b.upperLimit := by
  rw [← proper.middleBase_value_one]
  exact proper.middleBase.value_mem hη

/-- The ends of a side have the coordinates zero and one. -/
theorem side_coordinate_ends (proper : b.Proper) (side : Side) :
    (b.unitBase side).coordinate (b.table side).lowerBound = 0 ∧
      (b.unitBase side).coordinate (b.table side).upperBound = 1 := by
  have hzero := (proper.unitBase side).coordinate_value ⟨le_refl 0, zero_le_one⟩
  have hone := (proper.unitBase side).coordinate_value ⟨zero_le_one, le_refl 1⟩
  rw [(proper.unitBase side).value_zero] at hzero
  rw [proper.unitBase_value_one] at hone
  exact ⟨hzero, hone⟩

theorem rescale_mem (proper : b.Proper) (side : Side)
    (hv : v ∈ Set.Icc (b.table side).lowerBound (b.table side).upperBound) :
    UnitBased.rescale b side v ∈ Set.Icc b.lowerLimit b.upperLimit :=
  proper.middle_value_mem (proper.side_coordinate side hv).1

theorem blendSecondary_mem (proper : b.Proper) {v₀ v₁ : ℝ}
    (hv₀ : v₀ ∈ Set.Icc b.lower.lowerBound b.lower.upperBound)
    (hv₁ : v₁ ∈ Set.Icc b.upper.lowerBound b.upper.upperBound) :
    b.blendSecondary v₀ v₁ ∈ Set.Icc b.lowerLimit b.upperLimit := by
  have hlower₀ : b.scale.Covers b.lower.lowerBound := proper.covers_lower .lower
  have hlower₁ : b.scale.Covers b.upper.lowerBound := proper.covers_lower .upper
  have hupper₀ : b.scale.Covers b.lower.upperBound := proper.covers_upper .lower
  have hupper₁ : b.scale.Covers b.upper.upperBound := proper.covers_upper .upper
  have hcovers₀ := Scale.covers_between hlower₀ hupper₀ hv₀.1 hv₀.2
  have hcovers₁ := Scale.covers_between hlower₁ hupper₁ hv₁.1 hv₁.2
  have hfraction := proper.fraction_mem_Icc
  exact ⟨Scale.blend_le_blend hfraction hlower₀ hlower₁ hcovers₀ hcovers₁ hv₀.1 hv₁.1,
    Scale.blend_le_blend hfraction hcovers₀ hcovers₁ hupper₀ hupper₁ hv₀.2 hv₁.2⟩

end Bin.Proper

/-- From the lower limit of a bin to its upper limit or a given one, whichever is less. It is the
lower limit alone if the given one is not above it. -/
noncomputable def Bin.upTo (b : Bin ℝ) (limit : ℝ) : Set ℝ :=
  Set.Icc b.lowerLimit (max b.lowerLimit (min limit b.upperLimit))

/-- The samples of a policy run from the lower to the upper limit of a bin, and a sampler that is
cut off stays below the cut. -/
structure Policy.SpansLimits (p : Policy) (b : Bin ℝ) : Prop where
  sample_mem : ∀ u r s, p.sample b u r = .ok s → s.sample ∈ Set.Icc b.lowerLimit b.upperLimit
  sample_zero : ∀ u, (p.sample b u 0).map (·.sample) = .ok b.lowerLimit
  sample_one : ∀ u, (p.sample b u 1).map (·.sample) = .ok b.upperLimit
  sampleBelow_mem : ∀ u r limit y, p.sampleBelow b u r limit = .ok y → y ∈ b.upTo limit

namespace Bin

variable {b : Bin ℝ} {u v limit y : ℝ}

theorem lowerLimit_mem_upTo (b : Bin ℝ) (limit : ℝ) : b.lowerLimit ∈ b.upTo limit :=
  ⟨le_refl _, le_max_left _ _⟩

theorem mem_upTo_of_le (hv : v ∈ Set.Icc b.lowerLimit b.upperLimit) (h : b.upperLimit ≤ limit) :
    v ∈ b.upTo limit :=
  ⟨hv.1, le_max_of_le_right (le_min (hv.2.trans h) hv.2)⟩

theorem min_mem_upTo (hv : v ∈ Set.Icc b.lowerLimit b.upperLimit) (h : b.lowerLimit < limit) :
    Scalar.min v limit ∈ b.upTo limit := by
  rw [Exact.min_eq]
  refine ⟨le_min hv.1 h.le, le_max_of_le_right (le_min (min_le_right _ _) ?_)⟩
  exact (min_le_left _ _).trans hv.2

/-- Whatever random number is left after scaling it, a cut sample lies below the cut. -/
theorem mem_upTo_of_sampleMatchedBelow {sample : ℝ → ℝ} {cdf : ℝ → Except (TableError ℝ) ℝ}
    (inside : ∀ p, sample p ∈ Set.Icc b.lowerLimit b.upperLimit)
    (h : b.sampleMatchedBelow sample cdf u limit = .ok y) : y ∈ b.upTo limit := by
  rw [sampleMatchedBelow] at h
  split at h
  next =>
    obtain rfl := Except.ok.inj h
    exact b.lowerLimit_mem_upTo limit
  next habove =>
    split at h
    next hreached =>
      obtain rfl := Except.ok.inj h
      exact mem_upTo_of_le (inside u) hreached
    next =>
      obtain ⟨c, _, hy⟩ := exists_of_bind_eq_ok h
      obtain rfl := Except.ok.inj hy
      exact min_mem_upTo (inside (u * c)) (not_le.mp habove)

end Bin

theorem Direct.sample_mem {b : Bin ℝ} (sound : ∀ side, (b.table side).Sound) (u p : ℝ) :
    (sample b u p).sample ∈ Set.Icc (lowerBound b) (upperBound b) := by
  have hbounds : ∀ side, lowerBound b ≤ (b.table side).lowerBound ∧
      (b.table side).upperBound ≤ upperBound b := by
    intro side
    rw [lowerBound, upperBound, Exact.min_eq, Exact.max_eq]
    cases side with
    | lower => exact ⟨min_le_left _ _, le_max_left _ _⟩
    | upper => exact ⟨min_le_right _ _, le_max_right _ _⟩
  obtain ⟨hlow, hhigh⟩ := (sound (b.pick u)).sample_mem p
  exact ⟨(hbounds _).1.trans hlow, hhigh.trans (hbounds _).2⟩

section Spans

variable {b : Bin ℝ} (proper : b.Proper)

include proper

theorem UnitBased.spansLimits : Policy.unitBase.SpansLimits b where
  sample_mem u r s h := by
    obtain rfl := Except.ok.inj h
    exact proper.rescale_mem _ ((proper.sound _).sample_mem r)
  sample_zero u := by
    have hstart : rescale b (b.pick u) ((b.table (b.pick u)).sample 0) = b.lowerLimit := by
      rw [Table.Sound.sample_of_le_zero _ (le_refl 0), rescale,
        (proper.side_coordinate_ends _).1]
      exact proper.middleBase.value_zero
    exact congrArg Except.ok hstart
  sample_one u := by
    have hend : rescale b (b.pick u) ((b.table (b.pick u)).sample 1) = b.upperLimit := by
      rw [Table.Sound.sample_of_one_le _ (le_refl 1), rescale,
        (proper.side_coordinate_ends _).2]
      exact proper.middleBase_value_one
    exact congrArg Except.ok hend
  sampleBelow_mem u r limit y h := by
    obtain rfl := Except.ok.inj h
    rw [sampleBelow]
    split
    next => exact b.lowerLimit_mem_upTo limit
    next habove =>
      split
      next hreached =>
        exact Bin.mem_upTo_of_le (proper.rescale_mem _ ((proper.sound _).sample_mem r)) hreached
      next =>
        refine Bin.min_mem_upTo (proper.rescale_mem _ ?_) (not_le.mp habove)
        exact (proper.sound _).sampleBelow_mem r _

theorem Correlated.sample_mem (p : ℝ) :
    sample b p ∈ Set.Icc b.lowerLimit b.upperLimit := by
  rw [sample_eq_blend proper]
  exact proper.blendSecondary_mem ((proper.sound .lower).sample_mem p)
    ((proper.sound .upper).sample_mem p)

theorem Correlated.spansLimits : Policy.correlated.SpansLimits b where
  sample_mem u r s h := by
    obtain rfl := Except.ok.inj h
    exact sample_mem proper r
  sample_zero u := by
    have hstart : sample b 0 = b.lowerLimit := by
      simp only [sample_eq_blend proper, Table.Sound.sample_of_le_zero _ (le_refl 0)]
      rfl
    exact congrArg Except.ok hstart
  sample_one u := by
    have hend : sample b 1 = b.upperLimit := by
      simp only [sample_eq_blend proper, Table.Sound.sample_of_one_le _ (le_refl 1)]
      rfl
    exact congrArg Except.ok hend
  sampleBelow_mem u r limit y h := Bin.mem_upTo_of_sampleMatchedBelow (sample_mem proper) h

theorem UnitBaseCorrelated.blendCoordinates_mem {η₀ η₁ : ℝ} (hη₀ : η₀ ∈ Set.Icc (0 : ℝ) 1)
    (hη₁ : η₁ ∈ Set.Icc (0 : ℝ) 1) : blendCoordinates b η₀ η₁ ∈ Set.Icc (0 : ℝ) 1 := by
  have hfraction := proper.fraction_mem_Icc
  have hlinear := Scale.linear_blend_mem_unit hfraction hη₀ hη₁
  rw [blendCoordinates]
  split
  next hlog =>
    rw [Scale.blendOrLinear, Scale.isLogarithmic_iff.mp hlog]
    split
    next hadmits =>
      rw [Bool.and_eq_true] at hadmits
      have hpos₀ : 0 < η₀ := Scale.covers_of_admits hadmits.1
      have hpos₁ : 0 < η₁ := Scale.covers_of_admits hadmits.2
      exact Scale.logarithmic_blend_mem_unit hfraction ⟨hpos₀, hη₀.2⟩ ⟨hpos₁, hη₁.2⟩
    next => exact hlinear
  next => exact hlinear

theorem UnitBaseCorrelated.sample_mem (p : ℝ) :
    sample b p ∈ Set.Icc b.lowerLimit b.upperLimit := by
  have hcoordinate (side : Side) :
      sideCoordinate b side ((b.table side).sample p) ∈ Set.Icc (0 : ℝ) 1 :=
    (proper.side_coordinate side ((proper.sound side).sample_mem p)).1
  exact proper.middle_value_mem
    (blendCoordinates_mem proper (hcoordinate .lower) (hcoordinate .upper))

/-- The samples of the ends of the unit interval have these ends as their coordinates. -/
theorem UnitBaseCorrelated.sideCoordinate_ends (side : Side) :
    sideCoordinate b side ((b.table side).sample 0) = 0 ∧
      sideCoordinate b side ((b.table side).sample 1) = 1 := by
  rw [Table.Sound.sample_of_le_zero _ (le_refl 0), Table.Sound.sample_of_one_le _ (le_refl 1)]
  exact proper.side_coordinate_ends side

omit proper in
/-- Sides that sample one coordinate give the value of the bin's grid there. -/
theorem UnitBaseCorrelated.sample_of_coordinate {p η : ℝ}
    (h : ∀ side, sideCoordinate b side ((b.table side).sample p) = η) :
    sample b p = b.middleBase.value η := by
  change b.middleBase.value (blendCoordinates b (sideCoordinate b .lower
    ((b.table .lower).sample p)) (sideCoordinate b .upper ((b.table .upper).sample p))) = _
  rw [h, h, blendCoordinates_self]

theorem UnitBaseCorrelated.spansLimits : Policy.unitBaseCorrelated.SpansLimits b where
  sample_mem u r s h := by
    obtain rfl := Except.ok.inj h
    exact sample_mem proper r
  sample_zero u := by
    have hzero (side : Side) := (sideCoordinate_ends proper side).1
    have hstart := (sample_of_coordinate hzero).trans proper.middleBase.value_zero
    exact congrArg Except.ok hstart
  sample_one u := by
    have hone (side : Side) := (sideCoordinate_ends proper side).2
    have hend := (sample_of_coordinate hone).trans proper.middleBase_value_one
    exact congrArg Except.ok hend
  sampleBelow_mem u r limit y h := Bin.mem_upTo_of_sampleMatchedBelow (sample_mem proper) h

theorem CumulativePoints.sample_mem {p : ℝ} {s : SecondarySample ℝ} (h : sample b p = .ok s) :
    s.sample ∈ Set.Icc b.lowerLimit b.upperLimit := by
  cases le_or_gt p 0 with
  | inl hle =>
      rw [sample, if_pos hle] at h
      obtain rfl := Except.ok.inj h
      exact ⟨le_refl _, proper.lowerLimit_lt_upperLimit.le⟩
  | inr hpos =>
      cases le_or_gt 1 p with
      | inl hge =>
          rw [sample, if_neg (not_le.mpr hpos), if_pos hge] at h
          obtain rfl := Except.ok.inj h
          exact ⟨proper.lowerLimit_lt_upperLimit.le, le_refl _⟩
      | inr hlt =>
          obtain ⟨η, hη, hs, _⟩ := coordinate_of_sample proper ⟨hpos.le, hlt.le⟩ h
          rw [hs]
          exact proper.middle_value_mem hη

theorem CumulativePoints.spansLimits : Policy.cumulativePoints.SpansLimits b where
  sample_mem u r s h := sample_mem proper h
  sample_zero u := by
    rw [Policy.sample, sample, if_pos (le_refl 0)]
    rfl
  sample_one u := by
    rw [Policy.sample, sample, if_neg (not_le.mpr one_pos), if_pos (le_refl 1)]
    rfl
  sampleBelow_mem u r limit y h := by
    rw [Policy.sampleBelow, sampleBelow] at h
    split at h
    next =>
      obtain rfl := Except.ok.inj h
      exact b.lowerLimit_mem_upTo limit
    next habove =>
      obtain ⟨s, hs, hy⟩ := exists_of_bind_eq_ok h
      obtain rfl := Except.ok.inj hy
      exact Bin.min_mem_upTo (sample_mem proper hs) (not_le.mp habove)

end Spans

theorem Policy.spansLimits {p : Policy} {b : Bin ℝ} (proper : b.Proper) (bounded : p ≠ .direct) :
    p.SpansLimits b := by
  cases p with
  | direct => exact absurd rfl bounded
  | unitBase => exact UnitBased.spansLimits proper
  | correlated => exact Correlated.spansLimits proper
  | unitBaseCorrelated => exact UnitBaseCorrelated.spansLimits proper
  | cumulativePoints => exact CumulativePoints.spansLimits proper

namespace BivariateDistribution

variable {grid : PrimaryGrid ℝ (Table ℝ)} {policy : Policy} {rule : PlaneRule}
  {settings : EvaluationSettings ℝ} {d : BivariateDistribution ℝ} {x : ℝ} {i : Nat}
  {lower upper : PrimaryEntry ℝ (Table ℝ)}

section Queries

variable (interior : d.grid.locate x = .ok (.bin i lower upper)) {u p limit y : ℝ}

include interior

/-- A sample that is returned was drawn from the bin. -/
theorem exists_policy_sample (h : d.sample x u p = .ok y) :
    ∃ s, d.policy.sample (d.bin x i lower upper) u p = .ok s ∧ s.sample = y := by
  rw [sample] at h
  cases hdetailed : d.sampleDetailed x u p with
  | error e =>
      rw [hdetailed] at h
      cases h
  | ok s =>
      rw [hdetailed] at h
      obtain ⟨_, _, hrest⟩ := exists_of_bind_eq_ok hdetailed
      obtain ⟨_, _, hs⟩ := exists_of_bind_eq_ok hrest
      rw [dispatch, interior] at hs
      exact ⟨s, hs, Except.ok.inj h⟩

theorem policy_sampleBelow (h : d.sampleBelow x u p limit = .ok y) :
    d.policy.sampleBelow (d.bin x i lower upper) u p limit = .ok y := by
  obtain ⟨_, _, hrest⟩ := exists_of_bind_eq_ok h
  obtain ⟨_, _, hy⟩ := exists_of_bind_eq_ok hrest
  rwa [dispatch, interior] at hy

end Queries

theorem samples_stay_inside (built : build grid policy rule settings = .ok d)
    (tables : ∀ e ∈ grid.entries, ∃ xs ys, Table.ofColumns xs ys = .ok e.item)
    (interior : d.grid.locate x = .ok (.bin i lower upper)) :
    ∃ low high, d.conditionalLowerBound x = .ok low ∧ d.conditionalUpperBound x = .ok high ∧
      (∀ u p y, d.sample x u p = .ok y → y ∈ Set.Icc low high) ∧
      (policy ≠ .direct →
        (∀ u ∈ Set.Icc (0 : ℝ) 1, d.sample x u 0 = .ok low ∧ d.sample x u 1 = .ok high) ∧
        ∀ u p limit y, d.sampleBelow x u p limit = .ok y →
          y ∈ Set.Icc low (max low (min limit high))) := by
  have spans (bounded : policy ≠ .direct) : policy.SpansLimits (d.bin x i lower upper) :=
    Policy.spansLimits (proper_of_locate built bounded tables interior) bounded
  have sound := sound_of_locate (by rwa [eq_of_build built]) interior
  have hpolicy : d.policy = policy := by rw [eq_of_build built]
  have hlower := conditionalLowerBound_eq interior
  have hupper := conditionalUpperBound_eq interior
  rw [hpolicy] at hlower hupper
  refine ⟨_, _, hlower, hupper, fun u p y h => ?_, fun bounded => ?_⟩
  · obtain ⟨s, hs, rfl⟩ := exists_policy_sample interior h
    rw [hpolicy] at hs
    by_cases hdirect : policy = .direct
    · subst hdirect
      obtain rfl := Except.ok.inj hs
      exact Direct.sample_mem sound u p
    · obtain ⟨hlow, hhigh⟩ := Policy.bounds_of_bounded (b := d.bin x i lower upper) hdirect
      rw [hlow, hhigh]
      exact (spans hdirect).sample_mem u p s hs
  · obtain ⟨hlow, hhigh⟩ := Policy.bounds_of_bounded (b := d.bin x i lower upper) bounded
    rw [hlow, hhigh]
    have hzero : (0 : ℝ) ∈ Set.Icc (0 : ℝ) 1 := ⟨le_refl 0, zero_le_one⟩
    have hone : (1 : ℝ) ∈ Set.Icc (0 : ℝ) 1 := ⟨zero_le_one, le_refl 1⟩
    refine ⟨fun u hu => ⟨?_, ?_⟩, fun u p limit y h => ?_⟩
    · rw [sample_eq interior hu hzero, hpolicy]
      exact (spans bounded).sample_zero u
    · rw [sample_eq interior hu hone, hpolicy]
      exact (spans bounded).sample_one u
    · have hbelow := policy_sampleBelow interior h
      rw [hpolicy] at hbelow
      exact (spans bounded).sampleBelow_mem u p limit y hbelow

theorem uniformGrid_samples_stay_inside :
    let d : BivariateDistribution ℝ := ⟨uniformGrid, .cumulativePoints, .linear, looseSettings⟩
    build uniformGrid .cumulativePoints .linear looseSettings = .ok d ∧
      d.grid.locate 0.5 = .ok (.bin 0 narrowEntry wideEntry) ∧
      d.conditionalLowerBound 0.5 = .ok 0 ∧ d.conditionalUpperBound 0.5 = .ok (3 / 4) ∧
      (∀ u p y, d.sample 0.5 u p = .ok y → y ∈ Set.Icc 0 (3 / 4)) ∧
      d.sample 0.5 0 0 = .ok 0 ∧ d.sample 0.5 0 1 = .ok (3 / 4) ∧
      ∀ u p y, d.sampleBelow 0.5 u p (1 / 2) = .ok y → y ∈ Set.Icc 0 (1 / 2) := by
  intro d
  have hbuilt := build_uniformGrid .cumulativePoints
  have hlocate : d.grid.locate 0.5 = _ := PrimaryGrid.locate_uniformGrid
  obtain ⟨hlow, hhigh⟩ := Bin.limits_uniformBin
  have hlower : d.conditionalLowerBound 0.5 = .ok 0 := by
    rw [conditionalLowerBound_eq hlocate, bin_uniformGrid, ← hlow]
    rfl
  have hupper : d.conditionalUpperBound 0.5 = .ok (3 / 4) := by
    rw [conditionalUpperBound_eq hlocate, bin_uniformGrid, ← hhigh]
    rfl
  obtain ⟨low, high, hlow, hhigh, hinside, hends⟩ :=
    samples_stay_inside hbuilt PrimaryGrid.columns_of_uniformGrid hlocate
  obtain rfl := Except.ok.inj (hlower.symm.trans hlow)
  obtain rfl := Except.ok.inj (hupper.symm.trans hhigh)
  obtain ⟨hreached, hbelow⟩ := hends (by decide)
  obtain ⟨hzero, hone⟩ := hreached 0 ⟨le_refl 0, zero_le_one⟩
  refine ⟨hbuilt, hlocate, hlower, hupper, hinside, hzero, hone, fun u p y h => ?_⟩
  have hcut := hbelow u p (1 / 2) y h
  norm_num at hcut
  exact hcut

end BivariateDistribution
end AdaptiveTables
