import AdaptiveTables.Proofs.Bins
import AdaptiveTables.Grid.Estimate

/-!
Unit bases as isomorphisms of orders. A coordinate is a fraction that is moved to an end of the
unit interval if it lies just beyond it. Between the ends of a grid nothing is moved, so values and
coordinates determine each other and rise together, and moving keeps the order everywhere else. The
grid between two others runs between their blended ends, and it makes no difference whether its
length is measured there or blended from theirs.
-/

namespace AdaptiveTables

namespace UnitBase

/-- Moves a fraction to an end of the unit interval that it misses by less than a tolerance. -/
noncomputable def snap (tolerance η : ℝ) : ℝ :=
  if 1 < η && η - 1 < tolerance then 1 else if η < 0 && -tolerance < η then 0 else η

theorem monotone_snap (tolerance : ℝ) : Monotone (snap tolerance) := by
  intro η η' h
  simp only [snap, Bool.and_eq_true, decide_eq_true_eq]
  split_ifs <;> grind

/-- A unit base carries the values up to the end of its grid in order onto the unit interval, and
brings the coordinates back to them. -/
structure Isomorphic (u : UnitBase ℝ) (upper : ℝ) : Prop where
  zero : u.coordinate u.lower = 0
  one : u.coordinate upper = 1
  strictMonoOn : StrictMonoOn u.coordinate (Set.Icc u.lower upper)
  bijOn : Set.BijOn u.coordinate (Set.Icc u.lower upper) (Set.Icc 0 1)
  monotoneOn : MonotoneOn u.coordinate {v | u.scale.admits v = true}
  invOn : Set.InvOn u.value u.coordinate (Set.Icc u.lower upper) (Set.Icc 0 1)

section Ends

variable {s : Scale} {lower upper : ℝ} (hlower : s.Covers lower) (hupper : s.Covers upper)
  (range : lower < upper)

theorem coordinate_ofEnds (s : Scale) (lower upper tolerance v : ℝ) :
    (ofEnds s lower upper tolerance).coordinate v = snap tolerance (s.fraction lower upper v) :=
  rfl

include hlower hupper range

theorem isomorphic_ofEnds (tolerance : ℝ) :
    (ofEnds s lower upper tolerance).Isomorphic upper := by
  have proper : (ofEnds s lower upper tolerance).Proper := proper_ofEnds hlower hupper range
  have hend : (ofEnds s lower upper tolerance).value 1 = upper :=
    value_one_ofEnds hlower hupper range
  have hfraction := Scale.strictMonoOn_fraction hlower hupper range
  have zero := proper.coordinate_value ⟨le_refl 0, zero_le_one⟩
  have one := proper.coordinate_value ⟨zero_le_one, le_refl 1⟩
  rw [proper.value_zero] at zero
  rw [hend] at one
  have invOn : Set.InvOn (ofEnds s lower upper tolerance).value
      (ofEnds s lower upper tolerance).coordinate (Set.Icc lower upper) (Set.Icc 0 1) :=
    ⟨fun v hv => proper.value_coordinate (hend.symm ▸ hv), fun η hη => proper.coordinate_value hη⟩
  refine ⟨zero, one, fun v hv v' hv' h => ?_, invOn.bijOn ?_ ?_, fun v hv v' hv' h => ?_, invOn⟩
  · rw [proper.coordinate_of_mem (hend.symm ▸ hv), proper.coordinate_of_mem (hend.symm ▸ hv')]
    exact hfraction (Scale.covers_between hlower hupper hv.1 hv.2)
      (Scale.covers_between hlower hupper hv'.1 hv'.2) h
  · exact fun v hv => proper.coordinate_mem (hend.symm ▸ hv)
  · intro η hη
    have hvalue := proper.value_mem hη
    rwa [hend] at hvalue
  · rw [coordinate_ofEnds, coordinate_ofEnds]
    exact monotone_snap tolerance (hfraction.monotoneOn (Scale.covers_of_admits hv)
      (Scale.covers_of_admits hv') h)

end Ends

end UnitBase

/-- The ends of a grid on a scale. -/
structure Scale.Extent (s : Scale) (lower upper : ℝ) : Prop where
  admitsLower : s.admits lower = true
  admitsUpper : s.admits upper = true
  ascends : lower < upper

namespace Scale.Extent

variable {s : Scale} {lower upper fraction l₀ u₀ l₁ u₁ : ℝ}

theorem isomorphic (extent : s.Extent lower upper) (tolerance : ℝ) :
    (UnitBase.ofEnds s lower upper tolerance).Isomorphic upper :=
  UnitBase.isomorphic_ofEnds (covers_of_admits extent.admitsLower)
    (covers_of_admits extent.admitsUpper) extent.ascends tolerance

/-- Between two grids on one scale a third runs between their blended ends, and its length is
theirs blended. -/
theorem blend (h₀ : s.Extent l₀ u₀) (h₁ : s.Extent l₁ u₁) (hfraction : fraction ∈ Set.Ioo (0 : ℝ) 1)
    (tolerance : ℝ) :
    s.blend fraction l₀ l₁ < s.blend fraction u₀ u₁ ∧
      s.length (s.blend fraction l₀ l₁) (s.blend fraction u₀ u₁) =
        Scale.linear.blend fraction (s.length l₀ u₀) (s.length l₁ u₁) ∧
      (UnitBase.ofEnds s (s.blend fraction l₀ l₁) (s.blend fraction u₀ u₁) tolerance).Isomorphic
        (s.blend fraction u₀ u₁) := by
  have hl₀ := covers_of_admits h₀.admitsLower
  have hl₁ := covers_of_admits h₁.admitsLower
  have hu₀ := covers_of_admits h₀.admitsUpper
  have hu₁ := covers_of_admits h₁.admitsUpper
  have range := blend_lt_blend hfraction hl₀ hl₁ hu₀ hu₁ h₀.ascends h₁.ascends
  exact ⟨range, length_blend fraction hl₀ hl₁ hu₀ hu₁,
    UnitBase.isomorphic_ofEnds (covers_blend fraction hl₀ hl₁) (covers_blend fraction hu₀ hu₁) range
      tolerance⟩

end Scale.Extent

namespace UnitBase

/-- A unit base over any grid on a scale is an isomorphism of orders, whatever its tolerance. So is
the one of a bin, whose length is blended from the lengths of the sides and yet is the length
between its limits, and the one of two slices, where it is the other way round. -/
theorem unit_bases_are_isomorphic :
    (∀ (s : Scale) (lower upper tolerance : ℝ), s.Extent lower upper →
      (ofEnds s lower upper tolerance).Isomorphic upper) ∧
    (∀ b : Bin ℝ, (∀ side, ∃ xs ys, Table.ofColumns xs ys = .ok (b.table side)) →
      (∀ side, b.scale.admits (b.table side).lowerBound = true ∧
        b.scale.admits (b.table side).upperBound = true) →
      b.fraction ∈ Set.Ioo (0 : ℝ) 1 →
      b.lowerLimit < b.upperLimit ∧
        b.middleBase.length = (1 - b.fraction) * (b.unitBase .lower).length +
          b.fraction * (b.unitBase .upper).length ∧
        b.scale.length b.lowerLimit b.upperLimit = b.middleBase.length ∧
        b.middleBase.Isomorphic b.upperLimit) ∧
    ∀ p : SlicePair ℝ, p.rule.secondary.Extent p.lower.first.x p.lower.last.x →
      p.rule.secondary.Extent p.upper.first.x p.upper.last.x →
      p.fraction ∈ Set.Ioo (0 : ℝ) 1 →
      p.lowerLimit < p.upperLimit ∧
        p.middleBase.length = Scale.linear.blend p.fraction (p.sliceBase p.lower).length
          (p.sliceBase p.upper).length ∧
        p.middleBase.Isomorphic p.upperLimit := by
  refine ⟨fun _ _ _ tolerance extent => extent.isomorphic tolerance,
    fun b tables admitted hfraction => ?_, fun p h₀ h₁ hfraction => h₀.blend h₁ hfraction _⟩
  have hextent (side : Side) :
      b.scale.Extent (b.table side).lowerBound (b.table side).upperBound := by
    obtain ⟨_, _, built⟩ := tables side
    exact ⟨(admitted side).1, (admitted side).2, (Table.sound_of_ofColumns built).lower_lt_upper⟩
  obtain ⟨range, hlength, hiso⟩ :=
    (hextent .lower).blend (hextent .upper) hfraction b.settings.fuzzyBoundary
  have hlimits : b.scale.length b.lowerLimit b.upperLimit = b.middleBase.length := hlength
  exact ⟨range, b.mix_eq _ _, hlimits, Bin.middleBase_eq_ofEnds hlimits ▸ hiso⟩

theorem uniform_bases_are_isomorphic :
    let narrow : LineGrid ℝ := ⟨⟨0, 1⟩, [⟨1, 1⟩]⟩
    let wide : LineGrid ℝ := ⟨⟨0, 1⟩, [⟨2, 1⟩]⟩
    let slices : SlicePair ℝ := ⟨.linear, 1 / 2, narrow, wide⟩
    (ofEnds .logCosine (-1) 0 (1 / 1000)).Isomorphic 0 ∧
      uniformBin.middleBase.Isomorphic uniformBin.upperLimit ∧
      slices.middleBase.Isomorphic slices.upperLimit := by
  intro narrow wide slices
  obtain ⟨ofGrid, ofBin, ofSlices⟩ := unit_bases_are_isomorphic
  have hhalf : (1 / 2 : ℝ) ∈ Set.Ioo (0 : ℝ) 1 := by norm_num
  have hcosines : Scale.logCosine.Extent (-1) 0 :=
    ⟨by norm_num [Scale.admits], by norm_num [Scale.admits], by norm_num⟩
  have hbin := ofBin uniformBin
    (Side.forall_sides ⟨_, _, Table.ofColumns_uniform (by norm_num)⟩
      ⟨_, _, Table.ofColumns_uniform one_pos⟩)
    (Side.forall_sides ⟨rfl, rfl⟩ ⟨rfl, rfl⟩) Bin.proper_uniformBin.fraction_mem
  have hslices := ofSlices slices ⟨rfl, rfl, one_pos⟩ ⟨rfl, rfl, two_pos⟩ hhalf
  exact ⟨ofGrid _ _ _ _ hcosines, hbin.2.2.2, hslices.2.2⟩

end UnitBase
end AdaptiveTables
