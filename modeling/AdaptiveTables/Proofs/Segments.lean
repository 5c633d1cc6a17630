import AdaptiveTables.Proofs.Exact
import AdaptiveTables.Table.Basic

/-!
Segments in exact arithmetic. On a segment of positive length whose density is nowhere negative
the integral rises from the left end, and the point found for an integral is the only one of the
segment that has it. Segments that continue each other make one integral, and the point found for
a target is the first that reaches it.
-/

namespace AdaptiveTables
namespace Segment

variable (s : Segment ℝ) {x y target : ℝ}

theorem densityAt_eq (x : ℝ) : s.densityAt x = s.density + s.slope * (x - s.left) := rfl

theorem cumulativeAt_eq (x : ℝ) :
    s.cumulativeAt x =
      s.cumulative + (x - s.left) * s.density + (x - s.left) ^ 2 * s.slope / 2 := by
  rw [cumulativeAt]
  norm_num
  ring

theorem cumulativeAt_left : s.cumulativeAt s.left = s.cumulative := by
  rw [cumulativeAt_eq]
  ring

/-- The integral between two points is the area of a trapezoid. -/
theorem cumulativeAt_sub (x y : ℝ) :
    s.cumulativeAt y - s.cumulativeAt x = (y - x) * (s.densityAt x + s.densityAt y) / 2 := by
  rw [cumulativeAt_eq, cumulativeAt_eq, densityAt_eq, densityAt_eq]
  ring

theorem hasDerivAt_cumulativeAt (x : ℝ) : HasDerivAt s.cumulativeAt (s.densityAt x) x := by
  have hshift : HasDerivAt (fun x => x - s.left) 1 x := (hasDerivAt_id x).sub_const _
  have hsquare := ((hshift.mul_const s.density).const_add s.cumulative).add
    (((hshift.pow 2).mul_const s.slope).div_const 2)
  rw [funext s.cumulativeAt_eq]
  refine hsquare.congr_deriv ?_
  rw [densityAt_eq]
  norm_num
  ring

/-- A segment of positive length whose density is nowhere negative. -/
structure Regular : Prop where
  proper : s.left < s.right
  left_nonneg : 0 ≤ s.density
  right_nonneg : 0 ≤ s.densityAt s.right

variable {s}

/-- The density is a mixture of those at the ends, so it keeps every bound that both ends keep. -/
theorem Regular.densityAt_mem (regular : s.Regular) {S : Set ℝ} (convex : Convex ℝ S)
    (hleft : s.density ∈ S) (hright : s.densityAt s.right ∈ S) (hx : s.left ≤ x)
    (hx' : x ≤ s.right) : s.densityAt x ∈ S := by
  have hlength : 0 < s.right - s.left := sub_pos.mpr regular.proper
  have hmix : ((s.right - x) / (s.right - s.left)) • s.density +
      ((x - s.left) / (s.right - s.left)) • s.densityAt s.right = s.densityAt x := by
    simp only [smul_eq_mul, densityAt_eq]
    field_simp
    ring
  rw [← hmix]
  refine convex hleft hright ?_ ?_ ?_
  · exact div_nonneg (sub_nonneg.mpr hx') (le_of_lt hlength)
  · exact div_nonneg (sub_nonneg.mpr hx) (le_of_lt hlength)
  · rw [← add_div, div_eq_one_iff_eq (ne_of_gt hlength)]
    ring

theorem Regular.densityAt_nonneg (regular : s.Regular) (hx : s.left ≤ x) (hx' : x ≤ s.right) :
    0 ≤ s.densityAt x :=
  regular.densityAt_mem (convex_Ici 0) regular.left_nonneg regular.right_nonneg hx hx'

/-- The integral grows as fast as the densities at both points allow. -/
theorem cumulativeAt_sub_mem {lo hi : ℝ} (hx : s.densityAt x ∈ Set.Icc lo hi)
    (hy : s.densityAt y ∈ Set.Icc lo hi) (hxy : x ≤ y) :
    s.cumulativeAt y - s.cumulativeAt x ∈ Set.Icc (lo * (y - x)) (hi * (y - x)) := by
  have hwidth : 0 ≤ y - x := sub_nonneg.mpr hxy
  have hlo := mul_le_mul_of_nonneg_left (add_le_add hx.1 hy.1) hwidth
  have hhi := mul_le_mul_of_nonneg_left (add_le_add hx.2 hy.2) hwidth
  rw [cumulativeAt_sub]
  constructor <;> linarith

theorem Regular.cumulativeAt_mono (regular : s.Regular) (hx : s.left ≤ x) (hxy : x ≤ y)
    (hy : y ≤ s.right) : s.cumulativeAt x ≤ s.cumulativeAt y := by
  have hfx := regular.densityAt_nonneg hx (le_trans hxy hy)
  have hfy := regular.densityAt_nonneg (le_trans hx hxy) hy
  have harea : 0 ≤ (y - x) * (s.densityAt x + s.densityAt y) :=
    mul_nonneg (sub_nonneg.mpr hxy) (add_nonneg hfx hfy)
  have hsub := s.cumulativeAt_sub x y
  linarith

/-- The root found for the integral up to a point is the point itself, unless the integral has
not begun to grow there. The discriminant is the square of the density at the point. -/
theorem Regular.abscissaAt_cumulativeAt (regular : s.Regular) (hx : s.left ≤ x)
    (hx' : x ≤ s.right) (grown : s.cumulative < s.cumulativeAt x) :
    s.abscissaAt (s.cumulativeAt x) = x := by
  have hrise : s.cumulativeAt x - s.cumulative =
      (x - s.left) * (s.density + s.densityAt x) / 2 := by
    have harea := s.cumulativeAt_sub s.left x
    rw [cumulativeAt_left, densityAt_eq s s.left, sub_self, mul_zero, add_zero] at harea
    exact harea
  have hpos : 0 < (x - s.left) * (s.density + s.densityAt x) := by
    have hgrown := sub_pos.mpr grown
    linarith
  have hdensity := regular.densityAt_nonneg hx hx'
  have hdenominator : 0 < s.density + s.densityAt x :=
    pos_of_mul_pos_right hpos (sub_nonneg.mpr hx)
  have hroot : Real.sqrt (Max.max (s.density * s.density +
      2 * s.slope * (s.cumulativeAt x - s.cumulative)) 0) = s.densityAt x := by
    have hsquare : s.density * s.density + 2 * s.slope * (s.cumulativeAt x - s.cumulative) =
        s.densityAt x ^ 2 := by
      rw [hrise, densityAt_eq]
      ring
    rw [hsquare, max_eq_left (sq_nonneg _), Real.sqrt_sq hdensity]
  have hquotient : s.left + 2 * (s.cumulativeAt x - s.cumulative) / (s.density + s.densityAt x) =
      x := by
    rw [hrise]
    field_simp
    ring
  have htwo : (2.0 : ℝ) = 2 := by norm_num
  rw [abscissaAt]
  simp only [Exact.max_eq, Exact.min_eq, Exact.sqrt_eq, htwo,
    max_eq_left (le_of_lt (sub_pos.mpr grown)), hroot, if_pos hdenominator, hquotient]
  exact min_eq_left hx'

/-- An integral that the segment reaches is found inside it, past the left end. -/
theorem Regular.abscissaAt_spec (regular : s.Regular) (above : s.cumulative < target)
    (reached : target ≤ s.cumulativeAt s.right) :
    s.left < s.abscissaAt target ∧ s.abscissaAt target ≤ s.right ∧
      s.cumulativeAt (s.abscissaAt target) = target := by
  have hrange : target ∈ Set.Icc (s.cumulativeAt s.left) (s.cumulativeAt s.right) := by
    rw [cumulativeAt_left]
    exact ⟨le_of_lt above, reached⟩
  obtain ⟨x, ⟨hx, hx'⟩, rfl⟩ := intermediate_value_Icc (le_of_lt regular.proper)
    (fun x _ => (s.hasDerivAt_cumulativeAt x).continuousAt.continuousWithinAt) hrange
  rw [regular.abscissaAt_cumulativeAt hx hx' above]
  refine ⟨lt_of_le_of_ne hx ?_, hx', rfl⟩
  rintro rfl
  exact absurd s.cumulativeAt_left (ne_of_gt above)

/-- Before the point found, the integral falls short. -/
theorem Regular.cumulativeAt_lt (regular : s.Regular) (above : s.cumulative < target)
    (reached : target ≤ s.cumulativeAt s.right) (hx : s.left ≤ x)
    (before : x < s.abscissaAt target) : s.cumulativeAt x < target := by
  obtain ⟨_, hright, hfound⟩ := regular.abscissaAt_spec above reached
  have hle : s.cumulativeAt x ≤ target := by
    have hmono := regular.cumulativeAt_mono hx (le_of_lt before) hright
    rwa [hfound] at hmono
  refine lt_of_le_of_ne hle fun heq => ?_
  have hself := regular.abscissaAt_cumulativeAt hx (le_of_lt (lt_of_lt_of_le before hright))
    (lt_of_lt_of_eq above heq.symm)
  rw [heq] at hself
  exact absurd hself (ne_of_gt before)

end Segment
end AdaptiveTables
