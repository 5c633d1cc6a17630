import AdaptiveTables.Proofs.Quantile

/-!
Slopes of tables. Inside the bounds the derivative of the cumulative distribution is the
normalised density, also where two segments meet. Where the density at a sample is positive, the
derivative of the sampler is its reciprocal. If it is positive everywhere inside, the sampler
inverts the cumulative distribution.
-/

namespace AdaptiveTables

open Filter Topology

namespace Segment.Joined

variable {last : Knot ℝ} {total : ℝ} {s : Segment ℝ} {later : List (Segment ℝ)} {x : ℝ}

theorem hasDerivWithinAt_left (joined : Joined last total s later) :
    HasDerivWithinAt (integralOver s later) s.density (Set.Ici s.left) s.left := by
  have hfirst : HasDerivAt s.cumulativeAt s.density s.left := by
    have hslope := s.hasDerivAt_cumulativeAt s.left
    rwa [densityAt_eq, sub_self, mul_zero, add_zero] at hslope
  cases joined with
  | single _ => exact hfirst.hasDerivWithinAt
  | @cons _ next rest ends _ =>
      have hnext : s.left < next.left := lt_of_lt_of_eq ends.proper ends.right_eq
      have hnear : integralOver s (next :: rest) =ᶠ[𝓝 s.left] s.cumulativeAt := by
        filter_upwards [Iio_mem_nhds hnext] with y hy using integralOver_of_lt hy
      exact (hfirst.congr_of_eventuallyEq hnear).hasDerivWithinAt

theorem hasDerivAt_integralOver (joined : Joined last total s later) (hx : s.left < x)
    (hx' : x < last.abscissa) :
    HasDerivAt (integralOver s later) (densityOver s later x) x := by
  induction joined with
  | single _ => exact hasDerivAt_cumulativeAt _ x
  | @cons s next rest ends others ih =>
      rcases lt_trichotomy x next.left with hlt | rfl | hgt
      · have hnear : integralOver s (next :: rest) =ᶠ[𝓝 x] s.cumulativeAt := by
          filter_upwards [Iio_mem_nhds hlt] with y hy using integralOver_of_lt hy
        rw [densityOver_of_lt hlt]
        exact (s.hasDerivAt_cumulativeAt x).congr_of_eventuallyEq hnear
      · -- Both parts have the integral and the density of the joint in common.
        have hjoint : integralOver s (next :: rest) next.left = s.cumulativeAt next.left := by
          rw [integralOver_of_le (le_refl _), others.integralOver_left, ← ends.right_eq,
            ends.cumulativeAt_right]
        have hdensity : s.densityAt next.left = next.density := by
          rw [← ends.right_eq, ends.densityAt_right]
        rw [densityOver_of_le (le_refl _), others.densityOver_left, ← hasDerivWithinAt_univ,
          ← Set.Iic_union_Ici (a := next.left)]
        refine HasDerivWithinAt.union ?_ ?_
        · rw [← hdensity]
          refine (s.hasDerivAt_cumulativeAt next.left).hasDerivWithinAt.congr (fun y hy => ?_)
            hjoint
          rcases lt_or_eq_of_le (Set.mem_Iic.mp hy) with hlt | rfl
          · exact integralOver_of_lt hlt
          · exact hjoint
        · exact others.hasDerivWithinAt_left.congr (fun y hy => integralOver_of_le hy)
            (integralOver_of_le (le_refl _))
      · have hnear : integralOver s (next :: rest) =ᶠ[𝓝 x] integralOver next rest := by
          filter_upwards [Ioi_mem_nhds hgt] with y hy using integralOver_of_le (le_of_lt hy)
        rw [densityOver_of_le (le_of_lt hgt)]
        exact (ih hgt).congr_of_eventuallyEq hnear

end Segment.Joined

namespace Table.Sound

variable {t : Table ℝ} {x p : ℝ}

theorem hasDerivAt_cdf (sound : t.Sound) (hx : t.lowerBound < x) (hx' : x < t.upperBound) :
    HasDerivAt t.cdf (t.pdf x) x := by
  have hshare := (sound.joined.hasDerivAt_integralOver hx hx').div_const t.total
  have hnear : t.cdf =ᶠ[𝓝 x] fun y => Segment.integralOver t.first t.later y / t.total := by
    filter_upwards [Ioo_mem_nhds hx hx'] with y hy using
      sound.cdf_eq (le_of_lt hy.1) (le_of_lt hy.2)
  rw [pdf, sound.evaluate_eq (le_of_lt hx) (le_of_lt hx'), normalisation, mul_one_div]
  exact hshare.congr_of_eventuallyEq hnear

/-- Inside the open unit interval samples lie strictly between the bounds. -/
theorem sample_mem_Ioo (sound : t.Sound) (hp : p ∈ Set.Ioo (0 : ℝ) 1) :
    t.sample p ∈ Set.Ioo t.lowerBound t.upperBound := by
  obtain ⟨hlower, hupper, hfound, _⟩ := sound.sample_spec hp.1 hp.2
  refine ⟨hlower, lt_of_le_of_ne hupper fun heq => ?_⟩
  rw [heq, sound.cdf_of_ge (le_refl _)] at hfound
  exact absurd hfound (ne_of_gt hp.2)

/-- Where the density is positive the sampler does not jump. -/
theorem continuousAt_sample (sound : t.Sound) (hp : p ∈ Set.Ioo (0 : ℝ) 1)
    (hpos : 0 < t.pdf (t.sample p)) : ContinuousAt t.sample p := by
  obtain ⟨hlower, hupper⟩ := sound.sample_mem_Ioo hp
  obtain ⟨_, _, hfound, hbefore⟩ := sound.sample_spec hp.1 hp.2
  have hunit : ∀ᶠ q in 𝓝 p, q ∈ Set.Ioo (0 : ℝ) 1 := Ioo_mem_nhds hp.1 hp.2
  refine tendsto_order.2 ⟨fun a ha => ?_, fun a ha => ?_⟩
  · filter_upwards [hunit, Ioi_mem_nhds (hbefore a ha)] with q hq hlt
    exact not_le.mp fun hle => absurd ((sound.sample_le_iff hq.1 hq.2).mp hle) (not_le.mpr hlt)
  · -- The positive density makes the cumulative distribution exceed `p` before `a`.
    have hslope := (hasDerivAt_iff_tendsto_slope.1 (sound.hasDerivAt_cdf hlower hupper)).eventually
      (lt_mem_nhds hpos)
    obtain ⟨x, hx, hrise⟩ := ((hslope.filter_mono (nhdsGT_le_nhdsNE _)).and
      (Ioo_mem_nhdsGT ha)).exists.imp fun x hx => And.intro hx.2 hx.1
    rw [slope_def_field, hfound] at hrise
    have hreached : p < t.cdf x :=
      sub_pos.mp ((div_pos_iff_of_pos_right (sub_pos.mpr hx.1)).mp hrise)
    filter_upwards [hunit, Iio_mem_nhds hreached] with q hq hlt
    exact lt_of_le_of_lt ((sound.sample_le_iff hq.1 hq.2).mpr (le_of_lt hlt)) hx.2

theorem hasDerivAt_sample (sound : t.Sound) (hp : p ∈ Set.Ioo (0 : ℝ) 1)
    (hpos : 0 < t.pdf (t.sample p)) : HasDerivAt t.sample (t.pdf (t.sample p))⁻¹ p := by
  obtain ⟨hlower, hupper⟩ := sound.sample_mem_Ioo hp
  refine HasDerivAt.of_local_left_inverse (sound.continuousAt_sample hp hpos)
    (sound.hasDerivAt_cdf hlower hupper) (ne_of_gt hpos) ?_
  filter_upwards [Ioo_mem_nhds hp.1 hp.2] with q hq using
    sound.cdf_sample (le_of_lt hq.1) (le_of_lt hq.2)

end Table.Sound

namespace Table

variable {t : Table ℝ} {x : ℝ}

/-- The density is positive everywhere strictly between the bounds. -/
def PositiveInside (t : Table ℝ) : Prop :=
  ∀ y ∈ Set.Ioo t.lowerBound t.upperBound, 0 < t.evaluate y

namespace Sound

theorem pdf_pos (sound : t.Sound) (h : 0 < t.evaluate x) : 0 < t.pdf x :=
  mul_pos h (div_pos one_pos sound.total_pos)

theorem strictMonoOn_cdf (sound : t.Sound) (positive : t.PositiveInside) :
    StrictMonoOn t.cdf (Set.Icc t.lowerBound t.upperBound) := by
  intro x hx y hy hxy
  obtain ⟨m, hxm, hmy⟩ := exists_between hxy
  have hm : m ∈ Set.Ioo t.lowerBound t.upperBound :=
    ⟨lt_of_le_of_lt hx.1 hxm, lt_of_lt_of_le hmy hy.2⟩
  refine lt_of_le_of_ne (sound.monotone_cdf hxy.le) fun heq => ?_
  -- Between two points of equal probability the slope is zero.
  have hnear : t.cdf =ᶠ[𝓝 m] fun _ => t.cdf x := by
    filter_upwards [Ioo_mem_nhds hxm hmy] with z hz
    exact le_antisymm (heq ▸ sound.monotone_cdf hz.2.le) (sound.monotone_cdf hz.1.le)
  have hslope := (sound.hasDerivAt_cdf hm.1 hm.2).unique
    ((hasDerivAt_const m (t.cdf x)).congr_of_eventuallyEq hnear)
  exact absurd hslope (ne_of_gt (sound.pdf_pos (positive m hm)))

/-- Without such stretches every point is the sample of its probability. -/
theorem sample_cdf (sound : t.Sound) (positive : t.PositiveInside)
    (hx : x ∈ Set.Icc t.lowerBound t.upperBound) : t.sample (t.cdf x) = x := by
  apply (sound.strictMonoOn_cdf positive).injOn (sound.sample_mem _) hx
  exact sound.cdf_sample (sound.cdf_mem x).1 (sound.cdf_mem x).2

end Sound
end Table
end AdaptiveTables
