import AdaptiveTables.Proofs.Bins
import AdaptiveTables.Proofs.TableSlopes

/-!
The density of matched points. The samples of both sides have the reciprocals of their densities
as slopes, and the scale carries these to the slope of the blended sample. The density is the
reciprocal of that slope except where its shortcut for equal densities is taken at two different
points of a curved axis. There it is too high.
-/

namespace AdaptiveTables

/-- A quotient that blends two rates is the reciprocal of the slope that the rates give. -/
theorem quotientOrZero_mul_slope {β w₀ w₁ r : ℝ} (hβ : β ∈ Set.Ioo (0 : ℝ) 1) (h₀ : 0 < w₀)
    (h₁ : 0 < w₁) (hr : 0 < r) :
    quotientOrZero (w₀ * w₁) ((w₁ + (w₀ - w₁) * β) * r) * (r * ((1 - β) / w₀ + β / w₁)) = 1 := by
  have hmixed : 0 < w₁ + (w₀ - w₁) * β := by
    have hlower := mul_pos (sub_pos.mpr hβ.2) h₁
    have hupper := mul_pos hβ.1 h₀
    linarith
  have hne := ne_of_gt hmixed
  rw [quotientOrZero, if_neg (by simpa using ne_of_gt (mul_pos hmixed hr))]
  field_simp
  ring

namespace Correlated

variable {b : Bin ℝ} {y₀ y₁ e₀ e₁ p : ℝ}

/-- How fast the blend of two matched points moves with the probability. -/
noncomputable def matchedSlope (b : Bin ℝ) (y₀ e₀ y₁ e₁ : ℝ) : ℝ :=
  |b.scale.inverseDeriv (b.blendSecondary y₀ y₁)| *
    ((1 - b.fraction) / (e₀ * |b.scale.inverseDeriv y₀|) +
      b.fraction / (e₁ * |b.scale.inverseDeriv y₁|))

theorem density_mul_slope_of_ne (hfraction : b.fraction ∈ Set.Ioo (0 : ℝ) 1)
    (h₀ : b.scale.Covers y₀) (h₁ : b.scale.Covers y₁) (he₀ : 0 < e₀) (he₁ : 0 < e₁)
    (ne : e₀ ≠ e₁) :
    density b (b.blendSecondary y₀ y₁) y₀ e₀ y₁ e₁ * matchedSlope b y₀ e₀ y₁ e₁ = 1 := by
  have hr : 0 < |b.scale.inverseDeriv (b.blendSecondary y₀ y₁)| :=
    Scale.abs_inverseDeriv_pos (Scale.covers_blend b.fraction h₀ h₁)
  have hw₀ := mul_pos he₀ (Scale.abs_inverseDeriv_pos h₀)
  have hw₁ := mul_pos he₁ (Scale.abs_inverseDeriv_pos h₁)
  simp only [density, beq_iff_eq, if_neg ne, Exact.abs_eq, matchedSlope]
  exact quotientOrZero_mul_slope hfraction hw₀ hw₁ hr

/-- Between equal densities the blend keeps the density, whatever the slope is. -/
theorem density_mul_slope_of_eq (he₀ : 0 < e₀) :
    density b (b.blendSecondary y₀ y₁) y₀ e₀ y₁ e₀ * matchedSlope b y₀ e₀ y₁ e₀ =
      (1 - b.fraction) *
        (|b.scale.inverseDeriv (b.blendSecondary y₀ y₁)| / |b.scale.inverseDeriv y₀|) +
      b.fraction *
        (|b.scale.inverseDeriv (b.blendSecondary y₀ y₁)| / |b.scale.inverseDeriv y₁|) := by
  have hdensity : density b (b.blendSecondary y₀ y₁) y₀ e₀ y₁ e₀ = e₀ := by
    rw [density, if_pos (beq_self_eq_true e₀)]
  rw [hdensity, matchedSlope]
  field_simp

/-- Exponentials whose exponents average to zero average to more than one. -/
theorem one_lt_mixed_exp {β δ : ℝ} (hβ : β ∈ Set.Ioo (0 : ℝ) 1) (hδ : δ ≠ 0) :
    1 < (1 - β) * Real.exp (δ * β) + β * Real.exp (-(δ * (1 - β))) := by
  have hne : δ * β ≠ -(δ * (1 - β)) := by
    intro heq
    exact hδ (by linarith)
  have hconvex := strictConvexOn_exp.2 (Set.mem_univ (δ * β)) (Set.mem_univ (-(δ * (1 - β)))) hne
    (sub_pos.mpr hβ.2) hβ.1 (sub_add_cancel 1 β)
  have hzero : (1 - β) * (δ * β) + β * -(δ * (1 - β)) = 0 := by ring
  simp only [smul_eq_mul] at hconvex
  rwa [hzero, Real.exp_zero] at hconvex

theorem one_lt_density_mul_slope (hfraction : b.fraction ∈ Set.Ioo (0 : ℝ) 1)
    (h₀ : b.scale.Covers y₀) (h₁ : b.scale.Covers y₁) (he₀ : 0 < e₀) (curved : b.scale ≠ .linear)
    (ne : y₀ ≠ y₁) :
    1 < density b (b.blendSecondary y₀ y₁) y₀ e₀ y₁ e₀ * matchedSlope b y₀ e₀ y₁ e₀ := by
  have hdistance : b.scale.transform y₁ - b.scale.transform y₀ ≠ 0 := by
    intro heq
    refine ne ?_
    rw [← Scale.inverse_transform h₀, ← Scale.inverse_transform h₁, sub_eq_zero.mp heq]
  have hy : b.scale.transform (b.blendSecondary y₀ y₁) = _ :=
    Scale.transform_blend b.fraction h₀ h₁
  have hlower : b.scale.transform (b.blendSecondary y₀ y₁) - b.scale.transform y₀ =
      (b.scale.transform y₁ - b.scale.transform y₀) * b.fraction := by
    rw [hy]
    ring
  have hupper : b.scale.transform (b.blendSecondary y₀ y₁) - b.scale.transform y₁ =
      -((b.scale.transform y₁ - b.scale.transform y₀) * (1 - b.fraction)) := by
    rw [hy]
    ring
  have hcovers : b.scale.Covers (b.blendSecondary y₀ y₁) := Scale.covers_blend b.fraction h₀ h₁
  rw [density_mul_slope_of_eq he₀, Scale.abs_inverseDeriv_curved curved h₀,
    Scale.abs_inverseDeriv_curved curved h₁, Scale.abs_inverseDeriv_curved curved hcovers,
    ← Real.exp_sub, ← Real.exp_sub, hlower, hupper]
  exact one_lt_mixed_exp hfraction hdistance

theorem density_mul_slope_of_straight (h₀ : b.scale.Covers y₀) (he₀ : 0 < e₀)
    (straight : b.scale = .linear ∨ y₀ = y₁) :
    density b (b.blendSecondary y₀ y₁) y₀ e₀ y₁ e₀ * matchedSlope b y₀ e₀ y₁ e₀ = 1 := by
  rw [density_mul_slope_of_eq he₀]
  rcases straight with hlinear | rfl
  · rw [hlinear]
    simp only [Scale.abs_inverseDeriv_linear]
    ring
  · rw [Bin.blendSecondary, Scale.blend_self b.fraction h₀,
      div_self (ne_of_gt (Scale.abs_inverseDeriv_pos h₀))]
    ring

theorem sample_eq_blend (proper : b.Proper) :
    sample b = fun p => b.scale.blend b.fraction (b.lower.sample p) (b.upper.sample p) := by
  funext p
  rw [sample]
  split
  next heq =>
    have hself := Scale.blend_self b.fraction (proper.covers_sample .lower p)
    rw [Bin.table] at hself
    rw [← beq_iff_eq.mp heq, hself]
  next => rfl

/-- Where both densities are positive the slope is the derivative of the sampler. -/
theorem hasDerivAt_sample (proper : b.Proper) (hp : p ∈ Set.Ioo (0 : ℝ) 1)
    (he₀ : 0 < b.lower.pdf (b.lower.sample p)) (he₁ : 0 < b.upper.pdf (b.upper.sample p)) :
    HasDerivAt (sample b) (matchedSlope b (b.lower.sample p) (b.lower.pdf (b.lower.sample p))
      (b.upper.sample p) (b.upper.pdf (b.upper.sample p))) p := by
  have hlower := (proper.sound .lower).hasDerivAt_sample hp he₀
  have hupper := (proper.sound .upper).hasDerivAt_sample hp he₁
  rw [sample_eq_blend proper]
  refine (Scale.hasDerivAt_blend (proper.covers_sample .lower) (proper.covers_sample .upper)
    hlower hupper).congr_deriv ?_
  simp only [matchedSlope, Bin.table, Bin.blendSecondary, div_eq_mul_inv, mul_inv]

/-- The density at matched points is the reciprocal of the slope of the sampler there, unless two
different points of a curved axis have equal densities. Then it is too high. -/
theorem density_is_reciprocal_slope (hfraction : b.fraction ∈ Set.Ioo (0 : ℝ) 1)
    (h₀ : b.scale.Covers y₀) (h₁ : b.scale.Covers y₁) (he₀ : 0 < e₀) (he₁ : 0 < e₁) :
    let y := b.blendSecondary y₀ y₁
    let r (v : ℝ) := |b.scale.inverseDeriv v|
    let spread := (1 - b.fraction) / (e₀ * r y₀) + b.fraction / (e₁ * r y₁)
    let shortcut := e₀ = e₁ ∧ b.scale ≠ .linear ∧ y₀ ≠ y₁
    (¬shortcut → density b y y₀ e₀ y₁ e₁ * r y * spread = 1) ∧
      (shortcut → 1 < density b y y₀ e₀ y₁ e₁ * r y * spread) ∧
      ∀ p ∈ Set.Ioo (0 : ℝ) 1, b.Proper → b.lower.sample p = y₀ → b.lower.pdf y₀ = e₀ →
        b.upper.sample p = y₁ → b.upper.pdf y₁ = e₁ → HasDerivAt (sample b) (r y * spread) p := by
  intro y r spread shortcut
  simp only [mul_assoc]
  refine ⟨fun hlaw => ?_, ?_, ?_⟩
  · by_cases heq : e₀ = e₁
    · obtain rfl := heq
      refine density_mul_slope_of_straight h₀ he₀ ?_
      by_contra hcurved
      rw [not_or] at hcurved
      exact hlaw ⟨rfl, hcurved⟩
    · exact density_mul_slope_of_ne hfraction h₀ h₁ he₀ he₁ heq
  · rintro ⟨rfl, curved, ne⟩
    exact one_lt_density_mul_slope hfraction h₀ h₁ he₀ curved ne
  · rintro p hp proper rfl rfl rfl rfl
    exact hasDerivAt_sample proper hp he₀ he₁

noncomputable def logarithmicBin : Bin ℝ :=
  { uniformBin with rule := { PlaneRule.linear with secondary := .logarithmic } }

theorem blend_logarithmicBin : logarithmicBin.blendSecondary 1 4 = 2 := by
  have hsquare : (4 : ℝ) = 2 ^ 2 := by norm_num
  have hhalf : (0.5 : ℝ) = 1 / 2 := by norm_num
  change (1 : ℝ) * (4 / 1) ^ (0.5 : ℝ) = 2
  rw [hhalf, ← Real.sqrt_eq_rpow, div_one, one_mul, hsquare, Real.sqrt_sq two_pos.le]

/-- The slope of the sampler is `5 / 4` here, so the common density of both sides is not its own. -/
theorem density_of_equal_densities :
    logarithmicBin.blendSecondary 1 4 = 2 ∧ density logarithmicBin 2 1 1 4 1 = 1 ∧
      density logarithmicBin 2 1 1 4 1 * |logarithmicBin.scale.inverseDeriv 2| *
        ((1 - logarithmicBin.fraction) / (1 * |logarithmicBin.scale.inverseDeriv 1|) +
          logarithmicBin.fraction / (1 * |logarithmicBin.scale.inverseDeriv 4|)) ≠ 1 := by
  have hdensity : density logarithmicBin 2 1 1 4 1 = 1 := by
    rw [density, if_pos (beq_self_eq_true 1)]
  refine ⟨blend_logarithmicBin, hdensity, ?_⟩
  rw [hdensity]
  norm_num [logarithmicBin, uniformBin, Bin.scale, Scale.inverseDeriv]

theorem density_of_different_densities :
    density logarithmicBin 2 1 1 4 2 * |logarithmicBin.scale.inverseDeriv 2| *
        ((1 - logarithmicBin.fraction) / (1 * |logarithmicBin.scale.inverseDeriv 1|) +
          logarithmicBin.fraction / (2 * |logarithmicBin.scale.inverseDeriv 4|)) = 1 ∧
      HasDerivAt (sample uniformBin) (3 / 4) (1 / 2) := by
  have hcurved : (1 : ℝ) ≠ 2 := by norm_num
  obtain ⟨hlaw, _⟩ := @density_is_reciprocal_slope logarithmicBin 1 4 1 2
    (by norm_num [logarithmicBin, uniformBin]) one_pos four_pos one_pos two_pos
  rw [blend_logarithmicBin] at hlaw
  obtain ⟨_, _, hslope⟩ := @density_is_reciprocal_slope uniformBin (1 / 4) (1 / 2) 2 1
    (by norm_num [uniformBin]) trivial trivial two_pos one_pos
  refine ⟨hlaw fun hshortcut => hcurved hshortcut.1, ?_⟩
  refine (hslope (1 / 2) (by norm_num) Bin.proper_uniformBin ?_ ?_ ?_ ?_).congr_deriv ?_
  · change (Table.uniform 0.5).sample (1 / 2) = 1 / 4
    rw [Table.sample_uniform (by norm_num) (by norm_num)]
    norm_num
  · change (Table.uniform 0.5).pdf (1 / 4) = 2
    rw [Table.pdf_uniform (by norm_num) (by norm_num)]
    norm_num
  · change (Table.uniform 1).sample (1 / 2) = 1 / 2
    rw [Table.sample_uniform (by norm_num) one_pos, mul_one]
  · change (Table.uniform 1).pdf (1 / 2) = 1
    rw [Table.pdf_uniform (by norm_num) one_pos, div_one]
  · norm_num [uniformBin, Bin.scale, PlaneRule.linear, Scale.inverseDeriv]

end Correlated
end AdaptiveTables
