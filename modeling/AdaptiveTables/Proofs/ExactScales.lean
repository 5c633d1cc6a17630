import AdaptiveTables.Proofs.Exact
import AdaptiveTables.UnitBase

/-!
Scales and unit bases in exact arithmetic. A transform and its inverse undo each other, a blend is
linear in the transformed values, and the transform, with its sign changed on the cosine scales,
rises with the value. So the coordinates of a unit base and the values of its grid determine each
other.
-/

namespace AdaptiveTables
namespace Scale

theorem nudge_pos : (0 : ℝ) < nudge := by
  norm_num [nudge]

/-- Where the transform is defined. -/
def Covers (s : Scale) (v : ℝ) : Prop :=
  match s with
  | linear => True
  | logarithmic => 0 < v
  | logCosine => v < 1
  | nudgedLogCosine => v < 1 + nudge

theorem nudged_distance_pos {v : ℝ} (h : nudgedLogCosine.Covers v) : 0 < 1 - v + nudge := by
  have hcovers : v < 1 + nudge := h
  linarith

theorem covers_of_admits {s : Scale} {v : ℝ} (h : s.admits v = true) : s.Covers v := by
  cases s with
  | linear => trivial
  | logarithmic | logCosine =>
      simp only [admits, Bool.and_eq_true, decide_eq_true_eq] at h
      exact h.2
  | nudgedLogCosine =>
      simp only [admits, Bool.and_eq_true, decide_eq_true_eq] at h
      exact lt_of_le_of_lt h.2 (lt_add_of_pos_right 1 nudge_pos)

theorem isLogarithmic_iff {s : Scale} : s.isLogarithmic = true ↔ s = .logarithmic := by
  cases s <;> simp [isLogarithmic]

theorem covers_inverse (s : Scale) (t : ℝ) : s.Covers (s.inverse t) := by
  have hexp := Real.exp_pos t
  cases s with
  | linear => trivial
  | logarithmic => exact hexp
  | logCosine => exact sub_lt_self 1 hexp
  | nudgedLogCosine =>
      change (nudge - Real.exp t) + 1 < 1 + nudge
      linarith

theorem covers_between {s : Scale} {a b v : ℝ} (ha : s.Covers a) (hb : s.Covers b) (hav : a ≤ v)
    (hvb : v ≤ b) : s.Covers v := by
  cases s with
  | linear => trivial
  | logarithmic => exact lt_of_lt_of_le ha hav
  | logCosine | nudgedLogCosine => exact lt_of_le_of_lt hvb hb

theorem inverse_transform {s : Scale} {v : ℝ} (h : s.Covers v) :
    s.inverse (s.transform v) = v := by
  cases s with
  | linear => rfl
  | logarithmic => exact Real.exp_log h
  | logCosine =>
      change 1 - Real.exp (Real.log (1 - v)) = v
      rw [Real.exp_log (sub_pos.mpr h)]
      ring
  | nudgedLogCosine =>
      change (nudge - Real.exp (Real.log (1 - v + nudge))) + 1 = v
      have hpos := nudged_distance_pos h
      rw [Real.exp_log hpos]
      ring

theorem transform_inverse (s : Scale) (t : ℝ) : s.transform (s.inverse t) = t := by
  cases s with
  | linear => rfl
  | logarithmic => exact Real.log_exp t
  | logCosine =>
      change Real.log (1 - (1 - Real.exp t)) = t
      rw [sub_sub_cancel, Real.log_exp]
  | nudgedLogCosine =>
      change Real.log (1 - (nudge - Real.exp t + 1) + nudge) = t
      have hexp : 1 - (nudge - Real.exp t + 1) + nudge = Real.exp t := by ring
      rw [hexp, Real.log_exp]

/-- The direction in which the transform goes as the value rises. -/
def sign (s : Scale) : ℝ := if s.isCosine then -1 else 1

/-- The transform, turned so that it rises with the value. -/
noncomputable def height (s : Scale) (v : ℝ) : ℝ := s.sign * s.transform v

theorem sign_mul_sign (s : Scale) : s.sign * s.sign = 1 := by
  cases s <;> norm_num [sign, isCosine]

theorem height_lt_of_lt {s : Scale} {v w : ℝ} (hv : s.Covers v) (hw : s.Covers w) (h : v < w) :
    s.height v < s.height w := by
  cases s with
  | linear =>
      change 1 * v < 1 * w
      rwa [one_mul, one_mul]
  | logarithmic =>
      change 1 * Real.log v < 1 * Real.log w
      rw [one_mul, one_mul]
      exact Real.log_lt_log hv h
  | logCosine =>
      change -1 * Real.log (1 - v) < -1 * Real.log (1 - w)
      have hlog := Real.log_lt_log (sub_pos.mpr hw) (sub_lt_sub_left h 1)
      linarith
  | nudgedLogCosine =>
      change -1 * Real.log (1 - v + nudge) < -1 * Real.log (1 - w + nudge)
      have hlog := Real.log_lt_log (nudged_distance_pos hw)
        (by linarith : 1 - w + nudge < 1 - v + nudge)
      linarith

theorem height_lt_iff {s : Scale} {v w : ℝ} (hv : s.Covers v) (hw : s.Covers w) :
    s.height v < s.height w ↔ v < w := by
  refine ⟨fun h => ?_, height_lt_of_lt hv hw⟩
  rcases lt_trichotomy v w with hlt | rfl | hgt
  · exact hlt
  · exact absurd h (lt_irrefl _)
  · exact absurd (height_lt_of_lt hw hv hgt) (not_lt.mpr (le_of_lt h))

theorem height_le_iff {s : Scale} {v w : ℝ} (hv : s.Covers v) (hw : s.Covers w) :
    s.height v ≤ s.height w ↔ v ≤ w := by
  rw [← not_lt, ← not_lt, height_lt_iff hw hv]

theorem transform_sub_ne_zero {s : Scale} {a b : ℝ} (ha : s.Covers a) (hb : s.Covers b)
    (apart : a ≠ b) : s.transform b - s.transform a ≠ 0 := by
  intro heq
  refine apart ?_
  rw [← inverse_transform ha, ← inverse_transform hb, sub_eq_zero.mp heq]

/-- The length of a grid goes in the direction of its scale. -/
theorem length_pos {s : Scale} {a b : ℝ} (ha : s.Covers a) (hb : s.Covers b) (range : a < b) :
    0 < s.sign * s.length a b := by
  rw [length, mul_sub]
  exact sub_pos.mpr (height_lt_of_lt ha hb range)

/-- Heights measure the same fraction as transforms. -/
theorem fraction_eq (s : Scale) (a b x : ℝ) :
    s.fraction a b x = (s.height x - s.height a) / (s.height b - s.height a) := by
  have hsign : s.sign ≠ 0 := left_ne_zero_of_mul_eq_one s.sign_mul_sign
  rw [height, height, height, ← mul_sub, ← mul_sub, mul_div_mul_left _ _ hsign, fraction]

theorem fraction_left (s : Scale) (a b : ℝ) : s.fraction a b a = 0 := by
  rw [fraction, sub_self, zero_div]

theorem fraction_right {s : Scale} {a b : ℝ} (ha : s.Covers a) (hb : s.Covers b) (apart : a ≠ b) :
    s.fraction a b b = 1 :=
  div_self (transform_sub_ne_zero ha hb apart)

/-- Fractions rise with the value. -/
theorem strictMonoOn_fraction {s : Scale} {a b : ℝ} (ha : s.Covers a) (hb : s.Covers b)
    (range : a < b) : StrictMonoOn (s.fraction a b) {x | s.Covers x} := by
  intro x hx x' hx' h
  have hpos : 0 < s.height b - s.height a := sub_pos.mpr (height_lt_of_lt ha hb range)
  rw [fraction_eq, fraction_eq]
  exact div_lt_div_of_pos_right (sub_lt_sub_right (height_lt_of_lt hx hx' h) _) hpos

/-- A value strictly between two others lies at a fraction strictly between zero and one. -/
theorem fraction_mem {s : Scale} {a b x : ℝ} (ha : s.Covers a) (hb : s.Covers b) (hax : a < x)
    (hxb : x < b) : s.fraction a b x ∈ Set.Ioo (0 : ℝ) 1 := by
  have hx := covers_between ha hb (le_of_lt hax) (le_of_lt hxb)
  have range := lt_trans hax hxb
  have hlow := strictMonoOn_fraction ha hb range ha hx hax
  have hhigh := strictMonoOn_fraction ha hb range hx hb hxb
  rw [fraction_left] at hlow
  rw [fraction_right ha hb (ne_of_lt range)] at hhigh
  exact ⟨hlow, hhigh⟩

/-- On every scale a blend is linear in the transformed values. -/
theorem transform_blend {s : Scale} {a b : ℝ} (fraction : ℝ) (ha : s.Covers a) (hb : s.Covers b) :
    s.transform (s.blend fraction a b) =
      s.transform a + (s.transform b - s.transform a) * fraction := by
  have hcosine : s.isCosine = true → s.transform (if a == b then a else
      s.inverse (s.transform a + (s.transform b - s.transform a) * fraction)) =
        s.transform a + (s.transform b - s.transform a) * fraction := by
    intro _
    split
    next heq =>
      obtain rfl := beq_iff_eq.mp heq
      rw [sub_self, zero_mul, add_zero]
    next => rw [transform_inverse]
  cases s with
  | linear => rfl
  | logarithmic =>
      have ha' : 0 < a := ha
      have hb' : 0 < b := hb
      change Real.log (a * (b / a) ^ fraction) =
        Real.log a + (Real.log b - Real.log a) * fraction
      rw [Real.log_mul (ne_of_gt ha') (ne_of_gt (Real.rpow_pos_of_pos (div_pos hb' ha') _)),
        Real.log_rpow (div_pos hb' ha'), Real.log_div (ne_of_gt hb') (ne_of_gt ha')]
      ring
  | logCosine => exact hcosine rfl
  | nudgedLogCosine => exact hcosine rfl

theorem covers_blend {s : Scale} {a b : ℝ} (fraction : ℝ) (ha : s.Covers a) (hb : s.Covers b) :
    s.Covers (s.blend fraction a b) := by
  cases s with
  | linear => trivial
  | logarithmic => exact mul_pos ha (Real.rpow_pos_of_pos (div_pos hb ha) _)
  | logCosine =>
      rw [blend]
      split
      next => exact ha
      next => exact covers_inverse logCosine _
  | nudgedLogCosine =>
      rw [blend]
      split
      next => exact ha
      next => exact covers_inverse nudgedLogCosine _

/-- A blend is the value whose transform is blended. -/
theorem blend_eq {s : Scale} {a b : ℝ} (fraction : ℝ) (ha : s.Covers a) (hb : s.Covers b) :
    s.blend fraction a b =
      s.inverse (s.transform a + (s.transform b - s.transform a) * fraction) := by
  rw [← transform_blend fraction ha hb, inverse_transform (covers_blend fraction ha hb)]

theorem blend_self {s : Scale} {a : ℝ} (fraction : ℝ) (ha : s.Covers a) :
    s.blend fraction a a = a := by
  rw [blend_eq fraction ha ha, sub_self, zero_mul, add_zero, inverse_transform ha]

theorem blendOrLinear_self (s : Scale) (fraction a : ℝ) :
    s.blendOrLinear fraction a a = a := by
  rw [blendOrLinear]
  split
  next hadmits =>
    rw [Bool.and_self] at hadmits
    exact blend_self fraction (covers_of_admits hadmits)
  next => exact blend_self fraction trivial

/-- The height of a blend is the mean of the two heights. -/
theorem height_blend {s : Scale} {a b : ℝ} (fraction : ℝ) (ha : s.Covers a) (hb : s.Covers b) :
    s.height (s.blend fraction a b) = (1 - fraction) * s.height a + fraction * s.height b := by
  rw [height, height, height, transform_blend fraction ha hb]
  ring

/-- A blend rises with both of its ends. -/
theorem blend_le_blend {s : Scale} {fraction a b a' b' : ℝ}
    (hfraction : fraction ∈ Set.Icc (0 : ℝ) 1) (ha : s.Covers a) (hb : s.Covers b)
    (ha' : s.Covers a') (hb' : s.Covers b') (haa : a ≤ a') (hbb : b ≤ b') :
    s.blend fraction a b ≤ s.blend fraction a' b' := by
  rw [← height_le_iff (covers_blend fraction ha hb) (covers_blend fraction ha' hb'),
    height_blend fraction ha hb, height_blend fraction ha' hb']
  have hlower := mul_le_mul_of_nonneg_left ((height_le_iff ha ha').mpr haa)
    (sub_nonneg.mpr hfraction.2)
  have hupper := mul_le_mul_of_nonneg_left ((height_le_iff hb hb').mpr hbb) hfraction.1
  exact add_le_add hlower hupper

/-- Strictly inside the unit interval, a blend rises strictly with its ends. -/
theorem blend_lt_blend {s : Scale} {fraction a b a' b' : ℝ}
    (hfraction : fraction ∈ Set.Ioo (0 : ℝ) 1) (ha : s.Covers a) (hb : s.Covers b)
    (ha' : s.Covers a') (hb' : s.Covers b') (haa : a < a') (hbb : b < b') :
    s.blend fraction a b < s.blend fraction a' b' := by
  rw [← height_lt_iff (covers_blend fraction ha hb) (covers_blend fraction ha' hb'),
    height_blend fraction ha hb, height_blend fraction ha' hb']
  have hlower := mul_lt_mul_of_pos_left (height_lt_of_lt ha ha' haa)
    (sub_pos.mpr hfraction.2)
  have hupper := mul_lt_mul_of_pos_left (height_lt_of_lt hb hb' hbb) hfraction.1
  exact add_lt_add hlower hupper

/-- The length between two blends is the linear blend of the lengths. -/
theorem length_blend {s : Scale} {a b a' b' : ℝ} (fraction : ℝ) (ha : s.Covers a)
    (hb : s.Covers b) (ha' : s.Covers a') (hb' : s.Covers b') :
    s.length (s.blend fraction a b) (s.blend fraction a' b') =
      linear.blend fraction (s.length a a') (s.length b b') := by
  rw [length, transform_blend fraction ha hb, transform_blend fraction ha' hb']
  change _ = (s.transform a' - s.transform a) +
    ((s.transform b' - s.transform b) - (s.transform a' - s.transform a)) * fraction
  ring

variable {s : Scale} {v : ℝ}

theorem abs_inverseDeriv_linear (v : ℝ) : |linear.inverseDeriv v| = 1 := abs_one

/-- On the curved scales the magnitude of the slope is the exponential of the transform. -/
theorem abs_inverseDeriv_curved (curved : s ≠ linear) (h : s.Covers v) :
    |s.inverseDeriv v| = Real.exp (s.transform v) := by
  cases s with
  | linear => exact absurd rfl curved
  | logarithmic =>
      change |v| = Real.exp (Real.log v)
      rw [Real.exp_log h, abs_of_pos h]
  | logCosine =>
      change |-(1 - v)| = Real.exp (Real.log (1 - v))
      rw [abs_neg, Real.exp_log (sub_pos.mpr h), abs_of_pos (sub_pos.mpr h)]
  | nudgedLogCosine =>
      have hpos := nudged_distance_pos h
      change |-(1 - v + nudge)| = Real.exp (Real.log (1 - v + nudge))
      rw [abs_neg, Real.exp_log hpos, abs_of_pos hpos]

theorem abs_inverseDeriv_pos (h : s.Covers v) : 0 < |s.inverseDeriv v| := by
  by_cases hlinear : s = linear
  · rw [hlinear, abs_inverseDeriv_linear]
    exact one_pos
  · rw [abs_inverseDeriv_curved hlinear h]
    exact Real.exp_pos _

theorem inverseDeriv_eq_sign_mul (h : s.Covers v) :
    s.inverseDeriv v = s.sign * |s.inverseDeriv v| := by
  cases s with
  | linear => norm_num [sign, isCosine, inverseDeriv]
  | logarithmic =>
      have hpos : 0 < v := h
      norm_num [sign, isCosine, inverseDeriv, abs_of_pos hpos]
  | logCosine =>
      have hpos : 0 < 1 - v := sub_pos.mpr h
      simp [sign, isCosine, inverseDeriv, abs_of_pos hpos, abs_sub_comm v 1]
  | nudgedLogCosine =>
      have hpos := nudged_distance_pos h
      change -(1 - v + nudge) = -1 * |-(1 - v + nudge)|
      rw [abs_neg, abs_of_pos hpos]
      ring

theorem hasDerivAt_inverse (s : Scale) (t : ℝ) :
    HasDerivAt s.inverse (s.inverseDeriv (s.inverse t)) t := by
  cases s with
  | linear => exact hasDerivAt_id t
  | logarithmic => exact Real.hasDerivAt_exp t
  | logCosine =>
      refine ((Real.hasDerivAt_exp t).const_sub 1).congr_deriv ?_
      change -Real.exp t = -(1 - (1 - Real.exp t))
      ring
  | nudgedLogCosine =>
      refine (((Real.hasDerivAt_exp t).const_sub nudge).add_const 1).congr_deriv ?_
      change -Real.exp t = -(1 - (nudge - Real.exp t + 1) + nudge)
      ring

theorem hasDerivAt_transform (h : s.Covers v) :
    HasDerivAt s.transform (s.inverseDeriv v)⁻¹ v := by
  cases s with
  | linear => exact (hasDerivAt_id v).congr_deriv inv_one.symm
  | logarithmic => exact Real.hasDerivAt_log (ne_of_gt h)
  | logCosine =>
      have hdistance : HasDerivAt (fun w : ℝ => 1 - w) (-1) v := (hasDerivAt_id v).const_sub 1
      refine (hdistance.log (ne_of_gt (sub_pos.mpr h))).congr_deriv ?_
      change -1 / (1 - v) = (-(1 - v))⁻¹
      rw [inv_neg, neg_div, one_div]
  | nudgedLogCosine =>
      have hpos := nudged_distance_pos h
      have hdistance : HasDerivAt (fun w : ℝ => 1 - w + nudge) (-1) v :=
        ((hasDerivAt_id v).const_sub 1).add_const nudge
      refine (hdistance.log (ne_of_gt hpos)).congr_deriv ?_
      change -1 / (1 - v + nudge) = (-(1 - v + nudge))⁻¹
      rw [inv_neg, neg_div, one_div]

/-- How fast a blend moves with its two ends. -/
theorem hasDerivAt_blend {fraction p d₀ d₁ : ℝ} {S₀ S₁ : ℝ → ℝ} (covers₀ : ∀ q, s.Covers (S₀ q))
    (covers₁ : ∀ q, s.Covers (S₁ q)) (h₀ : HasDerivAt S₀ d₀ p) (h₁ : HasDerivAt S₁ d₁ p) :
    HasDerivAt (fun q => s.blend fraction (S₀ q) (S₁ q))
      (|s.inverseDeriv (s.blend fraction (S₀ p) (S₁ p))| *
        ((1 - fraction) * (d₀ / |s.inverseDeriv (S₀ p)|) +
          fraction * (d₁ / |s.inverseDeriv (S₁ p)|))) p := by
  have hblend : (fun q => s.blend fraction (S₀ q) (S₁ q)) = fun q =>
      s.inverse (s.transform (S₀ q) + (s.transform (S₁ q) - s.transform (S₀ q)) * fraction) :=
    funext fun q => blend_eq fraction (covers₀ q) (covers₁ q)
  have ht₀ : HasDerivAt (fun q => s.transform (S₀ q)) ((s.inverseDeriv (S₀ p))⁻¹ * d₀) p :=
    (hasDerivAt_transform (covers₀ p)).comp p h₀
  have ht₁ : HasDerivAt (fun q => s.transform (S₁ q)) ((s.inverseDeriv (S₁ p))⁻¹ * d₁) p :=
    (hasDerivAt_transform (covers₁ p)).comp p h₁
  have hslope := (s.hasDerivAt_inverse _).comp p (ht₀.add ((ht₁.sub ht₀).mul_const fraction))
  -- The signs of the three slopes agree, so only their magnitudes are left.
  have hsigns : ∀ σ R R₀ R₁ : ℝ, σ ≠ 0 →
      σ * R * ((σ * R₀)⁻¹ * d₀ + ((σ * R₁)⁻¹ * d₁ - (σ * R₀)⁻¹ * d₀) * fraction) =
        R * ((1 - fraction) * (d₀ / R₀) + fraction * (d₁ / R₁)) := by
    intro σ R R₀ R₁ hσ
    rw [mul_inv, mul_inv]
    field_simp
    ring
  have hmagnitudes := hsigns s.sign |s.inverseDeriv (s.blend fraction (S₀ p) (S₁ p))|
    |s.inverseDeriv (S₀ p)| |s.inverseDeriv (S₁ p)| (left_ne_zero_of_mul_eq_one s.sign_mul_sign)
  rw [← inverseDeriv_eq_sign_mul (covers_blend fraction (covers₀ p) (covers₁ p)),
    ← inverseDeriv_eq_sign_mul (covers₀ p), ← inverseDeriv_eq_sign_mul (covers₁ p)] at hmagnitudes
  rw [hblend, ← hmagnitudes, blend_eq fraction (covers₀ p) (covers₁ p)]
  exact hslope

end Scale

theorem fuzzyLower_le {tolerance : ℝ} (h : 0 ≤ tolerance) (bound : ℝ) :
    fuzzyLower tolerance bound ≤ bound := by
  rw [fuzzyLower]
  split
  next hneg =>
    have hshift := mul_nonneg_of_nonpos_of_nonpos hneg.le (neg_nonpos.mpr h)
    linarith
  next hnonneg =>
    have hshift := mul_nonneg (not_lt.mp hnonneg) h
    linarith

theorem le_fuzzyUpper {tolerance : ℝ} (h : 0 ≤ tolerance) (bound : ℝ) :
    bound ≤ fuzzyUpper tolerance bound := by
  rw [fuzzyUpper]
  split
  next hpos =>
    have hshift := mul_nonneg hpos.le h
    linarith
  next hnonpos =>
    have hshift := mul_nonneg_of_nonpos_of_nonpos (not_lt.mp hnonpos) (neg_nonpos.mpr h)
    linarith

namespace UnitBase

/-- A unit base whose length goes in the direction of its scale. -/
structure Proper (u : UnitBase ℝ) : Prop where
  covers : u.scale.Covers u.lower
  length_pos : 0 < u.scale.sign * u.length

variable {u : UnitBase ℝ} {η η' : ℝ}

/-- From the lower end on, no value has to be moved back to the grid. -/
theorem Proper.value_eq (proper : u.Proper) (hη : 0 ≤ η) :
    u.value η = u.scale.inverse (u.scale.transform u.lower + u.length * η) := by
  have hheight : u.scale.height u.lower ≤
      u.scale.height (u.scale.inverse (u.scale.transform u.lower + u.length * η)) := by
    have hstep := mul_nonneg (le_of_lt proper.length_pos) hη
    rw [Scale.height, Scale.height, Scale.transform_inverse]
    linarith
  have hlower := (Scale.height_le_iff proper.covers (Scale.covers_inverse _ _)).mp hheight
  rw [value]
  simp only [decide_eq_false (not_lt.mpr hlower), Bool.false_and, Bool.false_eq_true, if_false]

theorem Proper.transform_value (proper : u.Proper) (hη : 0 ≤ η) :
    u.scale.transform (u.value η) = u.scale.transform u.lower + u.length * η := by
  rw [proper.value_eq hη, Scale.transform_inverse]

theorem Proper.covers_value (proper : u.Proper) (hη : 0 ≤ η) : u.scale.Covers (u.value η) := by
  rw [proper.value_eq hη]
  exact Scale.covers_inverse _ _

theorem Proper.value_zero (proper : u.Proper) : u.value 0 = u.lower := by
  rw [proper.value_eq (le_refl 0), mul_zero, add_zero, Scale.inverse_transform proper.covers]

/-- The values of a grid rise with their coordinates. -/
theorem Proper.value_lt_value (proper : u.Proper) (hη : 0 ≤ η) (h : η < η') :
    u.value η < u.value η' := by
  have hη' : 0 ≤ η' := le_trans hη (le_of_lt h)
  rw [← Scale.height_lt_iff (proper.covers_value hη) (proper.covers_value hη'), Scale.height,
    Scale.height, proper.transform_value hη, proper.transform_value hη']
  have hstep := mul_lt_mul_of_pos_left h proper.length_pos
  linarith

theorem coordinate_eq {v : ℝ}
    (h : (u.scale.transform v - u.scale.transform u.lower) / u.length ∈ Set.Icc (0 : ℝ) 1) :
    u.coordinate v = (u.scale.transform v - u.scale.transform u.lower) / u.length := by
  rw [coordinate]
  simp only [decide_eq_false (not_lt.mpr h.1), decide_eq_false (not_lt.mpr h.2), Bool.false_and,
    Bool.false_eq_true, if_false]

theorem Proper.length_ne_zero (proper : u.Proper) : u.length ≠ 0 :=
  right_ne_zero_of_mul (ne_of_gt proper.length_pos)

theorem Proper.jacobian_ne_zero (proper : u.Proper) {v : ℝ} (h : u.scale.Covers v) :
    u.jacobian v ≠ 0 :=
  mul_ne_zero proper.length_ne_zero (abs_pos.mp (Scale.abs_inverseDeriv_pos h))

/-- A value is brought back to the coordinate that it was made from. -/
theorem Proper.coordinate_value (proper : u.Proper) (hη : η ∈ Set.Icc (0 : ℝ) 1) :
    u.coordinate (u.value η) = η := by
  have hquotient : (u.scale.transform (u.value η) - u.scale.transform u.lower) / u.length = η := by
    rw [proper.transform_value hη.1, add_sub_cancel_left,
      mul_div_cancel_left₀ η proper.length_ne_zero]
  rw [coordinate_eq (hquotient.symm ▸ hη), hquotient]

theorem Proper.strictMonoOn_value (proper : u.Proper) : StrictMonoOn u.value (Set.Ici 0) :=
  fun _ hη _ _ h => proper.value_lt_value hη h

theorem Proper.value_mem (proper : u.Proper) (hη : η ∈ Set.Icc (0 : ℝ) 1) :
    u.value η ∈ Set.Icc u.lower (u.value 1) := by
  have hmono := proper.strictMonoOn_value.monotoneOn
  have hzero := hmono (Set.mem_Ici.mpr (le_refl 0)) (Set.mem_Ici.mpr hη.1) hη.1
  rw [proper.value_zero] at hzero
  exact ⟨hzero, hmono (Set.mem_Ici.mpr hη.1) (Set.mem_Ici.mpr zero_le_one) hη.2⟩

/-- A value between the ends of a grid has a coordinate. -/
theorem Proper.exists_value_eq (proper : u.Proper) {v : ℝ}
    (hv : v ∈ Set.Icc u.lower (u.value 1)) : ∃ η ∈ Set.Icc (0 : ℝ) 1, u.value η = v := by
  have hcovers := Scale.covers_between proper.covers (proper.covers_value zero_le_one) hv.1 hv.2
  have hlow : 0 ≤ u.scale.sign * (u.scale.transform v - u.scale.transform u.lower) := by
    have hheight := (Scale.height_le_iff proper.covers hcovers).mpr hv.1
    rw [Scale.height, Scale.height] at hheight
    linarith
  have hhigh : u.scale.sign * (u.scale.transform v - u.scale.transform u.lower) ≤
      u.scale.sign * u.length := by
    have hheight :=
      (Scale.height_le_iff hcovers (proper.covers_value zero_le_one)).mpr hv.2
    rw [Scale.height, Scale.height, proper.transform_value zero_le_one] at hheight
    linarith
  have hsign : u.scale.sign ≠ 0 := left_ne_zero_of_mul_eq_one u.scale.sign_mul_sign
  have hquotient :=
    mul_div_mul_left (u.scale.transform v - u.scale.transform u.lower) u.length hsign
  have hη : (u.scale.transform v - u.scale.transform u.lower) / u.length ∈ Set.Icc (0 : ℝ) 1 := by
    rw [← hquotient]
    exact ⟨div_nonneg hlow (le_of_lt proper.length_pos), (div_le_one proper.length_pos).mpr hhigh⟩
  refine ⟨_, hη, ?_⟩
  rw [proper.value_eq hη.1, mul_div_cancel₀ _ proper.length_ne_zero, add_sub_cancel,
    Scale.inverse_transform hcovers]

theorem Proper.coordinate_mem (proper : u.Proper) {v : ℝ}
    (hv : v ∈ Set.Icc u.lower (u.value 1)) : u.coordinate v ∈ Set.Icc (0 : ℝ) 1 := by
  obtain ⟨η, hη, rfl⟩ := proper.exists_value_eq hv
  rwa [proper.coordinate_value hη]

/-- Between its ends a grid carries every value to a coordinate and back. -/
theorem Proper.value_coordinate (proper : u.Proper) {v : ℝ}
    (hv : v ∈ Set.Icc u.lower (u.value 1)) : u.value (u.coordinate v) = v := by
  obtain ⟨η, hη, rfl⟩ := proper.exists_value_eq hv
  rw [proper.coordinate_value hη]

/-- Between its ends a grid gives every value the coordinate that the scale measures. -/
theorem Proper.coordinate_of_mem (proper : u.Proper) {v : ℝ}
    (hv : v ∈ Set.Icc u.lower (u.value 1)) :
    u.coordinate v = (u.scale.transform v - u.scale.transform u.lower) / u.length := by
  obtain ⟨η, hη, rfl⟩ := proper.exists_value_eq hv
  rw [proper.coordinate_value hη, proper.transform_value hη.1, add_sub_cancel_left,
    mul_div_cancel_left₀ η proper.length_ne_zero]

section Ends

variable {s : Scale} {lower upper tolerance : ℝ} (hlower : s.Covers lower) (hupper : s.Covers upper)

include hlower hupper

theorem proper_ofEnds (range : lower < upper) : (ofEnds s lower upper tolerance).Proper :=
  ⟨hlower, Scale.length_pos hlower hupper range⟩

theorem value_one_ofEnds (range : lower < upper) :
    (ofEnds s lower upper tolerance).value 1 = upper := by
  have hend : s.transform lower + s.length lower upper * 1 = s.transform upper := by
    rw [mul_one, Scale.length, add_sub_cancel]
  rw [(proper_ofEnds hlower hupper range).value_eq zero_le_one]
  change s.inverse (s.transform lower + s.length lower upper * 1) = upper
  rw [hend, Scale.inverse_transform hupper]

end Ends

end UnitBase
end AdaptiveTables
