import AdaptiveTables.Proofs.ExactScales
import AdaptiveTables.Rule

/-!
Interpolation rules in exact arithmetic. On the scales of its axes every rule is a straight line:
the closed forms without a cosine axis are the same blends that the other rules are defined by. A
blend undoes the fraction that it is made from, so the ends and the points between them are where
they are expected, in whichever order the ends come.
-/

namespace AdaptiveTables

namespace Scale

variable {s : Scale} {fraction a b x : ℝ}

/-- Blending from the other end takes the rest of the fraction. -/
theorem blend_swap (fraction : ℝ) (ha : s.Covers a) (hb : s.Covers b) :
    s.blend fraction a b = s.blend (1 - fraction) b a := by
  rw [blend_eq fraction ha hb, blend_eq (1 - fraction) hb ha]
  congr 1
  ring

theorem fraction_swap (ha : s.Covers a) (hb : s.Covers b) (apart : a ≠ b) (x : ℝ) :
    s.fraction a b x = 1 - s.fraction b a x := by
  have hne := transform_sub_ne_zero ha hb apart
  have hne' := transform_sub_ne_zero hb ha apart.symm
  rw [Scale.fraction, Scale.fraction]
  field_simp
  ring

/-- A blend lies at the fraction that it is made from. -/
theorem fraction_blend (fraction : ℝ) (ha : s.Covers a) (hb : s.Covers b) (apart : a ≠ b) :
    s.fraction a b (s.blend fraction a b) = fraction := by
  rw [Scale.fraction, transform_blend fraction ha hb, add_sub_cancel_left,
    mul_div_cancel_left₀ _ (transform_sub_ne_zero ha hb apart)]

theorem blend_zero (ha : s.Covers a) (hb : s.Covers b) : s.blend 0 a b = a := by
  rw [blend_eq 0 ha hb, mul_zero, add_zero, inverse_transform ha]

theorem blend_one (ha : s.Covers a) (hb : s.Covers b) : s.blend 1 a b = b := by
  rw [blend_swap 1 ha hb, sub_self, blend_zero hb ha]

theorem blend_mem_Icc (hfraction : fraction ∈ Set.Icc (0 : ℝ) 1) (ha : s.Covers a)
    (hb : s.Covers b) (h : a ≤ b) : s.blend fraction a b ∈ Set.Icc a b := by
  have hlow := blend_le_blend hfraction ha ha ha hb (le_refl a) h
  have hhigh := blend_le_blend hfraction ha hb hb hb h (le_refl b)
  rw [blend_self fraction ha] at hlow
  rw [blend_self fraction hb] at hhigh
  exact ⟨hlow, hhigh⟩

theorem blend_mem_uIcc (hfraction : fraction ∈ Set.Icc (0 : ℝ) 1) (ha : s.Covers a)
    (hb : s.Covers b) : s.blend fraction a b ∈ Set.uIcc a b := by
  cases le_total a b with
  | inl h =>
      rw [Set.uIcc_of_le h]
      exact blend_mem_Icc hfraction ha hb h
  | inr h =>
      rw [Set.uIcc_of_ge h, blend_swap fraction ha hb]
      exact blend_mem_Icc ⟨sub_nonneg.mpr hfraction.2, sub_le_self 1 hfraction.1⟩ hb ha h

theorem blend_mem_Ioo (hfraction : fraction ∈ Set.Ioo (0 : ℝ) 1) (ha : s.Covers a)
    (hb : s.Covers b) (h : a < b) : s.blend fraction a b ∈ Set.Ioo a b := by
  have hcovers := covers_blend fraction ha hb
  have hheights := height_lt_of_lt ha hb h
  have hlow := mul_lt_mul_of_pos_left hheights hfraction.1
  have hhigh := mul_lt_mul_of_pos_left hheights (sub_pos.mpr hfraction.2)
  rw [Set.mem_Ioo, ← height_lt_iff ha hcovers, ← height_lt_iff hcovers hb,
    height_blend fraction ha hb]
  constructor <;> linarith

theorem blend_mem_uIoo (hfraction : fraction ∈ Set.Ioo (0 : ℝ) 1) (ha : s.Covers a)
    (hb : s.Covers b) (apart : a ≠ b) : s.blend fraction a b ∈ Set.uIoo a b := by
  cases lt_or_gt_of_ne apart with
  | inl h =>
      rw [Set.uIoo_of_lt h]
      exact blend_mem_Ioo hfraction ha hb h
  | inr h =>
      rw [Set.uIoo_of_gt h, blend_swap fraction ha hb]
      exact blend_mem_Ioo ⟨sub_pos.mpr hfraction.2, sub_lt_self 1 hfraction.1⟩ hb ha h

theorem fraction_mem_Icc (ha : s.Covers a) (hb : s.Covers b) (h : a < b)
    (hx : x ∈ Set.Icc a b) : s.fraction a b x ∈ Set.Icc (0 : ℝ) 1 := by
  have hmono := (strictMonoOn_fraction ha hb h).monotoneOn
  have hcovers := covers_between ha hb hx.1 hx.2
  have hlow := hmono ha hcovers hx.1
  have hhigh := hmono hcovers hb hx.2
  rw [fraction_left] at hlow
  rw [fraction_right ha hb (ne_of_lt h)] at hhigh
  exact ⟨hlow, hhigh⟩

theorem fraction_mem_of_uIcc (ha : s.Covers a) (hb : s.Covers b) (apart : a ≠ b)
    (hx : x ∈ Set.uIcc a b) : s.fraction a b x ∈ Set.Icc (0 : ℝ) 1 := by
  cases lt_or_gt_of_ne apart with
  | inl h =>
      rw [Set.uIcc_of_lt h] at hx
      exact fraction_mem_Icc ha hb h hx
  | inr h =>
      rw [Set.uIcc_of_gt h] at hx
      obtain ⟨hlow, hhigh⟩ := fraction_mem_Icc hb ha h hx
      rw [fraction_swap ha hb apart]
      exact ⟨sub_nonneg.mpr hhigh, sub_le_self 1 hlow⟩

theorem midpoint_eq_blend (ha : s.Covers a) (hb : s.Covers b) :
    s.midpoint a b = s.blend (1 / 2) a b := by
  rw [blend_eq (1 / 2) ha hb, midpoint]
  congr 1
  ring

end Scale

namespace LineRule

variable {r : LineRule} {x₀ x₁ x y₀ y₁ : ℝ}

/-- The closed forms of a rule are the blend of its fraction. -/
theorem interpolate_eq_blend (hx₀ : r.independent.Covers x₀) (hx₁ : r.independent.Covers x₁)
    (hx : r.independent.Covers x) (y₀ y₁ : ℝ) :
    r.interpolate x₀ x₁ x y₀ y₁ = r.dependent.blend (r.fraction x₀ x₁ x) y₀ y₁ := by
  obtain ⟨dependent, independent, _⟩ := r
  cases independent with
  | linear =>
      cases dependent with
      | linear =>
          change y₀ + (y₁ - y₀) / (x₁ - x₀) * (x - x₀) = y₀ + (y₁ - y₀) * ((x - x₀) / (x₁ - x₀))
          ring
      | logarithmic | logCosine | nudgedLogCosine => rfl
  | logarithmic =>
      have hpos₀ : 0 < x₀ := hx₀
      have hpos₁ : 0 < x₁ := hx₁
      have hpos : 0 < x := hx
      have hfraction : Real.log (x / x₀) / Real.log (x₁ / x₀) =
          (Real.log x - Real.log x₀) / (Real.log x₁ - Real.log x₀) := by
        rw [Real.log_div hpos.ne' hpos₀.ne', Real.log_div hpos₁.ne' hpos₀.ne']
      cases dependent with
      | linear =>
          change y₀ + (y₁ - y₀) * Real.log (x / x₀) / Real.log (x₁ / x₀) =
            y₀ + (y₁ - y₀) * ((Real.log x - Real.log x₀) / (Real.log x₁ - Real.log x₀))
          rw [mul_div_assoc, hfraction]
      | logarithmic =>
          change y₀ * (y₁ / y₀) ^ (Real.log (x / x₀) / Real.log (x₁ / x₀)) =
            y₀ * (y₁ / y₀) ^ ((Real.log x - Real.log x₀) / (Real.log x₁ - Real.log x₀))
          rw [hfraction]
      | logCosine | nudgedLogCosine => rfl
  | logCosine | nudgedLogCosine =>
      cases dependent with
      | linear | logarithmic | logCosine | nudgedLogCosine => rfl

/-- On the scales of its axes a rule interpolates linearly: it blends the dependent values at the
fraction of the independent one, passes through both ends, stays between them, and halves an
interval where its fraction is a half. -/
theorem rules_interpolate_linearly (r : LineRule) {x₀ x₁ x y₀ y₁ : ℝ} (apart : x₀ ≠ x₁)
    (admits₀ : r.independent.admits x₀ = true) (admits₁ : r.independent.admits x₁ = true)
    (admits : r.independent.admits x = true) (dependent₀ : r.dependent.admits y₀ = true)
    (dependent₁ : r.dependent.admits y₁ = true) :
    let t := r.fraction x₀ x₁ x
    let y := r.interpolate x₀ x₁ x y₀ y₁
    r.dependent.transform y =
        r.dependent.transform y₀ + (r.dependent.transform y₁ - r.dependent.transform y₀) * t ∧
      y = r.dependent.blend t y₀ y₁ ∧
      r.interpolate x₀ x₁ x₀ y₀ y₁ = y₀ ∧ r.interpolate x₀ x₁ x₁ y₀ y₁ = y₁ ∧
      (x ∈ Set.uIcc x₀ x₁ → y ∈ Set.uIcc y₀ y₁) ∧
      r.midpoint x₀ x₁ ∈ Set.uIoo x₀ x₁ ∧ r.fraction x₀ x₁ (r.midpoint x₀ x₁) = 1 / 2 := by
  intro t y
  have hx₀ := Scale.covers_of_admits admits₀
  have hx₁ := Scale.covers_of_admits admits₁
  have hy₀ := Scale.covers_of_admits dependent₀
  have hy₁ := Scale.covers_of_admits dependent₁
  have hblend : y = r.dependent.blend t y₀ y₁ :=
    interpolate_eq_blend hx₀ hx₁ (Scale.covers_of_admits admits) y₀ y₁
  have hmidpoint : r.midpoint x₀ x₁ = r.independent.blend (1 / 2) x₀ x₁ :=
    Scale.midpoint_eq_blend hx₀ hx₁
  have hzero : r.fraction x₀ x₁ x₀ = 0 := Scale.fraction_left _ _ _
  have hone : r.fraction x₀ x₁ x₁ = 1 := Scale.fraction_right hx₀ hx₁ apart
  refine ⟨?_, hblend, ?_, ?_, fun hx => ?_, ?_, ?_⟩
  · rw [hblend]
    exact Scale.transform_blend t hy₀ hy₁
  · rw [interpolate_eq_blend hx₀ hx₁ hx₀, hzero, Scale.blend_zero hy₀ hy₁]
  · rw [interpolate_eq_blend hx₀ hx₁ hx₁, hone, Scale.blend_one hy₀ hy₁]
  · rw [hblend]
    exact Scale.blend_mem_uIcc (Scale.fraction_mem_of_uIcc hx₀ hx₁ apart hx) hy₀ hy₁
  · rw [hmidpoint]
    exact Scale.blend_mem_uIoo (by norm_num) hx₀ hx₁ apart
  · rw [hmidpoint]
    exact Scale.fraction_blend (1 / 2) hx₀ hx₁ apart

/-- The ends may come in falling order, and the transform may fall. -/
theorem falling_rule_interpolates_linearly :
    let r : LineRule := ⟨.logCosine, .logarithmic, rfl⟩
    let y : ℝ := r.interpolate 4 1 2 0 (1 / 2)
    y = Scale.logCosine.blend (r.fraction 4 1 2) 0 (1 / 2) ∧
      r.interpolate 4 1 4 0 (1 / 2) = (0 : ℝ) ∧ r.interpolate 4 1 1 0 (1 / 2) = (1 / 2 : ℝ) ∧
      y ∈ Set.uIcc 0 (1 / 2) ∧ r.midpoint 4 1 ∈ Set.uIoo (4 : ℝ) 1 := by
  intro r y
  have hlogarithmic (v : ℝ) (h : 0 < v) : r.independent.admits v = true := by
    simpa [r, Scale.admits] using h
  have hcosine (v : ℝ) (h : -1 ≤ v ∧ v < 1) : r.dependent.admits v = true := by
    simpa [r, Scale.admits] using h
  have apart : (4 : ℝ) ≠ 1 := by norm_num
  obtain ⟨_, hblend, hleft, hright, hbetween, hmidpoint, _⟩ :=
    rules_interpolate_linearly r apart (hlogarithmic 4 (by norm_num))
      (hlogarithmic 1 one_pos) (hlogarithmic 2 two_pos) (hcosine 0 (by norm_num))
      (hcosine (1 / 2) (by norm_num))
  exact ⟨hblend, hleft, hright, hbetween (by norm_num [Set.mem_uIcc]), hmidpoint⟩

end LineRule
end AdaptiveTables
