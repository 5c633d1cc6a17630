import Mathlib
import AdaptiveTables.Proofs.Order

/-!
Exact arithmetic. The definitions that run on doubles have a meaning on the real numbers, where
every value is a finite number and equal values are the same. There a relative tolerance bounds
the difference by a multiple of the exact value alone.
-/

namespace AdaptiveTables
namespace Exact

noncomputable instance instScalar : Scalar ℝ where
  toBEq := instBEqOfDecidableEq
  decLt := fun a b => Real.decidableLT a b
  decLe := fun a b => Real.decidableLE a b
  abs := fun a => |a|
  sqrt := Real.sqrt
  exp := Real.exp
  ln := Real.log
  pow := Real.rpow
  isFinite := fun _ => true
  totalLe := fun a b => decide (a ≤ b)

@[simp]
theorem abs_eq (a : ℝ) : Scalar.abs a = |a| := rfl

@[simp]
theorem sqrt_eq (a : ℝ) : Scalar.sqrt a = Real.sqrt a := rfl

@[simp]
theorem isFinite_eq (a : ℝ) : Scalar.isFinite a = true := rfl

theorem isNumber_eq (a : ℝ) : Scalar.isNumber a = true := beq_iff_eq.mpr rfl

theorem max_eq (a b : ℝ) : Scalar.max a b = Max.max a b := by
  rw [Scalar.max, if_pos (isNumber_eq a)]
  split
  next h => exact (max_eq_right (le_of_lt h)).symm
  next h => exact (max_eq_left (not_lt.mp h)).symm

theorem min_eq (a b : ℝ) : Scalar.min a b = Min.min a b := by
  rw [Scalar.min, if_pos (isNumber_eq a)]
  split
  next h => exact (min_eq_right (le_of_lt h)).symm
  next h => exact (min_eq_left (not_lt.mp h)).symm

theorem clamp_of_mem {lo hi a : ℝ} (h : a ∈ Set.Icc lo hi) : Scalar.clamp lo hi a = a := by
  rw [Scalar.clamp, if_neg (not_lt.mpr h.1), if_neg (not_lt.mpr h.2)]

instance instOrdered : Scalar.Ordered ℝ where
  lt_irrefl := lt_irrefl
  lt_trans := lt_trans
  number_of_lt _ := ⟨isNumber_eq _, isNumber_eq _⟩
  lt_or_lt {a b c} h _ := (lt_or_ge a c).imp_right fun hca => lt_of_le_of_lt hca h
  le_iff := by simp [isNumber_eq]
  beq_iff {a b} := by
    simp only [beq_iff_eq, isNumber_eq, true_and, not_lt]
    exact ⟨fun h => ⟨ge_of_eq h, le_of_eq h⟩, fun h => le_antisymm h.2 h.1⟩
  number_of_finite _ := isNumber_eq _
  finite_between _ _ _ _ := rfl
  totalLe_trans hab hbc := decide_eq_true (le_trans (of_decide_eq_true hab) (of_decide_eq_true hbc))
  totalLe_total a b := by
    rw [Bool.or_eq_true]
    exact (le_total a b).imp (fun h => decide_eq_true h) fun h => decide_eq_true h
  not_lt_of_totalLe h := not_lt_of_ge (of_decide_eq_true h)

instance instFiniteUnit : Scalar.FiniteUnit ℝ where
  finite_one := rfl
  finite_neg_one := rfl

instance instSeparated : Scalar.Separated ℝ where
  eq_of_totalLe h h' := le_antisymm (of_decide_eq_true h) (of_decide_eq_true h')

instance instZeroTies : Scalar.ZeroTies ℝ where
  eq_of_beq h _ := beq_iff_eq.mp h

theorem relativeError_self (a : ℝ) : Scalar.relativeError a a = 0 := by
  rw [Scalar.relativeError]
  split
  next => rfl
  next =>
    change |a - a| / _ = 0
    rw [sub_self, abs_zero, zero_div]

theorem abs_sub_le_of_relativeError {y z tolerance : ℝ}
    (h : Scalar.relativeError y z ≤ tolerance) :
    |y - z| ≤ tolerance * Max.max |y| |z| := by
  rw [Scalar.relativeError] at h
  simp only [max_eq] at h
  split at h
  next hzero =>
    have hmax : Max.max |y| |z| = 0 := beq_iff_eq.mp hzero
    have hy : y = 0 := abs_eq_zero.mp (le_antisymm (hmax ▸ le_max_left _ _) (abs_nonneg y))
    have hz : z = 0 := abs_eq_zero.mp (le_antisymm (hmax ▸ le_max_right _ _) (abs_nonneg z))
    simp [hy, hz]
  next hne =>
    have hpos : 0 < Max.max |y| |z| :=
      lt_of_le_of_ne (le_trans (abs_nonneg y) (le_max_left _ _)) fun heq =>
        hne (beq_iff_eq.mpr heq.symm)
    exact (div_le_iff₀ hpos).mp h

/-- The relative error is taken of the larger magnitude. What the exact value then bounds is the
difference times the distance of the tolerance to one. -/
theorem abs_sub_le_of_tolerance {y z tolerance : ℝ} (positive : 0 < tolerance)
    (below : tolerance < 1) (h : Scalar.relativeError y z ≤ tolerance) :
    |y - z| ≤ tolerance / (1 - tolerance) * |y| := by
  have hmax := abs_sub_le_of_relativeError h
  have hz : |z| ≤ |y| + |y - z| := by
    have htriangle := abs_sub_abs_le_abs_sub z y
    rw [abs_sub_comm z y] at htriangle
    linarith
  have hscale : Max.max |y| |z| ≤ |y| + |y - z| :=
    max_le (le_add_of_nonneg_right (abs_nonneg _)) hz
  have hself : |y - z| ≤ tolerance * (|y| + |y - z|) :=
    le_trans hmax (mul_le_mul_of_nonneg_left hscale (le_of_lt positive))
  rw [div_mul_eq_mul_div, le_div_iff₀ (sub_pos.mpr below)]
  linarith

end Exact
end AdaptiveTables
