import Mathlib
import AdaptiveTables.Double
import AdaptiveTables.Proofs.Order

/-!
The order of doubles. A double that is a number has a position among the representable values,
counted from zero, and the comparisons of doubles are those of the positions. The laws of an
ordered arithmetic follow from the order of the integers.
-/

namespace AdaptiveTables
namespace Double

open Float.Model Float.Model.UnpackedFloat

/-- The number of representable values between zero and a value, with its sign. -/
def position : UnpackedFloat → Int
  | .notANumber | .zero _ => 0
  | .infinity s => s.apply (2047 * 2 ^ 52)
  | .finite s m e _ => s.apply ((e + 1074) * 2 ^ 52 + m)

/-- The exponent is the least one that the mantissa fits, so that equal values have equal parts. -/
def Canonical : UnpackedFloat → Prop
  | .finite _ m e _ => -1074 ≤ e ∧ e ≤ 971 ∧ m < 2 ^ 53 ∧ (e = -1074 ∨ 2 ^ 52 ≤ m)
  | _ => True

theorem position_finite_pos {m : Nat} {e : Int} (hm : 0 < m)
    (h : Canonical (.finite .positive m e hm)) :
    0 < (e + 1074) * 2 ^ 52 + m ∧ (e + 1074) * 2 ^ 52 + m < 2047 * 2 ^ 52 := by
  obtain ⟨hlow, hhigh, hmantissa, _⟩ := h
  omega

/-- Exponents are compared first, and mantissas where these agree. -/
theorem compare_finite {m₁ m₂ : Nat} {e₁ e₂ : Int} (h₁ : 0 < m₁) (h₂ : 0 < m₂)
    (c₁ : Canonical (.finite .positive m₁ e₁ h₁))
    (c₂ : Canonical (.finite .positive m₂ e₂ h₂)) :
    (compare e₁ e₂).then (compare m₁ m₂) =
      compare ((e₁ + 1074) * 2 ^ 52 + m₁) ((e₂ + 1074) * 2 ^ 52 + (m₂ : Int)) := by
  obtain ⟨l₁, _, u₁, n₁⟩ := c₁
  obtain ⟨l₂, _, u₂, n₂⟩ := c₂
  rcases Int.lt_trichotomy e₁ e₂ with he | rfl | he
  · rw [Int.compare_eq_lt.mpr he, Int.compare_eq_lt.mpr (by omega)]
    rfl
  · rw [Int.compare_eq_eq.mpr rfl, Ordering.eq_then]
    rcases Nat.lt_trichotomy m₁ m₂ with hm | rfl | hm
    · rw [Nat.compare_eq_lt.mpr hm, Int.compare_eq_lt.mpr (by omega)]
    · rw [Nat.compare_eq_eq.mpr rfl, Int.compare_eq_eq.mpr rfl]
    · rw [Nat.compare_eq_gt.mpr hm, Int.compare_eq_gt.mpr (by omega)]
  · rw [Int.compare_eq_gt.mpr he, Int.compare_eq_gt.mpr (by omega)]
    rfl

theorem swap_compare_int (a b : Int) : (compare a b).swap = compare (-a) (-b) := by
  rcases Int.lt_trichotomy a b with h | rfl | h
  · rw [Int.compare_eq_lt.mpr h, Int.compare_eq_gt.mpr (by omega)]
    rfl
  · rw [Int.compare_eq_eq.mpr rfl, Int.compare_eq_eq.mpr rfl]
    rfl
  · rw [Int.compare_eq_gt.mpr h, Int.compare_eq_lt.mpr (by omega)]
    rfl

theorem compare_eq_position {x y : UnpackedFloat} (hx : Canonical x) (hy : Canonical y)
    (nx : x.isNaN = false) (ny : y.isNaN = false) :
    x.compare y = some (compare (position x) (position y)) := by
  cases x with
  | notANumber => cases nx
  | infinity s =>
      cases y with
      | notANumber => cases ny
      | infinity t => cases s <;> cases t <;> rfl
      | zero t => cases s <;> rfl
      | finite t m e hm =>
          have hp := position_finite_pos hm hy
          cases s <;> cases t <;>
            simp only [UnpackedFloat.compare, position, Sign.apply, Option.some.injEq]
          all_goals first
            | exact (Int.compare_eq_lt.mpr (by omega)).symm
            | exact (Int.compare_eq_gt.mpr (by omega)).symm
  | zero s =>
      cases y with
      | notANumber => cases ny
      | infinity t => cases t <;> rfl
      | zero t => rfl
      | finite t m e hm =>
          have hp := position_finite_pos hm hy
          cases t <;> simp only [UnpackedFloat.compare, position, Sign.apply, Option.some.injEq]
          · exact (Int.compare_eq_gt.mpr (by omega)).symm
          · exact (Int.compare_eq_lt.mpr (by omega)).symm
  | finite s m e hm =>
      have hp := position_finite_pos hm hx
      cases y with
      | notANumber => cases ny
      | infinity t =>
          cases s <;> cases t <;>
            simp only [UnpackedFloat.compare, position, Sign.apply, Option.some.injEq]
          all_goals first
            | exact (Int.compare_eq_lt.mpr (by omega)).symm
            | exact (Int.compare_eq_gt.mpr (by omega)).symm
      | zero t =>
          cases s <;> simp only [UnpackedFloat.compare, position, Sign.apply, Option.some.injEq]
          · exact (Int.compare_eq_lt.mpr (by omega)).symm
          · exact (Int.compare_eq_gt.mpr (by omega)).symm
      | finite t m' e' hm' =>
          have hp' := position_finite_pos hm' hy
          cases s <;> cases t <;>
            simp only [UnpackedFloat.compare, position, Sign.apply, Option.some.injEq]
          · rw [compare_finite hm hm' hx hy, swap_compare_int]
          · exact (Int.compare_eq_lt.mpr (by omega)).symm
          · exact (Int.compare_eq_gt.mpr (by omega)).symm
          · exact compare_finite hm hm' hx hy

theorem toNat_unpackMantissa (b : BitVec Format.binary64.numBits) :
    (unpackMantissa b).toNat = b.toNat % 2 ^ 52 := by
  simp [unpackMantissa, BitVec.extractLsb, BitVec.extractLsb']

theorem toNat_unpackExponent (b : BitVec Format.binary64.numBits) :
    (unpackExponent b).toNat = b.toNat / 2 ^ 52 % 2 ^ 11 := by
  simp [unpackExponent, BitVec.extractLsb, BitVec.extractLsb', Nat.shiftRight_eq_div_pow]

theorem toNat_unpackSign (b : BitVec Format.binary64.numBits) :
    (unpackSign b).toNat = b.toNat / 2 ^ 63 := by
  have h : b.toNat < 2 ^ 64 := b.isLt
  simp [unpackSign, BitVec.extractLsb, BitVec.extractLsb', Nat.shiftRight_eq_div_pow]
  omega

theorem toNat_implicit_bit (m : BitVec 52) : (1#1 ++ m).toNat = 2 ^ 52 + m.toNat := by
  rw [BitVec.toNat_append, ← Nat.shiftLeft_add_eq_or_of_lt m.isLt]
  rfl

/-- What a bit pattern decodes to: its parts are canonical, and its bits below the sign are the
magnitude of its position. -/
theorem unpack_spec (b : BitVec Format.binary64.numBits) :
    Canonical (unpack .binary64 b) ∧
      ((unpack .binary64 b).isNaN = false →
        position (unpack .binary64 b) =
          (Sign.ofBitVec (unpackSign b)).apply (b.toNat % 2 ^ 63 : Nat)) := by
  have hm := toNat_unpackMantissa b
  have he := toNat_unpackExponent b
  have hsplit :
      b.toNat % 2 ^ 63 = (unpackExponent b).toNat * 2 ^ 52 + (unpackMantissa b).toNat := by
    omega
  rw [hsplit]
  unfold UnpackedFloat.unpack
  simp only
  split
  next hinf =>
    have hexp : (unpackExponent b).toNat = 2047 := by rw [hinf]; rfl
    split
    next hzero =>
      refine ⟨trivial, fun _ => ?_⟩
      simp only [position, hexp, hzero]
      rfl
    next => exact ⟨trivial, fun h => by cases h⟩
  next hinf =>
    have hexp : (unpackExponent b).toNat ≠ 2047 := fun h =>
      hinf (BitVec.eq_of_toNat_eq (by rw [h]; rfl))
    split
    next hsub =>
      have hexp0 : (unpackExponent b).toNat = 0 := by rw [hsub]; rfl
      split
      next hzero =>
        refine ⟨trivial, fun _ => ?_⟩
        simp only [position, hexp0, hzero]
        cases Sign.ofBitVec (unpackSign b) <;> rfl
      next =>
        have hbias : Format.exponentBias .binary64 = 1023 := rfl
        refine ⟨?_, fun _ => ?_⟩
        · simp only [Canonical, hexp0, hbias]
          omega
        · simp only [position, hexp0, hbias]
          congr 1
    next hnormal =>
      have hexp0 : (unpackExponent b).toNat ≠ 0 := fun h =>
        hnormal (BitVec.eq_of_toNat_eq (by rw [h]; rfl))
      have hbias : Format.exponentBias .binary64 = 1023 := rfl
      refine ⟨?_, fun _ => ?_⟩
      · simp only [Canonical, toNat_implicit_bit, hbias]
        omega
      · simp only [position, toNat_implicit_bit, hbias]
        congr 1
        omega

def ordinal (x : Float) : Int := position x.toModel.unpack

theorem canonical_unpack (x : Float) : Canonical x.toModel.unpack := (unpack_spec _).1

theorem isNumber_iff (x : Float) :
    Scalar.isNumber x = true ↔ x.toModel.unpack.isNaN = false := by
  change (x.toModel.unpack.compare x.toModel.unpack == some .eq) = true ↔ _
  cases hn : x.toModel.unpack.isNaN with
  | true =>
      cases hu : x.toModel.unpack with
      | notANumber => simp [UnpackedFloat.compare]
      | infinity _ | zero _ | finite _ _ _ _ => simp [hu, UnpackedFloat.isNaN] at hn
  | false =>
      rw [compare_eq_position (canonical_unpack x) (canonical_unpack x) hn hn,
        Int.compare_eq_eq.mpr rfl]
      simp

theorem numbers_of_compare {x y : Float} {o : Ordering}
    (h : x.toModel.unpack.compare y.toModel.unpack = some o) :
    Scalar.isNumber x = true ∧ Scalar.isNumber y = true := by
  rw [isNumber_iff, isNumber_iff]
  constructor
  · cases hx : x.toModel.unpack with
    | notANumber => simp [hx, UnpackedFloat.compare] at h
    | infinity _ | zero _ | finite _ _ _ _ => rfl
  · cases hy : y.toModel.unpack with
    | notANumber => cases hx : x.toModel.unpack <;> simp [hx, hy, UnpackedFloat.compare] at h
    | infinity _ | zero _ | finite _ _ _ _ => rfl

theorem compare_eq_some_iff {x y : Float} {o : Ordering} :
    x.toModel.unpack.compare y.toModel.unpack = some o ↔
      Scalar.isNumber x = true ∧ Scalar.isNumber y = true ∧
        compare (ordinal x) (ordinal y) = o := by
  constructor
  · intro h
    obtain ⟨hx, hy⟩ := numbers_of_compare h
    refine ⟨hx, hy, ?_⟩
    rw [compare_eq_position (canonical_unpack x) (canonical_unpack y) ((isNumber_iff x).mp hx)
      ((isNumber_iff y).mp hy)] at h
    exact Option.some.inj h
  · rintro ⟨hx, hy, rfl⟩
    exact compare_eq_position (canonical_unpack x) (canonical_unpack y) ((isNumber_iff x).mp hx)
      ((isNumber_iff y).mp hy)

theorem lt_iff_ordinal {x y : Float} :
    x < y ↔ Scalar.isNumber x = true ∧ Scalar.isNumber y = true ∧ ordinal x < ordinal y := by
  rw [← Int.compare_eq_lt, ← compare_eq_some_iff]
  exact decide_eq_true_iff.trans beq_iff_eq

theorem beq_iff_ordinal {x y : Float} :
    (x == y) = true ↔
      Scalar.isNumber x = true ∧ Scalar.isNumber y = true ∧ ordinal x = ordinal y := by
  rw [← Int.compare_eq_eq, ← compare_eq_some_iff]
  change (x.toModel.unpack.compare y.toModel.unpack == some .eq) = true ↔ _
  exact beq_iff_eq

theorem le_iff_ordinal {x y : Float} :
    x ≤ y ↔ Scalar.isNumber x = true ∧ Scalar.isNumber y = true ∧ ordinal x ≤ ordinal y := by
  have hle : x ≤ y ↔ x.toModel.unpack.le y.toModel.unpack = true := decide_eq_true_iff
  rw [hle, UnpackedFloat.le, Option.any_eq_true]
  constructor
  · rintro ⟨o, ho, hle⟩
    obtain ⟨hx, hy, rfl⟩ := compare_eq_some_iff.mp ho
    exact ⟨hx, hy, Int.isLE_compare.mp hle⟩
  · rintro ⟨hx, hy, hle⟩
    exact ⟨_, compare_eq_some_iff.mpr ⟨hx, hy, rfl⟩, Int.isLE_compare.mpr hle⟩

/-- A number is finite when its position is that of neither infinity. -/
theorem isFinite_iff_ordinal {x : Float} :
    x.isFinite = true ↔
      Scalar.isNumber x = true ∧ -(2047 * 2 ^ 52) < ordinal x ∧ ordinal x < 2047 * 2 ^ 52 := by
  have hc := canonical_unpack x
  change x.toModel.unpack.isFinite = true ↔ _
  rw [isNumber_iff, ordinal]
  cases hu : x.toModel.unpack with
  | notANumber => simp [UnpackedFloat.isFinite, UnpackedFloat.isNaN]
  | infinity s =>
      cases s <;> simp [UnpackedFloat.isFinite, UnpackedFloat.isNaN, position, Sign.apply]
  | zero s => simp [UnpackedFloat.isFinite, UnpackedFloat.isNaN, position]
  | finite s m e hm =>
      rw [hu] at hc
      have hp := position_finite_pos hm hc
      cases s <;>
        simp only [UnpackedFloat.isFinite, UnpackedFloat.isNaN, position, Sign.apply, true_and,
          true_iff] <;>
        omega

theorem ordinal_eq {x : Float} (h : Scalar.isNumber x = true) :
    ordinal x = if x.toBits.toNat < 2 ^ 63 then (x.toBits.toNat : Int)
      else 2 ^ 63 - x.toBits.toNat := by
  let b : BitVec Format.binary64.numBits := x.toBits.toBitVec
  have hp := (unpack_spec b).2 ((isNumber_iff x).mp h)
  have hs := toNat_unpackSign b
  have hrange : b.toNat < 2 ^ 64 := b.isLt
  change position (UnpackedFloat.unpack .binary64 b) =
    if b.toNat < 2 ^ 63 then (b.toNat : Int) else 2 ^ 63 - b.toNat
  rw [hp, Sign.ofBitVec]
  by_cases hsign : unpackSign b = 0#1
  · have h0 : (unpackSign b).toNat = 0 := by rw [hsign]; rfl
    rw [if_pos hsign, if_pos (by omega)]
    simp only [Sign.apply]
    omega
  · have h0 : (unpackSign b).toNat ≠ 0 := fun h0 =>
      hsign (BitVec.eq_of_toNat_eq (by rw [h0]; rfl))
    rw [if_neg hsign, if_neg (by omega)]
    simp only [Sign.apply]
    omega

/-- The order of bit patterns agrees with the positions, and separates the zeros. -/
theorem orderKey_lt {x y : Float} (h : x < y) : orderKey x < orderKey y := by
  obtain ⟨hx, hy, hlt⟩ := lt_iff_ordinal.mp h
  have hxr : x.toBits.toNat < 2 ^ 64 := x.toBits.toBitVec.isLt
  have hyr : y.toBits.toNat < 2 ^ 64 := y.toBits.toBitVec.isLt
  have hw : signWeight = 2 ^ 63 := rfl
  rw [ordinal_eq hx, ordinal_eq hy] at hlt
  simp only [orderKey, hw]
  by_cases hxs : x.toBits.toNat < 2 ^ 63
  · by_cases hys : y.toBits.toNat < 2 ^ 63
    · rw [if_pos hxs, if_pos hys] at *
      omega
    · rw [if_pos hxs, if_neg hys] at *
      omega
  · by_cases hys : y.toBits.toNat < 2 ^ 63
    · rw [if_neg hxs, if_pos hys] at *
      omega
    · rw [if_neg hxs, if_neg hys] at *
      omega

instance instOrdered : Scalar.Ordered Float where
  lt_irrefl x h := Int.lt_irrefl _ (lt_iff_ordinal.mp h).2.2
  lt_trans h h' := by
    obtain ⟨ha, _, hab⟩ := lt_iff_ordinal.mp h
    obtain ⟨_, hc, hbc⟩ := lt_iff_ordinal.mp h'
    exact lt_iff_ordinal.mpr ⟨ha, hc, Int.lt_trans hab hbc⟩
  number_of_lt h := ⟨(lt_iff_ordinal.mp h).1, (lt_iff_ordinal.mp h).2.1⟩
  lt_or_lt {a b c} h hc := by
    obtain ⟨ha, hb, hab⟩ := lt_iff_ordinal.mp h
    by_cases hac : ordinal a < ordinal c
    · exact Or.inl (lt_iff_ordinal.mpr ⟨ha, hc, hac⟩)
    · exact Or.inr (lt_iff_ordinal.mpr ⟨hc, hb, by omega⟩)
  le_iff {a b} := by
    refine le_iff_ordinal.trans ?_
    constructor
    · rintro ⟨ha, hb, hab⟩
      exact ⟨ha, hb, fun h => Int.not_lt.mpr hab (lt_iff_ordinal.mp h).2.2⟩
    · rintro ⟨ha, hb, hab⟩
      exact ⟨ha, hb, Int.not_lt.mp fun h => hab (lt_iff_ordinal.mpr ⟨hb, ha, h⟩)⟩
  beq_iff {a b} := by
    refine beq_iff_ordinal.trans ?_
    constructor
    · rintro ⟨ha, hb, hab⟩
      refine ⟨ha, hb, fun h => ?_, fun h => ?_⟩
      · exact Int.lt_irrefl _ (hab ▸ (lt_iff_ordinal.mp h).2.2)
      · exact Int.lt_irrefl _ (hab ▸ (lt_iff_ordinal.mp h).2.2)
    · rintro ⟨ha, hb, hab, hba⟩
      refine ⟨ha, hb, Int.le_antisymm ?_ ?_⟩
      · exact Int.not_lt.mp fun h => hba (lt_iff_ordinal.mpr ⟨hb, ha, h⟩)
      · exact Int.not_lt.mp fun h => hab (lt_iff_ordinal.mpr ⟨ha, hb, h⟩)
  number_of_finite h := (isFinite_iff_ordinal.mp h).1
  finite_between ha hc hab hbc := by
    obtain ⟨_, hlow, _⟩ := isFinite_iff_ordinal.mp ha
    obtain ⟨_, _, hhigh⟩ := isFinite_iff_ordinal.mp hc
    obtain ⟨_, hb, hab⟩ := le_iff_ordinal.mp hab
    obtain ⟨_, _, hbc⟩ := le_iff_ordinal.mp hbc
    exact isFinite_iff_ordinal.mpr ⟨hb, by omega, by omega⟩
  totalLe_trans h h' := decide_eq_true (Nat.le_trans (of_decide_eq_true h) (of_decide_eq_true h'))
  totalLe_total a b := by
    change (decide (orderKey a ≤ orderKey b) || decide (orderKey b ≤ orderKey a)) = true
    simpa using Nat.le_total (orderKey a) (orderKey b)
  not_lt_of_totalLe h hlt := Nat.not_le_of_lt (orderKey_lt hlt) (of_decide_eq_true h)

instance instFiniteUnit : Scalar.FiniteUnit Float where
  finite_one := by decide
  finite_neg_one := by decide

instance instSeparated : Scalar.Separated Float where
  eq_of_totalLe {x y} h h' := by
    have hkey : orderKey x = orderKey y :=
      Nat.le_antisymm (of_decide_eq_true h) (of_decide_eq_true h')
    have hx : x.toBits.toNat < 2 ^ 64 := x.toBits.toBitVec.isLt
    have hy : y.toBits.toNat < 2 ^ 64 := y.toBits.toBitVec.isLt
    have hw : signWeight = 2 ^ 63 := rfl
    simp only [orderKey, hw] at hkey
    have hbits : x.toBits.toNat = y.toBits.toNat := by
      split at hkey <;> split at hkey <;> omega
    exact Float.toBits_inj.mp (UInt64.toNat_inj.mp hbits)

instance instZeroTies : Scalar.ZeroTies Float where
  eq_of_beq {x y} heq hzero := by
    obtain ⟨hx, hy, hxy⟩ := beq_iff_ordinal.mp heq
    have hnumber : Scalar.isNumber (0 : Float) = true := rfl
    have hne : ordinal x ≠ 0 := fun h => hzero (beq_iff_ordinal.mpr ⟨hx, hnumber, h⟩)
    rw [hxy, ordinal_eq hy] at hne
    rw [ordinal_eq hx, ordinal_eq hy] at hxy
    -- The patterns of two numbers at one place differ in the sign only, and then the place is zero.
    have hbits : x.toBits.toNat = y.toBits.toNat := by
      split at hxy <;> split at hxy <;> omega
    exact Float.toBits_inj.mp (UInt64.toNat_inj.mp hbits)

end Double
end AdaptiveTables
