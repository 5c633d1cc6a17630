import AdaptiveTables.Scale

/-!
The order of an arithmetic that has values which are not numbers. Comparisons hold between
numbers only, and on the numbers `<` is a strict order whose ties are the values that `==`
identifies, such as zeros of either sign. Nothing is said of sums, products or functions.
-/

namespace AdaptiveTables
namespace Scalar

class Ordered (α : Type) [Scalar α] : Prop where
  lt_irrefl (a : α) : ¬a < a
  lt_trans {a b c : α} : a < b → b < c → a < c
  number_of_lt {a b : α} : a < b → isNumber a = true ∧ isNumber b = true
  /-- A number lies above the lower or below the upper of two others that are apart. -/
  lt_or_lt {a b c : α} : a < b → isNumber c = true → a < c ∨ c < b
  le_iff {a b : α} : a ≤ b ↔ isNumber a = true ∧ isNumber b = true ∧ ¬b < a
  beq_iff {a b : α} :
    (a == b) = true ↔ isNumber a = true ∧ isNumber b = true ∧ ¬a < b ∧ ¬b < a
  number_of_finite {a : α} : isFinite a = true → isNumber a = true
  /-- The finite values have no gaps. -/
  finite_between {a b c : α} :
    isFinite a = true → isFinite c = true → a ≤ b → b ≤ c → isFinite b = true
  totalLe_trans {a b c : α} :
    totalLe a b = true → totalLe b c = true → totalLe a c = true
  totalLe_total (a b : α) : (totalLe a b || totalLe b a) = true
  /-- The order for sorting refines the order of the numbers. -/
  not_lt_of_totalLe {a b : α} : totalLe a b = true → ¬b < a

/-- The ends of the cosine scales are finite. -/
class FiniteUnit (α : Type) [Scalar α] : Prop where
  finite_one : isFinite (1 : α) = true
  finite_neg_one : isFinite (-1 : α) = true

/-- The order for sorting tells all values apart. -/
class Separated (α : Type) [Scalar α] : Prop where
  eq_of_totalLe {a b : α} : totalLe a b = true → totalLe b a = true → a = b

/-- Zeros are the only values that may equal one another without being the same. -/
class ZeroTies (α : Type) [Scalar α] : Prop where
  eq_of_beq {a b : α} : (a == b) = true → ¬(a == 0) = true → a = b

variable {α : Type} [Scalar α] [Ordered α] {a b c : α}

theorem lt_asymm (h : a < b) : ¬b < a :=
  fun h' => Ordered.lt_irrefl a (Ordered.lt_trans h h')

theorem le_of_lt (h : a < b) : a ≤ b :=
  Ordered.le_iff.mpr ⟨(Ordered.number_of_lt h).1, (Ordered.number_of_lt h).2, lt_asymm h⟩

theorem le_refl (h : isNumber a = true) : a ≤ a :=
  Ordered.le_iff.mpr ⟨h, h, Ordered.lt_irrefl a⟩

theorem number_of_le (h : a ≤ b) : isNumber a = true ∧ isNumber b = true :=
  ⟨(Ordered.le_iff.mp h).1, (Ordered.le_iff.mp h).2.1⟩

theorem not_lt_of_le (h : a ≤ b) : ¬b < a := (Ordered.le_iff.mp h).2.2

theorem lt_of_not_le (ha : isNumber a = true) (hb : isNumber b = true) (h : ¬b ≤ a) :
    a < b := by
  by_cases hlt : a < b
  · exact hlt
  · exact absurd (Ordered.le_iff.mpr ⟨hb, ha, hlt⟩) h

theorem lt_of_lt_of_le (h : a < b) (h' : b ≤ c) : a < c :=
  (Ordered.lt_or_lt h (number_of_le h').2).resolve_right (not_lt_of_le h')

theorem lt_of_le_of_lt (h : a ≤ b) (h' : b < c) : a < c :=
  (Ordered.lt_or_lt h' (number_of_le h).1).resolve_left (not_lt_of_le h)

theorem le_trans (h : a ≤ b) (h' : b ≤ c) : a ≤ c := by
  refine Ordered.le_iff.mpr ⟨(number_of_le h).1, (number_of_le h').2, ?_⟩
  intro hlt
  exact not_lt_of_le h (lt_of_le_of_lt h' hlt)

theorem beq_iff_le : (a == b) = true ↔ a ≤ b ∧ b ≤ a := by
  rw [Ordered.beq_iff, Ordered.le_iff, Ordered.le_iff]
  constructor
  · rintro ⟨ha, hb, hab, hba⟩
    exact ⟨⟨ha, hb, hba⟩, hb, ha, hab⟩
  · rintro ⟨⟨ha, hb, hba⟩, _, _, hab⟩
    exact ⟨ha, hb, hab, hba⟩

theorem beq_symm (h : (a == b) = true) : (b == a) = true :=
  beq_iff_le.mpr (beq_iff_le.mp h).symm

theorem beq_trans (h : (a == b) = true) (h' : (b == c) = true) : (a == c) = true := by
  obtain ⟨hab, hba⟩ := beq_iff_le.mp h
  obtain ⟨hbc, hcb⟩ := beq_iff_le.mp h'
  exact beq_iff_le.mpr ⟨le_trans hab hbc, le_trans hcb hba⟩

/-- Two numbers compare in one of three ways. -/
theorem lt_or_beq_or_lt (ha : isNumber a = true) (hb : isNumber b = true) :
    a < b ∨ (a == b) = true ∨ b < a := by
  by_cases hab : a < b
  · exact Or.inl hab
  · by_cases hba : b < a
    · exact Or.inr (Or.inr hba)
    · exact Or.inr (Or.inl (Ordered.beq_iff.mpr ⟨ha, hb, hab, hba⟩))

theorem lt_of_le_of_not_beq (h : a ≤ b) (hne : ¬(a == b) = true) : a < b := by
  obtain ⟨ha, hb⟩ := number_of_le h
  rcases lt_or_beq_or_lt ha hb with hlt | heq | hgt
  · exact hlt
  · exact absurd heq hne
  · exact absurd hgt (not_lt_of_le h)

/-- The larger of two numbers is one of them and at least either. -/
theorem max_spec (ha : isNumber a = true) (hb : isNumber b = true) :
    a ≤ max a b ∧ b ≤ max a b ∧ (max a b = a ∨ max a b = b) := by
  simp only [max, ha, if_true]
  split
  next h => exact ⟨le_of_lt h, le_refl hb, Or.inr rfl⟩
  next h => exact ⟨le_refl ha, Ordered.le_iff.mpr ⟨hb, ha, h⟩, Or.inl rfl⟩

/-- The smaller of two numbers is one of them and at most either. -/
theorem min_spec (ha : isNumber a = true) (hb : isNumber b = true) :
    min a b ≤ a ∧ min a b ≤ b ∧ (min a b = a ∨ min a b = b) := by
  simp only [min, ha, if_true]
  split
  next h => exact ⟨le_of_lt h, le_refl hb, Or.inr rfl⟩
  next h => exact ⟨le_refl ha, Ordered.le_iff.mpr ⟨ha, hb, h⟩, Or.inl rfl⟩

/-- The larger of a number and either of two equal values is the same number. -/
theorem max_congr (ha : isNumber a = true) (h : (b == c) = true) :
    (max a b = max a c ∨ max a b = b) ∧ (max a b == max a c) = true := by
  obtain ⟨hbc, hcb⟩ := beq_iff_le.mp h
  have hself : (a == a) = true := ha
  by_cases hlt : a < c
  · have hlt' : a < b := lt_of_lt_of_le hlt hcb
    simp [max, ha, hlt, hlt', h]
  · have hlt' : ¬a < b := fun hlt' => hlt (lt_of_lt_of_le hlt' hbc)
    simp [max, ha, hlt, hlt', hself]

theorem min_congr (ha : isNumber a = true) (h : (b == c) = true) :
    (min a b == min a c) = true := by
  obtain ⟨hbc, hcb⟩ := beq_iff_le.mp h
  have hself : (a == a) = true := ha
  by_cases hlt : c < a
  · have hlt' : b < a := lt_of_le_of_lt hbc hlt
    simp [min, ha, hlt, hlt', h]
  · have hlt' : ¬b < a := fun hlt' => hlt (lt_of_le_of_lt hcb hlt')
    simp [min, ha, hlt, hlt', hself]

/-- A value that is not a number stays so when it is clamped. -/
theorem number_of_clamp (h : isNumber (clamp a b c) = true) : isNumber c = true := by
  by_cases hlt : c < a
  · exact (Ordered.number_of_lt hlt).1
  · by_cases hgt : b < c
    · exact (Ordered.number_of_lt hgt).2
    · simpa [clamp, hlt, hgt] using h

theorem clamp_mem (hab : a < b) (hc : isNumber c = true) :
    a ≤ clamp a b c ∧ clamp a b c ≤ b := by
  obtain ⟨ha, hb⟩ := Ordered.number_of_lt hab
  by_cases hlt : c < a
  · simp [clamp, hlt, le_refl ha, le_of_lt hab]
  · by_cases hgt : b < c
    · simp [clamp, hlt, hgt, le_refl hb, le_of_lt hab]
    · simp [clamp, hlt, hgt, Ordered.le_iff, hc, ha, hb]

theorem firstDescent?_of_ascending {points : List α} (h : points.Pairwise (· < ·)) :
    firstDescent? points = none := by
  fun_induction firstDescent? points with
  | case1 a b rest hle =>
      exact absurd ((List.pairwise_cons.mp h).1 b List.mem_cons_self) (not_lt_of_le hle)
  | case2 a b rest _ ih => exact ih (List.pairwise_cons.mp h).2
  | case3 => rfl

end Scalar

namespace Scale

open Scalar

variable {α : Type} [Scalar α] [Ordered α] (s : Scale) {a b c : α}

theorem number_of_admits (h : s.admits a = true) : isNumber a = true := by
  cases s with
  | linear => exact Ordered.number_of_finite h
  | logarithmic =>
      simp only [admits, Bool.and_eq_true] at h
      exact Ordered.number_of_finite h.1
  | logCosine | nudgedLogCosine =>
      simp only [admits, Bool.and_eq_true, decide_eq_true_eq] at h
      exact (number_of_le h.1).2

/-- The values that a scale admits have no gaps. -/
theorem admits_between (ha : s.admits a = true) (hc : s.admits c = true)
    (hab : a ≤ b) (hbc : b ≤ c) : s.admits b = true := by
  cases s with
  | linear => exact Ordered.finite_between ha hc hab hbc
  | logarithmic =>
      simp only [admits, Bool.and_eq_true, decide_eq_true_eq] at ha hc ⊢
      exact ⟨Ordered.finite_between ha.1 hc.1 hab hbc, lt_of_lt_of_le ha.2 hab⟩
  | logCosine =>
      simp only [admits, Bool.and_eq_true, decide_eq_true_eq] at ha hc ⊢
      exact ⟨le_trans ha.1 hab, lt_of_le_of_lt hbc hc.2⟩
  | nudgedLogCosine =>
      simp only [admits, Bool.and_eq_true, decide_eq_true_eq] at ha hc ⊢
      exact ⟨le_trans ha.1 hab, le_trans hbc hc.2⟩

theorem finite_of_admits [FiniteUnit α] (h : s.admits a = true) : isFinite a = true := by
  cases s with
  | linear => exact h
  | logarithmic =>
      simp only [admits, Bool.and_eq_true] at h
      exact h.1
  | logCosine =>
      simp only [admits, Bool.and_eq_true, decide_eq_true_eq] at h
      exact Ordered.finite_between FiniteUnit.finite_neg_one FiniteUnit.finite_one h.1
        (le_of_lt h.2)
  | nudgedLogCosine =>
      simp only [admits, Bool.and_eq_true, decide_eq_true_eq] at h
      exact Ordered.finite_between FiniteUnit.finite_neg_one FiniteUnit.finite_one h.1 h.2

end Scale
end AdaptiveTables
