import AdaptiveTables.Proofs.Bins
import AdaptiveTables.Proofs.Searches

/-!
The round trip of the policies that match probabilities, on a linear secondary axis. The matched
samples grow at least as fast with the probability as the largest densities of the two sides
require. A search that comes close to a sample therefore comes close to its probability.
-/

namespace AdaptiveTables

/-- A sampler over the unit interval that grows at least at a rate. -/
def GrowsAt (rate : ℝ) (S : ℝ → ℝ) : Prop :=
  ∀ p q, 0 ≤ p → p ≤ q → q ≤ 1 → (q - p) * rate ≤ S q - S p

namespace GrowsAt

variable {rate p c tolerance : ℝ} {S : ℝ → ℝ}

theorem abs_sub_le (grows : GrowsAt rate S) (hp : p ∈ Set.Icc (0 : ℝ) 1)
    (hc : c ∈ Set.Icc (0 : ℝ) 1) : |c - p| * rate ≤ |S p - S c| := by
  rcases le_total p c with hle | hle
  · rw [abs_of_nonneg (sub_nonneg.mpr hle), abs_sub_comm]
    exact le_trans (grows p c hp.1 hle hc.2) (le_abs_self _)
  · rw [abs_sub_comm, abs_of_nonneg (sub_nonneg.mpr hle)]
    exact le_trans (grows c p hc.1 hle hp.2) (le_abs_self _)

/-- Whether a limit was met or the search came close to the sample, the answer is as close to the
probability as the rate allows. -/
theorem answer_close (grows : GrowsAt rate S) (hp : p ∈ Set.Icc (0 : ℝ) 1) (htol : 0 ≤ tolerance)
    (answer : (S p ≤ S 0 ∧ c = 0) ∨ (S 1 ≤ S p ∧ c = 1) ∨
      (c ∈ Set.Icc (0 : ℝ) 1 ∧ |S p - S c| ≤ tolerance)) : |c - p| * rate ≤ tolerance := by
  rcases answer with ⟨hlow, rfl⟩ | ⟨hhigh, rfl⟩ | ⟨hc, hclose⟩
  · rw [zero_sub, abs_neg, abs_of_nonneg hp.1]
    have hgrowth := grows 0 p (le_refl 0) hp.1 hp.2
    linarith
  · rw [abs_of_nonneg (sub_nonneg.mpr hp.2)]
    have hgrowth := grows p 1 hp.1 hp.2 (le_refl 1)
    linarith
  · exact le_trans (grows.abs_sub_le hp hc) hclose

theorem mem_Icc (grows : GrowsAt rate S) (hrate : 0 ≤ rate) (hp : p ∈ Set.Icc (0 : ℝ) 1) :
    S p ∈ Set.Icc (S 0) (S 1) := by
  have hlow := mul_nonneg (sub_nonneg.mpr hp.1) hrate
  have hhigh := mul_nonneg (sub_nonneg.mpr hp.2) hrate
  have hfirst := grows 0 p (le_refl 0) hp.1 hp.2
  have hlast := grows p 1 hp.1 hp.2 (le_refl 1)
  exact ⟨by linarith, by linarith⟩

/-- In units of a length the rate is divided by the length. -/
theorem div_length {origin length : ℝ} (grows : GrowsAt rate S) (hlength : 0 < length) :
    GrowsAt (rate / length) (fun p => (S p - origin) / length) := by
  intro p q hp hpq hq
  rw [← sub_div, sub_sub_sub_cancel_right, ← mul_div_assoc]
  exact div_le_div_of_nonneg_right (grows p q hp hpq hq) (le_of_lt hlength)

/-- Mixtures of growing samplers grow at the mixed rate. -/
theorem mix {rate₀ rate₁ fraction : ℝ} {S₀ S₁ : ℝ → ℝ} (grows₀ : GrowsAt rate₀ S₀)
    (grows₁ : GrowsAt rate₁ S₁) (hfraction : fraction ∈ Set.Ioo (0 : ℝ) 1) :
    GrowsAt ((1 - fraction) * rate₀ + fraction * rate₁)
      (fun p => S₀ p + (S₁ p - S₀ p) * fraction) := by
  intro p q hp hpq hq
  have h₀ := mul_le_mul_of_nonneg_left (grows₀ p q hp hpq hq)
    (le_of_lt (sub_pos.mpr hfraction.2))
  have h₁ := mul_le_mul_of_nonneg_left (grows₁ p q hp hpq hq) (le_of_lt hfraction.1)
  linarith

end GrowsAt

namespace Table.Sound

variable {t : Table ℝ}

/-- The samples of a table grow at least at the rate of the reciprocal of the largest density. -/
theorem exists_peak_growsAt (sound : t.Sound) :
    ∃ peak, 0 < peak ∧ IsGreatest (Set.range t.pdf) peak ∧ GrowsAt (1 / peak) t.sample := by
  obtain ⟨peak, hpeak, hgrowth⟩ := sound.exists_peak_sample
  have hlength : 0 < t.sample 1 - t.sample 0 := by
    rw [sample_of_one_le t (le_refl 1), sample_of_le_zero t (le_refl 0)]
    exact sub_pos.mpr sound.lower_lt_upper
  have hpos : 0 < peak := by
    have hone := hgrowth 0 1 (le_refl 0) zero_le_one (le_refl 1)
    rw [sub_zero] at hone
    exact pos_of_mul_pos_left (lt_of_lt_of_le zero_lt_one hone) (le_of_lt hlength)
  refine ⟨peak, hpos, hpeak, fun p q hp hpq hq => ?_⟩
  rw [mul_one_div, div_le_iff₀' hpos]
  exact hgrowth p q hp hpq hq

end Table.Sound

namespace Correlated

variable {b : Bin ℝ} {p c y : ℝ}

theorem sample_eq (linear : b.scale = .linear) (p : ℝ) :
    sample b p = b.lower.sample p + (b.upper.sample p - b.lower.sample p) * b.fraction := by
  rw [sample, Bin.blendSecondary, linear]
  simp only [beq_iff_eq]
  split
  next heq => rw [heq, sub_self, zero_mul, add_zero]
  next => rfl

theorem estimate_pointsAt (linear : b.scale = .linear) (c : ℝ) :
    (pointsAt b c).estimate = sample b c := by
  rw [sample_eq linear, pointsAt, Bin.blendSecondary, linear]
  rfl

theorem sample_zero (linear : b.scale = .linear) : sample b 0 = b.lowerLimit := by
  rw [sample_eq linear, Bin.lowerLimit, Bin.blendSecondary, linear,
    Table.Sound.sample_of_le_zero _ (le_refl 0), Table.Sound.sample_of_le_zero _ (le_refl 0)]
  rfl

theorem sample_one (linear : b.scale = .linear) : sample b 1 = b.upperLimit := by
  rw [sample_eq linear, Bin.upperLimit, Bin.blendSecondary, linear,
    Table.Sound.sample_of_one_le _ (le_refl 1), Table.Sound.sample_of_one_le _ (le_refl 1)]
  rfl

theorem growsAt_sample {peak₀ peak₁ : ℝ} (proper : b.Proper) (linear : b.scale = .linear)
    (grows₀ : GrowsAt (1 / peak₀) b.lower.sample) (grows₁ : GrowsAt (1 / peak₁) b.upper.sample) :
    GrowsAt ((1 - b.fraction) / peak₀ + b.fraction / peak₁) (sample b) := by
  rw [funext (sample_eq linear), ← mul_one_div, ← mul_one_div b.fraction]
  exact grows₀.mix grows₁ proper.fraction_mem

theorem matching_eq (b : Bin ℝ) (y : ℝ) :
    matching b y = b.searchBetween ⟨b.settings, 0.1⟩ y y y (pointsAt b) := by
  have hsearch : b.bisection.withWidening (widening : ℝ) = .ok ⟨b.settings, 0.1⟩ := by
    have hunit : Scalar.inOpenUnit (widening : ℝ) = true := by
      norm_num [Scalar.inOpenUnit, widening]
    rw [Bisection.withWidening, if_pos hunit]
    rfl
  rw [matching, hsearch]
  rfl

/-- A search for a value other than zero ends at a probability whose sample is close to it. -/
theorem close_of_matching {outcome : Bisection.Outcome ℝ} (proper : b.Proper)
    (linear : b.scale = .linear) (nonzero : y ≠ 0) (h : matching b y = .ok outcome) :
    outcome.probability ∈ Set.Icc (0 : ℝ) 1 ∧
      |y - sample b outcome.probability| ≤
        Max.max (b.settings.relativeError * |y|) b.settings.error := by
  rw [matching_eq] at h
  obtain ⟨hc, hpoints, hclose⟩ := Bisection.solve_eq_ok (by norm_num) proper.settings nonzero h
  rw [hpoints, estimate_pointsAt linear] at hclose
  exact ⟨hc, hclose⟩

/-- What the cumulative distribution answers at a value other than zero. -/
theorem answer_of_cdf (proper : b.Proper) (linear : b.scale = .linear) (nonzero : y ≠ 0)
    (h : cdf b y = .ok c) :
    (y ≤ sample b 0 ∧ c = 0) ∨ (sample b 1 ≤ y ∧ c = 1) ∨
      (c ∈ Set.Icc (0 : ℝ) 1 ∧
        |y - sample b c| ≤ Max.max (b.settings.relativeError * |y|) b.settings.error) := by
  rw [sample_zero linear, sample_one linear]
  rw [cdf] at h
  split at h
  next hlow => exact Or.inl ⟨hlow, (Except.ok.inj h).symm⟩
  next =>
    split at h
    next hhigh => exact Or.inr (Or.inl ⟨hhigh, (Except.ok.inj h).symm⟩)
    next =>
      obtain ⟨outcome, hmatch, hc⟩ := exists_of_bind_eq_ok h
      obtain rfl := Except.ok.inj hc
      exact Or.inr (Or.inr (close_of_matching proper linear nonzero hmatch))

theorem cdf_sample_close {peak₀ peak₁ : ℝ} (proper : b.Proper) (linear : b.scale = .linear)
    (grows₀ : GrowsAt (1 / peak₀) b.lower.sample) (grows₁ : GrowsAt (1 / peak₁) b.upper.sample)
    (hp : p ∈ Set.Icc (0 : ℝ) 1) (nonzero : sample b p ≠ 0) (h : cdf b (sample b p) = .ok c) :
    |c - p| * ((1 - b.fraction) / peak₀ + b.fraction / peak₁) ≤
      Max.max (b.settings.relativeError * |sample b p|) b.settings.error := by
  have htolerance : 0 ≤ Max.max (b.settings.relativeError * |sample b p|) b.settings.error :=
    le_max_of_le_right (EvaluationSettings.tolerance_mem proper.settings .error).1
  exact (growsAt_sample proper linear grows₀ grows₁).answer_close hp htolerance
    (answer_of_cdf proper linear nonzero h)

theorem cdf_sample_ends (proper : b.Proper) (linear : b.scale = .linear) (hp : p = 0 ∨ p = 1) :
    cdf b (sample b p) = .ok p := by
  rcases hp with rfl | rfl
  · rw [sample_zero linear, cdf, if_pos (le_refl _)]
  · rw [sample_one linear, cdf, if_neg (not_le.mpr proper.lowerLimit_lt_upperLimit),
      if_pos (le_refl _)]

end Correlated

namespace UnitBaseCorrelated

variable {b : Bin ℝ} {p c : ℝ}

/-- On a linear axis a sample of a side keeps its place in the domain of the side. -/
theorem sideCoordinate_sample (proper : b.Proper) (linear : b.scale = .linear) (side : Side)
    (p : ℝ) :
    sideCoordinate b side ((b.table side).sample p) =
      ((b.table side).sample p - (b.table side).lowerBound) /
        ((b.table side).upperBound - (b.table side).lowerBound) := by
  have hlength : 0 < (b.table side).upperBound - (b.table side).lowerBound :=
    sub_pos.mpr (proper.sound side).lower_lt_upper
  obtain ⟨hlow, hhigh⟩ := (proper.sound side).sample_mem p
  have hquotient : ((b.unitBase side).scale.transform ((b.table side).sample p) -
      (b.unitBase side).scale.transform (b.unitBase side).lower) / (b.unitBase side).length =
      ((b.table side).sample p - (b.table side).lowerBound) /
        ((b.table side).upperBound - (b.table side).lowerBound) := by
    simp only [Bin.unitBase, UnitBase.ofEnds, Scale.length, linear, Scale.transform]
  rw [sideCoordinate, UnitBase.coordinate_eq, hquotient]
  rw [hquotient]
  exact ⟨div_nonneg (sub_nonneg.mpr hlow) (le_of_lt hlength),
    (div_le_one hlength).mpr (sub_le_sub_right hhigh _)⟩

theorem estimate_pointsAt (proper : b.Proper) (linear : b.scale = .linear) (p : ℝ) :
    (pointsAt b p).estimate =
      (b.lower.sample p - b.lower.lowerBound) / (b.lower.upperBound - b.lower.lowerBound) +
        ((b.upper.sample p - b.upper.lowerBound) / (b.upper.upperBound - b.upper.lowerBound) -
          (b.lower.sample p - b.lower.lowerBound) / (b.lower.upperBound - b.lower.lowerBound)) *
        b.fraction := by
  have hlower := sideCoordinate_sample proper linear .lower p
  have hupper := sideCoordinate_sample proper linear .upper p
  simp only [Bin.table] at hlower hupper
  rw [pointsAt, blendCoordinates, linear, hlower, hupper]
  rfl

theorem estimate_zero (proper : b.Proper) (linear : b.scale = .linear) :
    (pointsAt b 0).estimate = 0 := by
  rw [estimate_pointsAt proper linear, Table.Sound.sample_of_le_zero _ (le_refl 0),
    Table.Sound.sample_of_le_zero _ (le_refl 0)]
  simp

theorem estimate_one (proper : b.Proper) (linear : b.scale = .linear) :
    (pointsAt b 1).estimate = 1 := by
  have hlower : b.lower.upperBound - b.lower.lowerBound ≠ 0 :=
    sub_ne_zero.mpr (ne_of_gt (proper.sound .lower).lower_lt_upper)
  have hupper : b.upper.upperBound - b.upper.lowerBound ≠ 0 :=
    sub_ne_zero.mpr (ne_of_gt (proper.sound .upper).lower_lt_upper)
  rw [estimate_pointsAt proper linear, Table.Sound.sample_of_one_le _ (le_refl 1),
    Table.Sound.sample_of_one_le _ (le_refl 1), div_self hlower, div_self hupper]
  ring

theorem growsAt_estimate {peak₀ peak₁ : ℝ} (proper : b.Proper) (linear : b.scale = .linear)
    (grows₀ : GrowsAt (1 / peak₀) b.lower.sample) (grows₁ : GrowsAt (1 / peak₁) b.upper.sample) :
    GrowsAt ((1 - b.fraction) / (peak₀ * (b.lower.upperBound - b.lower.lowerBound)) +
      b.fraction / (peak₁ * (b.upper.upperBound - b.upper.lowerBound)))
      (fun p => (pointsAt b p).estimate) := by
  have hlower : 0 < b.lower.upperBound - b.lower.lowerBound :=
    sub_pos.mpr (proper.sound .lower).lower_lt_upper
  have hupper : 0 < b.upper.upperBound - b.upper.lowerBound :=
    sub_pos.mpr (proper.sound .upper).lower_lt_upper
  rw [funext (estimate_pointsAt proper linear), ← mul_one_div, ← mul_one_div b.fraction,
    ← div_div, ← div_div 1]
  exact (grows₀.div_length hlower).mix (grows₁.div_length hupper) proper.fraction_mem

/-- A search for a coordinate other than zero ends at a probability whose blended coordinate is
close to it. -/
theorem close_of_matching {η : ℝ} {outcome : Bisection.Outcome ℝ} (proper : b.Proper)
    (positive : 0 < η) (h : matching b η = .ok outcome) :
    outcome.probability ∈ Set.Icc (0 : ℝ) 1 ∧
      |η - (pointsAt b outcome.probability).estimate| ≤
        Max.max (b.settings.relativeError * η) b.settings.error := by
  have hwidening : b.bisection.widening ∈ Set.Ioo (0 : ℝ) 1 := by
    norm_num [Bin.bisection, Bisection.standard]
  obtain ⟨hc, hpoints, hclose⟩ := Bisection.solve_eq_ok hwidening proper.settings
    (ne_of_gt positive) h
  rw [hpoints, abs_of_pos positive] at hclose
  exact ⟨hc, hclose⟩

/-- What the cumulative distribution answers at the value of a coordinate. -/
theorem answer_of_cdf (proper : b.Proper) {η : ℝ} (hη : η ∈ Set.Icc (0 : ℝ) 1)
    (h : cdf b (b.middleBase.value η) = .ok c) :
    (η ≤ 0 ∧ c = 0) ∨ (1 ≤ η ∧ c = 1) ∨
      (c ∈ Set.Icc (0 : ℝ) 1 ∧ |η - (pointsAt b c).estimate| ≤
        Max.max (b.settings.relativeError * η) b.settings.error) := by
  rw [cdf] at h
  split at h
  next hlow =>
    refine Or.inl ⟨not_lt.mp fun hpos => ?_, (Except.ok.inj h).symm⟩
    have habove := proper.middleBase.value_lt_value (le_refl 0) hpos
    rw [proper.middleBase.value_zero] at habove
    exact absurd hlow (not_le.mpr habove)
  next hlow =>
    split at h
    next hhigh =>
      refine Or.inr (Or.inl ⟨not_lt.mp fun hlt => ?_, (Except.ok.inj h).symm⟩)
      have hbelow := proper.middleBase.value_lt_value hη.1 hlt
      rw [proper.middleBase_value_one] at hbelow
      exact absurd hhigh (not_le.mpr hbelow)
    next =>
      have hpos : 0 < η := by
        refine lt_of_le_of_ne hη.1 fun hzero => hlow ?_
        rw [← hzero]
        exact le_of_eq proper.middleBase.value_zero
      rw [proper.middleBase.coordinate_value hη] at h
      obtain ⟨outcome, hmatch, hc⟩ := exists_of_bind_eq_ok h
      obtain rfl := Except.ok.inj hc
      exact Or.inr (Or.inr (close_of_matching proper hpos hmatch))

theorem estimate_mem (proper : b.Proper) (linear : b.scale = .linear)
    (hp : p ∈ Set.Icc (0 : ℝ) 1) : (pointsAt b p).estimate ∈ Set.Icc (0 : ℝ) 1 := by
  obtain ⟨peak₀, hpeak₀, _, grows₀⟩ := (proper.sound .lower).exists_peak_growsAt
  obtain ⟨peak₁, hpeak₁, _, grows₁⟩ := (proper.sound .upper).exists_peak_growsAt
  have hlower := sub_pos.mpr (proper.sound .lower).lower_lt_upper
  have hupper := sub_pos.mpr (proper.sound .upper).lower_lt_upper
  have hrate := add_nonneg
    (div_nonneg (le_of_lt (sub_pos.mpr proper.fraction_mem.2)) (le_of_lt (mul_pos hpeak₀ hlower)))
    (div_nonneg (le_of_lt proper.fraction_mem.1) (le_of_lt (mul_pos hpeak₁ hupper)))
  have hmem := (growsAt_estimate proper linear grows₀ grows₁).mem_Icc hrate hp
  rwa [estimate_zero proper linear, estimate_one proper linear] at hmem

theorem cdf_sample_close {peak₀ peak₁ : ℝ} (proper : b.Proper) (linear : b.scale = .linear)
    (grows₀ : GrowsAt (1 / peak₀) b.lower.sample) (grows₁ : GrowsAt (1 / peak₁) b.upper.sample)
    (hp : p ∈ Set.Icc (0 : ℝ) 1) (h : cdf b (sample b p) = .ok c) :
    |c - p| * ((1 - b.fraction) / (peak₀ * (b.lower.upperBound - b.lower.lowerBound)) +
        b.fraction / (peak₁ * (b.upper.upperBound - b.upper.lowerBound))) ≤
      Max.max (b.settings.relativeError * b.middleBase.coordinate (sample b p))
        b.settings.error := by
  have hη := estimate_mem proper linear hp
  have hcoordinate : b.middleBase.coordinate (sample b p) = (pointsAt b p).estimate :=
    proper.middleBase.coordinate_value hη
  have hanswer := answer_of_cdf proper hη h
  have htolerance : 0 ≤
      Max.max (b.settings.relativeError * (pointsAt b p).estimate) b.settings.error :=
    le_max_of_le_right (EvaluationSettings.tolerance_mem proper.settings .error).1
  rw [hcoordinate]
  refine (growsAt_estimate proper linear grows₀ grows₁).answer_close hp htolerance ?_
  rwa [estimate_zero proper linear, estimate_one proper linear]

theorem cdf_sample_ends (proper : b.Proper) (linear : b.scale = .linear) (hp : p = 0 ∨ p = 1) :
    cdf b (sample b p) = .ok p := by
  have hsample : sample b p = b.middleBase.value (pointsAt b p).estimate := rfl
  rcases hp with rfl | rfl
  · have hlower : b.middleBase.value 0 = b.lowerLimit := proper.middleBase.value_zero
    rw [hsample, estimate_zero proper linear, hlower, cdf, if_pos (le_refl _)]
  · rw [hsample, estimate_one proper linear, proper.middleBase_value_one, cdf,
      if_neg (not_le.mpr proper.lowerLimit_lt_upperLimit), if_pos (le_refl _)]

end UnitBaseCorrelated

namespace BivariateDistribution

variable {grid : PrimaryGrid ℝ (Table ℝ)} {policy : Policy} {rule : PlaneRule}
  {settings : EvaluationSettings ℝ} {d : BivariateDistribution ℝ} {x p : ℝ} {i : Nat}
  {lower upper : PrimaryEntry ℝ (Table ℝ)}

/-- An answer at a sample is as close to its probability as the tolerance allows, given how fast
the samples grow with it. The answers at both limits are exact. -/
theorem cdf_of_matched_sample (built : build grid policy rule settings = .ok d)
    (tables : ∀ e ∈ grid.entries, ∃ xs ys, Table.ofColumns xs ys = .ok e.item)
    (linear : rule.secondary = .linear)
    (interior : d.grid.locate x = .ok (.bin i lower upper)) (hp : p ∈ Set.Icc (0 : ℝ) 1) :
    let β := rule.primary.fraction lower.value upper.value x
    let length (t : Table ℝ) := t.upperBound - t.lowerBound
    ∃ peak₀ peak₁, IsGreatest (Set.range lower.item.pdf) peak₀ ∧
      IsGreatest (Set.range upper.item.pdf) peak₁ ∧
      (policy = .correlated → ∃ y, d.sampleSingle x p = .ok y ∧
        (∀ c, d.conditionalCdf x y = .ok c → y ≠ 0 →
          |c - p| * ((1 - β) / peak₀ + β / peak₁) ≤
            Max.max (settings.relativeError * |y|) settings.error) ∧
        (p = 0 ∨ p = 1 → d.conditionalCdf x y = .ok p)) ∧
      (policy = .unitBaseCorrelated → ∃ y, d.sampleSingle x p = .ok y ∧
        (∀ c, d.conditionalCdf x y = .ok c →
          |c - p| * ((1 - β) / (peak₀ * length lower.item) + β / (peak₁ * length upper.item)) ≤
            Max.max (settings.relativeError *
              (d.bin x i lower upper).middleBase.coordinate y) settings.error) ∧
        (p = 0 ∨ p = 1 → d.conditionalCdf x y = .ok p)) := by
  intro β length
  obtain ⟨hlower, hupper, _, _⟩ := PrimaryGrid.between_of_locate interior
  obtain rfl := eq_of_build built
  have sound : ∀ e ∈ grid.entries, e.item.Sound := fun e he => by
    obtain ⟨xs, ys, hcolumns⟩ := tables e he
    exact Table.sound_of_ofColumns hcolumns
  obtain ⟨peak₀, _, hpeak₀, grows₀⟩ := (sound lower hlower).exists_peak_growsAt
  obtain ⟨peak₁, _, hpeak₁, grows₁⟩ := (sound upper hupper).exists_peak_growsAt
  refine ⟨peak₀, peak₁, hpeak₀, hpeak₁, ?_, ?_⟩
  · rintro rfl
    have proper := proper_of_locate built (by decide) tables interior
    refine ⟨_, sampleSingle_eq interior rfl hp, ?_, ?_⟩
    · intro c hc nonzero
      rw [conditionalCdf_eq interior] at hc
      exact Correlated.cdf_sample_close proper linear grows₀ grows₁ hp nonzero hc
    · intro hends
      rw [conditionalCdf_eq interior]
      exact Correlated.cdf_sample_ends proper linear hends
  · rintro rfl
    have proper := proper_of_locate built (by decide) tables interior
    refine ⟨_, sampleSingle_eq interior rfl hp, ?_, ?_⟩
    · intro c hc
      rw [conditionalCdf_eq interior] at hc
      exact UnitBaseCorrelated.cdf_sample_close proper linear grows₀ grows₁ hp hc
    · intro hends
      rw [conditionalCdf_eq interior]
      exact UnitBaseCorrelated.cdf_sample_ends proper linear hends

end BivariateDistribution

namespace Correlated

theorem sample_uniformBin {p : ℝ} (hp : p ∈ Set.Ioo (0 : ℝ) 1) :
    sample uniformBin p = p * (3 / 4) := by
  rw [sample_eq rfl]
  change (Table.uniform 0.5).sample p +
    ((Table.uniform 1).sample p - (Table.uniform 0.5).sample p) * 0.5 = p * (3 / 4)
  rw [Table.sample_uniform hp (by norm_num), Table.sample_uniform hp one_pos]
  ring

theorem searchBetween_uniformBin :
    uniformBin.searchBetween ⟨looseSettings, 0.1⟩ (3 / 8) (3 / 8) (3 / 8) (pointsAt uniformBin) =
      .ok (Bisection.attempt (pointsAt uniformBin) 0 (3 / 8) (3 / 4)) := by
  have hlower : uniformBin.lower.cdf (3 / 8) = 3 / 4 := by
    change (Table.uniform 0.5).cdf (3 / 8) = 3 / 4
    rw [Table.cdf_uniform (by norm_num) (by norm_num)]
    norm_num
  have hupper : uniformBin.upper.cdf (3 / 8) = 3 / 8 := by
    change (Table.uniform 1).cdf (3 / 8) = 3 / 8
    rw [Table.cdf_uniform (by norm_num) one_pos, div_one]
  have hmin : Min.min (3 / 4 : ℝ) (3 / 8) = 3 / 8 := by norm_num
  have hmax : Max.max (3 / 4 : ℝ) (3 / 8) = 3 / 4 := by norm_num
  simp only [Bin.searchBetween, hlower, hupper, Exact.min_eq, Exact.max_eq, hmin, hmax]
  refine Bisection.solve_of_accepted (by norm_num) (by norm_num) (by norm_num) ?_ ?_ ?_
  · rw [estimate_pointsAt rfl, sample_uniformBin (by norm_num)]
    norm_num
  · rw [estimate_pointsAt rfl, sample_uniformBin (by norm_num)]
    norm_num
  · simp only [Bisection.attempt]
    rw [estimate_pointsAt rfl, sample_uniformBin (by norm_num)]
    norm_num [Bisection.accepts, Bisection.scaledError, looseSettings, abs_div]

theorem cdf_uniformBin : cdf uniformBin (3 / 8) = .ok (9 / 16) := by
  have hsettings : uniformBin.settings = looseSettings := rfl
  rw [cdf, Bin.limits_uniformBin.1, Bin.limits_uniformBin.2, if_neg (by norm_num),
    if_neg (by norm_num), matching_eq, hsettings]
  simp only [bind, Except.bind, searchBetween_uniformBin, Bisection.attempt]
  norm_num [pure, Except.pure]

end Correlated

namespace BivariateDistribution

noncomputable def uniformMatch : BivariateDistribution ℝ :=
  ⟨uniformGrid, .correlated, .linear, looseSettings⟩

theorem sampleSingle_uniformMatch : uniformMatch.sampleSingle 0.5 (1 / 2) = .ok (3 / 8) := by
  have hlocate : uniformMatch.grid.locate 0.5 = .ok (.bin 0 narrowEntry wideEntry) :=
    PrimaryGrid.locate_uniformGrid
  have hsample : Correlated.sample uniformBin (1 / 2) = 3 / 8 := by
    rw [Correlated.sample_uniformBin (by norm_num)]
    norm_num
  rw [sampleSingle_eq hlocate rfl (by norm_num), uniformMatch, bin_uniformGrid]
  change Except.ok (Correlated.sample uniformBin (1 / 2)) = _
  rw [hsample]

theorem conditionalCdf_uniformMatch :
    uniformMatch.conditionalCdf 0.5 (3 / 8) = .ok (9 / 16) := by
  have hlocate : uniformMatch.grid.locate 0.5 = .ok (.bin 0 narrowEntry wideEntry) :=
    PrimaryGrid.locate_uniformGrid
  rw [conditionalCdf_eq hlocate, uniformMatch, bin_uniformGrid]
  exact Correlated.cdf_uniformBin

theorem cdf_of_uniformMatch_sample :
    build uniformGrid .correlated .linear looseSettings = .ok uniformMatch ∧
      uniformMatch.grid.locate 0.5 = .ok (.bin 0 narrowEntry wideEntry) ∧
      uniformMatch.sampleSingle 0.5 (1 / 2) = .ok (3 / 8) ∧
      uniformMatch.conditionalCdf 0.5 (3 / 8) = .ok (9 / 16) ∧
      ∃ peak₀ peak₁, IsGreatest (Set.range (Table.uniform 0.5).pdf) peak₀ ∧
        IsGreatest (Set.range (Table.uniform 1).pdf) peak₁ ∧
        |(9 / 16 : ℝ) - 1 / 2| *
            ((1 - uniformBin.fraction) / peak₀ + uniformBin.fraction / peak₁) ≤
          Max.max (0.5 * |3 / 8|) 0 := by
  obtain ⟨peak₀, peak₁, hpeak₀, hpeak₁, hmatched, _⟩ :=
    cdf_of_matched_sample (build_uniformGrid .correlated) PrimaryGrid.columns_of_uniformGrid rfl
      PrimaryGrid.locate_uniformGrid (show (1 / 2 : ℝ) ∈ Set.Icc 0 1 by norm_num)
  obtain ⟨y, hy, hclose, _⟩ := hmatched rfl
  obtain rfl : y = 3 / 8 := Except.ok.inj (hy.symm.trans sampleSingle_uniformMatch)
  have hbound := hclose (9 / 16) conditionalCdf_uniformMatch (by norm_num)
  rw [← bin_uniformGrid .correlated]
  exact ⟨build_uniformGrid _, PrimaryGrid.locate_uniformGrid, sampleSingle_uniformMatch,
    conditionalCdf_uniformMatch, peak₀, peak₁, hpeak₀, hpeak₁, hbound⟩

end BivariateDistribution
end AdaptiveTables
