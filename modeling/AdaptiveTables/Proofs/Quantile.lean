import AdaptiveTables.Proofs.SoundTables

/-!
Sampling is the quantile function. In exact arithmetic the sample of a probability is the first
point at which the cumulative distribution reaches it, so it steps over stretches where the
density is zero. It rises with the probability, at least as fast as the largest density requires.
Samples below a limit are those of the table that ends there.
-/

namespace AdaptiveTables
namespace Table
namespace Sound

variable {t : Table ℝ} {p q x : ℝ}

theorem sample_of_le_zero (t : Table ℝ) (h : p ≤ 0) : t.sample p = t.lowerBound := by
  rw [sample, if_pos h]

theorem sample_of_one_le (t : Table ℝ) (h : 1 ≤ p) : t.sample p = t.upperBound := by
  rw [sample, if_neg (not_le.mpr (lt_of_lt_of_le zero_lt_one h)), if_pos h]

/-- Between zero and one, the sample is the first point that reaches the probability. -/
theorem sample_spec (sound : t.Sound) (hp : 0 < p) (hp' : p < 1) :
    t.lowerBound < t.sample p ∧ t.sample p ≤ t.upperBound ∧ t.cdf (t.sample p) = p ∧
      ∀ x, x < t.sample p → t.cdf x < p := by
  have hsample : t.sample p =
      (Segment.reaching t.first t.later (p * t.total)).abscissaAt (p * t.total) := by
    rw [sample, if_neg (not_le.mpr hp), if_neg (not_le.mpr hp')]
    rfl
  have hstart : t.first.cumulative < p * t.total := by
    rw [sound.start]
    exact mul_pos hp sound.total_pos
  have hend : p * t.total ≤ t.total :=
    mul_le_of_le_one_left (le_of_lt sound.total_pos) (le_of_lt hp')
  obtain ⟨hleft, hright, hfound, hbefore⟩ := sound.joined.abscissaAt_reaching hstart hend
  rw [← hsample] at hleft hright hfound hbefore
  refine ⟨hleft, hright, ?_, fun x hx => ?_⟩
  · rw [sound.cdf_eq (le_of_lt hleft) hright, hfound,
      mul_div_cancel_right₀ p (ne_of_gt sound.total_pos)]
  · rcases lt_or_ge x t.lowerBound with hlt | hge
    · rw [cdf_of_le (le_of_lt hlt)]
      exact hp
    · rw [sound.cdf_eq hge (le_trans (le_of_lt hx) hright), div_lt_iff₀ sound.total_pos]
      exact hbefore x hge hx

theorem sample_le_iff (sound : t.Sound) (hp : 0 < p) (hp' : p < 1) :
    t.sample p ≤ x ↔ p ≤ t.cdf x := by
  obtain ⟨_, _, hfound, hbefore⟩ := sound.sample_spec hp hp'
  constructor
  · intro hle
    have hmono := sound.monotone_cdf hle
    rwa [hfound] at hmono
  · intro hle
    exact not_lt.mp fun hlt => absurd (hbefore x hlt) (not_lt.mpr hle)

theorem sample_mem (sound : t.Sound) (p : ℝ) :
    t.sample p ∈ Set.Icc t.lowerBound t.upperBound := by
  rcases le_or_gt p 0 with hzero | hpos
  · rw [sample_of_le_zero t hzero]
    exact ⟨le_refl _, le_of_lt sound.lower_lt_upper⟩
  · rcases le_or_gt 1 p with hone | hlt
    · rw [sample_of_one_le t hone]
      exact ⟨le_of_lt sound.lower_lt_upper, le_refl _⟩
    · obtain ⟨hleft, hright, _⟩ := sound.sample_spec hpos hlt
      exact ⟨le_of_lt hleft, hright⟩

theorem cdf_sample (sound : t.Sound) (hp : 0 ≤ p) (hp' : p ≤ 1) : t.cdf (t.sample p) = p := by
  rcases eq_or_lt_of_le hp with rfl | hpos
  · rw [sample_of_le_zero t (le_refl 0), cdf_of_le (le_refl _)]
  · rcases eq_or_lt_of_le hp' with rfl | hlt
    · rw [sample_of_one_le t (le_refl 1), sound.cdf_of_ge (le_refl _)]
    · exact (sound.sample_spec hpos hlt).2.2.1

theorem monotone_sample (sound : t.Sound) : Monotone t.sample := by
  intro p q hpq
  rcases le_or_gt p 0 with hzero | hpos
  · rw [sample_of_le_zero t hzero]
    exact (sound.sample_mem q).1
  · rcases le_or_gt 1 q with hone | hlt
    · rw [sample_of_one_le t hone]
      exact (sound.sample_mem p).2
    · rw [sound.sample_le_iff hpos (lt_of_le_of_lt hpq hlt),
        sound.cdf_sample (le_trans (le_of_lt hpos) hpq) (le_of_lt hlt)]
      exact hpq

/-- Probabilities that differ have samples at least as far apart as the largest density allows. -/
theorem exists_peak_sample (sound : t.Sound) :
    ∃ peak, IsGreatest (Set.range t.pdf) peak ∧ ∀ p q, 0 ≤ p → p ≤ q → q ≤ 1 →
      q - p ≤ peak * (t.sample q - t.sample p) := by
  obtain ⟨peak, hpeak, hgrowth⟩ := sound.exists_peak
  refine ⟨peak, hpeak, fun p q hp hpq hq => ?_⟩
  have hsamples := (hgrowth _ _ (sound.sample_mem p).1 (sound.monotone_sample hpq)
    (sound.sample_mem q).2).2
  rwa [sound.cdf_sample (le_trans hp hpq) hq, sound.cdf_sample hp (le_trans hpq hq)] at hsamples

end Sound

/-- The sample of a probability lies at or below a point exactly if the cumulative distribution
has reached the probability there. -/
theorem sample_is_quantile {xs ys : List ℝ} {t : Table ℝ} (built : ofColumns xs ys = .ok t) :
    (∀ p x, 0 < p → p < 1 → (t.sample p ≤ x ↔ p ≤ t.cdf x)) ∧
      (∀ p ∈ Set.Icc (0 : ℝ) 1,
        t.sample p ∈ Set.Icc t.lowerBound t.upperBound ∧ t.cdf (t.sample p) = p) ∧
      MonotoneOn t.sample (Set.Icc 0 1) ∧
      t.sample 0 = t.lowerBound ∧ t.sample 1 = t.upperBound := by
  have sound := sound_of_ofColumns built
  refine ⟨fun p x hp hp' => sound.sample_le_iff hp hp', fun p hp => ?_, ?_, ?_, ?_⟩
  · exact ⟨sound.sample_mem p, sound.cdf_sample hp.1 hp.2⟩
  · exact sound.monotone_sample.monotoneOn _
  · exact Sound.sample_of_le_zero t (le_refl 0)
  · exact Sound.sample_of_one_le t (le_refl 1)

def tentKnots : List (Knot ℝ) := [⟨0, 0⟩, ⟨1, 0⟩, ⟨2, 1⟩, ⟨3, 0⟩, ⟨4, 0⟩]

/-- A table with stretches of zero density at both ends. -/
noncomputable def tent : Table ℝ where
  first := ⟨0, 1, 0, 0, 0⟩
  later := [⟨1, 2, 0, 1, 0⟩, ⟨2, 3, 1, -1, 1 / 2⟩, ⟨3, 4, 0, 0, 1⟩]
  last := ⟨4, 0⟩
  total := 1

theorem ofColumns_tent :
    ofColumns (tentKnots.map (·.abscissa)) (tentKnots.map (·.density)) = .ok tent := by
  have hascending : tentKnots.Pairwise (fun k k' => k.abscissa < k'.abscissa) := by
    norm_num [tentKnots]
  have hnonneg : ∀ k ∈ tentKnots, 0 ≤ k.density := by
    norm_num [tentKnots]
  rw [tentKnots, ofColumns_of_ascending hascending hnonneg]
  norm_num [ofKnots, Segment.chain, Segment.area, Segment.between, tent]

theorem tent_is_quantile :
    ofColumns (tentKnots.map (·.abscissa)) (tentKnots.map (·.density)) = .ok tent ∧
      (tent.sample (1 / 2) ≤ 2 ↔ 1 / 2 ≤ tent.cdf 2) ∧ tent.cdf (tent.sample 1) = 1 := by
  obtain ⟨hquantile, hinverse, _⟩ := sample_is_quantile ofColumns_tent
  refine ⟨ofColumns_tent, hquantile (1 / 2) 2 ?_ ?_, (hinverse 1 ?_).2⟩
  · norm_num
  · norm_num
  · exact ⟨zero_le_one, le_refl 1⟩

namespace Sound

variable {t : Table ℝ} {p limit x : ℝ}

theorem sampleBelow_eq_min (above : t.lowerBound < limit) (p : ℝ) :
    t.sampleBelow p limit =
      min (t.sample (p * t.cdf (min limit t.upperBound))) (min limit t.upperBound) := by
  rw [sampleBelow, if_neg (not_le.mpr above)]
  simp only [Exact.min_eq]

theorem sampleBelow_mem_cut (sound : t.Sound) (above : t.lowerBound < limit) (p : ℝ) :
    t.sampleBelow p limit ∈ Set.Icc t.lowerBound (min limit t.upperBound) := by
  rw [sampleBelow_eq_min above]
  have hstart : t.lowerBound ≤ min limit t.upperBound :=
    le_min above.le sound.lower_lt_upper.le
  exact ⟨le_min (sound.sample_mem _).1 hstart, min_le_right _ _⟩

/-- The probability is a share of that at the limit. -/
theorem cdf_sampleBelow (sound : t.Sound) (above : t.lowerBound < limit)
    (hp : p ∈ Set.Icc (0 : ℝ) 1) :
    t.cdf (t.sampleBelow p limit) = p * t.cdf (min limit t.upperBound) := by
  obtain ⟨hnonneg, hone⟩ := sound.cdf_mem (min limit t.upperBound)
  have hshare : p * t.cdf (min limit t.upperBound) ≤ t.cdf (min limit t.upperBound) :=
    mul_le_of_le_one_left hnonneg hp.2
  have hfound := sound.cdf_sample (mul_nonneg hp.1 hnonneg) (hshare.trans hone)
  rw [sampleBelow_eq_min above, sound.monotone_cdf.map_min, hfound, min_eq_left hshare]

theorem monotone_sampleBelow (sound : t.Sound) (above : t.lowerBound < limit) :
    Monotone fun p => t.sampleBelow p limit := by
  intro p q hpq
  simp only [sampleBelow_eq_min above]
  have hnonneg := (sound.cdf_mem (min limit t.upperBound)).1
  exact min_le_min (sound.monotone_sample (mul_le_mul_of_nonneg_right hpq hnonneg)) (le_refl _)

/-- Where the table up to the limit has any weight, the sample is its quantile. -/
theorem sampleBelow_le_iff (sound : t.Sound) (above : t.lowerBound < limit)
    (hp : p ∈ Set.Ioo (0 : ℝ) 1) (weight : 0 < t.cdf (min limit t.upperBound)) :
    t.sampleBelow p limit ≤ x ↔ p * t.cdf (min limit t.upperBound) ≤ t.cdf x := by
  have hshare : p * t.cdf (min limit t.upperBound) < t.cdf (min limit t.upperBound) :=
    mul_lt_of_lt_one_left weight hp.2
  have hpos := mul_pos hp.1 weight
  have hlt := hshare.trans_le (sound.cdf_mem (min limit t.upperBound)).2
  rw [sampleBelow_eq_min above, min_eq_left ((sound.sample_le_iff hpos hlt).mpr hshare.le)]
  exact sound.sample_le_iff hpos hlt

/-- A limit beyond the table does not cut anything off. -/
theorem sampleBelow_of_ge (sound : t.Sound) (beyond : t.upperBound ≤ limit) (p : ℝ) :
    t.sampleBelow p limit = t.sample p := by
  rw [sampleBelow_eq_min (sound.lower_lt_upper.trans_le beyond), min_eq_right beyond,
    sound.cdf_of_ge (le_refl _), mul_one]
  exact min_eq_left (sound.sample_mem p).2

end Sound

/-- Samples below a limit are those of the table cut off there: the cumulative distribution at the
sample is the given share of that at the limit. -/
theorem sampleBelow_is_cut_quantile {xs ys : List ℝ} {t : Table ℝ}
    (built : ofColumns xs ys = .ok t) (limit : ℝ) :
    (limit ≤ t.lowerBound → ∀ p, t.sampleBelow p limit = t.lowerBound) ∧
      (t.lowerBound < limit →
        let m := min limit t.upperBound
        (∀ p ∈ Set.Icc (0 : ℝ) 1, t.sampleBelow p limit ∈ Set.Icc t.lowerBound m ∧
          t.cdf (t.sampleBelow p limit) = p * t.cdf m) ∧
        (0 < t.cdf m → ∀ p ∈ Set.Ioo (0 : ℝ) 1, ∀ x,
          t.sampleBelow p limit ≤ x ↔ p * t.cdf m ≤ t.cdf x) ∧
        MonotoneOn (fun p => t.sampleBelow p limit) (Set.Icc 0 1) ∧
        (t.upperBound ≤ limit → ∀ p ∈ Set.Icc (0 : ℝ) 1, t.sampleBelow p limit = t.sample p)) := by
  have sound := sound_of_ofColumns built
  constructor
  · intro below p
    rw [sampleBelow, if_pos below]
  · intro above
    refine ⟨fun p hp => ?_, fun weight p hp x => ?_, ?_, fun beyond p _ => ?_⟩
    · exact ⟨sound.sampleBelow_mem_cut above p, sound.cdf_sampleBelow above hp⟩
    · exact sound.sampleBelow_le_iff above hp weight
    · exact (sound.monotone_sampleBelow above).monotoneOn _
    · exact sound.sampleBelow_of_ge beyond p

/-- The tent cut off where its density is zero again, which leaves all of its weight. -/
theorem tent_is_cut_quantile :
    ofColumns (tentKnots.map (·.abscissa)) (tentKnots.map (·.density)) = .ok tent ∧
      tent.lowerBound < 7 / 2 ∧ tent.sampleBelow 1 (7 / 2) ≤ 7 / 2 ∧
      tent.cdf (tent.sampleBelow 1 (7 / 2)) = tent.cdf (7 / 2) ∧
      (∀ p, tent.sampleBelow p 0 = 0) := by
  have hcut : min (7 / 2) tent.upperBound = 7 / 2 := by
    norm_num [tent, upperBound]
  have above : tent.lowerBound < 7 / 2 := by
    norm_num [tent, lowerBound]
  obtain ⟨inside, _⟩ := (sampleBelow_is_cut_quantile ofColumns_tent (7 / 2)).2 above
  obtain ⟨hmem, hshare⟩ := inside 1 ⟨zero_le_one, le_refl 1⟩
  rw [hcut] at hmem hshare
  rw [one_mul] at hshare
  refine ⟨ofColumns_tent, above, hmem.2, hshare, fun p => ?_⟩
  exact (sampleBelow_is_cut_quantile ofColumns_tent 0).1 (le_refl 0) p

end Table
end AdaptiveTables
