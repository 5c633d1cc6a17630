import AdaptiveTables.Proofs.JoinedSegments
import AdaptiveTables.Proofs.LineRuns

/-!
Tables in exact arithmetic. Every table that is built from columns is a joined run of regular
segments with a positive integral. Its density has a greatest value, and its cumulative
distribution rises from zero at the lower bound to one at the upper bound, nowhere faster than
that value.
-/

namespace AdaptiveTables

namespace Segment

theorem reaches_between (cumulative : ℝ) {a b : Knot ℝ} (ascending : a.abscissa < b.abscissa)
    (ha : 0 ≤ a.density) (hb : 0 ≤ b.density) :
    (between cumulative a b).Reaches b.abscissa b.density (cumulative + area a b) := by
  have hwidth : b.abscissa - a.abscissa ≠ 0 := sub_ne_zero.mpr (ne_of_gt ascending)
  have hdensity : (between cumulative a b).densityAt b.abscissa = b.density := by
    simp only [between, densityAt]
    field_simp
    ring
  refine ⟨⟨ascending, ha, le_of_le_of_eq hb hdensity.symm⟩, rfl, hdensity, ?_⟩
  have hsub := (between cumulative a b).cumulativeAt_sub a.abscissa b.abscissa
  have hleft : (between cumulative a b).cumulativeAt a.abscissa = cumulative :=
    cumulativeAt_left _
  have hdensityLeft : (between cumulative a b).densityAt a.abscissa = a.density := by
    simp only [between, densityAt]
    ring
  rw [hleft, hdensity, hdensityLeft] at hsub
  change (between cumulative a b).cumulativeAt b.abscissa = _
  rw [area]
  norm_num at hsub ⊢
  linarith

/-- Segments through ascending knots are joined. -/
theorem joined_chain {cumulative total : ℝ} {a b last : Knot ℝ} {rest : List (Knot ℝ)}
    {later : List (Segment ℝ)}
    (ascending : (a :: b :: rest).Pairwise (fun k k' => k.abscissa < k'.abscissa))
    (nonneg : ∀ k ∈ a :: b :: rest, 0 ≤ k.density)
    (h : chain (cumulative + area a b) b rest = (later, last, total)) :
    Joined last total (between cumulative a b) later := by
  induction rest generalizing cumulative a b later with
  | nil =>
      rw [chain] at h
      obtain ⟨rfl, rfl, rfl⟩ := h
      refine .single (reaches_between cumulative ?_ ?_ ?_)
      · exact (List.pairwise_cons.mp ascending).1 _ List.mem_cons_self
      · exact nonneg a List.mem_cons_self
      · exact nonneg _ (List.mem_cons_of_mem _ List.mem_cons_self)
  | cons c rest ih =>
      obtain ⟨hab, hlater⟩ := List.pairwise_cons.mp ascending
      rw [chain] at h
      cases hchain : chain (cumulative + area a b + area b c) c rest with
      | mk segments found =>
          simp only [hchain, Prod.mk.injEq] at h
          obtain ⟨rfl, rfl, rfl⟩ := h
          refine .cons (reaches_between cumulative ?_ ?_ ?_) (ih hlater ?_ hchain)
          · exact hab b List.mem_cons_self
          · exact nonneg a List.mem_cons_self
          · exact nonneg b (List.mem_cons_of_mem _ List.mem_cons_self)
          · exact fun k hk => nonneg k (List.mem_cons_of_mem _ hk)

end Segment

theorem Knot.map_abscissa {α : Type} {xs ys : List α} (h : xs.length = ys.length) :
    (List.zipWith Knot.mk xs ys).map (·.abscissa) = xs := by
  rw [← List.map_uncurry_zip_eq_zipWith, List.map_map]
  exact List.map_fst_zip h.le

theorem Knot.map_density {α : Type} {xs ys : List α} (h : xs.length = ys.length) :
    (List.zipWith Knot.mk xs ys).map (·.density) = ys := by
  rw [← List.map_uncurry_zip_eq_zipWith, List.map_map]
  exact List.map_snd_zip h.ge

namespace Table

section Builds

variable {α : Type} [Scalar α]

theorem chain_of_ofKnots {a b : Knot α} {rest : List (Knot α)} {t : Table α}
    (h : ofKnots a b rest = .ok t) :
    t.first = Segment.between 0 a b ∧
      Segment.chain (0 + Segment.area a b) b rest = (t.later, t.last, t.total) ∧ 0 < t.total := by
  obtain ⟨⟨later, last, total⟩, hchain⟩ :
      ∃ found, Segment.chain (0 + Segment.area a b) b rest = found := ⟨_, rfl⟩
  simp only [ofKnots, hchain] at h
  split at h
  next htotal =>
    obtain rfl := Except.ok.inj h
    rw [Bool.and_eq_true, decide_eq_true_eq] at htotal
    exact ⟨rfl, hchain, htotal.1⟩
  next => cases h

theorem checks_of_ofColumns {xs ys : List α} {t : Table α} (h : ofColumns xs ys = .ok t) :
    xs.length = ys.length ∧ (∀ x ∈ xs, Scalar.isFinite x = true) ∧ firstDescent? xs = none ∧
      (∀ y ∈ ys, isDensity y = true) ∧
      ∃ a b rest, List.zipWith Knot.mk xs ys = a :: b :: rest ∧ ofKnots a b rest = .ok t := by
  rw [ofColumns] at h
  split at h
  next => cases h
  next hlengths =>
    split at h
    next => cases h
    next =>
      split at h
      next => cases h
      next hfinite =>
        split at h
        next => cases h
        next hdescent =>
          split at h
          next => cases h
          next hdensities =>
            split at h
            next a b rest hknots =>
              refine ⟨not_not.mp hlengths, ?_, hdescent, ?_, a, b, rest, hknots, h⟩
              · simpa using hfinite
              · simpa using hdensities
            next => cases h

/-- Columns that pass the checks are those of ascending knots, and the table is the one through
the knots. -/
theorem exists_knots_of_ofColumns [Scalar.Ordered α] {xs ys : List α} {t : Table α}
    (h : ofColumns xs ys = .ok t) :
    ∃ a b rest, xs = (a :: b :: rest).map (·.abscissa) ∧ ys = (a :: b :: rest).map (·.density) ∧
      (a :: b :: rest).Pairwise (fun k k' => k.abscissa < k'.abscissa) ∧
      (∀ k ∈ a :: b :: rest, isDensity k.density = true) ∧ ofKnots a b rest = .ok t := by
  obtain ⟨lengths, finite, descent, densities, a, b, rest, hknots, hbuilt⟩ :=
    checks_of_ofColumns h
  have habscissae := Knot.map_abscissa lengths
  have hdensities := Knot.map_density lengths
  have hadmitted : ∀ x ∈ xs, Scale.linear.admits x = true := finite
  have hascending := ascending_of_firstDescent? hadmitted descent
  rw [hknots] at habscissae hdensities
  rw [← habscissae, List.pairwise_map] at hascending
  rw [← hdensities] at densities
  exact ⟨a, b, rest, habscissae.symm, hdensities.symm, hascending,
    List.forall_mem_map.mp densities, hbuilt⟩

end Builds

/-- A run of joined segments whose integral starts at zero and is positive in the end. -/
structure Sound (t : Table ℝ) : Prop where
  joined : Segment.Joined t.last t.total t.first t.later
  start : t.first.cumulative = 0
  total_pos : 0 < t.total

theorem sound_of_ofKnots {a b : Knot ℝ} {rest : List (Knot ℝ)} {t : Table ℝ}
    (ascending : (a :: b :: rest).Pairwise (fun k k' => k.abscissa < k'.abscissa))
    (nonneg : ∀ k ∈ a :: b :: rest, 0 ≤ k.density) (h : ofKnots a b rest = .ok t) : t.Sound := by
  obtain ⟨hfirst, hchain, hpos⟩ := chain_of_ofKnots h
  refine ⟨?_, congrArg Segment.cumulative hfirst, hpos⟩
  rw [hfirst]
  exact Segment.joined_chain ascending nonneg hchain

theorem knots_of_ofColumns {xs ys : List ℝ} {t : Table ℝ} (h : ofColumns xs ys = .ok t) :
    ∃ a b rest, xs = (a :: b :: rest).map (·.abscissa) ∧ ys = (a :: b :: rest).map (·.density) ∧
      (a :: b :: rest).Pairwise (fun k k' => k.abscissa < k'.abscissa) ∧
      (∀ k ∈ a :: b :: rest, 0 ≤ k.density) ∧ ofKnots a b rest = .ok t := by
  obtain ⟨a, b, rest, hxs, hys, ascending, densities, built⟩ := exists_knots_of_ofColumns h
  refine ⟨a, b, rest, hxs, hys, ascending, fun k hk => ?_, built⟩
  have hchecked := densities k hk
  rw [isDensity, Bool.and_eq_true, Bool.not_eq_true', decide_eq_false_iff_not, not_lt] at hchecked
  exact hchecked.2

/-- The checks on the columns are what makes a table sound. -/
theorem sound_of_ofColumns {xs ys : List ℝ} {t : Table ℝ} (h : ofColumns xs ys = .ok t) :
    t.Sound := by
  obtain ⟨a, b, rest, _, _, ascending, nonneg, hknots⟩ := knots_of_ofColumns h
  exact sound_of_ofKnots ascending nonneg hknots

/-- Ascending knots with densities that are not negative pass the checks on the columns. -/
theorem ofColumns_of_ascending {a b : Knot ℝ} {rest : List (Knot ℝ)}
    (ascending : (a :: b :: rest).Pairwise (fun k k' => k.abscissa < k'.abscissa))
    (nonneg : ∀ k ∈ a :: b :: rest, 0 ≤ k.density) :
    ofColumns ((a :: b :: rest).map (·.abscissa)) ((a :: b :: rest).map (·.density)) =
      ofKnots a b rest := by
  have hdescent : firstDescent? ((a :: b :: rest).map (·.abscissa)) = none :=
    Scalar.firstDescent?_of_ascending (List.pairwise_map.mpr ascending)
  have hdensities : ((a :: b :: rest).map (·.density)).find? (!isDensity ·) = none := by
    rw [List.find?_eq_none]
    intro y hy
    obtain ⟨k, hk, rfl⟩ := List.mem_map.mp hy
    simp [isDensity, nonneg k hk]
  have hknots : List.zipWith Knot.mk ((a :: b :: rest).map (·.abscissa))
      ((a :: b :: rest).map (·.density)) = a :: b :: rest := by
    rw [List.zipWith_map, List.zipWith_self]
    exact List.map_id _
  rw [ofColumns, if_neg (by simp), if_neg (by simp), if_neg (by simp), hdescent]
  simp only [hdensities, hknots]

namespace Sound

variable {t : Table ℝ} {x y : ℝ}

theorem lower_lt_upper (sound : t.Sound) : t.lowerBound < t.upperBound :=
  sound.joined.left_lt_last

/-- Inside the bounds the density is that of the joined segments. -/
theorem evaluate_eq (sound : t.Sound) (hx : t.lowerBound ≤ x) (hx' : x ≤ t.upperBound) :
    t.evaluate x = Segment.densityOver t.first t.later x := by
  have hinside : ¬(x < t.lowerBound ∨ t.upperBound < x) := by
    rintro (h | h)
    · exact absurd hx (not_le.mpr h)
    · exact absurd hx' (not_le.mpr h)
  rw [evaluate]
  simp only [Bool.or_eq_true, decide_eq_true_eq, if_neg hinside, beq_iff_eq]
  split
  next hend => rw [hend]; exact sound.joined.densityOver_last.symm
  next => rfl

theorem evaluate_of_outside (h : x < t.lowerBound ∨ t.upperBound < x) : t.evaluate x = 0 := by
  rw [evaluate]
  simp only [Bool.or_eq_true, decide_eq_true_eq, if_pos h]

/-- Inside the bounds the cumulative distribution is the share of the integral. -/
theorem cdf_eq (sound : t.Sound) (hx : t.lowerBound ≤ x) (hx' : x ≤ t.upperBound) :
    t.cdf x = Segment.integralOver t.first t.later x / t.total := by
  rw [cdf]
  split
  next hle =>
    obtain rfl : x = t.lowerBound := le_antisymm hle hx
    rw [lowerBound, sound.joined.integralOver_left, sound.start, zero_div]
  next =>
    split
    next hge =>
      obtain rfl : x = t.upperBound := le_antisymm hx' hge
      rw [upperBound, sound.joined.integralOver_last, div_self (ne_of_gt sound.total_pos)]
    next =>
      have hshare : Segment.integralOver t.first t.later x / t.total ≤ 1 := by
        rw [div_le_one sound.total_pos, ← sound.joined.integralOver_last]
        exact sound.joined.integralOver_mono hx hx' (le_refl _)
      rw [Exact.min_eq, normalisation, mul_one_div]
      exact min_eq_left hshare

theorem cdf_of_le (h : x ≤ t.lowerBound) : t.cdf x = 0 := by
  rw [cdf, if_pos h]

theorem cdf_of_ge (sound : t.Sound) (h : t.upperBound ≤ x) : t.cdf x = 1 := by
  rw [cdf, if_neg (not_le.mpr (lt_of_lt_of_le sound.lower_lt_upper h)), if_pos h]

/-- The density has a greatest value, and the cumulative distribution grows at most as fast. -/
theorem exists_peak (sound : t.Sound) :
    ∃ peak, IsGreatest (Set.range t.pdf) peak ∧ ∀ x y, t.lowerBound ≤ x → x ≤ y →
      y ≤ t.upperBound → t.cdf y - t.cdf x ∈ Set.Icc 0 (peak * (y - x)) := by
  obtain ⟨z, hz, hz', hpeak⟩ := sound.joined.exists_peak
  have hnonneg := sound.joined.densityOver_nonneg hz hz'
  refine ⟨t.pdf z, ⟨⟨z, rfl⟩, ?_⟩, ?_⟩
  · rintro _ ⟨x, rfl⟩
    have hevaluate : t.evaluate x ≤ t.evaluate z := by
      rw [sound.evaluate_eq hz hz']
      by_cases hinside : t.lowerBound ≤ x ∧ x ≤ t.upperBound
      · rw [sound.evaluate_eq hinside.1 hinside.2]
        exact hpeak x hinside.1 hinside.2
      · rw [evaluate_of_outside (by rwa [not_and_or, not_le, not_le] at hinside)]
        exact hnonneg
    exact mul_le_mul_of_nonneg_right hevaluate
      (div_nonneg zero_le_one (le_of_lt sound.total_pos))
  · intro x y hx hxy hy
    have hgrowth := sound.joined.integralOver_sub_mem
      (fun w hw hw' => ⟨sound.joined.densityOver_nonneg hw hw', hpeak w hw hw'⟩) hx hxy hy
    rw [sound.cdf_eq (le_trans hx hxy) hy, sound.cdf_eq hx (le_trans hxy hy), ← sub_div, pdf,
      sound.evaluate_eq hz hz', normalisation, mul_one_div, div_mul_eq_mul_div]
    rw [zero_mul] at hgrowth
    exact ⟨div_nonneg hgrowth.1 (le_of_lt sound.total_pos),
      div_le_div_of_nonneg_right hgrowth.2 (le_of_lt sound.total_pos)⟩

theorem cdf_mem (sound : t.Sound) (x : ℝ) : t.cdf x ∈ Set.Icc 0 1 := by
  rcases le_or_gt x t.lowerBound with hle | hgt
  · rw [cdf_of_le hle]
    exact ⟨le_refl 0, zero_le_one⟩
  · rcases le_or_gt t.upperBound x with hge | hlt
    · rw [sound.cdf_of_ge hge]
      exact ⟨zero_le_one, le_refl 1⟩
    · obtain ⟨_, _, hgrowth⟩ := sound.exists_peak
      have hbelow := (hgrowth _ _ (le_refl _) (le_of_lt hgt) (le_of_lt hlt)).1
      have habove := (hgrowth _ _ (le_of_lt hgt) (le_of_lt hlt) (le_refl _)).1
      rw [cdf_of_le (le_refl _)] at hbelow
      rw [sound.cdf_of_ge (le_refl _)] at habove
      constructor <;> linarith

theorem monotone_cdf (sound : t.Sound) : Monotone t.cdf := by
  intro x y hxy
  rcases lt_or_ge x t.lowerBound with hlt | hx
  · rw [cdf_of_le (le_of_lt hlt)]
    exact (sound.cdf_mem y).1
  · rcases lt_or_ge t.upperBound y with hgt | hy
    · rw [sound.cdf_of_ge (le_of_lt hgt)]
      exact (sound.cdf_mem x).2
    · obtain ⟨_, _, hgrowth⟩ := sound.exists_peak
      exact sub_nonneg.mp (hgrowth x y hx hxy hy).1

theorem cdf_sub (sound : t.Sound) (hx : t.lowerBound ≤ x) (hxy : x ≤ y) (hy : y ≤ t.upperBound)
    (free : ∀ n ∈ t.independent, n ∉ Set.Ioo x y) :
    t.cdf y - t.cdf x = (y - x) * (t.pdf x + t.pdf y) / 2 := by
  have hfree : ∀ σ ∈ t.later, σ.left ∉ Set.Ioo x y := by
    intro σ hσ
    apply free
    rw [independent, segments]
    exact List.mem_append_left _ (List.mem_map_of_mem (List.mem_cons_of_mem _ hσ))
  rw [sound.cdf_eq (hx.trans hxy) hy, sound.cdf_eq hx (hxy.trans hy), ← sub_div,
    sound.joined.integralOver_sub hxy hfree, pdf, pdf, sound.evaluate_eq hx (hxy.trans hy),
    sound.evaluate_eq (hx.trans hxy) hy, normalisation]
  ring

theorem pdf_nonneg (sound : t.Sound) (x : ℝ) : 0 ≤ t.pdf x := by
  have hnormalised : 0 ≤ t.normalisation := div_nonneg zero_le_one sound.total_pos.le
  refine mul_nonneg ?_ hnormalised
  by_cases hinside : t.lowerBound ≤ x ∧ x ≤ t.upperBound
  · rw [sound.evaluate_eq hinside.1 hinside.2]
    exact sound.joined.densityOver_nonneg hinside.1 hinside.2
  · rw [evaluate_of_outside (by rwa [not_and_or, not_le, not_le] at hinside)]

theorem continuousOn_cdf (sound : t.Sound) :
    ContinuousOn t.cdf (Set.Icc t.lowerBound t.upperBound) := by
  obtain ⟨peak, ⟨⟨z, hz⟩, _⟩, hgrowth⟩ := sound.exists_peak
  have hpeak : 0 ≤ peak := hz ▸ sound.pdf_nonneg z
  have lipschitz : LipschitzOnWith ⟨peak, hpeak⟩ t.cdf (Set.Icc t.lowerBound t.upperBound) := by
    refine LipschitzOnWith.of_le_add_mul _ fun x hx y hy => ?_
    change t.cdf x ≤ t.cdf y + peak * dist x y
    rcases le_total x y with hle | hle
    · have hmono := sound.monotone_cdf hle
      have hdist := mul_nonneg hpeak (dist_nonneg (x := x) (y := y))
      linarith
    · have hrise := (hgrowth y x hy.1 hle hx.2).2
      rw [Real.dist_eq, abs_of_nonneg (sub_nonneg.mpr hle)]
      linarith
  exact lipschitz.continuousOn

end Sound
end Table
end AdaptiveTables
