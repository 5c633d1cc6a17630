import AdaptiveTables.Proofs.SoundTables

/-!
Tables at their own nodes. A table keeps the columns that it is built from, and gives back the
tabulated value at every node, also where two segments meet and at the last node. Ascending
columns without a negative value make a table exactly if some value is positive, since only then
the integral is.
-/

namespace AdaptiveTables

namespace Segment

/-- The knot at the left end of a segment. -/
def start (s : Segment ℝ) : Knot ℝ := ⟨s.left, s.density⟩

/-- Segments start at the knots that they are drawn through, up to the last one. -/
theorem starts_of_chain {cumulative total : ℝ} {a last : Knot ℝ} {rest : List (Knot ℝ)}
    {segments : List (Segment ℝ)} (h : chain cumulative a rest = (segments, last, total)) :
    segments.map start ++ [last] = a :: rest := by
  induction rest generalizing cumulative a segments with
  | nil =>
      obtain ⟨rfl, rfl, rfl⟩ := h
      rfl
  | cons b rest ih =>
      rw [chain] at h
      cases hchain : chain (cumulative + area a b) b rest with
      | mk later found =>
          simp only [hchain, Prod.mk.injEq] at h
          obtain ⟨rfl, rfl, rfl⟩ := h
          rw [List.map_cons, List.cons_append, ih hchain]
          rfl

theorem area_nonneg {a b : Knot ℝ} (ascending : a.abscissa < b.abscissa) (ha : 0 ≤ a.density)
    (hb : 0 ≤ b.density) : 0 ≤ area a b := by
  have hwidth : 0 ≤ (0.5 : ℝ) * (b.abscissa - a.abscissa) :=
    mul_nonneg (by norm_num) (sub_nonneg.mpr ascending.le)
  exact mul_nonneg hwidth (add_nonneg ha hb)

theorem area_pos_iff {a b : Knot ℝ} (ascending : a.abscissa < b.abscissa) (ha : 0 ≤ a.density)
    (hb : 0 ≤ b.density) : 0 < area a b ↔ 0 < a.density ∨ 0 < b.density := by
  have hwidth : 0 < (0.5 : ℝ) * (b.abscissa - a.abscissa) :=
    mul_pos (by norm_num) (sub_pos.mpr ascending)
  rw [area, mul_pos_iff_of_pos_left hwidth]
  constructor
  · intro hsum
    by_contra hzero
    rw [not_or, not_lt, not_lt] at hzero
    exact absurd hsum (not_lt.mpr (add_nonpos hzero.1 hzero.2))
  · intro hpos
    cases hpos with
    | inl ha' => exact add_pos_of_pos_of_nonneg ha' hb
    | inr hb' => exact add_pos_of_nonneg_of_pos ha hb'

/-- Along ascending knots without a negative density the integral rises exactly if some density
is positive. -/
theorem total_of_chain {cumulative : ℝ} {a b : Knot ℝ} {rest : List (Knot ℝ)}
    (ascending : (a :: b :: rest).Pairwise (fun k k' => k.abscissa < k'.abscissa))
    (nonneg : ∀ k ∈ a :: b :: rest, 0 ≤ k.density) :
    let total := (chain (cumulative + area a b) b rest).2.2
    cumulative ≤ total ∧ (cumulative < total ↔ ∃ k ∈ a :: b :: rest, 0 < k.density) := by
  have hab : a.abscissa < b.abscissa := (List.pairwise_cons.mp ascending).1 b List.mem_cons_self
  have ha : 0 ≤ a.density := nonneg a List.mem_cons_self
  have hb : 0 ≤ b.density := nonneg b (List.mem_cons_of_mem _ List.mem_cons_self)
  have harea := area_nonneg hab ha hb
  have hpos := area_pos_iff hab ha hb
  induction rest generalizing cumulative a b with
  | nil =>
      change cumulative ≤ cumulative + area a b ∧ (cumulative < cumulative + area a b ↔ _)
      rw [lt_add_iff_pos_right, hpos]
      exact ⟨le_add_of_nonneg_right harea, by simp⟩
  | cons c rest ih =>
      have htail := (List.pairwise_cons.mp ascending).2
      have hnonneg : ∀ k ∈ b :: c :: rest, 0 ≤ k.density := fun k hk =>
        nonneg k (List.mem_cons_of_mem _ hk)
      have hbc : b.abscissa < c.abscissa := (List.pairwise_cons.mp htail).1 c List.mem_cons_self
      have hc : 0 ≤ c.density := hnonneg c (List.mem_cons_of_mem _ List.mem_cons_self)
      obtain ⟨hle, hlt⟩ := @ih (cumulative + area a b) b c htail hnonneg hbc hb hc
        (area_nonneg hbc hb hc) (area_pos_iff hbc hb hc)
      change cumulative ≤ (chain (cumulative + area a b + area b c) c rest).2.2 ∧
        (cumulative < (chain (cumulative + area a b + area b c) c rest).2.2 ↔ _)
      refine ⟨by linarith, fun h => ?_, ?_⟩
      · by_cases hlater : ∃ k ∈ b :: c :: rest, 0 < k.density
        · obtain ⟨k, hk, hkpos⟩ := hlater
          exact ⟨k, List.mem_cons_of_mem _ hk, hkpos⟩
        · -- Only the first stretch can have made the integral rise.
          have hstays := not_lt.mp (mt hlt.mp hlater)
          cases hpos.mp (by linarith) with
          | inl ha' => exact ⟨a, List.mem_cons_self, ha'⟩
          | inr hb' => exact ⟨b, List.mem_cons_of_mem _ List.mem_cons_self, hb'⟩
      · rintro ⟨k, hk, hkpos⟩
        cases List.mem_cons.mp hk with
        | inl heq =>
            have hrise := hpos.mpr (Or.inl (heq ▸ hkpos))
            linarith
        | inr hk =>
            have hrise := hlt.mpr ⟨k, hk, hkpos⟩
            linarith

theorem Joined.ends_of_mem {last : Knot ℝ} {total : ℝ} {s σ : Segment ℝ}
    {later : List (Segment ℝ)} (joined : Joined last total s later) (h : σ ∈ s :: later) :
    s.left ≤ σ.left ∧ σ.left < σ.right ∧ σ.right ≤ last.abscissa := by
  induction joined with
  | single ends =>
      rw [List.mem_singleton.mp h]
      exact ⟨le_refl _, ends.proper, ends.right_eq.le⟩
  | cons ends others ih =>
      cases List.mem_cons.mp h with
      | inl heq =>
          rw [heq]
          exact ⟨le_refl _, ends.proper, ends.right_eq.trans_le others.left_lt_last.le⟩
      | inr h =>
          obtain ⟨hle, hproper, hright⟩ := ih h
          exact ⟨(ends.proper.trans_eq ends.right_eq).le.trans hle, hproper, hright⟩

/-- On every segment of a run the density is that of the segment, up to its right end. -/
theorem Joined.densityOver_on {last : Knot ℝ} {total x : ℝ} {s σ : Segment ℝ}
    {later : List (Segment ℝ)} (joined : Joined last total s later) (h : σ ∈ s :: later)
    (hx : x ∈ Set.Icc σ.left σ.right) : densityOver s later x = σ.densityAt x := by
  induction joined with
  | single _ =>
      rw [List.mem_singleton.mp h]
      rfl
  | @cons s next rest ends others ih =>
      cases List.mem_cons.mp h with
      | inl heq =>
          subst heq
          have hle : x ≤ next.left := hx.2.trans_eq ends.right_eq
          cases lt_or_eq_of_le hle with
          | inl hlt => exact densityOver_of_lt hlt
          | inr hjoint =>
              -- At the joint the next segment is found, which starts with the same density.
              rw [hjoint, densityOver_of_le (le_refl _), others.densityOver_left,
                ← ends.densityAt_right, ends.right_eq]
      | inr h =>
          rw [densityOver_of_le ((others.ends_of_mem h).1.trans hx.1)]
          exact ih h

end Segment

namespace Table

variable {xs ys : List ℝ} {t : Table ℝ}

/-- The knots that a table runs through. -/
def knots (t : Table ℝ) : List (Knot ℝ) := t.segments.map Segment.start ++ [t.last]

/-- At every knot a sound table gives the density there. -/
theorem Sound.evaluate_knot (sound : t.Sound) {k : Knot ℝ} (h : k ∈ t.knots) :
    t.evaluate k.abscissa = k.density := by
  rw [knots, List.mem_append, List.mem_map, List.mem_singleton] at h
  cases h with
  | inl h =>
      obtain ⟨s, hs, rfl⟩ := h
      obtain ⟨hlower, hproper, hupper⟩ := sound.joined.ends_of_mem hs
      have hinside := sound.evaluate_eq hlower (hproper.le.trans hupper)
      have hdensity := sound.joined.densityOver_on hs ⟨le_refl s.left, hproper.le⟩
      rw [Segment.densityAt_eq, sub_self, mul_zero, add_zero] at hdensity
      exact hinside.trans hdensity
  | inr h =>
      have hlast := sound.evaluate_eq sound.lower_lt_upper.le (le_refl t.upperBound)
      rw [h]
      exact hlast.trans sound.joined.densityOver_last

theorem knots_of_ofKnots {a b : Knot ℝ} {rest : List (Knot ℝ)} (h : ofKnots a b rest = .ok t) :
    t.knots = a :: b :: rest := by
  obtain ⟨hfirst, hchain, _⟩ := chain_of_ofKnots h
  rw [knots, segments, hfirst, List.map_cons, List.cons_append, Segment.starts_of_chain hchain]
  rfl

/-- A table gives back its columns. -/
theorem evaluate_of_mem_zip (built : ofColumns xs ys = .ok t) {p : ℝ × ℝ} (h : p ∈ xs.zip ys) :
    t.evaluate p.1 = p.2 := by
  obtain ⟨a, b, rest, rfl, rfl, _, _, hknots⟩ := knots_of_ofColumns built
  rw [List.zip_map'] at h
  obtain ⟨k, hk, rfl⟩ := List.mem_map.mp h
  rw [← knots_of_ofKnots hknots] at hk
  exact (sound_of_ofColumns built).evaluate_knot hk

theorem bounds_of_ofColumns (built : ofColumns xs ys = .ok t) :
    xs.head? = some t.lowerBound ∧ xs.getLast? = some t.upperBound := by
  obtain ⟨a, b, rest, rfl, _, _, _, hknots⟩ := knots_of_ofColumns built
  rw [← knots_of_ofKnots hknots, knots]
  exact ⟨rfl, by simp [upperBound]⟩

theorem exists_ofKnots_iff {a b : Knot ℝ} {rest : List (Knot ℝ)}
    (ascending : (a :: b :: rest).Pairwise (fun k k' => k.abscissa < k'.abscissa))
    (nonneg : ∀ k ∈ a :: b :: rest, 0 ≤ k.density) :
    (∃ t, ofKnots a b rest = .ok t) ↔ ∃ k ∈ a :: b :: rest, 0 < k.density := by
  have htotal := (@Segment.total_of_chain 0 a b rest ascending nonneg).2
  obtain ⟨⟨later, last, total⟩, hchain⟩ :
      ∃ found, Segment.chain (0 + Segment.area a b) b rest = found := ⟨_, rfl⟩
  simp only [hchain] at htotal
  rw [← htotal]
  simp only [ofKnots, hchain, Exact.isFinite_eq, Bool.and_true, decide_eq_true_eq]
  constructor
  · rintro ⟨t, ht⟩
    by_contra hzero
    rw [if_neg hzero] at ht
    cases ht
  · intro hpos
    exact ⟨_, if_pos hpos⟩

/-- Ascending columns make a table exactly if no value is negative and some value is positive. -/
theorem exists_ofColumns_iff (lengths : xs.length = ys.length) (two : 2 ≤ xs.length)
    (ascending : xs.Pairwise (· < ·)) :
    (∃ t, ofColumns xs ys = .ok t) ↔ (∀ y ∈ ys, 0 ≤ y) ∧ ∃ y ∈ ys, 0 < y := by
  constructor
  · rintro ⟨t, ht⟩
    obtain ⟨a, b, rest, rfl, rfl, hascending, nonneg, hknots⟩ := knots_of_ofColumns ht
    obtain ⟨k, hk, hpos⟩ := (exists_ofKnots_iff hascending nonneg).mp ⟨t, hknots⟩
    exact ⟨List.forall_mem_map.mpr nonneg, k.density, List.mem_map_of_mem hk, hpos⟩
  · rintro ⟨nonneg, y, hy, hpos⟩
    have habscissae := Knot.map_abscissa lengths
    have hdensities := Knot.map_density lengths
    match hknots : List.zipWith Knot.mk xs ys with
    | [] | [_] =>
        rw [hknots] at habscissae
        rw [← habscissae] at two
        simp at two
    | a :: b :: rest =>
        rw [hknots] at habscissae hdensities
        rw [← habscissae, List.pairwise_map] at ascending
        rw [← hdensities] at nonneg hy
        obtain ⟨k, hk, rfl⟩ := List.mem_map.mp hy
        have hnonneg := List.forall_mem_map.mp nonneg
        rw [← habscissae, ← hdensities, ofColumns_of_ascending ascending hnonneg]
        exact (exists_ofKnots_iff ascending hnonneg).mpr ⟨k, hk, hpos⟩

end Table
end AdaptiveTables
