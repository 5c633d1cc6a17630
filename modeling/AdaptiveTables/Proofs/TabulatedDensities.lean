import AdaptiveTables.Proofs.Quantile
import AdaptiveTables.Proofs.TableNodes

/-!
Tabulated densities and their integrals. A build accepts two columns exactly if they describe a
density: as many values as nodes, at least two nodes in ascending order, and densities that are
not negative and not all zero. The density of the table is then the straight line between any two
neighbouring nodes, from both sides of a node the same, and its cumulative distribution is the
exact integral of it.
-/

namespace AdaptiveTables

namespace Segment

/-- Neighbouring knots of a chain have a segment between them. -/
theorem exists_between_of_chain {cumulative total : ℝ} {a last : Knot ℝ} {rest : List (Knot ℝ)}
    {segments : List (Segment ℝ)} (h : chain cumulative a rest = (segments, last, total))
    {p : Knot ℝ × Knot ℝ} (hp : p ∈ adjacent (a :: rest)) :
    ∃ c, between c p.1 p.2 ∈ segments := by
  induction rest generalizing cumulative a segments with
  | nil => cases hp
  | cons b rest ih =>
      rw [chain] at h
      cases hchain : chain (cumulative + area a b) b rest with
      | mk later found =>
          simp only [hchain, Prod.mk.injEq] at h
          obtain ⟨rfl, rfl, rfl⟩ := h
          rw [adjacent_cons_cons] at hp
          cases List.mem_cons.mp hp with
          | inl heq =>
              rw [heq]
              exact ⟨cumulative, List.mem_cons_self⟩
          | inr hp =>
              obtain ⟨c, hc⟩ := ih hchain hp
              exact ⟨c, List.mem_cons_of_mem _ hc⟩

end Segment

namespace Table

variable {xs ys : List ℝ} {t : Table ℝ}

/-- Between neighbouring nodes a table is the straight line through their densities. -/
theorem evaluate_between (built : ofColumns xs ys = .ok t) {p : (ℝ × ℝ) × ℝ × ℝ}
    (hp : p ∈ adjacent (xs.zip ys)) {x : ℝ} (hx : x ∈ Set.Icc p.1.1 p.2.1) :
    t.evaluate x = p.1.2 + (p.2.2 - p.1.2) / (p.2.1 - p.1.1) * (x - p.1.1) := by
  have sound := sound_of_ofColumns built
  obtain ⟨a, b, rest, rfl, rfl, _, _, hknots⟩ := knots_of_ofColumns built
  rw [List.zip_map', adjacent_map] at hp
  obtain ⟨q, hq, rfl⟩ := List.mem_map.mp hp
  obtain ⟨hfirst, hchain, _⟩ := chain_of_ofKnots hknots
  have hrun : Segment.chain 0 a (b :: rest) = (t.segments, t.last, t.total) := by
    rw [Segment.chain, hchain, segments, hfirst]
  obtain ⟨c, hc⟩ := Segment.exists_between_of_chain hrun hq
  obtain ⟨hlower, _, hupper⟩ := sound.joined.ends_of_mem hc
  rw [sound.evaluate_eq (hlower.trans hx.1) (hx.2.trans hupper)]
  exact sound.joined.densityOver_on hc hx

theorem independent_of_ofColumns (built : ofColumns xs ys = .ok t) : t.independent = xs := by
  obtain ⟨a, b, rest, rfl, _, _, _, hknots⟩ := knots_of_ofColumns built
  rw [← knots_of_ofKnots hknots, independent, knots, List.map_append, List.map_map]
  rfl

/-- The columns that make a table. -/
theorem exists_table_iff_density :
    (∃ t, ofColumns xs ys = .ok t) ↔ xs.length = ys.length ∧ 2 ≤ xs.length ∧
      xs.Pairwise (· < ·) ∧ (∀ y ∈ ys, 0 ≤ y) ∧ ∃ y ∈ ys, y ≠ 0 := by
  constructor
  · rintro ⟨t, built⟩
    obtain ⟨a, b, rest, rfl, rfl, hascending, _⟩ := knots_of_ofColumns built
    have lengths : ((a :: b :: rest).map (·.abscissa)).length =
        ((a :: b :: rest).map (·.density)).length := by simp
    have two : 2 ≤ ((a :: b :: rest).map (·.abscissa)).length := by simp
    have ascending := List.pairwise_map.mpr hascending
    obtain ⟨nonneg, y, hy, hpos⟩ := (exists_ofColumns_iff lengths two ascending).mp ⟨t, built⟩
    exact ⟨lengths, two, ascending, nonneg, y, hy, hpos.ne'⟩
  · rintro ⟨lengths, two, ascending, nonneg, y, hy, nonzero⟩
    rw [exists_ofColumns_iff lengths two ascending]
    exact ⟨nonneg, y, hy, lt_of_le_of_ne (nonneg y hy) (Ne.symm nonzero)⟩

/-- A table takes exactly the columns of a density. Its density runs through the tabulated values
in straight lines, and its cumulative distribution is the integral of the normalised density. -/
theorem table_integrates_density (xs ys : List ℝ) :
    ((∃ t, ofColumns xs ys = .ok t) ↔ xs.length = ys.length ∧ 2 ≤ xs.length ∧
      xs.Pairwise (· < ·) ∧ (∀ y ∈ ys, 0 ≤ y) ∧ ∃ y ∈ ys, y ≠ 0) ∧
    ∀ t, ofColumns xs ys = .ok t →
      (xs.head? = some t.lowerBound ∧ xs.getLast? = some t.upperBound) ∧
      (∀ x y, (x, y) ∈ xs.zip ys → t.evaluate x = y) ∧
      (∀ x₀ y₀ x₁ y₁, ((x₀, y₀), (x₁, y₁)) ∈ adjacent (xs.zip ys) → ∀ x ∈ Set.Icc x₀ x₁,
        t.evaluate x = y₀ + (y₁ - y₀) / (x₁ - x₀) * (x - x₀)) ∧
      (∀ x, x < t.lowerBound ∨ t.upperBound < x → t.evaluate x = 0) ∧
      (∀ x y, t.lowerBound ≤ x → x < y → y ≤ t.upperBound → (∀ n ∈ xs, n ∉ Set.Ioo x y) →
        t.cdf y - t.cdf x = (y - x) * (t.pdf x + t.pdf y) / 2) ∧
      Monotone t.cdf ∧ (∀ x ≤ t.lowerBound, t.cdf x = 0) ∧ ∀ x ≥ t.upperBound, t.cdf x = 1 := by
  refine ⟨exists_table_iff_density, fun t built => ?_⟩
  have sound := sound_of_ofColumns built
  refine ⟨bounds_of_ofColumns built, fun x y hp => evaluate_of_mem_zip built hp,
    fun x₀ y₀ x₁ y₁ hp x hx => evaluate_between built hp hx,
    fun x hx => Sound.evaluate_of_outside hx, fun x y hx hxy hy free => ?_, sound.monotone_cdf,
    fun x hx => Sound.cdf_of_le hx, fun x hx => sound.cdf_of_ge hx⟩
  rw [← independent_of_ofColumns built] at free
  exact sound.cdf_sub hx hxy.le hy free

/-- The tent at its last node, in the middle of its rising side, and over the whole of that side. -/
theorem tent_integrates_density :
    ofColumns (tentKnots.map (·.abscissa)) (tentKnots.map (·.density)) = .ok tent ∧
      tent.evaluate 4 = 0 ∧ tent.evaluate (3 / 2) = 1 / 2 ∧
      tent.cdf 2 - tent.cdf 1 = (tent.pdf 1 + tent.pdf 2) / 2 ∧ tent.cdf 4 = 1 := by
  obtain ⟨_, tabulated⟩ := table_integrates_density (tentKnots.map (·.abscissa))
    (tentKnots.map (·.density))
  obtain ⟨_, nodes, lines, _, areas, _, _, whole⟩ := tabulated tent ofColumns_tent
  have hline := lines 1 0 2 1 (by simp [tentKnots, adjacent]) (3 / 2) (by norm_num)
  have harea := areas 1 2 (by norm_num [tent, lowerBound]) (by norm_num)
    (by norm_num [tent, upperBound]) (by norm_num [tentKnots])
  refine ⟨ofColumns_tent, nodes 4 0 (by simp [tentKnots]), ?_, ?_, whole 4 (le_refl 4)⟩
  · rw [hline]
    norm_num
  · rw [harea]
    norm_num

end Table
end AdaptiveTables
