import AdaptiveTables.Proofs.LineConvergence

/-!
Fixed points of the refinement on a line. If every interval of a grid between two of its points is
accepted, a refinement between these points inserts nothing and returns the grid as it is. Its
events are those of the intervals.
-/

namespace AdaptiveTables

variable {α : Type} [Scalar α]

/-- The parts into which two limits divide an ascending list: what is below the lower limit, what
ends between the limits, and what is above the upper one. -/
structure Divides (lo hi : α) (before inner : List α) (last : α) (above : List α) : Prop where
  before : ∀ x ∈ before, x < lo
  inner : ∀ x ∈ inner ++ [last], lo < x ∧ x ≤ hi
  last : (last == hi) = true
  above : ∀ x ∈ above, hi < x

section Divides

variable [Scalar.Ordered α] {points before inner above : List α} {lo hi last : α}

theorem exists_divides (ascending : points.Pairwise (· < ·)) (lower : lo ∈ points)
    (upper : points.contains hi = true) (range : lo < hi) :
    ∃ before inner last above, points = before ++ (lo :: (inner ++ [last]) ++ above) ∧
      Divides lo hi before inner last above := by
  obtain ⟨before, after, rfl⟩ := List.append_of_mem lower
  obtain ⟨y, hy, heq⟩ := List.contains_iff_exists_mem_beq.mp upper
  obtain ⟨hle, hge⟩ := Scalar.beq_iff_le.mp heq
  obtain ⟨_, hrest, hbefore⟩ := List.pairwise_append.mp ascending
  obtain ⟨hafter, hlater⟩ := List.pairwise_cons.mp hrest
  have hbelow : ∀ x ∈ before, x < lo := fun x hx => hbefore x hx lo List.mem_cons_self
  have hloy : lo < y := Scalar.lt_of_lt_of_le range hle
  have hmem : y ∈ after := by
    cases List.mem_append.mp hy with
    | inl hy => exact absurd (hbelow y hy) (Scalar.lt_asymm hloy)
    | inr hy =>
        cases List.mem_cons.mp hy with
        | inl hylo => exact absurd (hylo ▸ hloy) (Scalar.Ordered.lt_irrefl lo)
        | inr hy => exact hy
  obtain ⟨inner, above, rfl⟩ := List.append_of_mem hmem
  obtain ⟨_, hlast, hinner⟩ := List.pairwise_append.mp hlater
  refine ⟨before, inner, y, above, by simp, hbelow, ?_, Scalar.beq_symm heq, ?_⟩
  · intro x hx
    cases List.mem_append.mp hx with
    | inl hx =>
        have hxy : x < y := hinner x hx y List.mem_cons_self
        exact ⟨hafter x (by simp [hx]), Scalar.le_of_lt (Scalar.lt_of_lt_of_le hxy hge)⟩
    | inr hx => exact List.mem_singleton.mp hx ▸ ⟨hloy, hge⟩
  · intro x hx
    exact Scalar.lt_of_le_of_lt hle ((List.pairwise_cons.mp hlast).1 x hx)

variable (h : Divides lo hi before inner last above)
include h

theorem Divides.enclosed (range : lo < hi) : ∀ x ∈ lo :: (inner ++ [last]), lo ≤ x ∧ x ≤ hi := by
  intro x hx
  cases List.mem_cons.mp hx with
  | inl heq =>
      rw [heq]
      exact ⟨Scalar.le_refl (Scalar.Ordered.number_of_lt range).1, Scalar.le_of_lt range⟩
  | inr hx => exact ⟨Scalar.le_of_lt (h.inner x hx).1, (h.inner x hx).2⟩

theorem Divides.takeWhile_eq :
    (before ++ (lo :: (inner ++ [last]) ++ above)).takeWhile (· < lo) = before := by
  rw [List.takeWhile_append_of_pos (by simpa using h.before), List.cons_append,
    List.takeWhile_cons_of_neg (by simp [Scalar.Ordered.lt_irrefl]), List.append_nil]

theorem Divides.rightEnds_eq :
    LineGenerator.rightEnds (before ++ (lo :: (inner ++ [last]) ++ above)) lo hi =
      inner ++ [last] := by
  have hbefore : before.filter (fun x => lo < x && x ≤ hi) = [] := by
    refine List.filter_eq_nil_iff.mpr fun x hx => ?_
    simp [Scalar.lt_asymm (h.before x hx)]
  have hinner : (inner ++ [last]).filter (fun x => lo < x && x ≤ hi) = inner ++ [last] := by
    refine List.filter_eq_self.mpr fun x hx => ?_
    simp [h.inner x hx]
  have habove : above.filter (fun x => lo < x && x ≤ hi) = [] := by
    refine List.filter_eq_nil_iff.mpr fun x hx => ?_
    have hnot : ¬x ≤ hi := fun hle => Scalar.not_lt_of_le hle (h.above x hx)
    simp [hnot]
  have hlo : (decide (lo < lo) && decide (lo ≤ hi)) = false := by
    simp [Scalar.Ordered.lt_irrefl]
  have hfilter : (before ++ (lo :: (inner ++ [last]) ++ above)).filter
      (fun x => lo < x && x ≤ hi) = inner ++ [last] := by
    rw [List.filter_append, List.filter_append, hbefore, habove,
      List.filter_cons_of_neg (by simp [hlo]), hinner, List.nil_append, List.append_nil]
  simp only [LineGenerator.rightEnds, hfilter]
  simp [h.last]

theorem Divides.filter_eq (range : lo < hi) :
    (before ++ (lo :: (inner ++ [last]) ++ above)).filter (hi < ·) = above := by
  have hnone : (before ++ lo :: (inner ++ [last])).filter (hi < ·) = [] := by
    refine List.filter_eq_nil_iff.mpr fun x hx => ?_
    rw [decide_eq_true_eq]
    cases List.mem_append.mp hx with
    | inl hx => exact Scalar.lt_asymm (Scalar.Ordered.lt_trans (h.before x hx) range)
    | inr hx =>
        cases List.mem_cons.mp hx with
        | inl heq => exact heq ▸ Scalar.lt_asymm range
        | inr hx => exact Scalar.not_lt_of_le (h.inner x hx).2
  have hall : above.filter (hi < ·) = above :=
    List.filter_eq_self.mpr fun x hx => decide_eq_true (h.above x hx)
  rw [← List.append_assoc, List.filter_append, hnone, hall, List.nil_append]

end Divides

omit [Scalar α] in
theorem each_nodeAt {f : α → α} {usable : α → Bool} {points : List α}
    (h : ∀ x ∈ points, usable (f x) = true) :
    Trace.each (fun x => .ofExcept (nodeAt f usable x)) points =
      (.succeed (points.map (nodeOf f)) : Trace α _) := by
  induction points with
  | nil => rfl
  | cons x points ih =>
      have hnode : nodeAt f usable x = .ok (nodeOf f x) :=
        nodeAt_eq_ok.mpr ⟨rfl, h x List.mem_cons_self⟩
      rw [Trace.each, hnode, ih fun y hy => h y (List.mem_cons_of_mem _ hy)]
      rfl

omit [Scalar α] in
theorem LineGrid.eq_of_nodes {g g' : LineGrid α} (h : g.nodes = g'.nodes) : g = g' := by
  cases g
  cases g'
  cases h
  rfl

omit [Scalar α] in
theorem LineGrid.nodes_of_valued {f : α → α} {g : LineGrid α}
    (h : ∀ n ∈ g.nodes, n = nodeOf f n.x) : g.nodes = g.points.map (nodeOf f) := by
  rw [LineGrid.points, List.map_map]
  exact (List.map_id _).symm.trans (List.map_congr_left h)

namespace LineGenerator

/-- Whether an interval lies between two limits. -/
def between (lo hi a b : α) : Bool := lo ≤ a && b ≤ hi

/-- A grid that a refinement between two of its points leaves as it is. -/
structure Stable (g : LineGenerator α) (f : α → α) (grid : LineGrid α) (lo hi : α) : Prop where
  ascending : grid.points.Pairwise (· < ·)
  valued : ∀ n ∈ grid.nodes, n = nodeOf f n.x
  lower : lo ∈ grid.points
  upper : grid.points.contains hi = true
  range : lo < hi
  outside : ∀ x ∈ grid.points, x < lo ∨ hi < x → Scalar.isFinite (f x) = true
  inside : ∀ x ∈ grid.points, lo ≤ x → x ≤ hi → g.rule.dependent.admits (f x) = true
  accepted : ∀ p ∈ grid.intervals (between lo hi),
    ∃ events, g.step f p.1 p.2 = ⟨events, .ok none⟩

variable {g : LineGenerator α} {f : α → α} {grid : LineGrid α} {lo hi : α}
  {events : List (Event α)}

theorem sweep_of_accepted {a : Node α} {pending : List (Node α)}
    (h : ∀ p ∈ adjacent (a :: pending), ∃ events, g.step f p.1 p.2 = ⟨events, .ok none⟩)
    (allowed : Nat) :
    g.sweep f allowed a pending =
      ⟨(adjacent (a :: pending)).flatMap fun p => (g.step f p.1 p.2).events,
        .ok ⟨a, pending⟩⟩ := by
  have hgrid : ((a :: pending).dropLast.foldr LineGrid.cons ⟨pending.getLastD a, []⟩) =
      ⟨a, pending⟩ := by
    induction pending generalizing a with
    | nil => rfl
    | cons b rest ih =>
        rw [List.dropLast_cons_cons, List.foldr_cons, List.getLastD_cons,
          ih fun p hp => h p (List.mem_cons_of_mem _ hp)]
        rfl
  rw [sweep_eq_bisect, bisect_of_accepted h]
  simp only [Trace.andThen, Trace.succeed, hgrid, List.append_nil]

/-- A refinement of points whose values are all usable is a sweep over those between the limits. -/
theorem refineBetween_of_usable [Resolution α] {points : List α}
    (below : ∀ x ∈ points.takeWhile (· < lo), Scalar.isFinite (f x) = true)
    (ends : ∀ x ∈ lo :: rightEnds points lo hi, g.rule.dependent.admits (f x) = true)
    (above : ∀ x ∈ points.filter (hi < ·), Scalar.isFinite (f x) = true) :
    g.refineBetween f points lo hi =
      (g.sweep f (Resolution.valuesAbove lo hi) (nodeOf f lo)
        ((rightEnds points lo hi).map (nodeOf f))).andThen fun grid =>
          .succeed (grid.surround ((points.takeWhile (· < lo)).map (nodeOf f))
            ((points.filter (hi < ·)).map (nodeOf f))) := by
  have hstart : g.node f lo = .ok (nodeOf f lo) :=
    nodeAt_eq_ok.mpr ⟨rfl, ends lo List.mem_cons_self⟩
  have hends : Trace.each (fun x => .ofExcept (g.node f x)) (rightEnds points lo hi).reverse =
      .succeed ((rightEnds points lo hi).reverse.map (nodeOf f)) :=
    each_nodeAt fun x hx => ends x (List.mem_cons_of_mem _ (List.mem_reverse.mp hx))
  rw [refineBetween, each_nodeAt below, hends, hstart, each_nodeAt above]
  simp only [Trace.bind_eq_andThen, Trace.pure_eq_succeed, Trace.succeed_andThen, Trace.ofExcept,
    List.map_reverse, List.reverse_reverse]

variable [Scalar.Ordered α]

/-- The intervals between the limits are those of the points that the limits enclose. -/
theorem Stable.intervals_eq (h : g.Stable f grid lo hi) {before inner above : List α} {last : α}
    (hpoints : grid.points = before ++ (lo :: (inner ++ [last]) ++ above))
    (divides : Divides lo hi before inner last above) :
    grid.intervals (between lo hi) = adjacent ((lo :: (inner ++ [last])).map (nodeOf f)) := by
  have henclosed : ∀ n ∈ (lo :: (inner ++ [last])).map (nodeOf f), lo ≤ n.x ∧ n.x ≤ hi := by
    intro n hn
    obtain ⟨x, hx, rfl⟩ := List.mem_map.mp hn
    exact divides.enclosed h.range x hx
  rw [LineGrid.intervals, LineGrid.nodes_of_valued h.valued, hpoints, List.map_append,
    List.map_append]
  refine filter_adjacent (by simp) (fun p hp => ?_) (fun p _ hbefore => ?_) (fun p _ habove => ?_)
  · obtain ⟨hp₁, hp₂⟩ := mem_of_adjacent hp
    simp [between, (henclosed _ hp₁).1, (henclosed _ hp₂).2]
  · obtain ⟨x, hx, heq⟩ := List.mem_map.mp hbefore
    have hout : ¬lo ≤ p.1.x := by
      intro hle
      rw [← heq] at hle
      exact Scalar.not_lt_of_le hle (divides.before x hx)
    simp [between, hout]
  · obtain ⟨x, hx, heq⟩ := List.mem_map.mp habove
    have hout : ¬p.2.x ≤ hi := by
      intro hle
      rw [← heq] at hle
      exact Scalar.not_lt_of_le hle (divides.above x hx)
    simp [between, hout]

/-- A refinement of points whose values are all usable: what it does to the points between the
limits, and the others around the result. -/
theorem refineBetween_of_divides [Resolution α] {before inner above : List α} {last : α}
    (h : Divides lo hi before inner last above) (range : lo < hi)
    (hbefore : ∀ x ∈ before, Scalar.isFinite (f x) = true)
    (hinner : ∀ x ∈ lo :: (inner ++ [last]), g.rule.dependent.admits (f x) = true)
    (habove : ∀ x ∈ above, Scalar.isFinite (f x) = true) :
    g.refineBetween f (before ++ (lo :: (inner ++ [last]) ++ above)) lo hi =
      (g.sweep f (Resolution.valuesAbove lo hi) (nodeOf f lo)
        ((inner ++ [last]).map (nodeOf f))).andThen fun grid =>
          .succeed (grid.surround (before.map (nodeOf f)) (above.map (nodeOf f))) := by
  rw [refineBetween_of_usable (by rwa [h.takeWhile_eq]) (by rwa [h.rightEnds_eq])
    (by rwa [h.filter_eq range]), h.takeWhile_eq, h.rightEnds_eq, h.filter_eq range]

/-- A seed of two points whose interval is accepted is the grid. -/
theorem generate_pair [Resolution α] {m : Node α} {verdict : Verdict α}
    (seed : seedEnds g.rule.independent [lo, hi] = .ok (lo, hi))
    (usable : ∀ x ∈ [lo, hi], g.rule.dependent.admits (f x) = true)
    (tested : g.test f (nodeOf f lo) (nodeOf f hi) = .ok (m, verdict))
    (accepted : verdict.isAccepted = true) :
    g.generate f [lo, hi] =
      (g.report verdict).andThen fun () => .succeed ⟨nodeOf f lo, [nodeOf f hi]⟩ := by
  have h := seedAccepted_of_seedEnds seed
  have hnumber := (Scalar.Ordered.number_of_lt h.range).2
  have divides : Divides lo hi [] [] hi [] :=
    ⟨by simp, by simpa using ⟨h.range, Scalar.le_refl hnumber⟩, hnumber, by simp⟩
  have hgenerate : g.generate f [lo, hi] = g.refineBetween f [lo, hi] lo hi := by
    rw [generate, seed]
    rfl
  have hrun := refineBetween_of_divides divides h.range (by simp) usable (by simp)
  refine hgenerate.trans (hrun.trans ?_)
  change (g.sweep f _ (nodeOf f lo) [nodeOf f hi]).andThen _ = _
  rw [sweep, tested]
  simp only [accepted, if_true]
  rw [sweep, Trace.andThen_assoc]
  rfl

theorem refineBetween_of_stable [Resolution α] (h : g.Stable f grid lo hi) :
    g.refineBetween f grid.points lo hi =
      ⟨(grid.intervals (between lo hi)).flatMap fun p => (g.step f p.1 p.2).events,
        .ok grid⟩ := by
  obtain ⟨before, inner, last, above, hpoints, divides⟩ :=
    exists_divides h.ascending h.lower h.upper h.range
  have hintervals := h.intervals_eq hpoints divides
  have hmem : ∀ x, x ∈ before ∨ x ∈ lo :: (inner ++ [last]) ∨ x ∈ above → x ∈ grid.points := by
    intro x hx
    rw [hpoints]
    exact List.mem_append.mpr (hx.imp_right List.mem_append.mpr)
  have hbefore : ∀ x ∈ before, Scalar.isFinite (f x) = true := fun x hx =>
    h.outside x (hmem x (Or.inl hx)) (Or.inl (divides.before x hx))
  have habove : ∀ x ∈ above, Scalar.isFinite (f x) = true := fun x hx =>
    h.outside x (hmem x (Or.inr (Or.inr hx))) (Or.inr (divides.above x hx))
  have hinner : ∀ x ∈ lo :: (inner ++ [last]), g.rule.dependent.admits (f x) = true := by
    intro x hx
    have henclosed := divides.enclosed h.range x hx
    exact h.inside x (hmem x (Or.inr (Or.inl hx))) henclosed.1 henclosed.2
  have hsweep := sweep_of_accepted (g := g) (f := f) (hintervals ▸ h.accepted)
    (Resolution.valuesAbove lo hi)
  have hgrid : LineGrid.surround (before.map (nodeOf f))
      ⟨nodeOf f lo, (inner ++ [last]).map (nodeOf f)⟩ (above.map (nodeOf f)) = grid := by
    refine LineGrid.eq_of_nodes ?_
    rw [LineGrid.nodes_surround, LineGrid.nodes_of_valued h.valued, hpoints]
    simp [LineGrid.nodes]
  rw [hintervals, hpoints, refineBetween_of_divides divides h.range hbefore hinner habove, hsweep]
  simp only [Trace.andThen, Trace.succeed, List.append_nil, hgrid, List.map_cons]

/-- Limits that lie further inside leave the grid as it is, too. -/
theorem Stable.narrow [Scalar.FiniteUnit α] (h : g.Stable f grid lo hi) {lower upper : α}
    (hlower : lower ∈ grid.points) (hupper : grid.points.contains upper = true)
    (range : lower < upper) (above : lo ≤ lower) (below : upper ≤ hi) :
    g.Stable f grid lower upper := by
  obtain ⟨hloNumber, hhiNumber⟩ := Scalar.Ordered.number_of_lt h.range
  refine ⟨h.ascending, h.valued, hlower, hupper, range, ?_, ?_, ?_⟩
  · intro x hx hout
    have number : Scalar.isNumber x = true := by
      cases hout with
      | inl hlt => exact (Scalar.Ordered.number_of_lt hlt).1
      | inr hlt => exact (Scalar.Ordered.number_of_lt hlt).2
    by_cases hlo : x < lo
    · exact h.outside x hx (Or.inl hlo)
    · by_cases hhi : hi < x
      · exact h.outside x hx (Or.inr hhi)
      · have hadmits := h.inside x hx (Scalar.Ordered.le_iff.mpr ⟨hloNumber, number, hlo⟩)
          (Scalar.Ordered.le_iff.mpr ⟨number, hhiNumber, hhi⟩)
        exact g.rule.dependent.finite_of_admits hadmits
  · intro x hx hlo hhi
    exact h.inside x hx (Scalar.le_trans above hlo) (Scalar.le_trans hhi below)
  · intro p hp
    obtain ⟨hp, hbetween⟩ := List.mem_filter.mp hp
    simp only [between, Bool.and_eq_true, decide_eq_true_eq] at hbetween
    refine h.accepted p (List.mem_filter.mpr ⟨hp, ?_⟩)
    simp [between, Scalar.le_trans above hbetween.1, Scalar.le_trans hbetween.2 below]

end LineGenerator
end AdaptiveTables
