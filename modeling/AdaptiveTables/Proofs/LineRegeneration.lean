import AdaptiveTables.Proofs.LineFixedPoints

/-!
Grids on a line that are generated again. Every grid that a run returns is a fixed point of the
refinement between the limits of the run, so a second run finds the same grid, with the events of
the first.
-/

namespace AdaptiveTables

variable {α : Type}

theorem LineGrid.first_mem_points (g : LineGrid α) : g.first.x ∈ g.points := List.mem_cons_self

theorem LineGrid.getLast?_points (g : LineGrid α) : g.points.getLast? = some g.last.x := by
  rw [points, nodes, List.getLast?_map, List.getLast?_cons, last, List.getLastD_eq_getLast?]
  rfl

namespace LineGenerator

variable [Scalar α] {g : LineGenerator α} {f : α → α} {grid : LineGrid α} {lo hi : α}
  {events : List (Event α)} {points : List α} {first last : α} {inner : List (Node α)}

theorem admits_of_step {a m b : Node α} (h : g.step f a b = ⟨events, .ok (some m)⟩) :
    g.rule.dependent.admits m.y = true := by
  simp only [step, stepAt, testAt, node] at h
  cases hnode : nodeAt f g.rule.dependent.admits (g.rule.midpoint a.x b.x) with
  | error e =>
      rw [hnode] at h
      exact absurd h Trace.fail_ne_ok
  | ok n =>
      obtain ⟨rfl, admitted⟩ := nodeAt_eq_ok.mp hnode
      rw [hnode] at h
      simp only [Except.map] at h
      split at h
      next =>
        obtain ⟨_, _, _, _, hnone, _⟩ := Trace.andThen_eq_ok.mp h
        cases (Trace.succeed_eq_ok.mp hnone).2
      next =>
        obtain ⟨_, hm⟩ := Trace.succeed_eq_ok.mp h
        cases hm
        exact admitted

omit [Scalar α] in
theorem usable_of_eachOk {usable : α → Bool} {points : List α} {nodes : List (Node α)}
    (h : Trace.EachOk (fun x => .ofExcept (nodeAt f usable x)) points nodes events) :
    ∀ x ∈ points, usable (f x) = true := by
  induction h with
  | nil =>
      intro x hx
      cases hx
  | cons head _ ih =>
      intro x hx
      cases List.mem_cons.mp hx with
      | inl heq =>
          obtain ⟨_, hnode⟩ := Trace.ofExcept_eq_ok.mp head
          exact heq ▸ (nodeAt_eq_ok.mp hnode).2
      | inr hx => exact ih x hx

/-- The values that a successful run has checked before its first test and after its last. -/
theorem usable_of_refineBetween [Resolution α] {points : List α}
    (h : g.refineBetween f points lo hi = ⟨events, .ok grid⟩) :
    (∀ x ∈ points.takeWhile (· < lo), Scalar.isFinite (f x) = true) ∧
      (∀ x ∈ lo :: rightEnds points lo hi, g.rule.dependent.admits (f x) = true) ∧
      ∀ x ∈ points.filter (hi < ·), Scalar.isFinite (f x) = true := by
  simp only [refineBetween, Trace.bind_eq_andThen, Trace.pure_eq_succeed] at h
  obtain ⟨_, below, _, hbelow, h₁, rfl⟩ := Trace.andThen_eq_ok.mp h
  obtain ⟨_, ends, _, hends, h₂, rfl⟩ := Trace.andThen_eq_ok.mp h₁
  obtain ⟨_, start, _, hstart, h₃, rfl⟩ := Trace.andThen_eq_ok.mp h₂
  obtain ⟨_, inner, _, _, h₄, rfl⟩ := Trace.andThen_eq_ok.mp h₃
  obtain ⟨_, above, _, habove, _, rfl⟩ := Trace.andThen_eq_ok.mp h₄
  refine ⟨usable_of_eachOk (Trace.each_eq_ok hbelow), fun x hx => ?_,
    usable_of_eachOk (Trace.each_eq_ok habove)⟩
  cases List.mem_cons.mp hx with
  | inl heq =>
      obtain ⟨_, hnode⟩ := Trace.ofExcept_eq_ok.mp hstart
      exact heq ▸ (nodeAt_eq_ok.mp hnode).2
  | inr hx => exact usable_of_eachOk (Trace.each_eq_ok hends) x (List.mem_reverse.mpr hx)

variable {points : List α} {first last : α} {inner : List (Node α)}

theorem Run.admits_inner (h : g.Run f points first last lo hi grid inner events)
    (ends : ∀ x ∈ lo :: rightEnds points lo hi, g.rule.dependent.admits (f x) = true) :
    ∀ n ∈ inner, g.rule.dependent.admits n.y = true := by
  have halves : ∀ {a m b : Node α} {events : List (Event α)},
      g.step f a b = ⟨events, .ok (some m)⟩ → g.rule.dependent.admits b.y = true →
        g.rule.dependent.admits m.y = true ∧ g.rule.dependent.admits b.y = true :=
    fun hstep hb => ⟨admits_of_step hstep, hb⟩
  have pairs := h.sweeps.neighbours halves fun p hp => by
    obtain ⟨_, hp₂⟩ := mem_of_adjacent hp
    rw [← List.map_cons] at hp₂
    obtain ⟨x, hx, heq⟩ := List.mem_map.mp hp₂
    rw [← heq]
    exact ends x hx
  obtain ⟨rest, rfl⟩ := h.sweeps.exists_cons
  exact forall_of_adjacent (ends lo List.mem_cons_self) fun p hp => (pairs p hp).1

variable [Scalar.Ordered α]

theorem Run.intervals_between (h : g.Run f points first last lo hi grid inner events)
    {upper : α} (hupper : (upper == hi) = true) :
    grid.intervals (between lo upper) = adjacent inner := by
  obtain ⟨hle, hge⟩ := Scalar.beq_iff_le.mp hupper
  refine h.intervals_eq fun _ _ => ?_
  rw [between, Bool.and_eq_true, decide_eq_true_eq, decide_eq_true_eq]
  constructor
  · rintro ⟨hlo, hhi⟩
    exact ⟨hlo, Scalar.le_trans hhi hle⟩
  · rintro ⟨hlo, hhi⟩
    exact ⟨hlo, Scalar.le_trans hhi hge⟩

/-- The grid of a run is stable between its limits, and the upper limit may be any value that
equals it. -/
theorem Run.stable [Resolution α] (h : g.Run f points first last lo hi grid inner events)
    (run : g.refineBetween f points lo hi = ⟨events, .ok grid⟩) {upper : α}
    (hupper : (upper == hi) = true) : g.Stable f grid lo upper := by
  obtain ⟨hle, hge⟩ := Scalar.beq_iff_le.mp hupper
  have nodes := h.innerNodes
  obtain ⟨hbelow, hends, habove⟩ := usable_of_refineBetween run
  have admitted := h.admits_inner hends
  have hmem : ∀ x ∈ grid.points, x ∈ points.takeWhile (· < lo) ∨ x ∈ inner.map (·.x) ∨
      x ∈ points.filter (hi < ·) := by
    rw [points_of_refined h.toRefined]
    intro x hx
    exact (List.mem_append.mp hx).imp_right List.mem_append.mp
  have hinner : ∀ x ∈ inner.map (·.x), lo ≤ x ∧ x ≤ hi ∧
      g.rule.dependent.admits (f x) = true := by
    intro x hx
    obtain ⟨n, hn, rfl⟩ := List.mem_map.mp hx
    refine ⟨nodes.lo_le n hn, nodes.le_hi n hn, ?_⟩
    have hadmits := admitted n hn
    rw [nodes.valued n hn] at hadmits
    exact hadmits
  refine ⟨h.ascending, h.valued, h.kept.1, ?_, Scalar.lt_of_lt_of_le h.range hge, ?_, ?_, ?_⟩
  · obtain ⟨n, hn, heq⟩ := nodes.getLast
    refine List.contains_iff_exists_mem_beq.mpr ⟨n.x, ?_, ?_⟩
    · rw [points_of_refined h.toRefined]
      exact List.mem_append_right _
        (List.mem_append_left _ (List.mem_map_of_mem (List.mem_of_getLast? hn)))
    · exact Scalar.beq_trans hupper (Scalar.beq_symm heq)
  · intro x hx hout
    rcases hmem x hx with hx | hx | hx
    · exact hbelow x hx
    · obtain ⟨hlo, hhi, _⟩ := hinner x hx
      cases hout with
      | inl hlt => exact absurd hlt (Scalar.not_lt_of_le hlo)
      | inr hlt => exact absurd hlt (Scalar.not_lt_of_le (Scalar.le_trans hhi hge))
    · exact habove x hx
  · intro x hx hlo hhi
    rcases hmem x hx with hx | hx | hx
    · have hlt := ((mem_takeWhile_lt h.seed.ascending).mp hx).2
      exact absurd hlt (Scalar.not_lt_of_le hlo)
    · exact (hinner x hx).2.2
    · have hlt := of_decide_eq_true (List.mem_filter.mp hx).2
      exact absurd hlt (Scalar.not_lt_of_le (Scalar.le_trans hhi hle))
  · rw [h.intervals_between hupper]
    exact h.sweeps.accepted

/-- A run over its own grid, between the limits of the run, repeats the run. -/
theorem Run.again [Resolution α] (h : g.Run f points first last lo hi grid inner events)
    (run : g.refineBetween f points lo hi = ⟨events, .ok grid⟩) {lower upper : α}
    (hmem : lower ∈ grid.points) (hlower : (lower == lo) = true)
    (hupper : (upper == hi) = true) :
    g.refineBetween f grid.points lower upper = ⟨events, .ok grid⟩ := by
  have hevents := h.sweeps.events_eq fun hsplit => (step_inserts hsplit).1
  obtain rfl := eq_of_beq_of_mem h.ascending hmem h.kept.1 hlower
  rw [refineBetween_of_stable (h.stable run hupper), h.intervals_between hupper, ← hevents]

/-- The grid of a run is accepted as a seed, and its ends equal those of the run. -/
theorem Run.seedEnds (h : g.Run f points first last lo hi grid inner events) :
    AdaptiveTables.seedEnds g.rule.independent grid.points = .ok (grid.first.x, grid.last.x) ∧
      (grid.first.x == first) = true ∧ (grid.last.x == last) = true := by
  have extended := h.extended
  have hfirst : (grid.first.x == first) = true := by
    have head := extended.head
    rw [h.seed.head] at head
    exact head
  have hlast : (grid.last.x == last) = true := by
    have getLast := extended.getLast
    rw [h.seed.getLast, grid.getLast?_points] at getLast
    exact getLast
  have range : grid.first.x < grid.last.x := by
    have hlt := Scalar.lt_of_le_of_lt (Scalar.beq_iff_le.mp hfirst).1 h.seed.range
    exact Scalar.lt_of_lt_of_le hlt (Scalar.beq_iff_le.mp hlast).2
  refine ⟨seedEnds_of_seedAccepted ?_, hfirst, hlast⟩
  exact ⟨extended.admitted, extended.ascending, rfl, grid.getLast?_points, range⟩

/-- The limits of a refinement on a grid with the same ends are the same. -/
theorem refinementRange_congr {first' last' lower upper : α} (hfirst : (first' == first) = true)
    (hlast : (last' == last) = true)
    (h : refinementRange first last lo hi = .ok (lower, upper)) :
    ∃ lower' upper', refinementRange first' last' lo hi = .ok (lower', upper') ∧
      (lower' = lower ∨ lower' = first') ∧ (lower' == lower) = true ∧
      (upper' == upper) = true := by
  simp only [refinementRange] at h ⊢
  split at h
  next => cases h
  next hnumbers =>
    rw [if_neg hnumbers]
    simp only [Bool.or_eq_true, Bool.not_eq_true', not_or, Bool.not_eq_false] at hnumbers
    obtain ⟨hsource, hlower⟩ := Scalar.max_congr hnumbers.1 hfirst
    have hupper := Scalar.min_congr hnumbers.2 hlast
    split at h
    next => cases h
    next hrange =>
      obtain ⟨rfl, rfl⟩ := Prod.mk.inj (Except.ok.inj h)
      have hrange' : ¬Scalar.min hi last' ≤ Scalar.max lo first' := by
        intro hle
        have hle' := Scalar.le_trans (Scalar.beq_iff_le.mp hupper).2 hle
        exact hrange (Scalar.le_trans hle' (Scalar.beq_iff_le.mp hlower).1)
      exact ⟨_, _, if_neg hrange', hsource, hlower, hupper⟩

/-- Two limits that stay apart on the grid are those of the refinement between them. -/
theorem refinementRange_of_clamp (hends : first < last)
    (range : Scalar.clamp first last lo < Scalar.clamp first last hi) :
    refinementRange first last lo hi =
      .ok (Scalar.clamp first last lo, Scalar.clamp first last hi) := by
  have hlo := Scalar.number_of_clamp (Scalar.Ordered.number_of_lt range).1
  have hhi := Scalar.number_of_clamp (Scalar.Ordered.number_of_lt range).2
  have hbelow : ¬last < lo := by
    intro hgt
    have hlt : ¬lo < first := Scalar.lt_asymm (Scalar.Ordered.lt_trans hends hgt)
    have hclamp : Scalar.clamp first last lo = last := by simp [Scalar.clamp, hlt, hgt]
    rw [hclamp] at range
    exact Scalar.not_lt_of_le (Scalar.clamp_mem hends hhi).2 range
  have habove : ¬hi < first := by
    intro hlt
    have hclamp : Scalar.clamp first last hi = first := by simp [Scalar.clamp, hlt]
    rw [hclamp] at range
    exact Scalar.not_lt_of_le (Scalar.clamp_mem hends hlo).1 range
  have hmax : Scalar.max lo first = Scalar.clamp first last lo := by
    simp [Scalar.max, Scalar.clamp, hlo, hbelow]
  have hmin : Scalar.min hi last = Scalar.clamp first last hi := by
    simp [Scalar.min, Scalar.clamp, hhi, habove]
  have hrange : ¬Scalar.clamp first last hi ≤ Scalar.clamp first last lo := fun hle =>
    Scalar.not_lt_of_le hle range
  simp [refinementRange, hlo, hhi, hmax, hmin, hrange]

variable [Resolution α]

theorem generate_again {seed : List α} (h : g.generate f seed = ⟨events, .ok grid⟩) :
    g.generate f grid.points = ⟨events, .ok grid⟩ := by
  obtain ⟨first, last, hseed, hrun⟩ := generate_eq_ok.mp h
  obtain ⟨inner, run⟩ := exists_run_of_ends hseed hrun
  obtain ⟨hends, hfirst, hlast⟩ := run.seedEnds
  have again := run.again hrun grid.first_mem_points hfirst hlast
  exact generate_eq_ok.mpr ⟨_, _, hends, again⟩

theorem refine_again (h : g.refine f points lo hi = ⟨events, .ok grid⟩) :
    g.refine f grid.points lo hi = ⟨events, .ok grid⟩ := by
  obtain ⟨first, last, lower, upper, hseed, hlimits, hrun⟩ := refine_eq_ok.mp h
  obtain ⟨inner, _, run⟩ := exists_run_of_range hseed hlimits hrun
  obtain ⟨hends, hfirst, hlast⟩ := run.seedEnds
  obtain ⟨lower', upper', hlimits', hsource, hlower, hupper⟩ :=
    refinementRange_congr hfirst hlast hlimits
  have hmem : lower' ∈ grid.points := by
    cases hsource with
    | inl heq => exact heq ▸ run.kept.1
    | inr heq => exact heq ▸ grid.first_mem_points
  have again := run.again hrun hmem hlower hupper
  exact refine_eq_ok.mpr ⟨_, _, _, _, hends, hlimits', again⟩

theorem refine_of_generate [Scalar.FiniteUnit α] {seed : List α}
    (h : g.generate f seed = ⟨events, .ok grid⟩)
    (hlower : Scalar.clamp grid.first.x grid.last.x lo ∈ grid.points)
    (hupper : grid.points.contains (Scalar.clamp grid.first.x grid.last.x hi) = true)
    (range : Scalar.clamp grid.first.x grid.last.x lo < Scalar.clamp grid.first.x grid.last.x hi) :
    ∃ events', g.refine f grid.points lo hi = ⟨events', .ok grid⟩ := by
  obtain ⟨first, last, hseed, hrun⟩ := generate_eq_ok.mp h
  obtain ⟨inner, run⟩ := exists_run_of_ends hseed hrun
  obtain ⟨hends, hfirst, hlast⟩ := run.seedEnds
  obtain rfl := eq_of_beq_of_mem run.ascending grid.first_mem_points run.kept.1 hfirst
  have whole := run.stable hrun hlast
  have hlo := Scalar.number_of_clamp (Scalar.Ordered.number_of_lt range).1
  have hhi := Scalar.number_of_clamp (Scalar.Ordered.number_of_lt range).2
  have hlimits := refinementRange_of_clamp whole.range range
  have stable := whole.narrow hlower hupper range (Scalar.clamp_mem whole.range hlo).1
    (Scalar.clamp_mem whole.range hhi).2
  exact ⟨_, refine_eq_ok.mpr ⟨_, _, _, _, hends, hlimits, refineBetween_of_stable stable⟩⟩

/-- A run over the grid of an earlier run finds the same grid and logs the same events. A
generated grid is also left as it is between any two of its points, whichever limits are moved
to them. -/
theorem regeneration_is_identity [Scalar.FiniteUnit α] (g : LineGenerator α) (f : α → α) :
    (∀ {seed grid events}, g.generate f seed = ⟨events, .ok grid⟩ →
      g.generate f grid.points = ⟨events, .ok grid⟩) ∧
    (∀ {points lo hi grid events}, g.refine f points lo hi = ⟨events, .ok grid⟩ →
      g.refine f grid.points lo hi = ⟨events, .ok grid⟩) ∧
    ∀ {seed grid events lo hi}, g.generate f seed = ⟨events, .ok grid⟩ →
      let lower := Scalar.clamp grid.first.x grid.last.x lo
      let upper := Scalar.clamp grid.first.x grid.last.x hi
      lower ∈ grid.points → grid.points.contains upper = true → lower < upper →
        ∃ events', g.refine f grid.points lo hi = ⟨events', .ok grid⟩ :=
  ⟨generate_again, refine_again, refine_of_generate⟩

set_option maxRecDepth 20000 in
theorem identity_refine :
    (standard .linear : LineGenerator Float).refine (fun x => x) [1.0, 2.0] 0.5 1.5 =
      ⟨[], .ok ⟨⟨1.0, 1.0⟩, [⟨1.5, 1.5⟩, ⟨2.0, 2.0⟩]⟩⟩ := by
  have htest : (standard .linear : LineGenerator Float).test (fun x => x) ⟨1.0, 1.0⟩ ⟨1.5, 1.5⟩ =
      .ok (⟨1.25, 1.25⟩, .converged) := rfl
  have hsweep (allowed : Nat) : (standard .linear : LineGenerator Float).sweep (fun x => x) allowed
      ⟨1.0, 1.0⟩ [⟨1.5, 1.5⟩] = .succeed ⟨⟨1.0, 1.0⟩, [⟨1.5, 1.5⟩]⟩ := by
    rw [sweep, htest, sweep]
    rfl
  change (sweep _ _ _ ⟨1.0, 1.0⟩ [⟨1.5, 1.5⟩]).andThen _ = _
  rw [hsweep]
  rfl

theorem identity_regenerates :
    let g : LineGenerator Float := standard .linear
    let grid : LineGrid Float := ⟨⟨1.0, 1.0⟩, [⟨2.0, 2.0⟩]⟩
    let refined : LineGrid Float := ⟨⟨1.0, 1.0⟩, [⟨1.5, 1.5⟩, ⟨2.0, 2.0⟩]⟩
    (g.generate (fun x => x) [1.0, 2.0] = ⟨[], .ok grid⟩ ∧
      g.generate (fun x => x) grid.points = ⟨[], .ok grid⟩) ∧
    (g.refine (fun x => x) [1.0, 2.0] 0.5 1.5 = ⟨[], .ok refined⟩ ∧
      g.refine (fun x => x) refined.points 0.5 1.5 = ⟨[], .ok refined⟩) ∧
    ∃ events, g.refine (fun x => x) grid.points 0.5 2.0 = ⟨events, .ok grid⟩ := by
  intro g grid refined
  obtain ⟨generated, again, between⟩ := regeneration_is_identity g fun x => x
  refine ⟨⟨identity_generate, generated identity_generate⟩,
    ⟨identity_refine, again identity_refine⟩, ?_⟩
  have hlower : Scalar.clamp (1.0 : Float) 2.0 0.5 = 1.0 := rfl
  have hupper : Scalar.clamp (1.0 : Float) 2.0 2.0 = 2.0 := rfl
  refine between identity_generate ?_ ?_ ?_
  · change Scalar.clamp (1.0 : Float) 2.0 0.5 ∈ [1.0, 2.0]
    rw [hlower]
    exact List.mem_cons_self
  · change [1.0, 2.0].contains (Scalar.clamp (1.0 : Float) 2.0 2.0) = true
    rw [hupper]
    decide
  · change Scalar.clamp (1.0 : Float) 2.0 0.5 < Scalar.clamp (1.0 : Float) 2.0 2.0
    rw [hlower, hupper]
    decide

end LineGenerator
end AdaptiveTables
