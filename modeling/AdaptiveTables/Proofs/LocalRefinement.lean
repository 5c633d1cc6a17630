import AdaptiveTables.Proofs.RecursiveBisection

/-!
A refinement inside a range is a run over the points of the range. The range has its limits as ends
and the points of the grid between them, and the points outside of it are kept around the result,
where the function only has to be finite. A point that equals the upper limit stands for it, which
makes a difference for zeros of either sign.
-/

namespace AdaptiveTables
namespace LineGenerator

variable {α : Type} [Scalar α]

/-- The points of a range: its lower limit, what lies strictly between its limits, and the point
that equals its upper limit, which is the limit itself if there is no such point. -/
def rangeSeed (points : List α) (lo hi : α) : List α :=
  lo :: (points.filter (fun x => lo < x && x < hi) ++ [(points.find? (· == hi)).getD hi])

section Ranges

variable [Scalar.Ordered α] {points : List α} {lo hi : α}

theorem takeWhile_lt_eq_filter (ascending : points.Pairwise (· < ·)) :
    points.takeWhile (· < lo) = points.filter (· < lo) := by
  induction ascending with
  | nil => rfl
  | @cons a rest ha _ ih =>
      by_cases hlt : a < lo
      · rw [List.takeWhile_cons_of_pos (by simpa using hlt),
          List.filter_cons_of_pos (by simpa using hlt), ih]
      · have hrest : ∀ x ∈ rest, ¬x < lo := fun x hx hxlo =>
          hlt (Scalar.Ordered.lt_trans (ha x hx) hxlo)
        rw [List.takeWhile_cons_of_neg (by simpa using hlt),
          List.filter_cons_of_neg (by simpa using hlt), eq_comm]
        exact List.filter_eq_nil_iff.mpr fun x hx => by simpa using hrest x hx

/-- Without a point that equals the upper limit, the points up to the limit are those below it. -/
theorem rightEnds_of_absent (absent : ∀ x ∈ points, ¬(x == hi) = true) :
    rightEnds points lo hi = points.filter (fun x => lo < x && x < hi) ++ [hi] := by
  have hinside : points.filter (fun x => lo < x && x ≤ hi) =
      points.filter (fun x => lo < x && x < hi) := by
    refine List.filter_congr fun x hx => ?_
    have hiff : x ≤ hi ↔ x < hi :=
      ⟨fun hle => Scalar.lt_of_le_of_not_beq hle (absent x hx), Scalar.le_of_lt⟩
    simp [hiff]
  rw [rightEnds, hinside]
  cases hlast : (points.filter (fun x => lo < x && x < hi)).getLast? with
  | none =>
      rw [List.getLast?_eq_none_iff.mp hlast]
      rfl
  | some x =>
      have hx := absent x (List.mem_filter.mp (List.mem_of_getLast? hlast)).1
      simp only [if_neg hx]

/-- A point that equals the upper limit is the last of the points up to the limit. -/
theorem rightEnds_of_present {before after : List α} {y : α} (range : lo < hi)
    (ascending : (before ++ y :: after).Pairwise (· < ·)) (present : (y == hi) = true) :
    rightEnds (before ++ y :: after) lo hi = before.filter (fun x => lo < x && x < hi) ++ [y] := by
  obtain ⟨hle, hge⟩ := Scalar.beq_iff_le.mp present
  obtain ⟨_, hlater, hbefore⟩ := List.pairwise_append.mp ascending
  have hafter := (List.pairwise_cons.mp hlater).1
  have hinside : before.filter (fun x => lo < x && x ≤ hi) =
      before.filter (fun x => lo < x && x < hi) := by
    refine List.filter_congr fun x hx => ?_
    have hlt : x < hi := Scalar.lt_of_lt_of_le (hbefore x hx y List.mem_cons_self) hle
    simp [hlt, Scalar.le_of_lt hlt]
  have hnone : after.filter (fun x => lo < x && x ≤ hi) = [] := by
    refine List.filter_eq_nil_iff.mpr fun x hx => ?_
    have hnot : ¬x ≤ hi := fun hxhi =>
      Scalar.not_lt_of_le hxhi (Scalar.lt_of_le_of_lt hge (hafter x hx))
    simp [hnot]
  have habove : lo < y := Scalar.lt_of_lt_of_le range hge
  have hfilter : (before ++ y :: after).filter (fun x => lo < x && x ≤ hi) =
      before.filter (fun x => lo < x && x < hi) ++ [y] := by
    rw [List.filter_append, hinside, List.filter_cons_of_pos (by simp [habove, hle]), hnone]
  simp only [rightEnds, hfilter]
  simp [present]

theorem rangeSeed_eq (ascending : points.Pairwise (· < ·)) (range : lo < hi) :
    rangeSeed points lo hi = lo :: rightEnds points lo hi := by
  by_cases absent : ∀ x ∈ points, ¬(x == hi) = true
  · rw [rangeSeed, rightEnds_of_absent absent, List.find?_eq_none.mpr absent]
    rfl
  · push Not at absent
    obtain ⟨y, hy, present⟩ := absent
    obtain ⟨before, after, rfl⟩ := List.append_of_mem hy
    obtain ⟨hle, hge⟩ := Scalar.beq_iff_le.mp present
    obtain ⟨_, hlater, hbefore⟩ := List.pairwise_append.mp ascending
    have hlow : ∀ x ∈ before, ¬(x == hi) = true := fun x hx heq =>
      Scalar.not_lt_of_le (Scalar.le_trans hle (Scalar.beq_iff_le.mp heq).2)
        (hbefore x hx y List.mem_cons_self)
    have hfind : (before ++ y :: after).find? (· == hi) = some y := by
      rw [List.find?_append, List.find?_eq_none.mpr hlow]
      exact List.find?_cons_of_pos (p := (· == hi)) present
    have hnone : (y :: after).filter (fun x => lo < x && x < hi) = [] := by
      refine List.filter_eq_nil_iff.mpr fun x hx => ?_
      have hnot : ¬x < hi := by
        cases hx with
        | head => exact Scalar.not_lt_of_le hge
        | tail _ hx =>
            exact Scalar.lt_asymm
              (Scalar.lt_of_le_of_lt hge ((List.pairwise_cons.mp hlater).1 x hx))
      simp [hnot]
    rw [rangeSeed, rightEnds_of_present range ascending present, hfind, List.filter_append, hnone,
      List.append_nil]
    rfl

/-- The upper limit itself is the last point of the range, if it is a point or equals none. -/
theorem rangeSeed_of_plain (ascending : points.Pairwise (· < ·))
    (plain : hi ∈ points ∨ ∀ x ∈ points, ¬(x == hi) = true) :
    rangeSeed points lo hi = lo :: (points.filter (fun x => lo < x && x < hi) ++ [hi]) := by
  have hfind : (points.find? (· == hi)).getD hi = hi := by
    cases hfound : points.find? (· == hi) with
    | none => rfl
    | some y =>
        have hy := List.mem_of_find?_eq_some hfound
        have heq : (y == hi) = true := by simpa using List.find?_some hfound
        cases plain with
        | inl hmem => exact eq_of_beq_of_mem ascending hy hmem heq
        | inr absent => exact absurd heq (absent y hy)
  rw [rangeSeed, hfind]

/-- The points of a range are accepted as a seed. -/
theorem seedAccepted_rangeSeed {scale : Scale} {first last : α}
    (h : SeedAccepted scale points first last) (range : lo < hi) (above : first ≤ lo)
    (below : hi ≤ last) :
    ∃ upper, SeedAccepted scale (rangeSeed points lo hi) lo upper := by
  have ends := rightEnds_spec h.ascending range
  obtain ⟨upper, hupper, heq⟩ := ends.getLast
  have hfirst := h.admitted first (List.mem_of_head? h.head)
  have hlast := h.admitted last (List.mem_of_getLast? h.getLast)
  refine ⟨upper, ?_⟩
  rw [rangeSeed_eq h.ascending range]
  refine ⟨fun x hx => ?_, ends.ascending, rfl, ?_, ?_⟩
  · obtain ⟨hlo, hhi⟩ := ends.inside range x hx
    exact scale.admits_between hfirst hlast (Scalar.le_trans above hlo) (Scalar.le_trans hhi below)
  · rw [List.getLast?_cons, hupper]
    rfl
  · exact (List.pairwise_cons.mp ends.ascending).1 upper (List.mem_of_getLast? hupper)

end Ranges

/-- A function that is finite at one of the two zeros only. -/
def finiteBelow (x : Float) : Float := if 1.0 / x < 2.0 then 1.0 else 1.0 / 0.0

set_option maxRecDepth 20000 in
theorem generate_finiteBelow :
    (standard .linear).generate finiteBelow [-1.0, -0.0] =
      ⟨[], .ok ⟨⟨-1.0, 1.0⟩, [⟨-0.0, 1.0⟩]⟩⟩ := by
  have tested : (standard .linear).test finiteBelow (nodeOf finiteBelow (-1.0))
      (nodeOf finiteBelow (-0.0)) = .ok (⟨-0.5, 1.0⟩, .converged) := rfl
  exact generate_pair rfl (by decide +kernel) tested rfl

set_option maxRecDepth 20000 in
theorem refine_finiteBelow :
    ¬∃ events grid, (standard .linear).refine finiteBelow [-1.0, 0.0, 1.0] (-1.0) (-0.0) =
      ⟨events, .ok grid⟩ := by
  rintro ⟨events, grid, h⟩
  obtain ⟨first, last, lower, upper, accepted, limits, run⟩ := refine_eq_ok.mp h
  have hseed : seedEnds (standard .linear : LineGenerator Float).rule.independent
      [-1.0, 0.0, 1.0] = .ok ((-1.0 : Float), 1.0) := rfl
  rw [hseed] at accepted
  cases accepted
  have hlimits : refinementRange (-1.0 : Float) 1.0 (-1.0) (-0.0) = .ok (-1.0, -0.0) := rfl
  rw [hlimits] at limits
  cases limits
  -- The zero of the grid stands for the limit.
  have hends : rightEnds [-1.0, 0.0, 1.0] (-1.0 : Float) (-0.0) = [0.0] := rfl
  obtain ⟨_, ends, _⟩ := usable_of_refineBetween run
  rw [hends] at ends
  have hzero := ends 0.0 (by simp)
  have hinfinite : (standard .linear : LineGenerator Float).rule.dependent.admits
      (finiteBelow 0.0) = false := rfl
  rw [hinfinite] at hzero
  cases hzero

variable [Resolution α] {g : LineGenerator α} {f : α → α} {points : List α}
  {lo hi first last : α} {events : List (Event α)} {grid : LineGrid α}

theorem refine_of_seedEnds (accepted : seedEnds g.rule.independent points = .ok (first, last)) :
    g.refine f points lo hi =
      (Trace.ofExcept (refinementRange first last lo hi)).andThen fun limits =>
        g.refineBetween f points limits.1 limits.2 := by
  rw [refine, accepted]
  rfl

variable [Scalar.Ordered α] [Resolution.Lawful α]

/-- A refinement between two limits is the run over the points of the range, with the other points
around its grid. -/
theorem refineBetween_eq_ok_iff_generate (h : SeedAccepted g.rule.independent points first last)
    (range : lo < hi) (above : first ≤ lo) (below : hi ≤ last) :
    g.refineBetween f points lo hi = ⟨events, .ok grid⟩ ↔
      ∃ inner, g.generate f (rangeSeed points lo hi) = ⟨events, .ok inner⟩ ∧
        (∀ x ∈ points, x < lo ∨ hi < x → Scalar.isFinite (f x) = true) ∧
        grid.nodes = (points.filter (· < lo)).map (nodeOf f) ++
          (inner.nodes ++ (points.filter (hi < ·)).map (nodeOf f)) := by
  have outside : (∀ x ∈ points, x < lo ∨ hi < x → Scalar.isFinite (f x) = true) ↔
      (∀ x ∈ points.filter (· < lo), Scalar.isFinite (f x) = true) ∧
        ∀ x ∈ points.filter (hi < ·), Scalar.isFinite (f x) = true := by
    simp only [List.mem_filter, decide_eq_true_eq, and_imp]
    exact ⟨fun h => ⟨fun x hx hlt => h x hx (Or.inl hlt), fun x hx hlt => h x hx (Or.inr hlt)⟩,
      fun h x hx hout => hout.elim (h.1 x hx) (h.2 x hx)⟩
  obtain ⟨upper, accepted⟩ := seedAccepted_rangeSeed h range above below
  rw [refineBetween_eq_ok_iff h.ascending range, takeWhile_lt_eq_filter h.ascending, outside,
    ← rangeSeed_eq h.ascending range]
  constructor
  · rintro ⟨hbelow, habove, nodes, stretches, hnodes⟩
    obtain ⟨rest, rfl⟩ := (sweeps_of_stretches stretches).exists_cons
    obtain ⟨inner, hinner⟩ := LineGrid.exists_nodes (List.cons_ne_nil (nodeOf f lo) rest)
    rw [← hinner] at stretches hnodes
    exact ⟨inner, (generate_eq_ok_iff accepted).mpr stretches, ⟨hbelow, habove⟩, hnodes⟩
  · rintro ⟨inner, run, ⟨hbelow, habove⟩, hnodes⟩
    exact ⟨hbelow, habove, inner.nodes, (generate_eq_ok_iff accepted).mp run, hnodes⟩

/-- A refinement is the run over the points of the range, with its limits moved to the ends of the
grid where they lie beyond it. It succeeds where that run does, if the function is finite at the
other points. A range that is empty on the grid is refused. -/
theorem refinement_is_local (g : LineGenerator α) (f : α → α)
    (accepted : seedEnds g.rule.independent points = .ok (first, last)) {min max : α}
    (hmin : Scalar.isNumber min = true) (hmax : Scalar.isNumber max = true) :
    let lo := Scalar.max min first
    let hi := Scalar.min max last
    (lo < hi →
      ((∃ events grid, g.refine f points min max = ⟨events, .ok grid⟩) ↔
        (∃ events inner, g.generate f (rangeSeed points lo hi) = ⟨events, .ok inner⟩) ∧
          ∀ x ∈ points, x < lo ∨ hi < x → Scalar.isFinite (f x) = true) ∧
      (∀ events grid, g.refine f points min max = ⟨events, .ok grid⟩ ↔
        ∃ inner, g.generate f (rangeSeed points lo hi) = ⟨events, .ok inner⟩ ∧
          (∀ x ∈ points, x < lo ∨ hi < x → Scalar.isFinite (f x) = true) ∧
          grid.nodes = (points.filter (· < lo)).map (nodeOf f) ++
            (inner.nodes ++ (points.filter (hi < ·)).map (nodeOf f))) ∧
      (hi ∈ points ∨ (∀ x ∈ points, ¬(x == hi) = true) →
        rangeSeed points lo hi = lo :: (points.filter (fun x => lo < x && x < hi) ++ [hi]))) ∧
    (¬lo < hi → g.refine f points min max = .fail (.invalidArgument (.rangeEmpty lo hi))) := by
  intro lo hi
  have h := seedAccepted_of_seedEnds accepted
  obtain ⟨hfirst, hlast⟩ := Scalar.Ordered.number_of_lt h.range
  obtain ⟨_, above, _⟩ := Scalar.max_spec hmin hfirst
  obtain ⟨_, below, _⟩ := Scalar.min_spec hmax hlast
  have limits : refinementRange first last min max =
      if hi ≤ lo then .error (.invalidArgument (.rangeEmpty lo hi)) else .ok (lo, hi) := by
    simp only [refinementRange, hmin, hmax, Bool.not_true, Bool.or_self, Bool.false_eq_true,
      if_false]
    rfl
  have runs (range : lo < hi) (events : List (Event α)) (grid : LineGrid α) :
      g.refine f points min max = ⟨events, .ok grid⟩ ↔
        ∃ inner, g.generate f (rangeSeed points lo hi) = ⟨events, .ok inner⟩ ∧
          (∀ x ∈ points, x < lo ∨ hi < x → Scalar.isFinite (f x) = true) ∧
          grid.nodes = (points.filter (· < lo)).map (nodeOf f) ++
            (inner.nodes ++ (points.filter (hi < ·)).map (nodeOf f)) := by
    rw [refine_of_seedEnds accepted, limits, if_neg fun hle => Scalar.not_lt_of_le hle range]
    exact refineBetween_eq_ok_iff_generate h range above below
  refine ⟨fun range => ⟨?_, runs range, ?_⟩, fun empty => ?_⟩
  · constructor
    · rintro ⟨events, grid, run⟩
      obtain ⟨inner, generated, outside, _⟩ := (runs range events grid).mp run
      exact ⟨⟨events, inner, generated⟩, outside⟩
    · rintro ⟨⟨events, inner, generated⟩, outside⟩
      exact ⟨events, _, (runs range events _).mpr
        ⟨inner, generated, outside, LineGrid.nodes_surround _ _ inner⟩⟩
  · exact rangeSeed_of_plain h.ascending
  · have hle : hi ≤ lo := Scalar.Ordered.le_iff.mpr
      ⟨(Scalar.number_of_le below).1, (Scalar.number_of_le above).2, empty⟩
    rw [refine_of_seedEnds accepted, limits, if_pos hle]
    rfl

set_option maxRecDepth 20000 in
/-- A range that reaches below a grid, and a point above it. -/
theorem refinement_is_local_square :
    let points : List Float := [1.0, 2.0, 4.0]
    let grid : LineGrid Float := ⟨⟨1.0, 1.0⟩, [⟨1.5, 2.25⟩, ⟨2.0, 4.0⟩, ⟨4.0, 16.0⟩]⟩
    seedEnds coarse.rule.independent points = .ok ((1.0 : Float), 4.0) ∧
      rangeSeed points 1.0 2.0 = [1.0, 2.0] ∧
      coarse.refine square points 0.5 2.0 = ⟨[], .ok grid⟩ := by
  intro points grid
  have accepted : seedEnds coarse.rule.independent points = .ok ((1.0 : Float), 4.0) := rfl
  have hmin : Scalar.isNumber (0.5 : Float) = true := rfl
  have hmax : Scalar.isNumber (2.0 : Float) = true := rfl
  have hlo : Scalar.max (0.5 : Float) 1.0 = 1.0 := rfl
  have hhi : Scalar.min (2.0 : Float) 4.0 = 2.0 := rfl
  have hseed : rangeSeed points (1.0 : Float) 2.0 = [1.0, 2.0] := rfl
  have range : (1.0 : Float) < 2.0 := by decide
  obtain ⟨inside, _⟩ := refinement_is_local coarse square accepted hmin hmax
  rw [hlo, hhi] at inside
  obtain ⟨_, runs, _⟩ := inside range
  have outside : ∀ x ∈ points, x < 1.0 ∨ 2.0 < x → Scalar.isFinite (square x) = true := by decide
  exact ⟨accepted, hseed, (runs [] grid).mpr ⟨_, hseed ▸ generate_square, outside, rfl⟩⟩

/-- The upper limit is not always the last point of a range: a zero of the grid stands for a limit
that is the other zero, and the function is evaluated there. -/
theorem zero_is_not_local :
    ¬∀ (g : LineGenerator Float) (f : Float → Float) (points : List Float)
        (first last min max : Float),
      seedEnds g.rule.independent points = .ok (first, last) →
        Scalar.isNumber min = true → Scalar.isNumber max = true →
        let lo := Scalar.max min first
        let hi := Scalar.min max last
        lo < hi →
          ((∃ events grid, g.refine f points min max = ⟨events, .ok grid⟩) ↔
            (∃ events inner, g.generate f
              (lo :: (points.filter (fun x => lo < x && x < hi) ++ [hi])) = ⟨events, .ok inner⟩) ∧
            ∀ x ∈ points, x < lo ∨ hi < x → Scalar.isFinite (f x) = true) := by
  intro claimed
  have range : (-1.0 : Float) < -0.0 := by decide
  have hlo : Scalar.max (-1.0 : Float) (-1.0) = -1.0 := rfl
  have hhi : Scalar.min (-0.0 : Float) 1.0 = -0.0 := rfl
  have hbetween : [-1.0, 0.0, 1.0].filter (fun x : Float => -1.0 < x && x < -0.0) = [] := rfl
  have local_iff := claimed (standard .linear) finiteBelow [-1.0, 0.0, 1.0] (-1.0) 1.0 (-1.0) (-0.0)
    rfl rfl rfl
  simp only [hlo, hhi, hbetween, List.nil_append] at local_iff
  -- The zero of the grid lies neither below nor above the range.
  have outside : ∀ x ∈ ([-1.0, 0.0, 1.0] : List Float), x < -1.0 ∨ -0.0 < x →
      Scalar.isFinite (finiteBelow x) = true := by decide
  exact refine_finiteBelow ((local_iff range).mpr ⟨⟨_, _, generate_finiteBelow⟩, outside⟩)

end LineGenerator
end AdaptiveTables
