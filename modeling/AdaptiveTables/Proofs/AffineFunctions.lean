import AdaptiveTables.Proofs.Bins
import AdaptiveTables.Proofs.CriticalValues
import AdaptiveTables.Proofs.LineRegeneration
import AdaptiveTables.Proofs.RecursiveBisection

/-!
Functions that need no refinement in exact arithmetic. Interpolation on linear scales reproduces an
affine function, so a slice of such a function keeps the points that it was given. The unit-base
estimate between two slices is exact as well, if the function is affine along every line of equal
unit coordinate: then the slices are interpolated exactly, wherever their inner points lie, and so
is the blend of the two values.
-/

namespace AdaptiveTables

def IsAffine (k : ℝ → ℝ) : Prop := ∃ u v, ∀ x, k x = u + v * x

namespace IsAffine

variable {k : ℝ → ℝ}

theorem interpolate_eq (affine : IsAffine k) {x₀ x₁ : ℝ} (apart : x₀ ≠ x₁) (x : ℝ) :
    LineRule.linear.interpolate x₀ x₁ x (k x₀) (k x₁) = k x := by
  obtain ⟨u, v, hk⟩ := affine
  change k x₀ + (k x₁ - k x₀) / (x₁ - x₀) * (x - x₀) = k x
  have hlength : x₁ - x₀ ≠ 0 := sub_ne_zero.mpr apart.symm
  rw [hk, hk, hk]
  field_simp
  ring

theorem blend_eq (affine : IsAffine k) (fraction x₀ x₁ : ℝ) :
    Scale.linear.blend fraction (k x₀) (k x₁) = k (Scale.linear.blend fraction x₀ x₁) := by
  obtain ⟨u, v, hk⟩ := affine
  change k x₀ + (k x₁ - k x₀) * fraction = k (x₀ + (x₁ - x₀) * fraction)
  rw [hk, hk, hk]
  ring

end IsAffine

theorem Scale.blend_fraction {x₀ x₁ : ℝ} (apart : x₀ ≠ x₁) (x : ℝ) :
    linear.blend (linear.fraction x₀ x₁ x) x₀ x₁ = x := by
  change x₀ + (x₁ - x₀) * ((x - x₀) / (x₁ - x₀)) = x
  rw [mul_div_cancel₀ _ (sub_ne_zero.mpr apart.symm), add_sub_cancel]

namespace UnitBase

variable {lower upper tolerance : ℝ}

theorem value_linear (range : lower < upper) {η : ℝ} (hη : 0 ≤ η) :
    (ofEnds .linear lower upper tolerance).value η = lower + (upper - lower) * η :=
  (proper_ofEnds (s := .linear) trivial trivial range).value_eq hη

/-- A value between the ends of a grid on a linear scale is found at its coordinate. -/
theorem coordinate_linear (range : lower < upper) {y : ℝ} (hy : y ∈ Set.Icc lower upper) :
    let η := (ofEnds .linear lower upper tolerance).coordinate y
    η ∈ Set.Icc (0 : ℝ) 1 ∧ lower + (upper - lower) * η = y := by
  intro η
  have proper : (ofEnds .linear lower upper tolerance).Proper :=
    proper_ofEnds (s := .linear) trivial trivial range
  have hend : (ofEnds .linear lower upper tolerance).value 1 = upper :=
    value_one_ofEnds (s := .linear) trivial trivial range
  have hmem : y ∈ Set.Icc lower ((ofEnds .linear lower upper tolerance).value 1) := hend.symm ▸ hy
  have hη := proper.coordinate_mem hmem
  exact ⟨hη, (value_linear range hη.1).symm.trans (proper.value_coordinate hmem)⟩

end UnitBase

/-- An exact estimate has converged. -/
theorem GridSettings.relativeError_self_le {s : GridSettings ℝ} (valid : s.check = .ok ())
    (z : ℝ) : Scalar.relativeError z z ≤ s.tolerances.convergence := by
  rw [Exact.relativeError_self]
  exact (convergence_of_check valid).1.le

namespace LineGrid

variable {grid : LineGrid ℝ} {points : List ℝ} {k : ℝ → ℝ} {y : ℝ}

theorem points_of_nodes (h : grid.nodes = points.map (nodeOf k)) : grid.points = points := by
  rw [LineGrid.points, h, List.map_map]
  exact List.map_id points

/-- Between its ends a grid that holds an affine function is interpolated exactly. -/
theorem valueAt_of_affine (affine : IsAffine k) (valued : ∀ n ∈ grid.nodes, n.y = k n.x)
    (hy : y ∈ Set.Icc grid.first.x grid.last.x) : grid.valueAt .linear y = k y := by
  obtain ⟨⟨here, after⟩, hwalk⟩ :
      ∃ walked, advance (fun n : Node ℝ => decide (n.x ≤ y)) grid.first grid.later = walked :=
    ⟨_, rfl⟩
  obtain ⟨hhere, hmem, hafter⟩ := advance_spec hwalk (decide_eq_true hy.1)
  have hvalue := valued here hmem
  have hle : here.x ≤ y := of_decide_eq_true hhere
  rw [valueAt, if_pos hy.1, hwalk]
  cases after with
  | nil =>
      -- The walk has passed all nodes, so `y` is the last of them.
      rw [advance_eq] at hwalk
      obtain ⟨hlast, hnone⟩ := Prod.mk.inj hwalk
      have hall := List.takeWhile_append_dropWhile (p := fun n : Node ℝ => decide (n.x ≤ y))
        (l := grid.later)
      rw [hnone, List.append_nil] at hall
      rw [hall] at hlast
      have hend : here.x = y := le_antisymm hle (hlast ▸ hy.2)
      exact hvalue.trans (congrArg k hend)
  | cons next rest =>
      obtain ⟨hnext, hlater⟩ := hafter next rest rfl
      have hlt : y < next.x := not_le.mp (of_decide_eq_false hnext)
      have hvalue' := valued next (List.mem_cons_of_mem _ hlater)
      simp only
      split
      next heq => rw [hvalue, beq_iff_eq.mp heq]
      next =>
        change LineRule.linear.interpolate here.x next.x y here.y next.y = k y
        rw [hvalue, hvalue']
        exact affine.interpolate_eq (ne_of_lt (lt_of_le_of_lt hle hlt)) y

end LineGrid

namespace LineGenerator

variable {g : LineGenerator ℝ} {k : ℝ → ℝ}

/-- Every interval of an affine function has converged. -/
theorem step_of_affine (rule : g.rule = .linear) (valid : g.settings.check = .ok ())
    (affine : IsAffine k) {a b : ℝ} (apart : a ≠ b) :
    g.step k (nodeOf k a) (nodeOf k b) = ⟨[], .ok none⟩ := by
  have hestimate : g.estimateAt (nodeOf k a) (nodeOf k b) = k (g.rule.midpoint a b) := by
    rw [estimateAt, rule]
    exact affine.interpolate_eq apart _
  have hverdict : g.verdict k (nodeOf k a) (nodeOf k b) = .converged := by
    rw [verdict, hestimate, Tolerances.checkInterval]
    exact if_pos (GridSettings.relativeError_self_le valid _)
  refine (Steps.converged ?_ hverdict).step_eq
  rw [rule]
  rfl

/-- A seed of an affine function is its grid. -/
theorem generate_of_affine [Resolution ℝ] (rule : g.rule = .linear)
    (valid : g.settings.check = .ok ()) (affine : IsAffine k) {points : List ℝ} {lower upper : ℝ}
    (accepted : SeedAccepted g.rule.independent points lower upper) :
    ∃ events grid, g.generate k points = ⟨events, .ok grid⟩ ∧
      grid.nodes = points.map (nodeOf k) := by
  have nonempty : points.map (nodeOf k) ≠ [] := fun hnil =>
    List.ne_nil_of_mem (List.mem_of_head? accepted.head) (List.map_eq_nil_iff.mp hnil)
  obtain ⟨grid, hnodes⟩ := LineGrid.exists_nodes nonempty
  have hpoints := LineGrid.points_of_nodes hnodes
  have stable : g.Stable k grid lower upper := by
    refine ⟨hpoints ▸ accepted.ascending, fun n hn => eq_nodeOf_of_mem (hnodes ▸ hn),
      hpoints ▸ List.mem_of_head? accepted.head, ?_, accepted.range, fun _ _ _ => rfl,
      fun x _ _ _ => ?_, fun p hp => ⟨[], ?_⟩⟩
    · rw [hpoints]
      exact List.contains_iff_mem.mpr (List.mem_of_getLast? accepted.getLast)
    · rw [rule]
      rfl
    · have hp := (List.mem_filter.mp hp).1
      rw [hnodes, adjacent_map] at hp
      obtain ⟨q, hq, rfl⟩ := List.mem_map.mp hp
      have hlt := adjacent_of_pairwise accepted.ascending q hq
      exact step_of_affine rule valid affine (ne_of_lt hlt)
  have hrun := refineBetween_of_stable stable
  rw [hpoints, ← generate_of_seedEnds (seedEnds_of_seedAccepted accepted)] at hrun
  exact ⟨_, grid, hrun, hnodes⟩

end LineGenerator

/-- Points that ascend strictly from one end to another. -/
structure Spans (points : List ℝ) (lower upper : ℝ) : Prop where
  ascending : points.Pairwise (· < ·)
  two : 2 ≤ points.length
  head : points.head? = some lower
  getLast : points.getLast? = some upper

theorem Spans.accepted {points : List ℝ} {lower upper : ℝ} (spans : Spans points lower upper) :
    SeedAccepted .linear points lower upper := by
  refine ⟨fun _ _ => rfl, spans.ascending, spans.head, spans.getLast, ?_⟩
  obtain ⟨ascending, two, head, getLast⟩ := spans
  match points with
  | [] | [_] => simp at two
  | a :: b :: rest =>
      obtain rfl := Option.some.inj head
      rw [List.getLast?_cons_cons] at getLast
      exact (List.pairwise_cons.mp ascending).1 upper (List.mem_of_getLast? getLast)

/-- A function and an initializer whose slices can be blended without error: the points of a slice
run from one affine end to another, the function is affine along each slice, and it is affine along
each line of equal unit coordinate. -/
structure Straight (init : ℝ → List ℝ) (f : ℝ → ℝ → ℝ) (lower upper : ℝ → ℝ) (domain : Set ℝ) :
    Prop where
  points : ∀ x ∈ domain, SeedAccepted .linear (init x) (lower x) (upper x)
  lower_affine : IsAffine lower
  upper_affine : IsAffine upper
  along : ∀ x, IsAffine (f x)
  across : ∀ η, IsAffine fun x => f x (lower x + (upper x - lower x) * η)

/-- A column whose slice holds a function at the points of an initializer. -/
def Column.Samples (init : ℝ → List ℝ) (f : ℝ → ℝ → ℝ) (c : Column ℝ) : Prop :=
  c.slice.nodes = (init c.x).map (nodeOf (f c.x))

namespace Column.Samples

variable {init : ℝ → List ℝ} {f : ℝ → ℝ → ℝ} {c : Column ℝ} (samples : c.Samples init f)
include samples

theorem points : c.slice.points = init c.x := LineGrid.points_of_nodes samples

theorem values : c.slice.values = (init c.x).map (f c.x) := by
  rw [LineGrid.values, samples, List.map_map]
  rfl

theorem valued {n : Node ℝ} (hn : n ∈ c.slice.nodes) : n.y = f c.x n.x :=
  congrArg Node.y (eq_nodeOf_of_mem (samples ▸ hn))

variable {lower upper : ℝ → ℝ} {domain : Set ℝ} (straight : Straight init f lower upper domain)
  (hc : c.x ∈ domain)
include straight hc

theorem ends : c.slice.first.x = lower c.x ∧ c.slice.last.x = upper c.x := by
  have accepted := straight.points c.x hc
  have head : c.slice.points.head? = some c.slice.first.x := rfl
  have getLast := c.slice.getLast?_points
  rw [samples.points] at head getLast
  exact ⟨Option.some.inj (head.symm.trans accepted.head),
    Option.some.inj (getLast.symm.trans accepted.getLast)⟩

/-- Between its ends a slice gives back the function. -/
theorem valueAt_eq {y : ℝ} (hy : y ∈ Set.Icc (lower c.x) (upper c.x)) :
    c.slice.valueAt .linear y = f c.x y := by
  obtain ⟨hfirst, hlast⟩ := samples.ends straight hc
  rw [← hfirst, ← hlast] at hy
  exact LineGrid.valueAt_of_affine (straight.along c.x) (fun n hn => samples.valued hn) hy

/-- The probes of a slice lie between its ends and hold the values of the function. -/
theorem probe_mem {n : Node ℝ} (hn : n ∈ c.slice.probes .linear (f c.x)) :
    n.x ∈ Set.Icc (lower c.x) (upper c.x) ∧ n.y = f c.x n.x := by
  have accepted := straight.points c.x hc
  have within {m : Node ℝ} (hm : m ∈ c.slice.nodes) :
      m.x ∈ Set.Icc (lower c.x) (upper c.x) := by
    have hx : m.x ∈ c.slice.points := List.mem_map_of_mem hm
    rw [samples.points] at hx
    exact ⟨accepted.first_le _ hx, accepted.le_last _ hx⟩
  cases (c.slice.mem_probes _ _ n).mp hn with
  | inl hn => exact ⟨within hn, samples.valued hn⟩
  | inr hn =>
      obtain ⟨q, hq, rfl⟩ := hn
      obtain ⟨hlow₁, hhigh₁⟩ := within (mem_of_adjacent hq).1
      obtain ⟨hlow₂, hhigh₂⟩ := within (mem_of_adjacent hq).2
      have hmid : Scale.linear.midpoint q.1.x q.2.x = (q.1.x + q.2.x) / 2 := by
        change (0.5 : ℝ) * (q.1.x + q.2.x) = _
        ring
      refine ⟨?_, rfl⟩
      simp only [hmid]
      constructor <;> linarith

/-- A slice gives back the function at every unit coordinate. -/
theorem valueAt_unit {η : ℝ} (hη : η ∈ Set.Icc (0 : ℝ) 1) :
    c.slice.valueAt .linear
        ((UnitBase.ofEnds .linear c.slice.first.x c.slice.last.x SlicePair.unitTolerance).value η) =
      f c.x (lower c.x + (upper c.x - lower c.x) * η) := by
  have range := (straight.points c.x hc).range
  have hlength : 0 ≤ upper c.x - lower c.x := (sub_pos.mpr range).le
  obtain ⟨hfirst, hlast⟩ := samples.ends straight hc
  rw [hfirst, hlast, UnitBase.value_linear range hη.1]
  refine samples.valueAt_eq straight hc ⟨?_, ?_⟩
  · exact le_add_of_nonneg_right (mul_nonneg hlength hη.1)
  · exact le_sub_iff_add_le'.mp (mul_le_of_le_one_right hlength hη.2)

end Column.Samples

namespace Straight

variable {init : ℝ → List ℝ} {f : ℝ → ℝ → ℝ} {lower upper : ℝ → ℝ} {domain : Set ℝ}
  {a b : Column ℝ} {x y : ℝ} (straight : Straight init f lower upper domain)
  (ha : a.x ∈ domain) (hb : b.x ∈ domain) (samples : a.Samples init f)
  (samples' : b.Samples init f) (apart : a.x ≠ b.x)
include straight ha hb samples samples' apart

/-- The blended limits are the ends of the slice between. -/
theorem limits_eq :
    (SlicePair.ofColumns .linear a b x).lowerLimit = lower x ∧
      (SlicePair.ofColumns .linear a b x).upperLimit = upper x := by
  obtain ⟨hfirst, hlast⟩ := samples.ends straight ha
  obtain ⟨hfirst', hlast'⟩ := samples'.ends straight hb
  have hfraction := Scale.blend_fraction apart x
  constructor
  · change Scale.linear.blend (Scale.linear.fraction a.x b.x x) a.slice.first.x b.slice.first.x = _
    rw [hfirst, hfirst', straight.lower_affine.blend_eq, hfraction]
  · change Scale.linear.blend (Scale.linear.fraction a.x b.x x) a.slice.last.x b.slice.last.x = _
    rw [hlast, hlast', straight.upper_affine.blend_eq, hfraction]

/-- Between two slices the unit-base estimate is exact. -/
theorem unitBaseEstimate_eq (hx : x ∈ domain) (hy : y ∈ Set.Icc (lower x) (upper x)) :
    (SlicePair.ofColumns .linear a b x).unitBaseEstimate y = f x y := by
  obtain ⟨hlower, hupper⟩ := straight.limits_eq ha hb samples samples' apart (x := x)
  have range := (straight.points x hx).range
  have hmiddle : (SlicePair.ofColumns .linear a b x).middleBase =
      .ofEnds .linear (lower x) (upper x) SlicePair.unitTolerance := by
    rw [SlicePair.middleBase, hlower, hupper]
    rfl
  obtain ⟨hη, hpath⟩ := UnitBase.coordinate_linear range hy
  rw [← hmiddle] at hη hpath
  -- Both slices are read at the coordinate of `y`, so the blend goes along one line.
  have hblend := (straight.across
    ((SlicePair.ofColumns .linear a b x).middleBase.coordinate y)).blend_eq
      (Scale.linear.fraction a.x b.x x) a.x b.x
  rw [Scale.blend_fraction apart, hpath] at hblend
  rw [← hblend, ← samples.valueAt_unit straight ha hη, ← samples'.valueAt_unit straight hb hη]
  rfl

end Straight

/-- Where the ends are affine, an affine function can be blended without error, and where they are
fixed, any function that is affine in either variable. -/
theorem straight_of_affine {init : ℝ → List ℝ} {domain : Set ℝ} {a b c d p q r s : ℝ}
    (spans : ∀ x ∈ domain, Spans (init x) (p + q * x) (r + s * x))
    (affine : d = 0 ∨ q = 0 ∧ s = 0) :
    Straight init (fun x y => a + b * x + c * y + d * x * y) (fun x => p + q * x)
      (fun x => r + s * x) domain where
  points x hx := (spans x hx).accepted
  lower_affine := ⟨p, q, fun _ => rfl⟩
  upper_affine := ⟨r, s, fun _ => rfl⟩
  along x := ⟨a + b * x, c + d * x, fun y => by ring⟩
  across η := by
    cases affine with
    | inl hd =>
        refine ⟨a + c * (p + (r - p) * η), b + c * (q + (s - q) * η), fun x => ?_⟩
        rw [hd]
        ring
    | inr hfixed =>
        refine ⟨a + c * (p + (r - p) * η), b + d * (p + (r - p) * η), fun x => ?_⟩
        rw [hfixed.1, hfixed.2]
        ring

namespace PlaneGenerator

theorem passes_self {g : PlaneGenerator ℝ} (valid : g.settings.check = .ok ()) (z : ℝ) :
    g.Passes z z := by
  have converged := GridSettings.relativeError_self_le valid z
  exact ⟨Or.inl converged, fun _ => converged⟩

section Straight

variable [Resolution ℝ] {g : PlaneGenerator ℝ} {init : ℝ → List ℝ} {f : ℝ → ℝ → ℝ}
  {lower upper : ℝ → ℝ} {first last : ℝ} (rule : g.rule = .linear)
  (valid : g.settings.check = .ok ())
  (straight : Straight init f lower upper (Set.Icc first last))
include rule valid straight

/-- A slice keeps the points of the initializer. -/
theorem exists_column_of_straight {x : ℝ} (hx : x ∈ Set.Icc first last) :
    ∃ c, (∃ events, g.column init f x = ⟨events, .ok c⟩) ∧ c.x = x ∧ c.Samples init f := by
  have hsecondary : g.secondary.rule = .linear := by
    rw [secondary, rule]
    rfl
  have accepted : SeedAccepted g.secondary.rule.independent (init x) (lower x) (upper x) := by
    rw [hsecondary]
    exact straight.points x hx
  obtain ⟨events, s, hslice, hnodes⟩ :=
    LineGenerator.generate_of_affine hsecondary valid (straight.along x) accepted
  exact ⟨⟨x, s⟩, ⟨events, column_eq_ok.mpr ⟨rfl, hslice⟩⟩, rfl, hnodes⟩

variable (estimator : g.estimator = .unitBase) {a b : Column ℝ} (ha : a.x ∈ Set.Icc first last)
  (hb : b.x ∈ Set.Icc first last) (samples : a.Samples init f) (samples' : b.Samples init f)
include estimator ha hb samples samples'

/-- The slice halfway between two others is reproduced at every probe. -/
theorem reproduces_of_straight (apart : a.x ≠ b.x)
    (hx : Scale.linear.midpoint a.x b.x ∈ Set.Icc first last) : g.Reproduces init f a b := by
  obtain ⟨⟨_, s⟩, ⟨events, hcolumn⟩, rfl, sampled⟩ :=
    exists_column_of_straight rule valid straight hx
  have probed (n : Node ℝ) (hn : n ∈ s.probes .linear (f (Scale.linear.midpoint a.x b.x))) :
      let pair := SlicePair.ofColumns .linear a b (Scale.linear.midpoint a.x b.x)
      g.Passes n.y (pair.unitBaseEstimate n.x) := by
    intro pair
    obtain ⟨hy, hvalue⟩ := sampled.probe_mem straight hx hn
    rw [straight.unitBaseEstimate_eq ha hb samples samples' apart hx hy, hvalue]
    exact passes_self valid _
  have probes := s.mem_probes .linear (f (Scale.linear.midpoint a.x b.x))
  rw [Reproduces, rule, estimator]
  refine ⟨events, s, _, (column_eq_ok.mp hcolumn).2, rfl, fun n hn => ⟨_, rfl, ?_⟩,
    fun q hq => ⟨_, rfl, ?_⟩⟩
  · exact probed n ((probes n).mpr (Or.inl hn))
  · exact probed _ ((probes _).mpr (Or.inr ⟨q, hq, rfl⟩))

/-- Every interval is accepted: it is too short to split, or the slice at its midpoint is
reproduced. -/
theorem accepts_of_straight : g.Accepts init f a b := by
  refine or_iff_not_imp_left.mpr fun _ => or_iff_not_imp_left.mpr fun hinside => ?_
  obtain ⟨hleft, hright⟩ := not_not.mp hinside
  rw [rule] at hleft hright
  exact reproduces_of_straight rule valid straight estimator ha hb samples samples'
    (hleft.trans hright).ne ⟨ha.1.trans hleft.le, hright.le.trans hb.2⟩

end Straight

/-- Nothing is inserted between the columns of a merged seed, and the points of an initializer are
the points of its slices. -/
theorem generate_of_straight [Resolution ℝ] {g : PlaneGenerator ℝ} {init : ℝ → List ℝ}
    {f : ℝ → ℝ → ℝ} {lower upper : ℝ → ℝ} {seed : List ℝ} {first last : ℝ}
    (rule : g.rule = .linear) (estimator : g.estimator = .unitBase)
    (reaction : g.settings.reaction = .warn) (valid : g.settings.check = .ok ())
    (ends : seedEnds g.rule.primary seed = .ok (first, last))
    (straight : Straight init f lower upper (Set.Icc first last)) :
    ∃ events grid, g.generate init f seed = ⟨events, .ok grid⟩ ∧
      grid.primary = g.mergedSeed seed first last ∧
      ∀ c ∈ grid.columns, c.x ∈ Set.Icc first last ∧ c.Samples init f := by
  have merged := merged_mergedSeed (g := g) (seedAccepted_of_seedEnds ends)
  have within : ∀ x ∈ g.mergedSeed seed first last, x ∈ Set.Icc first last := by
    intro x hx
    obtain ⟨hlow, hhigh⟩ := eq_or_lt_of_ends merged.ascending merged.head merged.getLast x hx
    exact ⟨hlow.elim ge_of_eq le_of_lt, hhigh.elim le_of_eq le_of_lt⟩
  have nonempty : Nonempty (Column ℝ) := ⟨⟨0, ⟨⟨0, 0⟩, []⟩⟩⟩
  choose! column generated position samples using fun x (hx : x ∈ Set.Icc first last) =>
    exists_column_of_straight rule valid straight hx
  have primary : (PlaneGrid.mk ((g.mergedSeed seed first last).map column)).primary =
      g.mergedSeed seed first last := by
    rw [PlaneGrid.primary, List.map_map]
    exact (List.map_congr_left fun x hx => position x (within x hx)).trans (List.map_id _)
  have sampled : ∀ c ∈ (g.mergedSeed seed first last).map column,
      c.x ∈ Set.Icc first last ∧ c.Samples init f ∧
        ∃ events, g.column init f c.x = ⟨events, .ok c⟩ := by
    intro c hc
    obtain ⟨x, hx, rfl⟩ := List.mem_map.mp hc
    rw [position x (within x hx)]
    exact ⟨within x hx, samples x (within x hx), generated x (within x hx)⟩
  obtain ⟨events, hgenerate⟩ := generate_of_accepted ends primary
    (fun c hc => (sampled c hc).2.2) fun p hp => by
      obtain ⟨hp₁, hp₂⟩ := mem_of_adjacent hp
      exact test_of_accepts reaction (accepts_of_straight rule valid straight estimator
        (sampled _ hp₁).1 (sampled _ hp₂).1 (sampled _ hp₁).2.1 (sampled _ hp₂).2.1)
  exact ⟨events, _, hgenerate, primary, fun c hc => ⟨(sampled c hc).1, (sampled c hc).2.1⟩⟩

/-- On the real numbers a merged seed is the union of the seed and the critical values inside it. -/
theorem mem_mergedSeed_exact {g : PlaneGenerator ℝ} {seed : List ℝ} {first last x : ℝ} :
    x ∈ g.mergedSeed seed first last ↔ x ∈ seed ∨ x ∈ g.critical ∧ first < x ∧ x < last := by
  rw [mergedSeed, mem_sorted_iff fun x _ => Exact.isNumber_eq x]
  have ties : ∀ z ∈ seed ++ g.critical.filter (fun x => first < x && x < last),
      (z == x) = true → Scalar.totalLe x z = true := fun z _ heq =>
    decide_eq_true (ge_of_eq (beq_iff_eq.mp heq))
  rw [and_iff_left ties]
  simp

/-- In exact arithmetic the unit-base estimator refines no affine function over slices with affine
ends, and no function that is affine in either variable over slices with fixed ends. The primary
points are the seed and the critical values inside it, and each slice keeps the points that it was
given, wherever its inner points lie. Between any two neighbours the estimate is the function. -/
theorem affine_functions_stay_unrefined [Resolution ℝ] {g : PlaneGenerator ℝ}
    (rule : g.rule = .linear) (estimator : g.estimator = .unitBase)
    (reaction : g.settings.reaction = .warn) (valid : g.settings.check = .ok ())
    {seed : List ℝ} {first last : ℝ} (ends : seedEnds g.rule.primary seed = .ok (first, last))
    {init : ℝ → List ℝ} {p q r s : ℝ}
    (spans : ∀ x ∈ Set.Icc first last, Spans (init x) (p + q * x) (r + s * x)) {a b c d : ℝ}
    (affine : d = 0 ∨ q = 0 ∧ s = 0) :
    let f := fun x y => a + b * x + c * y + d * x * y
    ∃ events grid, g.generate init f seed = ⟨events, .ok grid⟩ ∧
      grid.primary.Pairwise (· < ·) ∧
      (∀ x, x ∈ grid.primary ↔ x ∈ seed ∨ x ∈ g.critical ∧ first < x ∧ x < last) ∧
      (∀ column ∈ grid.columns, column.slice.points = init column.x ∧
        column.slice.values = (init column.x).map (f column.x)) ∧
      ∀ n ∈ adjacent grid.columns, ∀ x ∈ Set.Icc n.1.x n.2.x,
        ∀ y ∈ Set.Icc (p + q * x) (r + s * x),
          (SlicePair.ofColumns g.rule n.1 n.2 x).unitBaseEstimate y = f x y := by
  intro f
  have straight : Straight init f (fun x => p + q * x) (fun x => r + s * x) (Set.Icc first last) :=
    straight_of_affine spans affine
  obtain ⟨events, grid, hgenerate, primary, samples⟩ :=
    generate_of_straight rule estimator reaction valid ends straight
  have merged := merged_mergedSeed (g := g) (seedAccepted_of_seedEnds ends)
  have ascending : grid.primary.Pairwise (· < ·) := primary ▸ merged.ascending
  refine ⟨events, grid, hgenerate, ascending, fun x => ?_, fun column hcolumn => ?_,
    fun n hn x hx y hy => ?_⟩
  · rw [primary]
    exact mem_mergedSeed_exact
  · obtain ⟨_, sampled⟩ := samples column hcolumn
    exact ⟨sampled.points, sampled.values⟩
  · obtain ⟨hn₁, hn₂⟩ := mem_of_adjacent hn
    obtain ⟨hleft, sampled⟩ := samples _ hn₁
    obtain ⟨hright, sampled'⟩ := samples _ hn₂
    have apart : n.1.x ≠ n.2.x :=
      ne_of_lt (adjacent_of_pairwise (List.pairwise_map.mp ascending) n hn)
    have inside : x ∈ Set.Icc first last := ⟨hleft.1.trans hx.1, hx.2.trans hright.2⟩
    rw [rule]
    exact straight.unitBaseEstimate_eq hleft hright sampled sampled' apart inside hy

/-- A sum over slices that move with the primary point, with a critical value between the points of
the seed and one beyond them. -/
theorem moving_sum_stays_unrefined :
    letI : Resolution ℝ := ⟨fun _ _ => 0⟩
    let g : PlaneGenerator ℝ := { standard .linear with critical := [3, 1 / 2] }
    let init : ℝ → List ℝ := fun x => [x, x + 1 / 3, 2 * x + 1]
    g.settings.check = .ok () ∧ seedEnds g.rule.primary [(0 : ℝ), 1] = .ok (0, 1) ∧
      (∀ x ∈ Set.Icc (0 : ℝ) 1, Spans (init x) (0 + 1 * x) (1 + 2 * x)) ∧
      ∃ events grid, g.generate init (fun x y => 0 + 1 * x + 2 * y + 0 * x * y) [0, 1] =
          ⟨events, .ok grid⟩ ∧
        grid.primary = [0, 1 / 2, 1] ∧
        ∀ column ∈ grid.columns, column.slice.points = init column.x := by
  let _ : Resolution ℝ := ⟨fun _ _ => 0⟩
  intro g init
  have valid : g.settings.check = .ok () := by
    norm_num [g, standard, GridSettings.check, GridSettings.standard, Scalar.inOpenUnit,
      Scalar.inHalfOpenUnit, Scalar.inUnit]
  have ends : seedEnds g.rule.primary [(0 : ℝ), 1] = .ok (0, 1) := by
    norm_num [g, standard, PlaneRule.linear, seedEnds, Scale.admits, firstDescent?]
  have spans : ∀ x ∈ Set.Icc (0 : ℝ) 1, Spans (init x) (0 + 1 * x) (1 + 2 * x) := by
    intro x hx
    refine ⟨?_, by simp [init], by simp [init], by simp [init, add_comm]⟩
    have hlower := hx.1
    simp only [init, List.pairwise_cons, List.mem_cons, List.not_mem_nil, or_false,
      forall_eq_or_imp, forall_eq, List.Pairwise.nil, and_true, false_implies, implies_true]
    refine ⟨⟨?_, ?_⟩, ?_⟩ <;> linarith
  obtain ⟨events, grid, hgenerate, ascending, members, slices, _⟩ :=
    affine_functions_stay_unrefined (g := g) rfl rfl rfl valid ends spans (Or.inl rfl)
  refine ⟨valid, ends, spans, events, grid, hgenerate, ?_,
    fun column hcolumn => (slices column hcolumn).1⟩
  refine eq_of_ascending ascending (by norm_num) fun x => (members x).trans ?_
  simp only [g, List.mem_cons, List.not_mem_nil, or_false]
  constructor
  · rintro ((rfl | rfl) | ⟨rfl | rfl, inside⟩)
    · simp
    · simp
    · exact absurd inside.2 (by norm_num)
    · simp
  · rintro (rfl | rfl | rfl)
    · simp
    · norm_num
    · simp

end PlaneGenerator
end AdaptiveTables
