import AdaptiveTables.Proofs.Exact
import AdaptiveTables.Proofs.LineStructure

/-!
Convergence of grids on a line. Every interval of a grid that lies inside the refined range meets
a tolerance at its midpoint, with the values of the grid at its ends, although it was tested
before the grid around it was known. The warnings of the run are the causes of these intervals
from left to right.
-/

namespace AdaptiveTables

variable {α : Type} [Scalar α]

/-- The intervals of a grid that are selected by their ends. -/
def LineGrid.intervals (inside : α → α → Bool) (grid : LineGrid α) : List (Node α × Node α) :=
  (adjacent grid.nodes).filter fun p => inside p.1.x p.2.x

/-- The convergence tolerance of settings that pass their check. -/
theorem GridSettings.convergence_of_check {s : GridSettings α} (h : s.check = .ok ()) :
    0 < s.tolerances.convergence ∧ s.tolerances.convergence < 1 := by
  simp only [check] at h
  split at h
  next => cases h
  next hopen =>
    simpa [Scalar.inOpenUnit] using hopen

namespace LineGenerator

/-- What a successful run guarantees of the intervals inside its range. -/
structure Converges (g : LineGenerator α) (f : α → α) (inside : α → α → Bool)
    (grid : LineGrid α) (events : List (Event α)) : Prop where
  ascending : grid.points.Pairwise (· < ·)
  valued : ∀ n ∈ grid.nodes, n.y = f n.x
  accepted : ∀ p ∈ grid.intervals inside, g.Accepts f p.1 p.2
  strict : g.settings.reaction = .throw → ∀ p ∈ grid.intervals inside,
    Scalar.relativeError (f (g.rule.midpoint p.1.x p.2.x)) (g.estimateAt p.1 p.2) ≤
      g.settings.tolerances.convergence
  events : events = ((grid.intervals inside).filterMap fun p => g.cause? f p.1 p.2).map
    (.warning .line)

variable [Scalar.Ordered α] {g : LineGenerator α} {f : α → α} {points : List α}
  {first last lo hi : α} {grid : LineGrid α} {inner : List (Node α)} {events : List (Event α)}

/-- The intervals inside the range are those of its refinement: the points around it are too far
out. -/
theorem Run.intervals_eq (h : g.Run f points first last lo hi grid inner events)
    {inside : α → α → Bool}
    (hinside : ∀ {a b}, first ≤ a → b ≤ last → (inside a b = true ↔ lo ≤ a ∧ b ≤ hi)) :
    grid.intervals inside = adjacent inner := by
  have nodes := h.innerNodes
  have within := h.within
  have hmem : ∀ n ∈ inner, n ∈ grid.nodes := fun n hn => by
    rw [h.nodes]
    exact List.mem_append_right _ (List.mem_append_left _ hn)
  have hkeep : ∀ n ∈ grid.nodes, ∀ m ∈ grid.nodes,
      (inside n.x m.x = true ↔ lo ≤ n.x ∧ m.x ≤ hi) := fun n hn m hm =>
    hinside (within _ (List.mem_map_of_mem hn)).1 (within _ (List.mem_map_of_mem hm)).2.1
  have hdrop : ∀ p ∈ adjacent grid.nodes, (p.1.x < lo ∨ hi < p.2.x) →
      inside p.1.x p.2.x = false := by
    intro p hp hout
    obtain ⟨hp₁, hp₂⟩ := mem_of_adjacent hp
    refine Bool.eq_false_iff.mpr fun htrue => ?_
    obtain ⟨hle, hle'⟩ := (hkeep _ hp₁ _ hp₂).mp htrue
    cases hout with
    | inl hlt => exact Scalar.not_lt_of_le hle hlt
    | inr hlt => exact Scalar.not_lt_of_le hle' hlt
  rw [h.nodes] at hdrop
  rw [LineGrid.intervals, h.nodes]
  refine filter_adjacent (fun hnil => ?_) (fun p hp => ?_)
    (fun p hp hbelow => hdrop p hp (Or.inl ?_)) (fun p hp habove => hdrop p hp (Or.inr ?_))
  · have head := nodes.head
    rw [hnil] at head
    cases head
  · obtain ⟨hp₁, hp₂⟩ := mem_of_adjacent hp
    exact (hkeep _ (hmem _ hp₁) _ (hmem _ hp₂)).mpr ⟨nodes.lo_le _ hp₁, nodes.le_hi _ hp₂⟩
  · obtain ⟨x, hx, heq⟩ := List.mem_map.mp hbelow
    rw [← heq]
    exact ((mem_takeWhile_lt h.seed.ascending).mp hx).2
  · obtain ⟨x, hx, heq⟩ := List.mem_map.mp habove
    rw [← heq]
    exact of_decide_eq_true (List.mem_filter.mp hx).2

theorem Run.converges (h : g.Run f points first last lo hi grid inner events)
    {inside : α → α → Bool}
    (hinside : ∀ {a b}, first ≤ a → b ≤ last → (inside a b = true ↔ lo ≤ a ∧ b ≤ hi)) :
    g.Converges f inside grid events := by
  have hpairs := h.sweeps.accepted
  have hevents := h.sweeps.events_eq fun hsplit => (step_inserts hsplit).1
  have hcauses : (adjacent inner).flatMap (fun p => (g.step f p.1 p.2).events) =
      ((adjacent inner).filterMap fun p => g.cause? f p.1 p.2).map (.warning .line) := by
    rw [List.filterMap_eq_flatMap_toList, List.map_flatMap]
    refine List.flatMap_congr fun p hp => ?_
    obtain ⟨_, haccepted⟩ := hpairs p hp
    rw [haccepted]
    exact (step_accepts haccepted).2.1
  have hintervals := h.intervals_eq hinside
  refine ⟨h.ascending, fun n hn => ?_, ?_, fun hthrow => ?_, ?_⟩
  · rw [h.valued n hn]
    rfl
  · rw [hintervals]
    intro p hp
    obtain ⟨_, haccepted⟩ := hpairs p hp
    exact (step_accepts haccepted).1
  · rw [hintervals]
    intro p hp
    obtain ⟨_, haccepted⟩ := hpairs p hp
    exact (step_accepts haccepted).2.2 hthrow
  · rw [hintervals, hevents, hcauses]

/-- Generated and refined grids converge inside their ranges, on every arithmetic with an order.
In exact arithmetic a converged interval bounds the error at its midpoint by the value there. -/
theorem runs_converge [Resolution α] (g : LineGenerator α) (f : α → α) :
    (∀ {seed grid events}, g.generate f seed = ⟨events, .ok grid⟩ →
      g.Converges f (fun _ _ => true) grid events) ∧
    (∀ {points lo hi grid events}, g.refine f points lo hi = ⟨events, .ok grid⟩ →
      g.Converges f (fun a b => lo ≤ a && b ≤ hi) grid events) ∧
    ∀ (exact : LineGenerator ℝ) (h : ℝ → ℝ) (a b : Node ℝ), exact.settings.check = .ok () →
      let y := h (exact.rule.midpoint a.x b.x)
      let tolerance := exact.settings.tolerances.convergence
      Scalar.relativeError y (exact.estimateAt a b) ≤ tolerance →
        |y - exact.estimateAt a b| ≤ tolerance / (1 - tolerance) * |y| := by
  refine ⟨fun h => ?_, fun h => ?_, ?_⟩
  · obtain ⟨first, last, inner, run⟩ := run_of_generate h
    exact run.converges fun ha hb => iff_of_true rfl ⟨ha, hb⟩
  · obtain ⟨first, last, lower, upper, inner, range, run⟩ := run_of_refine h
    refine run.converges fun ha hb => ?_
    rw [Bool.and_eq_true, decide_eq_true_eq, decide_eq_true_eq]
    exact range.inside_iff ha hb
  · intro exact h a b hcheck y tolerance hrel
    obtain ⟨positive, below⟩ := GridSettings.convergence_of_check hcheck
    exact Exact.abs_sub_le_of_tolerance positive below hrel

theorem identity_runs_converge :
    let g : LineGenerator Float := standard .linear
    let grid : LineGrid Float := ⟨⟨1.0, 1.0⟩, [⟨2.0, 2.0⟩]⟩
    let exact : LineGenerator ℝ := ⟨.linear, ⟨⟨1 / 2, 0, 0⟩, .warn, false⟩⟩
    (g.generate (fun x => x) [1.0, 2.0] = ⟨[], .ok grid⟩ ∧
      g.Converges (fun x => x) (fun _ _ => true) grid []) ∧
    (g.refine (fun x => x) [1.0, 2.0] 1.0 2.0 = ⟨[], .ok grid⟩ ∧
      g.Converges (fun x => x) (fun a b => (1.0 : Float) ≤ a && b ≤ (2.0 : Float)) grid []) ∧
    |(1 / 2 : ℝ) - exact.estimateAt ⟨0, 0⟩ ⟨1, 1⟩| ≤ 1 / 2 / (1 - 1 / 2) * |(1 / 2 : ℝ)| := by
  intro g grid exact
  have hrefine : g.refine (fun x => x) [1.0, 2.0] 1.0 2.0 = ⟨[], .ok grid⟩ := by
    change (g.sweep _ _ ⟨1.0, 1.0⟩ [⟨2.0, 2.0⟩]).andThen _ = _
    rw [identity_sweep]
    rfl
  obtain ⟨generated, refined, bounded⟩ := runs_converge g fun x => x
  refine ⟨⟨identity_generate, generated identity_generate⟩, ⟨hrefine, refined hrefine⟩, ?_⟩
  have hmid : exact.rule.midpoint (0 : ℝ) 1 = 1 / 2 := by
    change (0.5 : ℝ) * (0 + 1) = 1 / 2
    norm_num
  have hestimate : exact.estimateAt (⟨0, 0⟩ : Node ℝ) ⟨1, 1⟩ = 1 / 2 := by
    change (0 : ℝ) + (1 - 0) / (1 - 0) * (exact.rule.midpoint (0 : ℝ) 1 - 0) = 1 / 2
    rw [hmid]
    norm_num
  have hcheck : exact.settings.check = .ok () := by
    have hconvergence : Scalar.inOpenUnit (1 / 2 : ℝ) = true := by
      norm_num [Scalar.inOpenUnit]
    have hdistance : Scalar.inHalfOpenUnit (0 : ℝ) = true := by
      norm_num [Scalar.inHalfOpenUnit]
    have habsolute : Scalar.inUnit (0 : ℝ) = true := by
      norm_num [Scalar.inUnit]
    simp only [GridSettings.check, exact, hconvergence, hdistance, habsolute]
    rfl
  have hzero : Scalar.relativeError (1 / 2 : ℝ) (1 / 2) ≤ 1 / 2 := by
    rw [Exact.relativeError_self]
    norm_num
  have hbound := bounded exact (fun _ => 1 / 2) ⟨0, 0⟩ ⟨1, 1⟩ hcheck
  rw [hestimate] at hbound ⊢
  exact hbound hzero

end LineGenerator
end AdaptiveTables
