import AdaptiveTables.Proofs.DoubleOrder
import AdaptiveTables.Proofs.PlaneStructure
import AdaptiveTables.Proofs.SeedIntervals

/-!
Critical values as seed points. What is left of sorted values without their repeats is settled by
which values there are: of those that equal each other the least is kept. So neither the order of
the critical values nor how often they are given has an influence, and without zeros the merged
seed is the union of the seed and of the critical values inside it.
-/

namespace AdaptiveTables

section Sorted

variable {α : Type} [Scalar α] [Scalar.Ordered α] [Scalar.Separated α] {xs ys : List α}

/-- A value is left exactly if no value that equals it comes before it. -/
theorem mem_sorted_iff (numbers : ∀ x ∈ xs, Scalar.isNumber x = true) {x : α} :
    x ∈ dropRepeats (xs.mergeSort Scalar.totalLe) ↔
      x ∈ xs ∧ ∀ z ∈ xs, (z == x) = true → Scalar.totalLe x z = true := by
  constructor
  · exact fun h => ⟨mem_of_mem_sorted h, least_sorted numbers x h⟩
  · rintro ⟨hx, least⟩
    obtain ⟨y, hy, hxy⟩ := List.contains_iff_exists_mem_beq.mp (contains_sorted numbers x hx)
    have hyx := least_sorted numbers y hy x hx hxy
    have hxy := least y (mem_of_mem_sorted hy) (Scalar.beq_symm hxy)
    exact Scalar.Separated.eq_of_totalLe hxy hyx ▸ hy

/-- What is left does not depend on the order of the values or on how often they occur. -/
theorem sorted_congr (numbers : ∀ x ∈ xs, Scalar.isNumber x = true) (same : ∀ x, x ∈ xs ↔ x ∈ ys) :
    dropRepeats (xs.mergeSort Scalar.totalLe) = dropRepeats (ys.mergeSort Scalar.totalLe) := by
  have numbers' : ∀ x ∈ ys, Scalar.isNumber x = true := fun x hx => numbers x ((same x).mpr hx)
  refine eq_of_ascending (ascending_sorted numbers) (ascending_sorted numbers') fun x => ?_
  simp only [mem_sorted_iff numbers, mem_sorted_iff numbers', same]

/-- Without zeros every value is left. -/
theorem mem_sorted_of_nonzero [Scalar.ZeroTies α] (numbers : ∀ x ∈ xs, Scalar.isNumber x = true)
    (nonzero : ∀ x ∈ xs, ¬(x == 0) = true) {x : α} :
    x ∈ dropRepeats (xs.mergeSort Scalar.totalLe) ↔ x ∈ xs := by
  rw [mem_sorted_iff numbers]
  refine ⟨And.left, fun hx => ⟨hx, fun z hz heq => ?_⟩⟩
  obtain rfl := Scalar.ZeroTies.eq_of_beq heq (nonzero z hz)
  simpa using Scalar.Ordered.totalLe_total z z

end Sorted

namespace PlaneGenerator

section Calls

variable {α : Type} [Scalar α] {g g' : PlaneGenerator α} {calls calls' : List (List α)}

/-- Adds the critical values of several calls, up to the first call that is refused. -/
def withCriticals (g : PlaneGenerator α) (calls : List (List α)) :
    Except (GridError α) (PlaneGenerator α) :=
  calls.foldlM withCritical g

/-- Whether a value is accepted as a critical one. -/
def acceptsCritical (g : PlaneGenerator α) (x : α) : Bool :=
  Scalar.isFinite x && g.rule.primary.admits x

theorem withCritical_eq (values : List α) :
    g.withCritical values =
      match values.find? (!g.acceptsCritical ·) with
      | some x => .error (.invalidArgument (.criticalOffScale x g.rule.primary))
      | none => .ok { g with critical := g.critical ++ values } := rfl

/-- Several calls add what one call with all their values adds. -/
theorem withCriticals_eq (g : PlaneGenerator α) (calls : List (List α)) :
    g.withCriticals calls = g.withCritical calls.flatten := by
  induction calls generalizing g with
  | nil =>
      rw [withCritical_eq]
      simp only [List.flatten_nil, List.find?_nil, List.append_nil]
      rfl
  | cons values calls ih =>
      rw [withCriticals, List.foldlM_cons, withCritical_eq, withCritical_eq, List.flatten_cons,
        List.find?_append]
      cases hfind : values.find? (!g.acceptsCritical ·) with
      | some x => rfl
      | none =>
          change withCriticals { g with critical := g.critical ++ values } calls = _
          rw [ih, withCritical_eq, List.append_assoc]
          rfl

/-- Values that are accepted are added behind those that are there. -/
theorem withCriticals_of_accepted (accepted : ∀ x ∈ calls.flatten, g.acceptsCritical x = true) :
    g.withCriticals calls = .ok { g with critical := g.critical ++ calls.flatten } := by
  have hfind : calls.flatten.find? (!g.acceptsCritical ·) = none :=
    List.find?_eq_none.mpr fun x hx => by simp [accepted x hx]
  rw [withCriticals_eq, withCritical_eq, hfind]

/-- One value that is not accepted is enough for the calls to be refused. -/
theorem withCriticals_of_refused {x : α} (hx : x ∈ calls.flatten)
    (refused : g.acceptsCritical x = false) :
    ∃ y ∈ calls.flatten, g.acceptsCritical y = false ∧
      g.withCriticals calls = .error (.invalidArgument (.criticalOffScale y g.rule.primary)) := by
  rw [withCriticals_eq, withCritical_eq]
  cases hfind : calls.flatten.find? (!g.acceptsCritical ·) with
  | some y =>
      have hy : g.acceptsCritical y = false := by simpa using List.find?_some hfind
      exact ⟨y, List.mem_of_find?_eq_some hfind, hy, rfl⟩
  | none =>
      have accepted : g.acceptsCritical x = true := by
        simpa using List.find?_eq_none.mp hfind x hx
      rw [accepted] at refused
      cases refused

end Calls

section Runs

variable {α : Type} [Scalar α] [Scalar.Ordered α] [Scalar.Separated α] {g : PlaneGenerator α}
  {values values' seed : List α} {first last : α}

theorem mergedSeed_congr (h : SeedAccepted g.rule.primary seed first last)
    (same : ∀ x, x ∈ values ↔ x ∈ values') :
    ({ g with critical := values } : PlaneGenerator α).mergedSeed seed first last =
      ({ g with critical := values' } : PlaneGenerator α).mergedSeed seed first last := by
  refine sorted_congr (number_of_mem_merge (g := { g with critical := values }) h) fun x => ?_
  simp only [List.mem_append, List.mem_filter, same]

/-- The critical values inside a seed are points of it, if there are no zeros among them all. -/
theorem mem_mergedSeed [Scalar.ZeroTies α] (h : SeedAccepted g.rule.primary seed first last)
    (nonzero : ∀ x ∈ seed ++ g.critical, ¬(x == 0) = true) {x : α} :
    x ∈ g.mergedSeed seed first last ↔ x ∈ seed ∨ x ∈ g.critical ∧ first < x ∧ x < last := by
  have hsub : ∀ x ∈ seed ++ g.critical.filter (fun x => first < x && x < last),
      ¬(x == 0) = true := fun x hx =>
    nonzero x ((List.Sublist.refl seed).append List.filter_sublist |>.subset hx)
  rw [mergedSeed, mem_sorted_of_nonzero (number_of_mem_merge h) hsub]
  simp

variable [Resolution α] (init : α → List α) (f : α → α → α)

theorem generate_congr (accepted : seedEnds g.rule.primary seed = .ok (first, last))
    (same : ∀ x, x ∈ values ↔ x ∈ values') :
    ({ g with critical := values } : PlaneGenerator α).generate init f seed =
      ({ g with critical := values' } : PlaneGenerator α).generate init f seed := by
  simp only [generate_eq_grow, accepted, Trace.ofExcept, Trace.succeed_andThen, grow_critical]
  rw [mergedSeed_congr (seedAccepted_of_seedEnds accepted) same]
  rfl

theorem generateDistribution_congr (accepted : seedEnds g.rule.primary seed = .ok (first, last))
    (same : ∀ x, x ∈ values ↔ x ∈ values') (policy : Policy) (settings : EvaluationSettings α) :
    ({ g with critical := values } : PlaneGenerator α).generateDistribution init f seed policy
        settings =
      ({ g with critical := values' } : PlaneGenerator α).generateDistribution init f seed policy
        settings := by
  rw [generateDistribution, generateDistribution, generate_congr init f accepted same]

omit [Scalar.Separated α] in
/-- A run is the one over the merged seed without critical values, but for the note of how many
were added. -/
theorem generate_eq_plain (values : List α) (plain : g.critical = [])
    (accepted : seedEnds g.rule.primary seed = .ok (first, last)) :
    let g' : PlaneGenerator α := { g with critical := values }
    let run := g.generate init f (g'.mergedSeed seed first last)
    ∃ noted, (∀ e ∈ noted, ∃ count, e = .addedCritical count) ∧
      g'.generate init f seed = ⟨noted ++ run.events, run.outcome⟩ := by
  intro g' run
  have merged := merged_mergedSeed (g := g') (seedAccepted_of_seedEnds accepted)
  have hmerged := (seedAccepted_of_seedEnds accepted).between merged.ascending merged.head
    merged.getLast
  have hrun : run = g'.grow init f (g'.mergedSeed seed first last) := by
    rw [grow_critical]
    exact generate_of_plain init f plain (seedEnds_of_seedAccepted hmerged)
  have hends : seedEnds g'.rule.primary seed = .ok (first, last) := accepted
  rw [hrun, generate_eq_grow, hends]
  simp only [Trace.ofExcept, Trace.succeed_andThen]
  split
  next =>
    obtain ⟨noted, hnoted⟩ :=
      g'.exists_logVerbose [.addedCritical ((g'.mergedSeed seed first last).length - seed.length)]
    refine ⟨noted, fun e he => ?_, by rw [hnoted]; rfl⟩
    obtain rfl : (g'.logVerbose _).events = noted := congrArg Trace.events hnoted
    exact ⟨_, List.mem_singleton.mp (mem_of_mem_logVerbose he)⟩
  next => exact ⟨[], List.forall_mem_nil _, rfl⟩

/-- Critical values act as points of the seed. The same values in any order, in any number of calls
and any number of times, make the same runs, and without zeros these are the runs over the union
of the seed and the values inside it, which is accepted as a seed with the same ends. Where one of
the values is refused, the calls are refused in any order. -/
theorem critical_values_join_the_seed [Scalar.ZeroTies α] (plain : g.critical = [])
    (accepted : seedEnds g.rule.primary seed = .ok (first, last)) {calls calls' : List (List α)}
    (same : ∀ x, x ∈ calls.flatten ↔ x ∈ calls'.flatten) :
    ((∀ x ∈ calls.flatten, g.acceptsCritical x = true) →
      ∃ g₁ g₂, g.withCriticals calls = .ok g₁ ∧ g.withCriticals calls' = .ok g₂ ∧
        g₁.generate init f seed = g₂.generate init f seed ∧
        (∀ policy settings, g₁.generateDistribution init f seed policy settings =
          g₂.generateDistribution init f seed policy settings) ∧
        ((∀ x ∈ seed ++ calls.flatten, ¬(x == 0) = true) →
          ∃ union noted, union.Pairwise (· < ·) ∧
            (∀ x, x ∈ union ↔ x ∈ seed ∨ x ∈ calls.flatten ∧ first < x ∧ x < last) ∧
            seedEnds g.rule.primary union = .ok (first, last) ∧
            (∀ e ∈ noted, ∃ count, e = .addedCritical count) ∧
            let run := g.generate init f union
            g₁.generate init f seed = ⟨noted ++ run.events, run.outcome⟩)) ∧
    ((∃ x ∈ calls.flatten, g.acceptsCritical x = false) →
      ∃ x y, g.acceptsCritical x = false ∧ g.acceptsCritical y = false ∧
        g.withCriticals calls = .error (.invalidArgument (.criticalOffScale x g.rule.primary)) ∧
        g.withCriticals calls' =
          .error (.invalidArgument (.criticalOffScale y g.rule.primary))) := by
  constructor
  · intro usable
    have usable' : ∀ x ∈ calls'.flatten, g.acceptsCritical x = true := fun x hx =>
      usable x ((same x).mpr hx)
    refine ⟨_, _, withCriticals_of_accepted usable, withCriticals_of_accepted usable', ?_⟩
    rw [plain, List.nil_append, List.nil_append]
    refine ⟨generate_congr init f accepted same, generateDistribution_congr init f accepted same,
      fun nonzero => ?_⟩
    let g₁ : PlaneGenerator α := { g with critical := calls.flatten }
    have h : SeedAccepted g₁.rule.primary seed first last := seedAccepted_of_seedEnds accepted
    have merged := merged_mergedSeed (g := g₁) h
    obtain ⟨noted, hnoted, hrun⟩ := generate_eq_plain init f calls.flatten plain accepted
    exact ⟨g₁.mergedSeed seed first last, noted, merged.ascending,
      fun x => mem_mergedSeed h nonzero,
      seedEnds_of_seedAccepted (h.between merged.ascending merged.head merged.getLast), hnoted,
      hrun⟩
  · rintro ⟨x, hx, refused⟩
    obtain ⟨y, _, hy, herror⟩ := withCriticals_of_refused hx refused
    obtain ⟨z, _, hz, herror'⟩ := withCriticals_of_refused ((same x).mp hx) refused
    exact ⟨y, z, hy, hz, herror, herror'⟩

end Runs

/-- One critical value inside a seed and one beyond it, in both orders, with repeats. -/
theorem halves_join_the_seed :
    let g : PlaneGenerator Float := standard .linear
    ∃ g₁ g₂, g.withCriticals [[1.5, 3.0]] = .ok g₁ ∧ g.withCriticals [[3.0], [1.5, 1.5]] = .ok g₂ ∧
      g₁.generate (fun _ => [1.0, 2.0]) (fun _ y => y) [1.0, 2.0] =
        g₂.generate (fun _ => [1.0, 2.0]) (fun _ y => y) [1.0, 2.0] ∧
      (g₁.generate (fun _ => [1.0, 2.0]) (fun _ y => y) [1.0, 2.0]).outcome =
        .ok ⟨[identityColumn 1.0, identityColumn 1.5, identityColumn 2.0]⟩ := by
  intro g
  have accepted : seedEnds g.rule.primary [(1.0 : Float), 2.0] = .ok (1.0, 2.0) := rfl
  have same (x : Float) : x ∈ [[1.5, 3.0]].flatten ↔ x ∈ [[3.0], [1.5, 1.5]].flatten := by
    simp [or_comm]
  have usable : ∀ x ∈ [[(1.5 : Float), 3.0]].flatten, g.acceptsCritical x = true := by decide
  have nonzero : ∀ x ∈ [(1.0 : Float), 2.0] ++ [[1.5, 3.0]].flatten, ¬(x == 0) = true := by decide
  obtain ⟨g₁, g₂, h₁, h₂, runs, _, joined⟩ := (critical_values_join_the_seed
    (fun _ => [1.0, 2.0]) (fun _ y => y) rfl accepted same).1 usable
  obtain ⟨union, noted, ascending, members, _, _, run⟩ := joined nonzero
  have below : (1.0 : Float) < 1.5 ∧ (1.5 : Float) < 2.0 := by decide
  have beyond : ¬(3.0 : Float) < 2.0 := by decide
  have hunion : union = [1.0, 1.5, 2.0] := by
    refine eq_of_ascending ascending (by decide) fun x => (members x).trans ?_
    simp only [List.flatten_cons, List.flatten_nil, List.append_nil, List.mem_cons,
      List.not_mem_nil, or_false]
    constructor
    · rintro ((rfl | rfl) | ⟨rfl | rfl, inside⟩)
      · simp
      · simp
      · simp
      · exact absurd inside.2 beyond
    · rintro (rfl | rfl | rfl)
      · simp
      · exact Or.inr ⟨Or.inl rfl, below⟩
      · simp
  refine ⟨g₁, g₂, h₁, h₂, runs, ?_⟩
  rw [run, hunion]
  exact halves_generate

end PlaneGenerator
end AdaptiveTables
