import AdaptiveTables.Proofs.MergedSeed
import AdaptiveTables.Proofs.PlaneRuns

/-!
The primary points of a grid on a plane, and the slices at them. However the intervals are split,
every primary point keeps the slice that was generated for it.
-/

namespace AdaptiveTables

variable {α : Type} [Scalar α]

namespace PlaneGenerator

variable [Resolution α]

structure Structured (g : PlaneGenerator α) (init : α → List α) (f : α → α → α) (seed : List α)
    (grid : PlaneGrid α) : Prop where
  ascending : grid.primary.Pairwise (· < ·)
  head : grid.primary.head? = seed.head?
  getLast : grid.primary.getLast? = seed.getLast?
  seeded : ∀ x ∈ seed, grid.primary.contains x = true
  critical : ∀ first last, seed.head? = some first → seed.getLast? = some last →
    ∀ x ∈ g.critical, first < x → x < last → grid.primary.contains x = true
  secondary : (grid.columns.map (·.slice.points)).length = grid.primary.length
  evaluated : (grid.columns.map (·.slice.values)).length = grid.primary.length
  slices : ∀ i x, grid.primary[i]? = some x → ∃ s events, grid.slice? i = some s ∧
    g.slice init f x = ⟨events, .ok s⟩

variable {g : PlaneGenerator α} {init : α → List α} {f : α → α → α} {events : List (Event α)}
  {grid : PlaneGrid α}

/-- What a split keeps of the two columns of its interval. -/
theorem halves_of_test {a m b : Column α} (h : g.test init f a b = ⟨events, .ok (some m)⟩)
    (ends : a.x < b.x ∧ ∃ events, g.column init f b.x = ⟨events, .ok b⟩) :
    (a.x < m.x ∧ ∃ events, g.column init f m.x = ⟨events, .ok m⟩) ∧
      (m.x < b.x ∧ ∃ events, g.column init f b.x = ⟨events, .ok b⟩) := by
  cases judges_of_test h with
  | inserts inside hm => exact ⟨⟨inside.1, _, hm⟩, inside.2, ends.2⟩

variable [Scalar.Ordered α]

/-- The columns of a grid ascend and hold the slices at their points, and those of the merged
seed are among them. -/
theorem columns_of_grown {a : Column α} {rest : List (Column α)} {merged : List α}
    (ascending : merged.Pairwise (· < ·)) (h : g.Grown init f merged (a :: rest) grid) :
    grid.primary.Pairwise (· < ·) ∧ merged.Sublist grid.primary ∧
      (∀ c ∈ grid.columns, ∃ events, g.column init f c.x = ⟨events, .ok c⟩) ∧
      grid.primary.head? = merged.head? ∧ grid.primary.getLast? = merged.getLast? := by
  obtain ⟨swept, sweeps⟩ := h.sweeps rfl
  have hends : (a :: rest).Pairwise fun b c => b.x < c.x := by
    rw [← List.pairwise_map, h.primary]
    exact ascending
  have pairs := sweeps.neighbours halves_of_test fun p hp =>
    ⟨adjacent_of_pairwise hends p hp, h.columns _ (mem_of_adjacent hp).2⟩
  have sublist := sweeps.sublist.map (·.x)
  rw [h.primary] at sublist
  have getLast : grid.primary.getLast? = merged.getLast? := by
    rw [PlaneGrid.primary, List.getLast?_map, sweeps.getLast?, ← List.getLast?_map, h.primary]
  obtain ⟨later, hcolumns⟩ := sweeps.exists_cons
  rw [hcolumns] at pairs
  refine ⟨?_, sublist, ?_, ?_, getLast⟩
  · rw [PlaneGrid.primary, hcolumns, List.pairwise_map]
    exact pairwise_of_adjacent (R := fun b c : Column α => b.x < c.x)
      (fun h h' => Scalar.Ordered.lt_trans h h') fun p hp => (pairs p hp).1.1
  · rw [hcolumns]
    exact forall_of_adjacent (P := fun c => ∃ events, g.column init f c.x = ⟨events, .ok c⟩)
      (h.columns a List.mem_cons_self) fun p hp => (pairs p hp).1.2
  · rw [PlaneGrid.primary, hcolumns, ← h.primary]
    rfl

/-- A seed that is accepted has a first column. -/
theorem exists_cons_of_grown {seed : List α} {first last : α} {ends : List (Column α)}
    (h : seedEnds g.rule.primary seed = .ok (first, last))
    (grown : g.Grown init f (g.mergedSeed seed first last) ends grid) :
    ∃ a rest, ends = a :: rest := by
  have merged := merged_mergedSeed (g := g) (seedAccepted_of_seedEnds h)
  cases ends with
  | nil =>
      have head := merged.head
      rw [← grown.primary] at head
      cases head
  | cons a rest => exact ⟨a, rest, rfl⟩

/-- The primary points of a generated grid ascend between the ends of the seed, and each holds the
slice that was generated there. -/
theorem columns_of_generate {seed : List α}
    (h : g.generate init f seed = ⟨events, .ok grid⟩) :
    ∃ first last, SeedAccepted g.rule.primary seed first last ∧
      grid.primary.Pairwise (· < ·) ∧ grid.primary.head? = some first ∧
      grid.primary.getLast? = some last ∧
      ∀ c ∈ grid.columns, ∃ events, g.slice init f c.x = ⟨events, .ok c.slice⟩ := by
  obtain ⟨first, last, ends, hseed, grown⟩ := g.grown_of_generate init f h
  obtain ⟨a, rest, rfl⟩ := exists_cons_of_grown hseed grown
  have accepted := seedAccepted_of_seedEnds hseed
  have merged := merged_mergedSeed (g := g) accepted
  obtain ⟨ascending, _, columns, head, getLast⟩ := columns_of_grown merged.ascending grown
  refine ⟨first, last, accepted, ascending, ?_, ?_, fun c hc => ?_⟩
  · rw [head, merged.head]
  · rw [getLast, merged.getLast]
  · obtain ⟨generated, hcolumn⟩ := columns c hc
    exact ⟨generated, (column_eq_ok.mp hcolumn).2⟩

theorem generate_structured {seed : List α}
    (h : g.generate init f seed = ⟨events, .ok grid⟩) : g.Structured init f seed grid := by
  obtain ⟨first, last, ends, accepted, grown⟩ := g.grown_of_generate init f h
  have seedAccepted := seedAccepted_of_seedEnds accepted
  have merged := merged_mergedSeed (g := g) seedAccepted
  match ends, grown with
  | [], grown =>
      have head := merged.head
      rw [← grown.primary] at head
      cases head
  | a :: rest, grown =>
      obtain ⟨ascending, sublist, columns, head, getLast⟩ := columns_of_grown merged.ascending grown
      have hcontains {x : α} (hx : (g.mergedSeed seed first last).contains x = true) :
          grid.primary.contains x = true := by
        obtain ⟨y, hy, hxy⟩ := List.contains_iff_exists_mem_beq.mp hx
        exact List.contains_iff_exists_mem_beq.mpr ⟨y, sublist.subset hy, hxy⟩
      refine ⟨ascending, ?_, ?_, fun x hx => hcontains (merged.seeded x hx), ?_,
        by simp only [PlaneGrid.primary, List.length_map],
        by simp only [PlaneGrid.primary, List.length_map], fun i x hx => ?_⟩
      · rw [head, merged.head, seedAccepted.head]
      · rw [getLast, merged.getLast, seedAccepted.getLast]
      · intro first' last' hfirst hlast x hx hgt hlt
        obtain rfl := Option.some.inj (seedAccepted.head.symm.trans hfirst)
        obtain rfl := Option.some.inj (seedAccepted.getLast.symm.trans hlast)
        exact hcontains (merged.critical x hx hgt hlt)
      · rw [PlaneGrid.primary, List.getElem?_map] at hx
        obtain ⟨c, hc, rfl⟩ := Option.map_eq_some_iff.mp hx
        obtain ⟨generated, hcolumn⟩ := columns c (List.mem_of_getElem? hc)
        refine ⟨c.slice, generated, ?_, (column_eq_ok.mp hcolumn).2⟩
        rw [PlaneGrid.slice?, hc]
        rfl

/-- A column that holds the identity between one and two. -/
def identityColumn (x : Float) : Column Float := ⟨x, ⟨1.0, 1.0⟩, [⟨2.0, 2.0⟩]⟩

theorem identity_column (x : Float) :
    (standard .linear : PlaneGenerator Float).column (fun _ => [1.0, 2.0]) (fun _ y => y) x =
      ⟨[], .ok (identityColumn x)⟩ :=
  column_eq_ok.mpr ⟨rfl, LineGenerator.identity_generate⟩

set_option maxRecDepth 20000 in
theorem identity_refineInterval :
    (standard .linear : PlaneGenerator Float).refineInterval (fun _ => [1.0, 2.0]) (fun _ y => y)
      (identityColumn 1.0, identityColumn 2.0) = ⟨[], .ok [identityColumn 1.0]⟩ := by
  have htest : (standard .linear : PlaneGenerator Float).test (fun _ => [1.0, 2.0])
      (fun _ y => y) (identityColumn 1.0) (identityColumn 2.0) = ⟨[], .ok none⟩ := by
    simp only [test, testAt, identity_column]
    rfl
  rw [refineInterval, sweep, htest, Trace.andThen]
  simp only [sweep]
  rfl

theorem identity_mergedSeed :
    (standard .linear : PlaneGenerator Float).mergedSeed [1.0, 2.0] 1.0 2.0 = [1.0, 2.0] :=
  mergedSeed_of_ascending rfl (by decide +kernel) _ _

theorem identity_generate :
    (standard .linear : PlaneGenerator Float).generate (fun _ => [1.0, 2.0]) (fun _ y => y)
      [1.0, 2.0] = ⟨[], .ok ⟨[identityColumn 1.0, identityColumn 2.0]⟩⟩ := by
  have hends (points : List Float) :
      Trace.each ((standard .linear).column (fun _ => [1.0, 2.0]) (fun _ y => y)) points =
        ⟨[], .ok (points.map identityColumn)⟩ := by
    induction points with
    | nil => rfl
    | cons x points ih =>
        rw [Trace.each, identity_column, ih]
        rfl
  rw [generate]
  refine Trace.andThen_eq_ok.mpr ⟨[], (1.0, 2.0), [], rfl, ?_, rfl⟩
  simp only [identity_mergedSeed]
  refine Trace.andThen_eq_ok.mpr ⟨[], _, [], hends [1.0, 2.0], ?_, rfl⟩
  refine Trace.andThen_eq_ok.mpr ⟨[], [[identityColumn 1.0]], [], ?_, rfl, rfl⟩
  exact Trace.andThen_eq_ok.mpr ⟨[], _, [], identity_refineInterval, rfl, rfl⟩

theorem identity_structured :
    let g : PlaneGenerator Float := standard .linear
    let grid : PlaneGrid Float := ⟨[identityColumn 1.0, identityColumn 2.0]⟩
    g.generate (fun _ => [1.0, 2.0]) (fun _ y => y) [1.0, 2.0] = ⟨[], .ok grid⟩ ∧
      g.Structured (fun _ => [1.0, 2.0]) (fun _ y => y) [1.0, 2.0] grid :=
  ⟨identity_generate, generate_structured identity_generate⟩

end PlaneGenerator
end AdaptiveTables
