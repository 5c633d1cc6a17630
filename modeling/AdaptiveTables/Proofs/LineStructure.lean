import AdaptiveTables.Proofs.DoubleOrder
import AdaptiveTables.Proofs.LineRuns

/-!
The points of a grid on a line. A run keeps the points that it starts from and inserts others
between them, so its grid ascends, stays on the scale and has the same ends. Zeros of either sign
are the same point.
-/

namespace AdaptiveTables

variable {α : Type} [Scalar α]

/-- A grid that holds the points of an earlier one between the same ends. -/
structure Extends (scale : Scale) (before now : List α) : Prop where
  ascending : now.Pairwise (· < ·)
  admitted : ∀ x ∈ now, scale.admits x = true
  head : (now.head? == before.head?) = true
  getLast : (now.getLast? == before.getLast?) = true
  kept : ∀ x ∈ before, now.contains x = true

theorem optionBeq_refl {a : Option α} (h : ∀ x, a = some x → Scalar.isNumber x = true) :
    (a == a) = true := by
  cases a with
  | none => rfl
  | some x => exact h x rfl

variable [Scalar.Ordered α]

theorem optionBeq_trans {a b c : Option α} (h : (a == b) = true) (h' : (b == c) = true) :
    (a == c) = true := by
  cases a <;> cases b <;> cases c <;> simp_all
  exact Scalar.beq_trans h h'

namespace Extends

variable {scale : Scale} {first before now : List α}

theorem refl (ascending : now.Pairwise (· < ·)) (admitted : ∀ x ∈ now, scale.admits x = true) :
    Extends scale now now := by
  have number : ∀ x ∈ now, Scalar.isNumber x = true := fun x hx =>
    scale.number_of_admits (admitted x hx)
  refine ⟨ascending, admitted, ?_, ?_, fun x hx => ?_⟩
  · exact optionBeq_refl fun x hx => number x (List.mem_of_head? hx)
  · exact optionBeq_refl fun x hx => number x (List.mem_of_getLast? hx)
  · exact List.contains_iff_exists_mem_beq.mpr ⟨x, hx, number x hx⟩

theorem trans (h : Extends scale first before) (h' : Extends scale before now) :
    Extends scale first now := by
  refine ⟨h'.ascending, h'.admitted, optionBeq_trans h'.head h.head,
    optionBeq_trans h'.getLast h.getLast, fun x hx => ?_⟩
  obtain ⟨y, hy, hxy⟩ := List.contains_iff_exists_mem_beq.mp (h.kept x hx)
  obtain ⟨z, hz, hyz⟩ := List.contains_iff_exists_mem_beq.mp (h'.kept y hy)
  exact List.contains_iff_exists_mem_beq.mpr ⟨z, hz, Scalar.beq_trans hxy hyz⟩

end Extends

theorem head_of_least {points : List α} {x : α} (ascending : points.Pairwise (· < ·))
    (least : ∀ y ∈ points, x ≤ y) (h : points.contains x = true) :
    (points.head? == some x) = true := by
  obtain ⟨y, hy, heq⟩ := List.contains_iff_exists_mem_beq.mp h
  match points, hy with
  | z :: rest, hy =>
      cases List.mem_cons.mp hy with
      | inl hyz => exact hyz ▸ Scalar.beq_symm heq
      | inr hy =>
          have hzy := (List.pairwise_cons.mp ascending).1 y hy
          have hzx := Scalar.lt_of_lt_of_le hzy (Scalar.beq_iff_le.mp heq).2
          exact absurd hzx (Scalar.not_lt_of_le (least z List.mem_cons_self))

theorem getLast_of_greatest {points : List α} {x : α} (ascending : points.Pairwise (· < ·))
    (greatest : ∀ y ∈ points, y ≤ x) (h : points.contains x = true) :
    (points.getLast? == some x) = true := by
  obtain ⟨y, hy, heq⟩ := List.contains_iff_exists_mem_beq.mp h
  cases hlast : points.getLast? with
  | none =>
      obtain rfl := List.getLast?_eq_none_iff.mp hlast
      cases hy
  | some z =>
      obtain ⟨init, rfl⟩ := List.getLast?_eq_some_iff.mp hlast
      cases List.mem_append.mp hy with
      | inl hy =>
          have hyz := (List.pairwise_append.mp ascending).2.2 y hy z (by simp)
          have hxz := Scalar.lt_of_le_of_lt (Scalar.beq_iff_le.mp heq).1 hyz
          exact absurd hxz (Scalar.not_lt_of_le (greatest z (by simp)))
      | inr hy => exact List.mem_singleton.mp hy ▸ Scalar.beq_symm heq

theorem eq_of_beq_of_mem {points : List α} (ascending : points.Pairwise (· < ·)) {x y : α}
    (hx : x ∈ points) (hy : y ∈ points) (heq : (x == y) = true) : x = y := by
  obtain ⟨hle, hge⟩ := Scalar.beq_iff_le.mp heq
  induction ascending with
  | nil => cases hx
  | cons hhead _ ih =>
      cases List.mem_cons.mp hx with
      | inl hxa =>
          cases List.mem_cons.mp hy with
          | inl hya => rw [hxa, hya]
          | inr hy => exact absurd (hxa ▸ hhead y hy) (Scalar.not_lt_of_le hge)
      | inr hx =>
          cases List.mem_cons.mp hy with
          | inl hya => exact absurd (hya ▸ hhead x hx) (Scalar.not_lt_of_le hle)
          | inr hy => exact ih hx hy

/-- The nodes of a refined range: they ascend from its lower limit to its upper one. -/
structure InnerNodes (scale : Scale) (f : α → α) (lo hi : α) (inner : List (Node α)) : Prop where
  ascending : inner.Pairwise fun n m => n.x < m.x
  valued : ∀ n ∈ inner, n = nodeOf f n.x
  admitted : ∀ n ∈ inner, scale.admits n.x = true
  head : inner.head? = some (nodeOf f lo)
  getLast : ∃ n, inner.getLast? = some n ∧ (n.x == hi) = true

theorem InnerNodes.le_hi {scale : Scale} {f : α → α} {lo hi : α} {inner : List (Node α)}
    (h : InnerNodes scale f lo hi inner) : ∀ n ∈ inner, n.x ≤ hi := by
  intro n hn
  obtain ⟨last, hlast, heq⟩ := h.getLast
  obtain ⟨init, rfl⟩ := List.getLast?_eq_some_iff.mp hlast
  have hle := (Scalar.beq_iff_le.mp heq).1
  cases List.mem_append.mp hn with
  | inl hn =>
      have hlt := (List.pairwise_append.mp h.ascending).2.2 n hn last (by simp)
      exact Scalar.le_trans (Scalar.le_of_lt hlt) hle
  | inr hn => exact List.mem_singleton.mp hn ▸ hle

theorem InnerNodes.lo_le {scale : Scale} {f : α → α} {lo hi : α} {inner : List (Node α)}
    (h : InnerNodes scale f lo hi inner) : ∀ n ∈ inner, lo ≤ n.x := by
  intro n hn
  obtain ⟨rest, rfl⟩ := List.head?_eq_some_iff.mp h.head
  have hlo : Scalar.isNumber lo = true :=
    scale.number_of_admits (h.admitted (nodeOf f lo) List.mem_cons_self)
  cases List.mem_cons.mp hn with
  | inl heq => exact heq ▸ Scalar.le_refl hlo
  | inr hn => exact Scalar.le_of_lt ((List.pairwise_cons.mp h.ascending).1 n hn)

namespace LineGenerator

variable {g : LineGenerator α} {f : α → α} {points : List α} {first last lo hi : α}
  {grid : LineGrid α} {inner : List (Node α)} {events : List (Event α)}

/-- What a split keeps of the two nodes of its interval. -/
theorem halves_of_step (scale : Scale) {a m b : Node α}
    (h : g.step f a b = ⟨events, .ok (some m)⟩)
    (ends : a.x < b.x ∧ b = nodeOf f b.x ∧ scale.admits a.x = true ∧ scale.admits b.x = true) :
    (a.x < m.x ∧ m = nodeOf f m.x ∧ scale.admits a.x = true ∧ scale.admits m.x = true) ∧
      (m.x < b.x ∧ b = nodeOf f b.x ∧ scale.admits m.x = true ∧ scale.admits b.x = true) := by
  obtain ⟨_, hb, ha', hb'⟩ := ends
  obtain ⟨_, rfl, missed⟩ := step_inserts h
  have hinside : a.x < g.rule.midpoint a.x b.x ∧ g.rule.midpoint a.x b.x < b.x := by
    refine Classical.byContradiction fun hout => missed ?_
    exact Or.inr (Or.inr (Or.inl hout))
  have hm := scale.admits_between ha' hb' (Scalar.le_of_lt hinside.1)
    (Scalar.le_of_lt hinside.2)
  exact ⟨⟨hinside.1, rfl, ha', hm⟩, hinside.2, hb, hm, hb'⟩

/-- A successful run over an accepted seed and a range between its ends. -/
structure Run (g : LineGenerator α) (f : α → α) (points : List α) (first last lo hi : α)
    (grid : LineGrid α) (inner : List (Node α)) (events : List (Event α)) : Prop
    extends g.Refined f points lo hi grid inner events where
  seed : SeedAccepted g.rule.independent points first last
  above : first ≤ lo
  range : lo < hi
  below : hi ≤ last

theorem Run.innerNodes (h : g.Run f points first last lo hi grid inner events) :
    InnerNodes g.rule.independent f lo hi inner := by
  have ends := rightEnds_spec h.seed.ascending h.range
  have hfirst := h.seed.admitted first (List.mem_of_head? h.seed.head)
  have hlast := h.seed.admitted last (List.mem_of_getLast? h.seed.getLast)
  have hadlo := g.rule.independent.admits_between hfirst hlast h.above
    (Scalar.le_trans (Scalar.le_of_lt h.range) h.below)
  have hadhi := g.rule.independent.admits_between hfirst hlast
    (Scalar.le_trans h.above (Scalar.le_of_lt h.range)) h.below
  have hends : ∀ x ∈ lo :: rightEnds points lo hi, g.rule.independent.admits x = true := by
    intro x hx
    cases List.mem_cons.mp hx with
    | inl heq => exact heq ▸ hadlo
    | inr hx =>
        cases ends.source x hx with
        | inl hx => exact h.seed.admitted x hx
        | inr heq => exact heq ▸ hadhi
  -- Order, values and admission go from an interval to its halves, so all neighbours have them.
  have pairs := h.sweeps.neighbours (halves_of_step g.rule.independent) (by
    rw [← List.map_cons, adjacent_map]
    intro p hp
    obtain ⟨q, hq, rfl⟩ := List.mem_map.mp hp
    obtain ⟨hq₁, hq₂⟩ := mem_of_adjacent hq
    exact ⟨adjacent_of_pairwise ends.ascending q hq, rfl, hends _ hq₁, hends _ hq₂⟩)
  obtain ⟨rest, rfl⟩ := h.sweeps.exists_cons
  refine ⟨?_, ?_, ?_, rfl, ?_⟩
  · exact pairwise_of_adjacent (R := fun n m : Node α => n.x < m.x)
      (fun h h' => Scalar.Ordered.lt_trans h h') fun p hp => (pairs p hp).1.1
  · exact forall_of_adjacent rfl fun p hp => (pairs p hp).1.2.1
  · exact forall_of_adjacent hadlo fun p hp => (pairs p hp).1.2.2.2
  · obtain ⟨x, hx, heq⟩ := ends.getLast
    refine ⟨nodeOf f x, ?_, heq⟩
    rw [h.sweeps.getLast?, ← List.map_cons, List.getLast?_map, List.getLast?_cons, hx]
    rfl

theorem mem_inner_of_refined (range : lo < hi) (ascending : points.Pairwise (· < ·))
    (h : g.Refined f points lo hi grid inner events) {x : α} (hx : x ∈ points) (hlo : lo < x)
    (hhi : x ≤ hi) : x ∈ inner.map (·.x) := by
  have hmem := (rightEnds_spec ascending range).kept x hx hlo hhi
  have hnode : nodeOf f x ∈ nodeOf f lo :: (rightEnds points lo hi).map (nodeOf f) :=
    List.mem_cons_of_mem _ (List.mem_map_of_mem hmem)
  exact List.mem_map.mpr ⟨nodeOf f x, h.sweeps.sublist.subset hnode, rfl⟩

/-- A point is kept as it is, unless the lower limit of the range is another zero and replaces
it. -/
theorem Run.kept (h : g.Run f points first last lo hi grid inner events) :
    lo ∈ grid.points ∧ ∀ x ∈ points, x ∈ grid.points ∨ (x == lo) = true := by
  have nodes := h.innerNodes
  obtain ⟨hloNumber, hhiNumber⟩ := Scalar.Ordered.number_of_lt h.range
  rw [points_of_refined h.toRefined]
  refine ⟨?_, fun x hx => ?_⟩
  · have hinner : lo ∈ inner.map (·.x) :=
      List.mem_map.mpr ⟨_, List.mem_of_head? nodes.head, rfl⟩
    exact List.mem_append_right _ (List.mem_append_left _ hinner)
  · have number := g.rule.independent.number_of_admits (h.seed.admitted x hx)
    cases Scalar.lt_or_beq_or_lt number hloNumber with
    | inl hlt =>
        have hbelow := (mem_takeWhile_lt h.seed.ascending).mpr ⟨hx, hlt⟩
        exact Or.inl (List.mem_append_left _ hbelow)
    | inr hge =>
        cases hge with
        | inl heq => exact Or.inr heq
        | inr hgt =>
            left
            refine List.mem_append_right _ ?_
            by_cases hxhi : hi < x
            · have habove : x ∈ points.filter (hi < ·) := by simpa using ⟨hx, hxhi⟩
              exact List.mem_append_right _ habove
            · have hle := Scalar.Ordered.le_iff.mpr ⟨number, hhiNumber, hxhi⟩
              exact List.mem_append_left _
                (mem_inner_of_refined h.range h.seed.ascending h.toRefined hx hgt hle)

theorem Run.contains (h : g.Run f points first last lo hi grid inner events) :
    ∀ x ∈ points, grid.points.contains x = true := by
  obtain ⟨hlomem, kept⟩ := h.kept
  intro x hx
  refine List.contains_iff_exists_mem_beq.mpr ?_
  cases kept x hx with
  | inl hmem => exact ⟨x, hmem, g.rule.independent.number_of_admits (h.seed.admitted x hx)⟩
  | inr heq => exact ⟨lo, hlomem, heq⟩

theorem Run.ascending (h : g.Run f points first last lo hi grid inner events) :
    grid.points.Pairwise (· < ·) := by
  have nodes := h.innerNodes
  have hbelow : ∀ x ∈ points.takeWhile (· < lo), x < lo := fun x hx =>
    ((mem_takeWhile_lt h.seed.ascending).mp hx).2
  have habove : ∀ x ∈ points.filter (hi < ·), hi < x := fun x hx =>
    of_decide_eq_true (List.mem_filter.mp hx).2
  have hinner : ∀ x ∈ inner.map (·.x), lo ≤ x ∧ x ≤ hi := by
    intro x hx
    obtain ⟨n, hn, rfl⟩ := List.mem_map.mp hx
    exact ⟨nodes.lo_le n hn, nodes.le_hi n hn⟩
  rw [points_of_refined h.toRefined]
  refine List.pairwise_append.mpr ⟨h.seed.ascending.sublist (List.takeWhile_sublist _), ?_, ?_⟩
  · refine List.pairwise_append.mpr
      ⟨List.pairwise_map.mpr nodes.ascending, h.seed.ascending.filter _, ?_⟩
    intro x hx y hy
    exact Scalar.lt_of_le_of_lt (hinner x hx).2 (habove y hy)
  · intro x hx y hy
    cases List.mem_append.mp hy with
    | inl hy => exact Scalar.lt_of_lt_of_le (hbelow x hx) (hinner y hy).1
    | inr hy =>
        exact Scalar.Ordered.lt_trans (hbelow x hx)
          (Scalar.Ordered.lt_trans h.range (habove y hy))

theorem Run.within (h : g.Run f points first last lo hi grid inner events) :
    ∀ x ∈ grid.points, first ≤ x ∧ x ≤ last ∧ g.rule.independent.admits x = true := by
  have nodes := h.innerNodes
  have hseed : ∀ x ∈ points, first ≤ x ∧ x ≤ last ∧ g.rule.independent.admits x = true :=
    fun x hx => ⟨h.seed.first_le x hx, h.seed.le_last x hx, h.seed.admitted x hx⟩
  rw [points_of_refined h.toRefined]
  intro x hx
  cases List.mem_append.mp hx with
  | inl hx => exact hseed x ((mem_takeWhile_lt h.seed.ascending).mp hx).1
  | inr hx =>
      cases List.mem_append.mp hx with
      | inl hx =>
          obtain ⟨n, hn, rfl⟩ := List.mem_map.mp hx
          exact ⟨Scalar.le_trans h.above (nodes.lo_le n hn),
            Scalar.le_trans (nodes.le_hi n hn) h.below, nodes.admitted n hn⟩
      | inr hx => exact hseed x (List.mem_filter.mp hx).1

theorem Run.extended (h : g.Run f points first last lo hi grid inner events) :
    Extends g.rule.independent points grid.points := by
  have ascending := h.ascending
  have within := h.within
  have kept := h.contains
  refine ⟨ascending, fun x hx => (within x hx).2.2, ?_, ?_, kept⟩
  · rw [h.seed.head]
    exact head_of_least ascending (fun x hx => (within x hx).1)
      (kept first (List.mem_of_head? h.seed.head))
  · rw [h.seed.getLast]
    exact getLast_of_greatest ascending (fun x hx => (within x hx).2.1)
      (kept last (List.mem_of_getLast? h.seed.getLast))

theorem Run.valued (h : g.Run f points first last lo hi grid inner events) :
    ∀ n ∈ grid.nodes, n = nodeOf f n.x := by
  have nodes := h.innerNodes
  rw [h.nodes]
  intro n hn
  cases List.mem_append.mp hn with
  | inl hn => exact eq_nodeOf_of_mem hn
  | inr hn =>
      cases List.mem_append.mp hn with
      | inl hn => exact nodes.valued n hn
      | inr hn => exact eq_nodeOf_of_mem hn

variable [Resolution α]

omit [Scalar.Ordered α] in
theorem generate_eq_ok {seed : List α} :
    g.generate f seed = ⟨events, .ok grid⟩ ↔
      ∃ first last, seedEnds g.rule.independent seed = .ok (first, last) ∧
        g.refineBetween f seed first last = ⟨events, .ok grid⟩ := by
  simp only [generate, Trace.bind_eq_andThen]
  constructor
  · intro h
    obtain ⟨_, ⟨first, last⟩, _, hends, hrun, rfl⟩ := Trace.andThen_eq_ok.mp h
    obtain ⟨rfl, hseed⟩ := Trace.ofExcept_eq_ok.mp hends
    exact ⟨first, last, hseed, hrun⟩
  · rintro ⟨first, last, hseed, hrun⟩
    rw [hseed]
    exact hrun

omit [Scalar.Ordered α] in
theorem refine_eq_ok :
    g.refine f points lo hi = ⟨events, .ok grid⟩ ↔
      ∃ first last lower upper, seedEnds g.rule.independent points = .ok (first, last) ∧
        refinementRange first last lo hi = .ok (lower, upper) ∧
          g.refineBetween f points lower upper = ⟨events, .ok grid⟩ := by
  simp only [refine, Trace.bind_eq_andThen]
  constructor
  · intro h
    obtain ⟨_, ⟨first, last⟩, _, hends, h₁, rfl⟩ := Trace.andThen_eq_ok.mp h
    obtain ⟨rfl, hseed⟩ := Trace.ofExcept_eq_ok.mp hends
    obtain ⟨_, ⟨lower, upper⟩, _, hrange, hrun, rfl⟩ := Trace.andThen_eq_ok.mp h₁
    obtain ⟨rfl, hlimits⟩ := Trace.ofExcept_eq_ok.mp hrange
    exact ⟨first, last, lower, upper, hseed, hlimits, hrun⟩
  · rintro ⟨first, last, lower, upper, hseed, hlimits, hrun⟩
    rw [hseed]
    simp only [Trace.ofExcept, Trace.succeed_andThen, hlimits]
    exact hrun

/-- A run over an accepted seed between the ends of the seed. -/
theorem exists_run_of_ends {seed : List α}
    (hseed : seedEnds g.rule.independent seed = .ok (first, last))
    (h : g.refineBetween f seed first last = ⟨events, .ok grid⟩) :
    ∃ inner, g.Run f seed first last first last grid inner events := by
  obtain ⟨inner, refined⟩ := g.refined_of_refineBetween f h
  have seed := seedAccepted_of_seedEnds hseed
  have number := Scalar.Ordered.number_of_lt seed.range
  exact ⟨inner, refined, seed, Scalar.le_refl number.1, seed.range, Scalar.le_refl number.2⟩

/-- A run over an accepted seed between the limits of a refinement. -/
theorem exists_run_of_range {lower upper : α}
    (hseed : seedEnds g.rule.independent points = .ok (first, last))
    (hlimits : refinementRange first last lo hi = .ok (lower, upper))
    (h : g.refineBetween f points lower upper = ⟨events, .ok grid⟩) :
    ∃ inner, RangeAccepted first last lo hi lower upper ∧
      g.Run f points first last lower upper grid inner events := by
  obtain ⟨inner, refined⟩ := g.refined_of_refineBetween f h
  have seed := seedAccepted_of_seedEnds hseed
  have number := Scalar.Ordered.number_of_lt seed.range
  have range := rangeAccepted_of_refinementRange number.1 number.2 hlimits
  exact ⟨inner, range, refined, seed, range.above, range.range, range.below⟩

theorem run_of_generate {seed : List α} (h : g.generate f seed = ⟨events, .ok grid⟩) :
    ∃ first last inner, g.Run f seed first last first last grid inner events := by
  obtain ⟨first, last, hseed, hrun⟩ := generate_eq_ok.mp h
  obtain ⟨inner, run⟩ := exists_run_of_ends hseed hrun
  exact ⟨first, last, inner, run⟩

theorem run_of_refine (h : g.refine f points lo hi = ⟨events, .ok grid⟩) :
    ∃ first last lower upper inner, RangeAccepted first last lo hi lower upper ∧
      g.Run f points first last lower upper grid inner events := by
  obtain ⟨first, last, lower, upper, hseed, hlimits, hrun⟩ := refine_eq_ok.mp h
  obtain ⟨inner, range, run⟩ := exists_run_of_range hseed hlimits hrun
  exact ⟨first, last, lower, upper, inner, range, run⟩

set_option maxRecDepth 20000 in
theorem identity_sweep (allowed : Nat) :
    (standard .linear : LineGenerator Float).sweep (fun x => x) allowed ⟨1.0, 1.0⟩ [⟨2.0, 2.0⟩] =
      .succeed ⟨⟨1.0, 1.0⟩, [⟨2.0, 2.0⟩]⟩ := by
  have htest : (standard .linear : LineGenerator Float).test (fun x => x) ⟨1.0, 1.0⟩ ⟨2.0, 2.0⟩ =
      .ok (⟨1.5, 1.5⟩, .converged) := rfl
  rw [sweep, htest, sweep]
  rfl

theorem identity_generate :
    (standard .linear : LineGenerator Float).generate (fun x => x) [1.0, 2.0] =
      ⟨[], .ok ⟨⟨1.0, 1.0⟩, [⟨2.0, 2.0⟩]⟩⟩ := by
  change (sweep _ _ _ ⟨1.0, 1.0⟩ [⟨2.0, 2.0⟩]).andThen _ = _
  rw [identity_sweep]
  rfl

end LineGenerator
end AdaptiveTables
