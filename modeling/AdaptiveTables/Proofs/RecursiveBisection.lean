import AdaptiveTables.Proofs.LineRegeneration
import AdaptiveTables.Proofs.RefinementEnds
import AdaptiveTables.Proofs.SeedIntervals

/-!
The refinement on a line as a recursion. An interval is closed as it stands, or it is what its two
halves are, one after the other. The run over a work-list of all intervals at once succeeds exactly
where the recursion succeeds on each of them, and returns what the recursion returns, in order.
-/

namespace AdaptiveTables

/-- The refinement of an interval: its points up to the right end, which is left out, and the causes
for which intervals were closed before they had converged. -/
structure Stretch (α : Type) where
  nodes : List (Node α)
  causes : List (Dirty α)

namespace Stretch

variable {α : Type}

instance instAppend : Append (Stretch α) := ⟨fun s t => ⟨s.nodes ++ t.nodes, s.causes ++ t.causes⟩⟩

def warnings (s : Stretch α) : List (Event α) := s.causes.map (.warning .line)

@[simp]
theorem nodes_append (s t : Stretch α) : (s ++ t).nodes = s.nodes ++ t.nodes := rfl

@[simp]
theorem warnings_append (s t : Stretch α) : (s ++ t).warnings = s.warnings ++ t.warnings :=
  List.map_append

end Stretch

theorem LineGrid.exists_nodes {α : Type} {xs : List (Node α)} (h : xs ≠ []) :
    ∃ grid : LineGrid α, grid.nodes = xs := by
  obtain ⟨n, later, rfl⟩ := List.exists_cons_of_ne_nil h
  exact ⟨⟨n, later⟩, rfl⟩

namespace LineGenerator

variable {α : Type} [Scalar α]

/-- The verdict on the interval between two nodes. -/
def verdict (g : LineGenerator α) (f : α → α) (a b : Node α) : Verdict α :=
  let m := g.rule.midpoint a.x b.x
  g.settings.tolerances.checkInterval a.x m b.x (f m) (g.estimateAt a b)

section Steps

variable (g : LineGenerator α) (f : α → α)

/-- How the test of an interval goes that succeeds. -/
inductive Steps (a b : Node α) : List (Event α) → Option (Node α) → Prop
  | converged (admitted : g.rule.dependent.admits (f (g.rule.midpoint a.x b.x)) = true)
      (h : g.verdict f a b = .converged) : Steps a b [] none
  | dirty {cause : Dirty α}
      (admitted : g.rule.dependent.admits (f (g.rule.midpoint a.x b.x)) = true)
      (h : g.verdict f a b = .dirty cause) (reaction : g.settings.reaction = .warn) :
      Steps a b [.warning .line cause] none
  | split (admitted : g.rule.dependent.admits (f (g.rule.midpoint a.x b.x)) = true)
      (h : g.verdict f a b = .split) : Steps a b [] (some (nodeOf f (g.rule.midpoint a.x b.x)))

variable {g f} {a b : Node α} {events : List (Event α)} {found : Option (Node α)}

variable (g f a b) in
theorem step_eq_ite :
    g.step f a b =
      if g.rule.dependent.admits (f (g.rule.midpoint a.x b.x)) then
        if (g.verdict f a b).isAccepted then
          (g.report (g.verdict f a b)).andThen fun () => .succeed none
        else .succeed (some (nodeOf f (g.rule.midpoint a.x b.x)))
      else .fail (.invalidArgument
        (.unusableValue (f (g.rule.midpoint a.x b.x)) (g.rule.midpoint a.x b.x))) := by
  simp only [step, stepAt, testAt, node, nodeAt]
  by_cases admitted : g.rule.dependent.admits (f (g.rule.midpoint a.x b.x)) = true
  · simp only [if_pos admitted]
    rfl
  · simp only [if_neg admitted]
    rfl

theorem steps_of_step (h : g.step f a b = ⟨events, .ok found⟩) : g.Steps f a b events found := by
  rw [step_eq_ite] at h
  split at h
  next admitted =>
    cases hverdict : g.verdict f a b with
    | converged =>
        rw [hverdict] at h
        obtain ⟨rfl, rfl⟩ := Trace.succeed_eq_ok.mp h
        exact .converged admitted hverdict
    | dirty cause =>
        rw [hverdict] at h
        obtain ⟨_, ⟨⟩, _, hreport, hlast, rfl⟩ := Trace.andThen_eq_ok.mp h
        obtain ⟨hwarn, rfl⟩ := Trace.report_eq_ok.mp hreport
        obtain ⟨rfl, rfl⟩ := Trace.succeed_eq_ok.mp hlast
        exact .dirty admitted hverdict hwarn
    | split =>
        rw [hverdict] at h
        obtain ⟨rfl, rfl⟩ := Trace.succeed_eq_ok.mp h
        exact .split admitted hverdict
  next => exact absurd h Trace.fail_ne_ok

theorem Steps.admitted (h : g.Steps f a b events found) :
    g.rule.dependent.admits (f (g.rule.midpoint a.x b.x)) = true := by
  cases h with
  | converged admitted _ | dirty admitted _ _ | split admitted _ => exact admitted

theorem Steps.step_eq (h : g.Steps f a b events found) : g.step f a b = ⟨events, .ok found⟩ := by
  rw [step_eq_ite, if_pos h.admitted]
  cases h with
  | converged _ h =>
      rw [h]
      rfl
  | @dirty cause _ h reaction =>
      have hreport : g.report (.dirty cause) = Trace.log [.warning .line cause] := by
        change Trace.report g.settings.reaction .line cause = _
        rw [reaction]
        rfl
      rw [h, hreport]
      rfl
  | split _ h =>
      rw [h]
      rfl

theorem inside_of_split (h : g.verdict f a b = .split) :
    a.x < g.rule.midpoint a.x b.x ∧ g.rule.midpoint a.x b.x < b.x := by
  have refused : ¬(g.verdict f a b).isAccepted = true := by
    rw [h]
    exact Bool.false_ne_true
  exact g.settings.tolerances.inside_of_refused refused

variable {x : α} {ends : List α} {inner : List (Node α)}

theorem valued_of_sweeps
    (h : Sweeps (g.step f) (nodeOf f x) (ends.map (nodeOf f)) inner events) :
    ∀ n ∈ inner, n = nodeOf f n.x := by
  intro n hn
  cases h.mem_or_inserted n hn with
  | inl hends =>
      rw [← List.map_cons] at hends
      obtain ⟨y, _, rfl⟩ := List.mem_map.mp hends
      rfl
  | inr hinserted =>
      obtain ⟨_, _, _, tested⟩ := hinserted
      cases steps_of_step tested.test_eq with
      | split _ _ => rfl

/-- Every point that is not an end was inserted between two points whose interval was refused. -/
theorem inserted_of_sweeps
    (h : Sweeps (g.step f) (nodeOf f x) (ends.map (nodeOf f)) inner events) :
    ∀ n ∈ inner, n.x ∈ x :: ends ∨ ∃ a b, [nodeOf f a, n, nodeOf f b].Sublist inner ∧
      n = nodeOf f (g.rule.midpoint a b) ∧ g.verdict f (nodeOf f a) (nodeOf f b) = .split := by
  intro n hn
  cases h.mem_or_inserted n hn with
  | inl hends =>
      rw [← List.map_cons] at hends
      obtain ⟨y, hy, rfl⟩ := List.mem_map.mp hends
      exact Or.inl hy
  | inr hinserted =>
      obtain ⟨a, b, _, tested⟩ := hinserted
      cases tested with
      | split hstep between =>
          rw [valued_of_sweeps h a (between.subset (by simp)),
            valued_of_sweeps h b (between.subset (by simp))] at hstep between
          refine Or.inr ⟨a.x, b.x, between, ?_⟩
          cases steps_of_step hstep with
          | split _ hverdict => exact ⟨rfl, hverdict⟩

end Steps

/-- Refines an interval by recursion. There is no answer if a value is not admitted, or if an
interval is dirty and such intervals are errors. -/
def stretch? [Scalar.Ordered α] [Resolution α] [Resolution.Lawful α] (g : LineGenerator α)
    (f : α → α) (a b : α) : Option (Stretch α) :=
  let m := g.rule.midpoint a b
  if g.rule.dependent.admits (f a) && g.rule.dependent.admits (f b) &&
      g.rule.dependent.admits (f m) then
    match _h : g.verdict f (nodeOf f a) (nodeOf f b) with
    | .converged => some ⟨[nodeOf f a], []⟩
    | .dirty cause =>
      match g.settings.reaction with
      | .warn => some ⟨[nodeOf f a], [cause]⟩
      | .throw => none
    | .split => do
      let lower ← g.stretch? f a m
      let upper ← g.stretch? f m b
      return lower ++ upper
  else none
termination_by Resolution.valuesAbove a b
decreasing_by
  · obtain ⟨ham, hmb⟩ := inside_of_split _h
    exact Resolution.Lawful.below_lt ham hmb
  · obtain ⟨ham, hmb⟩ := inside_of_split _h
    exact Resolution.Lawful.above_lt ham (Scalar.le_of_lt hmb)

section Recursion

variable [Scalar.Ordered α] [Resolution α] [Resolution.Lawful α] {g : LineGenerator α} {f : α → α}
  {a b : α} {s : Stretch α}

theorem stretch?_of_admits (ha : g.rule.dependent.admits (f a) = true)
    (hb : g.rule.dependent.admits (f b) = true)
    (hm : g.rule.dependent.admits (f (g.rule.midpoint a b)) = true) :
    g.stretch? f a b =
      match g.verdict f (nodeOf f a) (nodeOf f b) with
      | .converged => some ⟨[nodeOf f a], []⟩
      | .dirty cause =>
        match g.settings.reaction with
        | .warn => some ⟨[nodeOf f a], [cause]⟩
        | .throw => none
      | .split =>
        (g.stretch? f a (g.rule.midpoint a b)).bind fun lower =>
          (g.stretch? f (g.rule.midpoint a b) b).bind fun upper => some (lower ++ upper) := by
  rw [stretch?]
  simp only [ha, hb, hm, Bool.and_self, if_true]
  split
  next h => rw [h]
  next h => rw [h]
  next h =>
    rw [h]
    rfl

/-- An interval is closed by its test, or its halves are refined. -/
theorem stretch?_eq_some :
    g.stretch? f a b = some s ↔
      g.rule.dependent.admits (f a) = true ∧ g.rule.dependent.admits (f b) = true ∧
        ((∃ causes, g.Steps f (nodeOf f a) (nodeOf f b) (causes.map (.warning .line)) none ∧
            s = ⟨[nodeOf f a], causes⟩) ∨
          ∃ lower upper,
            g.Steps f (nodeOf f a) (nodeOf f b) [] (some (nodeOf f (g.rule.midpoint a b))) ∧
            g.stretch? f a (g.rule.midpoint a b) = some lower ∧
            g.stretch? f (g.rule.midpoint a b) b = some upper ∧ s = lower ++ upper) := by
  constructor
  · intro h
    by_cases admitted : (g.rule.dependent.admits (f a) && g.rule.dependent.admits (f b) &&
      g.rule.dependent.admits (f (g.rule.midpoint a b))) = true
    · simp only [Bool.and_eq_true] at admitted
      obtain ⟨⟨ha, hb⟩, hm⟩ := admitted
      refine ⟨ha, hb, ?_⟩
      rw [stretch?_of_admits ha hb hm] at h
      split at h
      next hverdict => exact Or.inl ⟨[], .converged hm hverdict, (Option.some.inj h).symm⟩
      next cause hverdict =>
        split at h
        next hwarn => exact Or.inl ⟨[cause], .dirty hm hverdict hwarn, (Option.some.inj h).symm⟩
        next => cases h
      next hverdict =>
        obtain ⟨lower, hlower, h⟩ := Option.bind_eq_some_iff.mp h
        obtain ⟨upper, hupper, h⟩ := Option.bind_eq_some_iff.mp h
        exact Or.inr ⟨lower, upper, .split hm hverdict, hlower, hupper, (Option.some.inj h).symm⟩
    · rw [stretch?, if_neg admitted] at h
      cases h
  · rintro ⟨ha, hb, ⟨causes, closed, rfl⟩ | ⟨lower, upper, halved, hlower, hupper, rfl⟩⟩
    · generalize hevents : causes.map (Event.warning .line) = events at closed
      cases closed with
      | converged hm hverdict =>
          obtain rfl := List.map_eq_nil_iff.mp hevents
          rw [stretch?_of_admits ha hb hm, hverdict]
      | dirty hm hverdict hwarn =>
          obtain ⟨cause, rfl, hcause⟩ := List.map_eq_singleton_iff.mp hevents
          cases hcause
          rw [stretch?_of_admits ha hb hm, hverdict, hwarn]
    · cases halved with
      | split hm hverdict =>
          rw [stretch?_of_admits ha hb hm, hverdict]
          simp [hlower, hupper]

variable {nodes inner : List (Node α)} {events : List (Event α)}

/-- A derivation of an interval is what the recursion returns. -/
theorem exists_stretch_of_refines {start stop : Node α}
    (h : Refines (g.step f) start stop nodes events) (hstart : start = nodeOf f a)
    (hstop : stop = nodeOf f b) (ha : g.rule.dependent.admits (f a) = true)
    (hb : g.rule.dependent.admits (f b) = true) :
    ∃ s, g.stretch? f a b = some s ∧ s.nodes = nodes ∧ s.warnings = events := by
  induction h generalizing a b with
  | @accept _ _ events accepted =>
      subst hstart hstop
      have steps := steps_of_step accepted
      have hcauses : ∃ causes : List (Dirty α), events = causes.map (.warning .line) := by
        cases steps with
        | converged _ _ => exact ⟨[], rfl⟩
        | dirty _ _ _ => exact ⟨[_], rfl⟩
      obtain ⟨causes, rfl⟩ := hcauses
      exact ⟨_, stretch?_eq_some.mpr ⟨ha, hb, Or.inl ⟨causes, steps, rfl⟩⟩, rfl, rfl⟩
  | split inserted _ _ ihl ihu =>
      subst hstart hstop
      have steps := steps_of_step inserted
      cases steps with
      | split hm hverdict =>
          obtain ⟨lower, hlower, rfl, rfl⟩ := ihl rfl rfl ha hm
          obtain ⟨upper, hupper, rfl, rfl⟩ := ihu rfl rfl hm hb
          refine ⟨lower ++ upper, stretch?_eq_some.mpr ⟨ha, hb, Or.inr ?_⟩, rfl, ?_⟩
          · exact ⟨lower, upper, .split hm hverdict, hlower, hupper, rfl⟩
          · rw [Stretch.warnings_append, List.nil_append]

/-- What the recursion returns has a derivation. -/
theorem refines_of_stretch (h : g.stretch? f a b = some s) :
    Refines (g.step f) (nodeOf f a) (nodeOf f b) s.nodes s.warnings := by
  induction hroom : Resolution.valuesAbove a b using Nat.strong_induction_on
    generalizing a b s with
  | h room ih =>
      obtain ⟨_, _, ⟨causes, closed, rfl⟩ | ⟨lower, upper, halved, hlower, hupper, rfl⟩⟩ :=
        stretch?_eq_some.mp h
      · exact .accept closed.step_eq
      · have inserted := halved.step_eq
        cases halved with
        | split _ hverdict =>
            obtain ⟨ham, hmb⟩ := inside_of_split hverdict
            have left := ih _ (hroom ▸ Resolution.Lawful.below_lt ham hmb) hlower rfl
            have right := ih _ (hroom ▸ Resolution.Lawful.above_lt ham (Scalar.le_of_lt hmb))
              hupper rfl
            rw [Stretch.nodes_append, Stretch.warnings_append,
              ← List.nil_append (lower.warnings ++ upper.warnings)]
            exact .split inserted left right

/-- The recursion succeeds on every interval between neighbours of a list, and these are its
results, one after the other, with the last point after them. -/
def Stretches (g : LineGenerator α) (f : α → α) (points : List α) (nodes : List (Node α))
    (events : List (Event α)) : Prop :=
  ∃ stretches, List.Forall₂ (fun p s => g.stretch? f p.1 p.2 = some s) (adjacent points) stretches ∧
    nodes = stretches.flatMap (·.nodes) ++ points.getLast?.toList.map (nodeOf f) ∧
    events = stretches.flatMap (·.warnings)

theorem stretches_cons {rest : List α} {inner : List (Node α)} {later : List (Event α)}
    (first : g.stretch? f a b = some s) (others : g.Stretches f (b :: rest) inner later) :
    g.Stretches f (a :: b :: rest) (s.nodes ++ inner) (s.warnings ++ later) := by
  obtain ⟨stretches, each, rfl, rfl⟩ := others
  refine ⟨s :: stretches, .cons first each, ?_, List.flatMap_cons.symm⟩
  rw [List.flatMap_cons, List.append_assoc, List.getLast?_cons_cons]

theorem stretches_of_sweeps {ends : List α}
    (admitted : ∀ x ∈ a :: ends, g.rule.dependent.admits (f x) = true)
    (h : Sweeps (g.step f) (nodeOf f a) (ends.map (nodeOf f)) inner events) :
    g.Stretches f (a :: ends) inner events := by
  induction ends generalizing a inner events with
  | nil =>
      cases h
      exact ⟨[], .nil, rfl, rfl⟩
  | cons b ends ih =>
      have rest : ∀ x ∈ b :: ends, g.rule.dependent.admits (f x) = true := fun x hx =>
        admitted x (List.mem_cons_of_mem _ hx)
      cases h with
      | interval first others =>
          obtain ⟨s, hs, rfl, rfl⟩ := exists_stretch_of_refines first rfl rfl
            (admitted a List.mem_cons_self) (rest b List.mem_cons_self)
          exact stretches_cons hs (ih rest others)

theorem sweeps_of_stretches {ends : List α} (h : g.Stretches f (a :: ends) inner events) :
    Sweeps (g.step f) (nodeOf f a) (ends.map (nodeOf f)) inner events := by
  obtain ⟨stretches, each, rfl, rfl⟩ := h
  induction ends generalizing a stretches with
  | nil =>
      cases each
      exact .done
  | cons b ends ih =>
      rw [adjacent_cons_cons] at each
      cases each with
      | cons first others =>
          rw [List.flatMap_cons, List.flatMap_cons, List.append_assoc, List.getLast?_cons_cons]
          exact .interval (refines_of_stretch first) (ih _ others)

theorem Stretches.admits {ends : List α} (h : g.Stretches f (a :: b :: ends) inner events) :
    ∀ x ∈ a :: b :: ends, g.rule.dependent.admits (f x) = true := by
  obtain ⟨stretches, each, _⟩ := h
  have pairs : ∀ p ∈ adjacent (a :: b :: ends), g.rule.dependent.admits (f p.1) = true ∧
      g.rule.dependent.admits (f p.2) = true := by
    intro p hp
    obtain ⟨s, hs⟩ := exists_forall₂_iff.mp ⟨_, each⟩ p hp
    obtain ⟨ha, hb, _⟩ := stretch?_eq_some.mp hs
    exact ⟨ha, hb⟩
  have first := pairs (a, b) (by rw [adjacent_cons_cons]; exact List.mem_cons_self)
  exact forall_of_adjacent first.1 fun p hp => (pairs p hp).2

variable {points : List α} {lo hi : α} {grid : LineGrid α}

/-- A sweep over a range succeeds exactly if it has a derivation, since it is allowed as many
insertions as the range has values. -/
theorem sweep_eq_ok_iff (ascending : points.Pairwise (· < ·)) (range : lo < hi) :
    g.sweep f (Resolution.valuesAbove lo hi) (nodeOf f lo)
        ((rightEnds points lo hi).map (nodeOf f)) = ⟨events, .ok grid⟩ ↔
      Sweeps (g.step f) (nodeOf f lo) ((rightEnds points lo hi).map (nodeOf f)) grid.nodes
        events := by
  constructor
  · exact g.sweeps_of_sweep f
  · intro h
    have enough : grid.nodes.length ≤ Resolution.valuesAbove lo hi + 1 :=
      Worklist.length_of_sweeps (g.stepAt_midpoint f ▸ inside_of_stepAt)
        (fallsWithin_valuesAbove lo hi) (within_nodes f ascending range) h
    have hlast := h.getLast?
    rw [List.getLast?_cons, ← List.getLastD_eq_getLast?] at hlast
    have hgrid : grid.nodes.dropLast.foldr LineGrid.cons
        ⟨((rightEnds points lo hi).map (nodeOf f)).getLastD (nodeOf f lo), []⟩ = grid := by
      refine LineGrid.eq_of_nodes ?_
      rw [LineGrid.nodes_foldr_cons]
      exact List.dropLast_append_getLast? _ hlast
    rw [sweep_eq_bisect, bisect_of_sweeps h (by omega)]
    simp only [Trace.andThen, Trace.succeed, List.append_nil, hgrid]

/-- What a run over a range consists of that succeeds: the recursion on every interval of the range,
between the points outside of it, where the function is finite. -/
theorem refineBetween_eq_ok_iff (ascending : points.Pairwise (· < ·)) (range : lo < hi) :
    g.refineBetween f points lo hi = ⟨events, .ok grid⟩ ↔
      (∀ x ∈ points.takeWhile (· < lo), Scalar.isFinite (f x) = true) ∧
        (∀ x ∈ points.filter (hi < ·), Scalar.isFinite (f x) = true) ∧
        ∃ inner, g.Stretches f (lo :: rightEnds points lo hi) inner events ∧
          grid.nodes = (points.takeWhile (· < lo)).map (nodeOf f) ++
            (inner ++ (points.filter (hi < ·)).map (nodeOf f)) := by
  constructor
  · intro h
    obtain ⟨below, ends, above⟩ := usable_of_refineBetween h
    obtain ⟨inner, refined⟩ := g.refined_of_refineBetween f h
    exact ⟨below, above, inner, stretches_of_sweeps ends refined.sweeps, refined.nodes⟩
  · rintro ⟨below, above, inner, stretches, hnodes⟩
    have sweeps := sweeps_of_stretches stretches
    obtain ⟨ys, rfl⟩ := sweeps.exists_cons
    have hsweep : g.sweep f (Resolution.valuesAbove lo hi) (nodeOf f lo)
        ((rightEnds points lo hi).map (nodeOf f)) = ⟨events, .ok ⟨nodeOf f lo, ys⟩⟩ :=
      (sweep_eq_ok_iff ascending range).mpr sweeps
    have ends : ∀ x ∈ lo :: rightEnds points lo hi, g.rule.dependent.admits (f x) = true := by
      obtain ⟨x, hx, _⟩ := (rightEnds_spec ascending range).getLast
      obtain ⟨b, rest, hcons⟩ :=
        List.exists_cons_of_ne_nil (List.ne_nil_of_mem (List.mem_of_getLast? hx))
      rw [hcons] at stretches ⊢
      exact stretches.admits
    rw [refineBetween_of_usable below ends above, hsweep]
    have hgrid : LineGrid.surround ((points.takeWhile (· < lo)).map (nodeOf f)) ⟨nodeOf f lo, ys⟩
        ((points.filter (hi < ·)).map (nodeOf f)) = grid :=
      LineGrid.eq_of_nodes ((LineGrid.nodes_surround ..).trans hnodes.symm)
    simp only [Trace.andThen, Trace.succeed, List.append_nil, hgrid]

end Recursion

section Seeds

variable [Scalar.Ordered α] {scale : Scale} {rest : List α} {first last : α}

/-- A seed has its own points as right ends, and none outside of its ends. -/
theorem parts_of_seedAccepted (h : SeedAccepted scale (first :: rest) first last) :
    (first :: rest).takeWhile (· < first) = [] ∧ rightEnds (first :: rest) first last = rest ∧
      (first :: rest).filter (last < ·) = [] := by
  have above : ∀ x ∈ rest, first < x := (List.pairwise_cons.mp h.ascending).1
  have below : ∀ x ∈ first :: rest, x ≤ last := h.le_last
  have hlast : (last == last) = true := (Scalar.Ordered.number_of_lt h.range).2
  refine ⟨?_, ?_, ?_⟩
  · exact List.takeWhile_cons_of_neg (by simp [Scalar.Ordered.lt_irrefl])
  · have hinside : (first :: rest).filter (fun x => first < x && x ≤ last) = rest := by
      rw [List.filter_cons_of_neg (by simp [Scalar.Ordered.lt_irrefl])]
      refine List.filter_eq_self.mpr fun x hx => ?_
      simp [above x hx, below x (List.mem_cons_of_mem _ hx)]
    have hend : rest.getLast? = some last := by
      have getLast := h.getLast
      cases rest with
      | nil =>
          obtain rfl := Option.some.inj getLast
          exact absurd h.range (Scalar.Ordered.lt_irrefl _)
      | cons b rest => rwa [List.getLast?_cons_cons] at getLast
    simp only [rightEnds, hinside, hend, hlast, if_true]
  · refine List.filter_eq_nil_iff.mpr fun x hx => ?_
    simp [Scalar.not_lt_of_le (below x hx)]

variable [Resolution α] [Resolution.Lawful α] {g : LineGenerator α} {f : α → α} {seed : List α}
  {events : List (Event α)} {grid : LineGrid α}

omit [Scalar.Ordered α] [Resolution.Lawful α] in
theorem generate_of_seedEnds (accepted : seedEnds g.rule.independent seed = .ok (first, last)) :
    g.generate f seed = g.refineBetween f seed first last := by
  rw [generate, accepted]
  rfl

theorem generate_eq_ok_iff (h : SeedAccepted g.rule.independent seed first last) :
    g.generate f seed = ⟨events, .ok grid⟩ ↔ g.Stretches f seed grid.nodes events := by
  have hrun : g.generate f seed = g.refineBetween f seed first last :=
    generate_of_seedEnds (seedEnds_of_seedAccepted h)
  obtain ⟨rest, rfl⟩ := List.head?_eq_some_iff.mp h.head
  obtain ⟨hbelow, hends, habove⟩ := parts_of_seedAccepted h
  rw [hrun, refineBetween_eq_ok_iff h.ascending h.range, hbelow, hends, habove]
  simp

end Seeds

/-- A generator that accepts an error of one part in twenty. -/
def coarse : LineGenerator Float := ⟨.linear, ⟨⟨0.05, 1e-14, 1e-12⟩, .warn, false⟩⟩

def square (x : Float) : Float := x * x

set_option maxRecDepth 20000 in
theorem stretch?_square :
    coarse.stretch? square 1.0 2.0 = some ⟨[⟨1.0, 1.0⟩, ⟨1.5, 2.25⟩], []⟩ := by
  have middle : coarse.rule.midpoint (1.0 : Float) 2.0 = 1.5 := rfl
  have whole : coarse.verdict square (nodeOf square 1.0) (nodeOf square 2.0) = .split := rfl
  have left : coarse.verdict square (nodeOf square 1.0) (nodeOf square 1.5) = .converged := rfl
  have right : coarse.verdict square (nodeOf square 1.5) (nodeOf square 2.0) = .converged := rfl
  have lower : coarse.stretch? square 1.0 1.5 = some ⟨[⟨1.0, 1.0⟩], []⟩ := by
    rw [stretch?_of_admits rfl rfl rfl, left]
    rfl
  have upper : coarse.stretch? square 1.5 2.0 = some ⟨[⟨1.5, 2.25⟩], []⟩ := by
    rw [stretch?_of_admits rfl rfl rfl, right]
    rfl
  rw [stretch?_of_admits rfl rfl rfl, whole, middle]
  simp only [lower, upper]
  rfl

theorem generate_square :
    coarse.generate square [1.0, 2.0] =
      ⟨[], .ok ⟨⟨1.0, 1.0⟩, [⟨1.5, 2.25⟩, ⟨2.0, 4.0⟩]⟩⟩ := by
  have accepted : seedEnds coarse.rule.independent [1.0, 2.0] = .ok ((1.0 : Float), 2.0) := rfl
  exact (generate_eq_ok_iff (seedAccepted_of_seedEnds accepted)).mpr
    ⟨[_], .cons stretch?_square .nil, rfl, rfl⟩

/-- The run over a seed is the recursion on each of its intervals, from left to right. Every point
that it adds was inserted between two points of the grid whose interval was refused. -/
theorem generate_bisects [Scalar.Ordered α] [Resolution α] [Resolution.Lawful α]
    (g : LineGenerator α) (f : α → α) {seed : List α} {first last : α}
    (accepted : seedEnds g.rule.independent seed = .ok (first, last)) :
    (∀ events grid, g.generate f seed = ⟨events, .ok grid⟩ ↔
      ∃ stretches : List (Stretch α),
        List.Forall₂ (fun p s => g.stretch? f p.1 p.2 = some s) (adjacent seed) stretches ∧
        grid.nodes = stretches.flatMap (·.nodes) ++ [nodeOf f last] ∧
        events = stretches.flatMap (·.warnings)) ∧
    ((∃ events grid, g.generate f seed = ⟨events, .ok grid⟩) ↔
      ∀ p ∈ adjacent seed, (g.stretch? f p.1 p.2).isSome = true) ∧
    ∀ events grid, g.generate f seed = ⟨events, .ok grid⟩ →
      ∀ n ∈ grid.nodes, n.x ∈ seed ∨ ∃ a b, [nodeOf f a, n, nodeOf f b].Sublist grid.nodes ∧
        n = nodeOf f (g.rule.midpoint a b) ∧ g.verdict f (nodeOf f a) (nodeOf f b) = .split := by
  have h := seedAccepted_of_seedEnds accepted
  have hlast : seed.getLast?.toList.map (nodeOf f) = [nodeOf f last] := by
    rw [h.getLast]
    rfl
  have runs (events : List (Event α)) (grid : LineGrid α) :
      g.generate f seed = ⟨events, .ok grid⟩ ↔
        ∃ stretches : List (Stretch α),
          List.Forall₂ (fun p s => g.stretch? f p.1 p.2 = some s) (adjacent seed) stretches ∧
          grid.nodes = stretches.flatMap (·.nodes) ++ [nodeOf f last] ∧
          events = stretches.flatMap (·.warnings) := by
    rw [generate_eq_ok_iff h, Stretches, hlast]
  refine ⟨runs, ?_, ?_⟩
  · simp only [Option.isSome_iff_exists, ← exists_forall₂_iff]
    constructor
    · rintro ⟨events, grid, run⟩
      obtain ⟨stretches, each, _⟩ := (runs events grid).mp run
      exact ⟨stretches, each⟩
    · rintro ⟨stretches, each⟩
      obtain ⟨grid, hgrid⟩ := LineGrid.exists_nodes
        (List.concat_ne_nil (nodeOf f last) (stretches.flatMap (·.nodes)))
      exact ⟨_, grid, (runs _ grid).mpr ⟨stretches, each, hgrid, rfl⟩⟩
  · intro events grid run
    have stretches := (generate_eq_ok_iff h).mp run
    obtain ⟨rest, rfl⟩ := List.head?_eq_some_iff.mp h.head
    exact inserted_of_sweeps (sweeps_of_stretches stretches)

/-- The recursion on a square, and the run that it stands for. -/
theorem generate_bisects_square :
    seedEnds coarse.rule.independent [1.0, 2.0] = .ok ((1.0 : Float), 2.0) ∧
      coarse.stretch? square 1.0 2.0 = some ⟨[⟨1.0, 1.0⟩, ⟨1.5, 2.25⟩], []⟩ ∧
      coarse.generate square [1.0, 2.0] =
        ⟨[], .ok ⟨⟨1.0, 1.0⟩, [⟨1.5, 2.25⟩, ⟨2.0, 4.0⟩]⟩⟩ := by
  have accepted : seedEnds coarse.rule.independent [1.0, 2.0] = .ok ((1.0 : Float), 2.0) := rfl
  obtain ⟨runs, _, _⟩ := generate_bisects coarse square accepted
  exact ⟨accepted, stretch?_square,
    (runs _ _).mpr ⟨[_], .cons stretch?_square .nil, rfl, rfl⟩⟩

end LineGenerator
end AdaptiveTables
