import AdaptiveTables.Proofs.MergedSeed
import AdaptiveTables.Proofs.PlaneRuns
import AdaptiveTables.Proofs.RefinementTurns

/-!
Every refinement ends. Points are inserted strictly inside intervals, so there is room for as many
of them as the range has values, whatever the function, the tolerances and the midpoints are. The
allowance of a run is at least that number, and no run is cut short by it.
-/

namespace AdaptiveTables

namespace Trace

variable {α β γ : Type}

/-- A run that had a value left for every point that it was to insert. -/
def Resolved (t : Trace α β) : Prop := t.outcome ≠ .error .unresolved

theorem resolved_succeed (v : β) : (succeed v : Trace α β).Resolved := by
  intro h
  cases h

theorem resolved_fail {e : GridError α} (h : e ≠ .unresolved) :
    (fail e : Trace α β).Resolved := fun heq => h (Except.error.inj heq)

theorem resolved_log (events : List (Event α)) : (log events).Resolved := by
  intro h
  cases h

theorem resolved_ofExcept {r : Except (GridError α) β} (h : r ≠ .error .unresolved) :
    (ofExcept r).Resolved := by
  cases r with
  | ok v => exact resolved_succeed v
  | error e => exact resolved_fail fun heq => h (heq ▸ rfl)

theorem resolved_ofTable (r : Except (TableError α) β) : (ofTable r).Resolved := by
  cases r with
  | ok v => exact resolved_succeed v
  | error e => exact resolved_fail (by simp)

theorem resolved_report (reaction : Reaction) (origin : Origin) (cause : Dirty α) :
    (report reaction origin cause).Resolved := by
  cases reaction with
  | warn => exact resolved_log _
  | throw => exact resolved_fail (by simp)

theorem Resolved.andThen {t : Trace α β} {f : β → Trace α γ} (ht : t.Resolved)
    (hf : ∀ events v, t = ⟨events, .ok v⟩ → (f v).Resolved) : (t.andThen f).Resolved := by
  obtain ⟨events, outcome⟩ := t
  cases outcome with
  | error e => exact fun heq => ht (congrArg Except.error (Except.error.inj heq))
  | ok v => exact hf events v rfl

theorem resolved_each {f : β → Trace α γ} {bs : List β} (h : ∀ b ∈ bs, (f b).Resolved) :
    (each f bs).Resolved := by
  induction bs with
  | nil => exact resolved_succeed []
  | cons b bs ih =>
      refine (h b List.mem_cons_self).andThen fun _ c _ => ?_
      refine (ih fun b' hb' => h b' (List.mem_cons_of_mem _ hb')).andThen fun _ cs _ => ?_
      exact resolved_succeed (c :: cs)

end Trace

open Trace

namespace Worklist

section Loops

variable {α β : Type} {test : β → β → Trace α (Option β)}

/-- A loop is cut short by its tests only. -/
theorem resolved_of_halts (tests : ∀ a b, (test a b).Resolved) {s last : Trace α (Worklist β)}
    {turns : Nat} (halts : Halts (turn test) s turns last) (start : s.Resolved) :
    last.Resolved := by
  refine halts.keeps (fun u v h kept => ?_) start
  simp only [turn] at h
  split at h
  next => cases h
  next => cases h
  next accepted a b rest _ =>
    obtain rfl := Option.some.inj h
    refine kept.andThen fun _ _ _ => (tests a b).andThen fun _ verdict _ => ?_
    cases verdict with
    | none | some => exact resolved_succeed _

end Loops

variable {α β : Type} [Scalar α] {x : β → α} {lo hi : α}

/-- An interval inside a range, by the coordinates of its ends. -/
def Within (x : β → α) (lo hi : α) (a b : β) : Prop := lo ≤ x a ∧ x a < x b ∧ x b ≤ hi

/-- Neighbours of a strictly ascending list inside a range span intervals inside it. -/
theorem within_of_ascending {xs : List β} (ascending : (xs.map x).Pairwise (· < ·))
    (inside : ∀ c ∈ xs, lo ≤ x c ∧ x c ≤ hi) : ∀ p ∈ adjacent xs, Within x lo hi p.1 p.2 := by
  intro p hp
  obtain ⟨hp₁, hp₂⟩ := mem_of_adjacent hp
  exact ⟨(inside p.1 hp₁).1, adjacent_of_pairwise (List.pairwise_map.mp ascending) p hp,
    (inside p.2 hp₂).2⟩

variable [Scalar.Ordered α] {test : β → β → Trace α (Option β)}

theorem within_halves {a m b : β} (inside : x a < x m ∧ x m < x b) (h : Within x lo hi a b) :
    Within x lo hi a m ∧ Within x lo hi m b := by
  obtain ⟨hlo, _, hhi⟩ := h
  obtain ⟨ham, hmb⟩ := inside
  exact ⟨⟨hlo, ham, Scalar.le_trans (Scalar.le_of_lt hmb) hhi⟩,
    Scalar.le_trans hlo (Scalar.le_of_lt ham), hmb, hhi⟩

omit [Scalar.Ordered α] in
theorem falls_of_within {room : α → Nat} (falls : FallsWithin lo hi room) {a b : β}
    (h : Within x lo hi a b) : room (x b) < room (x a) := falls h.1 h.2.1 h.2.2

/-- A refinement inside a range has no more points above its left end than there is room for. -/
theorem length_of_sweeps
    (inside : ∀ {a m b events}, test a b = ⟨events, .ok (some m)⟩ → x a < x m ∧ x m < x b)
    {room : α → Nat} (falls : FallsWithin lo hi room) {a : β} {pending xs : List β}
    (chain : ∀ p ∈ adjacent (a :: pending), Within x lo hi p.1 p.2) {events : List (Event α)}
    (h : Sweeps test a pending xs events) : xs.length ≤ room (x a) + 1 := by
  have pairs := h.neighbours (R := Within x lo hi)
    (fun hsplit => within_halves (inside hsplit)) chain
  obtain ⟨ys, rfl⟩ := h.exists_cons
  have fits := length_le_room (R := Within x lo hi) (falls_of_within falls)
    fun p hp => (pairs p hp).1
  exact Nat.succ_le_succ fits

/-- The loop over intervals inside a range ends in twice as many turns as there is room for points
above its left end, with the answer of the recursion. -/
theorem exists_halts
    (inside : ∀ {a m b events}, test a b = ⟨events, .ok (some m)⟩ → x a < x m ∧ x m < x b)
    {room : α → Nat} (falls : FallsWithin lo hi room) {a : β} {pending : List β}
    (chain : ∀ p ∈ adjacent (a :: pending), Within x lo hi p.1 p.2) {allowed : Nat}
    (enough : room (x a) ≤ allowed) :
    ∃ turns last, turns ≤ 2 * room (x a) ∧
      Halts (turn test) (.succeed ⟨[], a, pending⟩) turns last ∧
      (last.andThen fun w => .succeed w.accepted) = bisect test allowed a pending := by
  obtain ⟨turns, last, bound, halts, answer⟩ :=
    halts_of_falls (R := Within x lo hi) (fun h => within_halves (inside h))
      (falls_of_within falls) chain (Nat.le_add_right_of_le enough) [] []
  refine ⟨turns, last, Nat.le_of_add_right_le bound, halts, ?_⟩
  rw [answer, List.nil_append]
  cases h : bisect test allowed a pending with
  | mk events outcome => cases outcome <;> rfl

variable [Resolution α] [Resolution.Lawful α]

/-- The recursion is not cut short if as many insertions are allowed as the range has values. -/
theorem resolved_bisect (tests : ∀ a b, (test a b).Resolved)
    (inside : ∀ {a m b events}, test a b = ⟨events, .ok (some m)⟩ → x a < x m ∧ x m < x b)
    {a : β} {pending : List β} (chain : ∀ p ∈ adjacent (a :: pending), Within x (x a) hi p.1 p.2) :
    (bisect test (Resolution.valuesAbove (x a) hi) a pending).Resolved := by
  obtain ⟨_, last, _, halts, answer⟩ :=
    exists_halts inside (fallsWithin_valuesAbove (x a) hi) chain (Nat.le_refl _)
  rw [← answer]
  exact (resolved_of_halts tests halts (resolved_succeed _)).andThen fun _ _ _ =>
    resolved_succeed _

end Worklist

variable {α : Type}

theorem resolved_nodeAt (f : α → α) (usable : α → Bool) (x : α) :
    (ofExcept (nodeAt f usable x)).Resolved := by
  refine resolved_ofExcept ?_
  simp only [nodeAt]
  split
  next => simp
  next => simp

variable [Scalar α]

theorem resolved_seedEnds (scale : Scale) (seed : List α) :
    (ofExcept (seedEnds scale seed)).Resolved := by
  refine resolved_ofExcept ?_
  simp only [seedEnds]
  split
  next =>
    split
    next => simp
    next =>
      split
      next => simp
      next => simp
  next => simp

/-- Every point between the limits of a range is within them. -/
theorem RightEnds.inside [Scalar.Ordered α] {points ends : List α} {lo hi : α}
    (h : RightEnds points lo hi ends) (range : lo < hi) : ∀ x ∈ lo :: ends, lo ≤ x ∧ x ≤ hi := by
  obtain ⟨last, hlast, heq⟩ := h.getLast
  have hle := (Scalar.beq_iff_le.mp heq).1
  have hends : (lo :: ends).getLast? = some last := by
    rw [List.getLast?_cons, hlast]
    rfl
  intro x hx
  obtain ⟨hlow, hhigh⟩ := eq_or_lt_of_ends h.ascending rfl hends x hx
  constructor
  · cases hlow with
    | inl heq =>
        rw [heq]
        exact Scalar.le_refl (Scalar.Ordered.number_of_lt range).1
    | inr hlt => exact Scalar.le_of_lt hlt
  · cases hhigh with
    | inl heq => exact heq ▸ hle
    | inr hlt => exact Scalar.le_trans (Scalar.le_of_lt hlt) hle

namespace LineGenerator

variable (g : LineGenerator α) (midpoint : α → α → α) (f : α → α)

omit [Scalar α] in
theorem resolved_report (verdict : Verdict α) : (g.report verdict).Resolved := by
  rw [report]
  split
  next => exact Trace.resolved_report _ _ _
  next => exact resolved_succeed ()

theorem resolved_stepAt (a b : Node α) : (g.stepAt midpoint f a b).Resolved := by
  rw [stepAt]
  split
  next e h =>
    have resolved := resolved_nodeAt f g.rule.dependent.admits (midpoint a.x b.x)
    rw [← node, testAt_eq_error h] at resolved
    exact resolved_fail fun heq => resolved (heq ▸ rfl)
  next m verdict _ =>
    split
    next => exact (g.resolved_report _).andThen fun _ _ _ => resolved_succeed _
    next => exact resolved_succeed _

/-- The loop over the intervals between two limits ends after at most so many turns. With the
midpoints of the rule its answer is that of the run. -/
def EndsWithin [Resolution α] (points : List α) (lo hi : α) (bound : Nat) : Prop :=
  let start := nodeOf f lo
  let ends := (rightEnds points lo hi).map (nodeOf f)
  ∃ turns last, turns ≤ bound ∧
    Halts (Worklist.turn (g.stepAt midpoint f)) (.succeed ⟨[], start, ends⟩) turns last ∧
    last.Resolved ∧
    (midpoint = g.rule.midpoint → g.sweep f (Resolution.valuesAbove lo hi) start ends =
      last.andThen fun w => .succeed (w.accepted.foldr LineGrid.cons ⟨ends.getLastD start, []⟩))

variable [Scalar.Ordered α] {points : List α} {lo hi : α}

omit midpoint in
theorem within_nodes (ascending : points.Pairwise (· < ·)) (range : lo < hi) :
    ∀ p ∈ adjacent (nodeOf f lo :: (rightEnds points lo hi).map (nodeOf f)),
      Worklist.Within (·.x) lo hi p.1 p.2 := by
  have ends := rightEnds_spec ascending range
  rw [← List.map_cons]
  refine Worklist.within_of_ascending ?_ ?_
  · rw [List.map_map]
    exact (List.map_id _).symm ▸ ends.ascending
  · intro c hc
    obtain ⟨x, hx, rfl⟩ := List.mem_map.mp hc
    exact ends.inside range x hx

variable [Resolution α]

theorem endsWithin_of_falls (ascending : points.Pairwise (· < ·)) (range : lo < hi)
    {room : α → Nat} (falls : FallsWithin lo hi room)
    (enough : room lo ≤ Resolution.valuesAbove lo hi) :
    g.EndsWithin midpoint f points lo hi (2 * room lo) := by
  obtain ⟨turns, last, bound, halts, answer⟩ := Worklist.exists_halts inside_of_stepAt falls
    (within_nodes f ascending range) enough
  refine ⟨turns, last, bound, halts, ?_, fun hmidpoint => ?_⟩
  · exact Worklist.resolved_of_halts (g.resolved_stepAt midpoint f) halts (resolved_succeed _)
  · subst hmidpoint
    rw [sweep_eq_bisect, ← g.stepAt_midpoint, ← answer, andThen_assoc]
    rfl

variable [Resolution.Lawful α]

omit midpoint in
theorem resolved_refineBetween (ascending : points.Pairwise (· < ·)) (range : lo < hi) :
    (g.refineBetween f points lo hi).Resolved := by
  simp only [refineBetween, bind_eq_andThen, pure_eq_succeed]
  refine (resolved_each fun _ _ => resolved_nodeAt _ _ _).andThen fun _ below _ => ?_
  refine (resolved_each fun _ _ => resolved_nodeAt _ _ _).andThen fun _ ends hends => ?_
  refine (resolved_nodeAt _ _ _).andThen fun _ start hstart => ?_
  refine Resolved.andThen ?_ fun _ inner _ =>
    (resolved_each fun _ _ => resolved_nodeAt _ _ _).andThen fun _ above _ => resolved_succeed _
  -- What is swept are the nodes of the points, all of them inside the range.
  obtain ⟨_, rfl⟩ := nodes_of_eachOk (each_eq_ok hends)
  obtain ⟨rfl, _⟩ := nodeAt_eq_ok.mp (ofExcept_eq_ok.mp hstart).2
  rw [List.map_reverse, List.reverse_reverse, sweep_eq_bisect, ← g.stepAt_midpoint]
  refine (Worklist.resolved_bisect (x := (·.x)) (g.resolved_stepAt g.rule.midpoint f)
    inside_of_stepAt (within_nodes f ascending range)).andThen fun _ _ _ => resolved_succeed _

omit midpoint in
theorem resolved_generate (seed : List α) : (g.generate f seed).Resolved := by
  refine (resolved_seedEnds _ _).andThen fun _ (first, last) hseed => ?_
  have accepted := seedAccepted_of_seedEnds (ofExcept_eq_ok.mp hseed).2
  exact g.resolved_refineBetween f accepted.ascending accepted.range

omit midpoint in
theorem resolved_refine (points : List α) (lo hi : α) : (g.refine f points lo hi).Resolved := by
  refine (resolved_seedEnds _ _).andThen fun _ (first, last) hseed => ?_
  have accepted := seedAccepted_of_seedEnds (ofExcept_eq_ok.mp hseed).2
  refine Resolved.andThen (resolved_ofExcept ?_) fun _ (lower, upper) hrange => ?_
  · simp only [refinementRange]
    split
    next => simp
    next =>
      split
      next => simp
      next => simp
  · have range := rangeAccepted_of_refinementRange
      (g.rule.independent.number_of_admits (accepted.admitted _ (List.mem_of_head? accepted.head)))
      (g.rule.independent.number_of_admits
        (accepted.admitted _ (List.mem_of_getLast? accepted.getLast)))
      (ofExcept_eq_ok.mp hrange).2
    exact g.resolved_refineBetween f accepted.ascending range.range

end LineGenerator

namespace PlaneGenerator

variable (g : PlaneGenerator α) (midpoint : α → α → α) (init : α → List α) (f : α → α → α)

omit [Scalar α] in
theorem resolved_logVerbose (events : List (Event α)) : (g.logVerbose events).Resolved := by
  rw [logVerbose]
  split
  next => exact resolved_log events
  next => exact resolved_succeed ()

theorem resolved_checkProbe (a b : Column α) (x : α) (estimate : α → Except (TableError α) α)
    (probe : Node α) : (g.checkProbe a b x estimate probe).Resolved := by
  simp only [checkProbe, bind_eq_andThen, pure_eq_succeed]
  refine (resolved_ofTable _).andThen fun _ z _ => ?_
  refine (g.resolved_logVerbose _).andThen fun _ _ _ => ?_
  split
  next => exact (resolved_report _ _ _).andThen fun _ _ _ => resolved_succeed _
  next => exact resolved_succeed _

theorem resolved_checkProbes (a b : Column α) (x : α) (estimate : α → Except (TableError α) α)
    (probes : List (Node α)) : (g.checkProbes a b x estimate probes).Resolved := by
  induction probes with
  | nil => exact resolved_succeed true
  | cons probe rest ih =>
      refine (g.resolved_checkProbe a b x estimate probe).andThen fun _ accepted _ => ?_
      cases accepted with
      | true => exact ih
      | false => exact resolved_succeed false

variable [Resolution α]

/-- The loop over the interval between two columns ends after at most so many turns. With the
midpoints of the rule its answer is that of the run. -/
def EndsWithin (a b : Column α) (bound : Nat) : Prop :=
  ∃ turns last, turns ≤ bound ∧
    Halts (Worklist.turn (g.testAt midpoint init f)) (.succeed ⟨[], a, [b]⟩) turns last ∧
    last.Resolved ∧
    (midpoint = g.rule.primary.midpoint →
      g.refineInterval init f (a, b) = last.andThen fun w => .succeed w.accepted)

variable [Scalar.Ordered α] [Resolution.Lawful α]

theorem resolved_column (x : α) : (g.column init f x).Resolved :=
  (g.secondary.resolved_generate (f x) (init x)).andThen fun _ _ _ => resolved_succeed _

theorem resolved_testAt (a b : Column α) : (g.testAt midpoint init f a b).Resolved := by
  simp only [testAt, bind_eq_andThen, pure_eq_succeed]
  split
  next => exact (resolved_report _ _ _).andThen fun _ _ _ => resolved_succeed none
  next =>
    split
    next =>
      refine (g.resolved_column init f _).andThen fun _ middle _ => ?_
      refine (resolved_ofTable _).andThen fun _ estimate _ => ?_
      refine (g.resolved_checkProbes _ _ _ _ _).andThen fun _ passed _ => ?_
      cases passed with
      | true => exact resolved_succeed none
      | false => exact resolved_succeed (some middle)
    next => exact (resolved_report _ _ _).andThen fun _ _ _ => resolved_succeed none

omit [Resolution α] [Resolution.Lawful α] in
theorem within_columns {a b : Column α} (range : a.x < b.x) :
    ∀ p ∈ adjacent [a, b], Worklist.Within (·.x) a.x b.x p.1 p.2 := by
  obtain ⟨ha, hb⟩ := Scalar.Ordered.number_of_lt range
  intro p hp
  obtain rfl := List.mem_singleton.mp hp
  exact ⟨Scalar.le_refl ha, range, Scalar.le_refl hb⟩

theorem endsWithin_of_falls {a b : Column α} (range : a.x < b.x) {room : α → Nat}
    (falls : FallsWithin a.x b.x room) (enough : room a.x ≤ Resolution.valuesAbove a.x b.x) :
    g.EndsWithin midpoint init f a b (2 * room a.x) := by
  obtain ⟨turns, last, bound, halts, answer⟩ := Worklist.exists_halts inside_of_testAt falls
    (within_columns range) enough
  refine ⟨turns, last, bound, halts, ?_, fun hmidpoint => ?_⟩
  · exact Worklist.resolved_of_halts (g.resolved_testAt midpoint init f) halts
      (resolved_succeed _)
  · subst hmidpoint
    rw [refineInterval, sweep_eq_bisect, ← g.testAt_midpoint, ← answer]

omit midpoint in
theorem resolved_refineInterval {p : Column α × Column α} (range : p.1.x < p.2.x) :
    (g.refineInterval init f p).Resolved := by
  rw [refineInterval, sweep_eq_bisect, ← g.testAt_midpoint]
  exact Worklist.resolved_bisect (x := (·.x)) (g.resolved_testAt g.rule.primary.midpoint init f)
    inside_of_testAt (within_columns range)

omit midpoint in
theorem resolved_grow {merged : List α} (ascending : merged.Pairwise (· < ·)) :
    (g.grow init f merged).Resolved := by
  refine (resolved_each fun x _ => g.resolved_column init f x).andThen fun _ ends hends => ?_
  obtain ⟨primary, _⟩ := columns_of_eachOk (each_eq_ok hends)
  rw [← primary, List.pairwise_map] at ascending
  refine (resolved_each fun p hp => ?_).andThen fun _ pieces _ => ?_
  · exact g.resolved_refineInterval init f (adjacent_of_pairwise ascending p hp)
  · exact (g.resolved_logVerbose _).andThen fun _ _ _ => resolved_succeed _

omit midpoint in
theorem resolved_generate (seed : List α) : (g.generate init f seed).Resolved := by
  rw [generate_eq_grow]
  refine (resolved_seedEnds _ _).andThen fun _ ends hseed => ?_
  have accepted := seedAccepted_of_seedEnds (ofExcept_eq_ok.mp hseed).2
  have grown := g.resolved_grow init f (merged_mergedSeed (g := g) accepted).ascending
  simp only
  split
  next => exact (g.resolved_logVerbose _).andThen fun _ _ _ => grown
  next => exact grown

end PlaneGenerator

variable [Scalar.Ordered α] [Resolution α] [Resolution.Lawful α] {lo hi : α}

/-- A run is allowed at least as many insertions as its range has values. -/
theorem Enumerates.length_le {values : List α} (h : Enumerates lo hi values)
    (range : lo < hi) : values.length ≤ Resolution.valuesAbove lo hi := by
  have hlo := (Scalar.Ordered.number_of_lt range).1
  have chain : ∀ p ∈ adjacent (lo :: values), Worklist.Within id lo hi p.1 p.2 := by
    refine Worklist.within_of_ascending ?_ fun x hx => ?_
    · rw [List.map_id]
      exact List.pairwise_cons.mpr ⟨fun v hv => (h.inside v hv).1, h.ascending⟩
    · cases hx with
      | head => exact ⟨Scalar.le_refl hlo, Scalar.le_of_lt range⟩
      | tail _ hx => exact ⟨Scalar.le_of_lt (h.inside x hx).1, (h.inside x hx).2⟩
  exact Worklist.length_le_room (R := Worklist.Within id lo hi)
    (Worklist.falls_of_within (x := id) (fallsWithin_valuesAbove lo hi)) chain

omit [Scalar.Ordered α] [Resolution α] [Resolution.Lawful α] in
theorem Enumerates.filter_eq {values : List α} (h : Enumerates lo hi values) :
    values.filter (lo < ·) = values :=
  List.filter_eq_self.mpr fun v hv => decide_eq_true (h.inside v hv).1

/-- Every refinement ends, in at most twice as many turns as its range has values, whatever the
function, the tolerances and the midpoints are. No run is cut short by its allowance. -/
theorem refinement_ends [Finite α] (range : lo < hi) :
    (∃ values, Enumerates lo hi values ∧
      (∀ (g : LineGenerator α) (midpoint : α → α → α) (f : α → α) (points : List α),
        points.Pairwise (· < ·) →
          g.EndsWithin midpoint f points lo hi (2 * values.length)) ∧
      ∀ (g : PlaneGenerator α) (midpoint : α → α → α) (init : α → List α) (f : α → α → α)
        (a b : Column α), a.x = lo → b.x = hi →
          g.EndsWithin midpoint init f a b (2 * values.length)) ∧
    (∀ (g : LineGenerator α) (f : α → α) (points : List α), (g.generate f points).Resolved ∧
      ∀ lower upper, (g.refine f points lower upper).Resolved) ∧
    ∀ (g : PlaneGenerator α) (init : α → List α) (f : α → α → α) (seed : List α),
      (g.generate init f seed).Resolved := by
  obtain ⟨values, enumerates⟩ := exists_enumerates lo hi
  have falls := enumerates.fallsWithin
  have enough := enumerates.length_le range
  have hroom : (values.filter (lo < ·)).length = values.length :=
    congrArg List.length enumerates.filter_eq
  refine ⟨⟨values, enumerates, ?_, ?_⟩, ?_, ?_⟩
  · intro g midpoint f points ascending
    have ends := g.endsWithin_of_falls midpoint f ascending range falls (hroom ▸ enough)
    rwa [hroom] at ends
  · rintro g midpoint init f a b rfl rfl
    have ends := g.endsWithin_of_falls midpoint init f range falls (hroom ▸ enough)
    rwa [hroom] at ends
  · exact fun g f points => ⟨g.resolved_generate f points, g.resolved_refine f points⟩
  · exact fun g init f seed => g.resolved_generate init f seed

/-- A step inside the range, with no distance or difference small enough to be accepted for it. -/
theorem refinement_ends_step :
    let f : Float → Float := fun x => if x < 1.25 then 1.0 else 2.0
    let settings : GridSettings Float := ⟨⟨1e-3, 0.0, 0.0⟩, .warn, false⟩
    let line : LineGenerator Float := ⟨.linear, settings⟩
    let plane : PlaneGenerator Float := ⟨.linear, settings, .unitBase, []⟩
    let a : Column Float := ⟨1.0, ⟨⟨0.0, 1.0⟩, [⟨1.0, 1.0⟩]⟩⟩
    let b : Column Float := ⟨2.0, ⟨⟨0.0, 2.0⟩, [⟨1.0, 2.0⟩]⟩⟩
    (1.0 : Float) < 2.0 ∧ [1.0, 2.0].Pairwise (fun a b : Float => a < b) ∧
      (∃ values : List Float, Enumerates 1.0 2.0 values ∧
        line.EndsWithin line.rule.midpoint f [1.0, 2.0] 1.0 2.0 (2 * values.length) ∧
        plane.EndsWithin plane.rule.primary.midpoint (fun _ => [0.0, 1.0]) (fun x _ => f x) a b
          (2 * values.length)) ∧
      (line.generate f [1.0, 2.0]).Resolved ∧
      (plane.generate (fun _ => [0.0, 1.0]) (fun x _ => f x) [1.0, 2.0]).Resolved := by
  intro f settings line plane a b
  have range : (1.0 : Float) < 2.0 := by decide
  have ascending : [1.0, 2.0].Pairwise fun a b : Float => a < b := by
    simpa using range
  obtain ⟨⟨values, enumerates, lines, planes⟩, generated, planned⟩ := refinement_ends range
  exact ⟨range, ascending,
    ⟨values, enumerates, lines line _ f _ ascending, planes plane _ _ _ a b rfl rfl⟩,
    (generated line f _).1, planned plane _ _ _⟩

end AdaptiveTables
