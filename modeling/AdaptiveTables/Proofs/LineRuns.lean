import AdaptiveTables.Grid.Line
import AdaptiveTables.Proofs.Bisect
import AdaptiveTables.Proofs.Order
import AdaptiveTables.Proofs.Verdicts

/-!
Successful runs of the generator on a line. The grid of a run consists of the points below the
refined range, a refinement of the range, and the points above it, all with the values of the
function there.
-/

namespace AdaptiveTables

section Grids

variable {α : Type}

theorem LineGrid.nodes_foldr_cons (before : List (Node α)) (g : LineGrid α) :
    (before.foldr cons g).nodes = before ++ g.nodes := by
  induction before with
  | nil => rfl
  | cons a before ih =>
      change a :: (before.foldr cons g).nodes = a :: (before ++ g.nodes)
      rw [ih]

theorem LineGrid.nodes_surround (before after : List (Node α)) (g : LineGrid α) :
    (g.surround before after).nodes = before ++ (g.nodes ++ after) :=
  nodes_foldr_cons before _

/-- The node of a function at a point. -/
def nodeOf (f : α → α) (x : α) : Node α := ⟨x, f x⟩

theorem eq_nodeOf_of_mem {f : α → α} {points : List α} {n : Node α}
    (hn : n ∈ points.map (nodeOf f)) : n = nodeOf f n.x := by
  obtain ⟨x, _, rfl⟩ := List.mem_map.mp hn
  rfl

theorem LineGrid.values_of_valued {f : α → α} {g : LineGrid α}
    (h : ∀ n ∈ g.nodes, n = nodeOf f n.x) : g.values = g.points.map f := by
  rw [LineGrid.values, LineGrid.points, List.map_map]
  refine List.map_congr_left fun n hn => ?_
  rw [h n hn]
  rfl

theorem nodeAt_eq_ok {f : α → α} {usable : α → Bool} {x : α} {n : Node α} :
    nodeAt f usable x = .ok n ↔ n = nodeOf f x ∧ usable (f x) = true := by
  simp only [nodeAt]
  split
  next h =>
    constructor
    · intro heq
      exact ⟨(Except.ok.inj heq).symm, h⟩
    · rintro ⟨rfl, _⟩
      rfl
  next h =>
    constructor
    · intro heq
      cases heq
    · rintro ⟨_, h'⟩
      exact absurd h' h

theorem nodes_of_eachOk {f : α → α} {usable : α → Bool} {points : List α}
    {nodes : List (Node α)} {events : List (Event α)}
    (h : Trace.EachOk (fun x => .ofExcept (nodeAt f usable x)) points nodes events) :
    events = [] ∧ nodes = points.map (nodeOf f) := by
  induction h with
  | nil => exact ⟨rfl, rfl⟩
  | cons head _ ih =>
      obtain ⟨rfl, rfl⟩ := ih
      obtain ⟨rfl, hnode⟩ := Trace.ofExcept_eq_ok.mp head
      obtain ⟨rfl, _⟩ := nodeAt_eq_ok.mp hnode
      exact ⟨rfl, rfl⟩

end Grids

variable {α : Type} [Scalar α]

theorem adjacent_of_firstDescent? {points : List α} (h : firstDescent? points = none) :
    ∀ p ∈ adjacent points, ¬p.2 ≤ p.1 := by
  fun_induction firstDescent? points with
  | case1 a b rest hle => cases h
  | case2 a b rest hle ih =>
      rw [adjacent_cons_cons]
      intro p hp
      rcases List.mem_cons.mp hp with rfl | hp
      · exact hle
      · exact ih h p hp
  | case3 points hshort =>
      intro p hp
      cases points with
      | nil => cases hp
      | cons a points =>
          cases points with
          | nil => cases hp
          | cons b rest => exact absurd rfl (hshort a b rest)

/-- A seed that is accepted, with its ends. -/
structure SeedAccepted (scale : Scale) (seed : List α) (first last : α) : Prop where
  admitted : ∀ x ∈ seed, scale.admits x = true
  ascending : seed.Pairwise (· < ·)
  head : seed.head? = some first
  getLast : seed.getLast? = some last
  range : first < last

theorem eq_or_lt_of_ends {points : List α} {first last : α} (ascending : points.Pairwise (· < ·))
    (head : points.head? = some first) (getLast : points.getLast? = some last) :
    ∀ x ∈ points, (x = first ∨ first < x) ∧ (x = last ∨ x < last) := by
  intro x hx
  constructor
  · obtain ⟨rest, rfl⟩ := List.head?_eq_some_iff.mp head
    exact (List.mem_cons.mp hx).imp_right ((List.pairwise_cons.mp ascending).1 x)
  · obtain ⟨init, rfl⟩ := List.getLast?_eq_some_iff.mp getLast
    cases List.mem_append.mp hx with
    | inl hx => exact Or.inr ((List.pairwise_append.mp ascending).2.2 x hx last (by simp))
    | inr hx => exact Or.inl (List.mem_singleton.mp hx)

theorem SeedAccepted.eq_or_lt {scale : Scale} {seed : List α} {first last : α}
    (h : SeedAccepted scale seed first last) :
    ∀ x ∈ seed, (x = first ∨ first < x) ∧ (x = last ∨ x < last) :=
  eq_or_lt_of_ends h.ascending h.head h.getLast

section Ordered

variable [Scalar.Ordered α]

theorem ascending_of_firstDescent? {scale : Scale} {points : List α}
    (admitted : ∀ x ∈ points, scale.admits x = true) (h : firstDescent? points = none) :
    points.Pairwise (· < ·) := by
  refine pairwise_of_adjacent (@Scalar.Ordered.lt_trans α _ _) fun p hp => ?_
  obtain ⟨hp₁, hp₂⟩ := mem_of_adjacent hp
  exact Scalar.lt_of_not_le (scale.number_of_admits (admitted _ hp₁))
    (scale.number_of_admits (admitted _ hp₂)) (adjacent_of_firstDescent? h p hp)

theorem seedAccepted_of_seedEnds {scale : Scale} {seed : List α} {first last : α}
    (h : seedEnds scale seed = .ok (first, last)) : SeedAccepted scale seed first last := by
  match seed with
  | [] | [_] => cases h
  | a :: b :: rest =>
      simp only [seedEnds] at h
      cases hfind : (a :: b :: rest).find? (!scale.admits ·) with
      | some x => rw [hfind] at h; cases h
      | none =>
          rw [hfind] at h
          cases hdescent : firstDescent? (a :: b :: rest) with
          | some pair => rw [hdescent] at h; cases h
          | none =>
              rw [hdescent] at h
              obtain ⟨rfl, rfl⟩ := Prod.mk.inj (Except.ok.inj h)
              have admitted : ∀ x ∈ a :: b :: rest, scale.admits x = true := fun x hx => by
                simpa using List.find?_eq_none.mp hfind x hx
              have ascending := ascending_of_firstDescent? admitted hdescent
              have hlast : (a :: b :: rest).getLast? = some (rest.getLastD b) := by
                rw [List.getLast?_cons_cons, List.getLast?_cons, List.getLastD_eq_getLast?]
              refine ⟨admitted, ascending, rfl, hlast, ?_⟩
              refine (List.pairwise_cons.mp ascending).1 _ ?_
              rw [List.getLast?_cons_cons] at hlast
              exact List.mem_of_getLast? hlast

theorem seedEnds_of_seedAccepted {scale : Scale} {seed : List α} {first last : α}
    (h : SeedAccepted scale seed first last) : seedEnds scale seed = .ok (first, last) := by
  have head := h.head
  have hlast := h.getLast
  match seed with
  | [] => cases head
  | [a] =>
      obtain rfl := Option.some.inj head
      obtain rfl := Option.some.inj hlast
      exact absurd h.range (Scalar.Ordered.lt_irrefl _)
  | a :: b :: rest =>
      have hfind : (a :: b :: rest).find? (!scale.admits ·) = none :=
        List.find?_eq_none.mpr fun x hx => by simp [h.admitted x hx]
      rw [List.getLast?_cons_cons, List.getLast?_cons, ← List.getLastD_eq_getLast?] at hlast
      obtain rfl := Option.some.inj head
      obtain rfl := Option.some.inj hlast
      simp only [seedEnds, hfind, Scalar.firstDescent?_of_ascending h.ascending]

theorem SeedAccepted.first_le {scale : Scale} {seed : List α} {first last : α}
    (h : SeedAccepted scale seed first last) : ∀ x ∈ seed, first ≤ x := by
  intro x hx
  cases (h.eq_or_lt x hx).1 with
  | inl heq => exact heq ▸ Scalar.le_refl (scale.number_of_admits (h.admitted x hx))
  | inr hlt => exact Scalar.le_of_lt hlt

theorem SeedAccepted.le_last {scale : Scale} {seed : List α} {first last : α}
    (h : SeedAccepted scale seed first last) : ∀ x ∈ seed, x ≤ last := by
  intro x hx
  cases (h.eq_or_lt x hx).2 with
  | inl heq => exact heq ▸ Scalar.le_refl (scale.number_of_admits (h.admitted x hx))
  | inr hlt => exact Scalar.le_of_lt hlt

/-- Ascending points between the ends of an accepted seed are accepted as well. -/
theorem SeedAccepted.between {scale : Scale} {seed points : List α} {first last : α}
    (h : SeedAccepted scale seed first last) (ascending : points.Pairwise (· < ·))
    (head : points.head? = some first) (getLast : points.getLast? = some last) :
    SeedAccepted scale points first last := by
  have hfirst := h.admitted first (List.mem_of_head? h.head)
  have hlast := h.admitted last (List.mem_of_getLast? h.getLast)
  refine ⟨fun x hx => ?_, ascending, head, getLast, h.range⟩
  obtain ⟨hlow, hhigh⟩ := eq_or_lt_of_ends ascending head getLast x hx
  cases hlow with
  | inl heq => exact heq ▸ hfirst
  | inr hlt =>
      cases hhigh with
      | inl heq => exact heq ▸ hlast
      | inr hlt' =>
          exact scale.admits_between hfirst hlast (Scalar.le_of_lt hlt) (Scalar.le_of_lt hlt')

theorem SeedAccepted.eq_first_of_beq {scale : Scale} {seed : List α} {first last x : α}
    (h : SeedAccepted scale seed first last) (hx : x ∈ seed) (heq : (x == first) = true) :
    first = x := by
  cases (h.eq_or_lt x hx).1 with
  | inl heq => exact heq.symm
  | inr hlt => exact absurd hlt (Scalar.not_lt_of_le (Scalar.beq_iff_le.mp heq).1)

/-- The limits of a refinement lie on the grid and inside the range that was asked for. -/
structure RangeAccepted (first last lo hi lower upper : α) : Prop where
  lower_eq : lower = lo ∨ lower = first
  above : first ≤ lower
  below : upper ≤ last
  range : lower < upper
  inside_iff : ∀ {a b}, first ≤ a → b ≤ last → ((lo ≤ a ∧ b ≤ hi) ↔ (lower ≤ a ∧ b ≤ upper))

theorem rangeAccepted_of_refinementRange {first last lo hi lower upper : α}
    (hfirst : Scalar.isNumber first = true) (hlast : Scalar.isNumber last = true)
    (h : LineGenerator.refinementRange first last lo hi = .ok (lower, upper)) :
    RangeAccepted first last lo hi lower upper := by
  simp only [LineGenerator.refinementRange] at h
  split at h
  next => cases h
  next hnumbers =>
    simp only [Bool.or_eq_true, Bool.not_eq_true', not_or, Bool.not_eq_false] at hnumbers
    obtain ⟨hlo, hhi⟩ := hnumbers
    split at h
    next => cases h
    next hrange =>
      obtain ⟨rfl, rfl⟩ := Prod.mk.inj (Except.ok.inj h)
      obtain ⟨hlolower, habove, hlower⟩ := Scalar.max_spec hlo hfirst
      obtain ⟨hupperhi, hbelow, hupper⟩ := Scalar.min_spec hhi hlast
      refine ⟨hlower, habove, hbelow, ?_, fun ha hb => ?_⟩
      · exact Scalar.lt_of_not_le (Scalar.number_of_le habove).2 (Scalar.number_of_le hbelow).1
          hrange
      · constructor
        · rintro ⟨hloa, hbhi⟩
          constructor
          · rcases hlower with h | h <;> rw [h] <;> assumption
          · rcases hupper with h | h <;> rw [h] <;> assumption
        · rintro ⟨hlowera, hbupper⟩
          exact ⟨Scalar.le_trans hlolower hlowera, Scalar.le_trans hbupper hupperhi⟩

theorem mem_takeWhile_lt {points : List α} (ascending : points.Pairwise (· < ·)) {x lo : α} :
    x ∈ points.takeWhile (· < lo) ↔ x ∈ points ∧ x < lo := by
  induction ascending with
  | nil => simp
  | @cons a rest ha _ ih =>
      by_cases hlt : a < lo
      · rw [List.takeWhile_cons_of_pos (by simpa using hlt), List.mem_cons, List.mem_cons, ih]
        constructor
        · rintro (rfl | ⟨hx, hxlo⟩)
          · exact ⟨Or.inl rfl, hlt⟩
          · exact ⟨Or.inr hx, hxlo⟩
        · rintro ⟨rfl | hx, hxlo⟩
          · exact Or.inl rfl
          · exact Or.inr ⟨hx, hxlo⟩
      · rw [List.takeWhile_cons_of_neg (by simpa using hlt)]
        refine ⟨(fun h => nomatch h), ?_⟩
        rintro ⟨hx, hxlo⟩
        rcases List.mem_cons.mp hx with rfl | hx
        · exact absurd hxlo hlt
        · exact absurd (Scalar.Ordered.lt_trans (ha x hx) hxlo) hlt

/-- The right ends of a range ascend from its lower limit to its upper one, and are the points in
between. -/
structure RightEnds (points : List α) (lo hi : α) (ends : List α) : Prop where
  ascending : (lo :: ends).Pairwise (· < ·)
  getLast : ∃ x, ends.getLast? = some x ∧ (x == hi) = true
  kept : ∀ x ∈ points, lo < x → x ≤ hi → x ∈ ends
  source : ∀ x ∈ ends, x ∈ points ∨ x = hi

theorem rightEnds_spec {points : List α} {lo hi : α} (ascending : points.Pairwise (· < ·))
    (range : lo < hi) : RightEnds points lo hi (LineGenerator.rightEnds points lo hi) := by
  have hhi := (Scalar.Ordered.number_of_lt range).2
  generalize hinside : points.filter (fun x => lo < x && x ≤ hi) = inside
  have hmem (x : α) : x ∈ inside ↔ x ∈ points ∧ lo < x ∧ x ≤ hi := by
    rw [← hinside]
    simp [List.mem_filter]
  have hpairs : inside.Pairwise (· < ·) := by
    rw [← hinside]
    exact ascending.filter _
  simp only [LineGenerator.rightEnds, hinside]
  cases hlast : inside.getLast? with
  | none =>
      obtain rfl := List.getLast?_eq_none_iff.mp hlast
      refine ⟨by simpa using range, ⟨hi, rfl, hhi⟩, fun x hx hlo hle => ?_, fun x hx => ?_⟩
      · exact absurd ((hmem x).mpr ⟨hx, hlo, hle⟩) List.not_mem_nil
      · exact Or.inr (List.mem_singleton.mp hx)
  | some last =>
      obtain ⟨init, rfl⟩ := List.getLast?_eq_some_iff.mp hlast
      have hlastmem := (hmem last).mp (by simp)
      have hkept (x : α) (hx : x ∈ points) (hlo : lo < x) (hle : x ≤ hi) :
          x ∈ init ++ [last] := (hmem x).mpr ⟨hx, hlo, hle⟩
      have habove : ∀ x ∈ init ++ [last], lo < x := fun x hx => ((hmem x).mp hx).2.1
      simp only
      split
      next heq =>
        exact ⟨List.pairwise_cons.mpr ⟨habove, hpairs⟩, ⟨last, hlast, heq⟩, hkept,
          fun x hx => Or.inl ((hmem x).mp hx).1⟩
      next hne =>
        have hlt : last < hi := Scalar.lt_of_le_of_not_beq hlastmem.2.2 hne
        have hbelow : ∀ x ∈ init ++ [last], x < hi := by
          intro x hx
          rcases List.mem_append.mp hx with hx' | hx'
          · exact Scalar.Ordered.lt_trans
              ((List.pairwise_append.mp hpairs).2.2 x hx' last (by simp)) hlt
          · exact List.mem_singleton.mp hx' ▸ hlt
        refine ⟨List.pairwise_cons.mpr ⟨fun x hx => ?_, ?_⟩, ⟨hi, by simp, hhi⟩,
          fun x hx hlo hle => List.mem_append_left _ (hkept x hx hlo hle), fun x hx => ?_⟩
        · rcases List.mem_append.mp hx with hx | hx
          · exact habove x hx
          · exact List.mem_singleton.mp hx ▸ range
        · refine List.pairwise_append.mpr ⟨hpairs, List.pairwise_singleton _ _, ?_⟩
          intro x hx y hy
          exact List.mem_singleton.mp hy ▸ hbelow x hx
        · rcases List.mem_append.mp hx with hx | hx
          · exact Or.inl ((hmem x).mp hx).1
          · exact Or.inr (List.mem_singleton.mp hx)

end Ordered

namespace LineGenerator

/-- A test as a step of the refinement: the node to insert, if the interval is split. -/
def stepAt (g : LineGenerator α) (midpoint : α → α → α) (f : α → α) (a b : Node α) :
    Trace α (Option (Node α)) :=
  match g.testAt midpoint f a b with
  | .error e => .fail e
  | .ok (m, verdict) =>
    if verdict.isAccepted then (g.report verdict).andThen fun () => .succeed none
    else .succeed (some m)

/-- The step at the midpoint of the rule. -/
def step (g : LineGenerator α) (f : α → α) (a b : Node α) : Trace α (Option (Node α)) :=
  g.stepAt g.rule.midpoint f a b

variable (g : LineGenerator α) (f : α → α)

theorem stepAt_midpoint : g.stepAt g.rule.midpoint f = g.step f := rfl

/-- The value interpolated at the midpoint of an interval from the values at its ends. -/
def estimateAt (a b : Node α) : α :=
  g.rule.interpolate a.x b.x (g.rule.midpoint a.x b.x) a.y b.y

/-- The tolerances that an accepted interval meets at its midpoint. -/
def Accepts (a b : Node α) : Prop :=
  let m := g.rule.midpoint a.x b.x
  g.settings.tolerances.Accepts a.x m b.x (f m) (g.estimateAt a b)

/-- The cause for which an interval is reported. -/
def cause? (a b : Node α) : Option (Dirty α) :=
  let m := g.rule.midpoint a.x b.x
  g.settings.tolerances.cause? a.x m b.x (f m) (g.estimateAt a b)

variable {g f}

theorem testAt_eq_ok {midpoint : α → α → α} {a b m : Node α} {verdict : Verdict α}
    (h : g.testAt midpoint f a b = .ok (m, verdict)) :
    m = nodeOf f (midpoint a.x b.x) ∧
      verdict = g.settings.tolerances.checkInterval a.x m.x b.x m.y
        (g.rule.interpolate a.x b.x m.x a.y b.y) := by
  simp only [testAt, node] at h
  cases hnode : nodeAt f g.rule.dependent.admits (midpoint a.x b.x) with
  | error e => rw [hnode] at h; cases h
  | ok n =>
      rw [hnode] at h
      obtain ⟨rfl, rfl⟩ := Prod.mk.inj (Except.ok.inj h)
      obtain ⟨rfl, _⟩ := nodeAt_eq_ok.mp hnode
      exact ⟨rfl, rfl⟩

theorem testAt_eq_error {midpoint : α → α → α} {a b : Node α} {e : GridError α}
    (h : g.testAt midpoint f a b = .error e) : g.node f (midpoint a.x b.x) = .error e := by
  rw [testAt] at h
  cases hnode : g.node f (midpoint a.x b.x) with
  | error failure =>
      rw [hnode] at h
      cases h
      rfl
  | ok m =>
      rw [hnode] at h
      cases h

/-- Only an interval with the point strictly inside is split. -/
theorem inside_of_stepAt {midpoint : α → α → α} {a m b : Node α} {events : List (Event α)}
    (h : g.stepAt midpoint f a b = ⟨events, .ok (some m)⟩) : a.x < m.x ∧ m.x < b.x := by
  simp only [stepAt] at h
  split at h
  next => exact absurd h Trace.fail_ne_ok
  next tested verdict htest =>
    obtain ⟨_, rfl⟩ := testAt_eq_ok htest
    split at h
    next =>
      obtain ⟨_, _, _, _, hnone, _⟩ := Trace.andThen_eq_ok.mp h
      cases (Trace.succeed_eq_ok.mp hnone).2
    next haccepted =>
      obtain ⟨_, hm⟩ := Trace.succeed_eq_ok.mp h
      obtain rfl := Option.some.inj hm
      exact g.settings.tolerances.inside_of_refused haccepted

theorem judges_of_testAt {a b m : Node α} {verdict : Verdict α}
    (h : g.testAt g.rule.midpoint f a b = .ok (m, verdict)) :
    m = nodeOf f (g.rule.midpoint a.x b.x) ∧
      g.settings.tolerances.Judges a.x m.x b.x m.y (g.estimateAt a b) verdict := by
  obtain ⟨rfl, rfl⟩ := testAt_eq_ok h
  exact ⟨rfl, g.settings.tolerances.judges_checkInterval _ _ _ _ _⟩

/-- A split is silent, and inserts the node at the midpoint of an interval that misses every
tolerance. -/
theorem step_inserts {a b m : Node α} {events : List (Event α)}
    (h : g.step f a b = ⟨events, .ok (some m)⟩) :
    events = [] ∧ m = nodeOf f (g.rule.midpoint a.x b.x) ∧ ¬g.Accepts f a b := by
  simp only [step, stepAt] at h
  split at h
  next => exact absurd h Trace.fail_ne_ok
  next tested verdict htest =>
    obtain ⟨rfl, judged⟩ := judges_of_testAt htest
    split at h
    next =>
      obtain ⟨_, _, _, _, hnone, _⟩ := Trace.andThen_eq_ok.mp h
      cases (Trace.succeed_eq_ok.mp hnone).2
    next haccepted =>
      obtain ⟨rfl, hm⟩ := Trace.succeed_eq_ok.mp h
      obtain rfl := Option.some.inj hm
      cases judged with
      | converged _ | dirty _ _ _ _ => exact absurd rfl haccepted
      | split missed => exact ⟨rfl, rfl, missed⟩

/-- An accepted interval meets a tolerance. Its cause is reported, unless causes are errors: then
there is none, and the interval has converged. -/
theorem step_accepts {a b : Node α} {events : List (Event α)}
    (h : g.step f a b = ⟨events, .ok none⟩) :
    g.Accepts f a b ∧ events = (g.cause? f a b).toList.map (.warning .line) ∧
      (g.settings.reaction = .throw →
        Scalar.relativeError (f (g.rule.midpoint a.x b.x)) (g.estimateAt a b) ≤
          g.settings.tolerances.convergence) := by
  simp only [step, stepAt] at h
  split at h
  next => exact absurd h Trace.fail_ne_ok
  next tested verdict htest =>
    obtain ⟨rfl, judged⟩ := judges_of_testAt htest
    split at h
    next haccepted =>
      obtain ⟨reported, ⟨⟩, last, hreport, hlast, rfl⟩ := Trace.andThen_eq_ok.mp h
      obtain ⟨rfl, _⟩ := Trace.succeed_eq_ok.mp hlast
      rw [List.append_nil]
      cases judged with
      | converged hrel =>
          obtain ⟨rfl, _⟩ := Trace.succeed_eq_ok.mp hreport
          have hcause : g.cause? f a b = none := if_pos hrel
          rw [hcause]
          exact ⟨Or.inl hrel, rfl, fun _ => hrel⟩
      | dirty cause _ hcause accepts =>
          obtain ⟨hwarn, rfl⟩ := Trace.report_eq_ok.mp hreport
          have hcause : g.cause? f a b = some cause := hcause
          rw [hcause, hwarn]
          refine ⟨accepts, rfl, fun hthrow => ?_⟩
          cases hthrow
      | split _ => cases haccepted
    next => cases (Trace.succeed_eq_ok.mp h).2

variable (g f)

theorem sweep_eq_bisect (allowed : Nat) (a : Node α) (pending : List (Node α)) :
    g.sweep f allowed a pending =
      (bisect (g.step f) allowed a pending).andThen fun nodes =>
        .succeed (nodes.foldr LineGrid.cons ⟨pending.getLastD a, []⟩) := by
  induction allowed, a, pending using bisect.induct with
  | case1 allowed a => rw [sweep, bisect]; rfl
  | case2 allowed a b rest accepted inserted =>
      rw [sweep, bisect, step, stepAt, test]
      cases g.testAt g.rule.midpoint f a b with
      | error e => rfl
      | ok tested =>
          obtain ⟨m, verdict⟩ := tested
          cases haccepted : verdict.isAccepted with
          | true =>
              simp only [haccepted, if_true, accepted, Trace.andThen_assoc,
                Trace.succeed_andThen, List.getLastD_cons, List.foldr_cons]
          | false =>
              simp only [haccepted, Bool.false_eq_true, if_false, Trace.succeed_andThen]
              cases allowed with
              | zero => rfl
              | succ left => simpa only [List.getLastD_cons] using inserted m

theorem sweeps_of_sweep {allowed : Nat} {a : Node α} {pending : List (Node α)}
    {events : List (Event α)} {grid : LineGrid α}
    (h : g.sweep f allowed a pending = ⟨events, .ok grid⟩) :
    Sweeps (g.step f) a pending grid.nodes events := by
  rw [sweep_eq_bisect] at h
  obtain ⟨swept, nodes, last, hswept, hlast, rfl⟩ := Trace.andThen_eq_ok.mp h
  obtain ⟨rfl, rfl⟩ := Trace.succeed_eq_ok.mp hlast
  rw [List.append_nil, LineGrid.nodes_foldr_cons]
  exact bisect_eq_ok hswept

/-- What a successful run over a range consists of. -/
structure Refined (points : List α) (lo hi : α) (grid : LineGrid α) (inner : List (Node α))
    (events : List (Event α)) : Prop where
  sweeps : Sweeps (g.step f) (nodeOf f lo) ((rightEnds points lo hi).map (nodeOf f)) inner events
  nodes : grid.nodes = (points.takeWhile (· < lo)).map (nodeOf f) ++
    (inner ++ (points.filter (hi < ·)).map (nodeOf f))

theorem refined_of_refineBetween [Resolution α] {points : List α} {lo hi : α}
    {grid : LineGrid α} {events : List (Event α)}
    (h : g.refineBetween f points lo hi = ⟨events, .ok grid⟩) :
    ∃ inner, g.Refined f points lo hi grid inner events := by
  simp only [refineBetween, Trace.bind_eq_andThen, Trace.pure_eq_succeed] at h
  obtain ⟨e₁, below, r₁, hbelow, h₁, rfl⟩ := Trace.andThen_eq_ok.mp h
  obtain ⟨e₂, ends, r₂, hends, h₂, rfl⟩ := Trace.andThen_eq_ok.mp h₁
  obtain ⟨e₃, start, r₃, hstart, h₃, rfl⟩ := Trace.andThen_eq_ok.mp h₂
  obtain ⟨e₄, inner, r₄, hinner, h₄, rfl⟩ := Trace.andThen_eq_ok.mp h₃
  obtain ⟨e₅, above, r₅, habove, h₅, rfl⟩ := Trace.andThen_eq_ok.mp h₄
  obtain ⟨rfl, rfl⟩ := Trace.succeed_eq_ok.mp h₅
  obtain ⟨rfl, rfl⟩ := nodes_of_eachOk (Trace.each_eq_ok hbelow)
  obtain ⟨rfl, rfl⟩ := nodes_of_eachOk (Trace.each_eq_ok hends)
  obtain ⟨rfl, rfl⟩ := nodes_of_eachOk (Trace.each_eq_ok habove)
  obtain ⟨rfl, hnode⟩ := Trace.ofExcept_eq_ok.mp hstart
  obtain ⟨rfl, _⟩ := nodeAt_eq_ok.mp hnode
  have hsweeps := g.sweeps_of_sweep f hinner
  rw [List.map_reverse, List.reverse_reverse] at hsweeps
  refine ⟨inner.nodes, ⟨by simpa using hsweeps, ?_⟩⟩
  rw [LineGrid.nodes_surround]

variable {g f}

theorem points_of_refined {points : List α} {lo hi : α} {grid : LineGrid α}
    {inner : List (Node α)} {events : List (Event α)}
    (h : g.Refined f points lo hi grid inner events) :
    grid.points = points.takeWhile (· < lo) ++ (inner.map (·.x) ++ points.filter (hi < ·)) := by
  rw [LineGrid.points, h.nodes]
  simp [nodeOf, Function.comp_def]

end LineGenerator
end AdaptiveTables
