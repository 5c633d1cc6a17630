import AdaptiveTables.Proofs.RecursiveBisection

/-!
The abscissas at which the generator on a line calls the function. A run is laid out as an inquiry,
which asks for one value after the other and has no other access to the function. Whatever the
answers are, it asks at points of the range of the grid, and at midpoints of intervals between two
of them. A midpoint is passed to the function before it is compared with the ends of its interval,
so one that lies elsewhere is asked for as well.
-/

namespace AdaptiveTables

/-- A run that asks for the values of a function, one at a time. -/
inductive Inquiry (α β : Type) where
  | finish (run : Trace α β)
  | ask (x : α) (next : α → Inquiry α β)

namespace Inquiry

variable {α β γ : Type}

/-- The run of an inquiry that is answered by a function. -/
def answer (f : α → α) : Inquiry α β → Trace α β
  | finish run => run
  | ask x next => (next (f x)).answer f

/-- The abscissas at which a function is called when it answers an inquiry, in order. -/
def calls (f : α → α) : Inquiry α β → List α
  | finish _ => []
  | ask x next => x :: (next (f x)).calls f

/-- Logs events before those of an inquiry. -/
def logged (events : List (Event α)) : Inquiry α β → Inquiry α β
  | finish run => finish ⟨events ++ run.events, run.outcome⟩
  | ask x next => ask x fun y => (next y).logged events

/-- Goes on with the result of an inquiry. One that failed is not continued. -/
def andThen (k : β → Inquiry α γ) : Inquiry α β → Inquiry α γ
  | finish ⟨events, .error e⟩ => finish ⟨events, .error e⟩
  | finish ⟨events, .ok v⟩ => (k v).logged events
  | ask x next => ask x fun y => (next y).andThen k

/-- Inquires about every element in order, up to the first failure. -/
def each (k : β → Inquiry α γ) : List β → Inquiry α (List γ)
  | [] => finish (.succeed [])
  | b :: rest => (k b).andThen fun c => (each k rest).andThen fun cs => finish (.succeed (c :: cs))

/-- The refinement from a left end over the pending right ends, with tests that ask. -/
def bisect (test : β → β → Inquiry α (Option β)) (allowed : Nat) (a : β) (pending : List β) :
    Inquiry α (List β) :=
  match pending with
  | [] => finish (.succeed [])
  | b :: rest =>
    (test a b).andThen fun
      | none => (bisect test allowed b rest).andThen fun xs => finish (.succeed (a :: xs))
      | some m =>
        match allowed with
        | 0 => finish (.fail .unresolved)
        | left + 1 => bisect test left a (m :: b :: rest)
termination_by (allowed, pending.length)

section Answers

variable (f : α → α)

@[simp]
theorem answer_finish (run : Trace α β) : (finish run).answer f = run := rfl

@[simp]
theorem answer_ask (x : α) (next : α → Inquiry α β) :
    (ask x next).answer f = (next (f x)).answer f := rfl

theorem answer_logged (events : List (Event α)) (p : Inquiry α β) :
    (p.logged events).answer f = ⟨events ++ (p.answer f).events, (p.answer f).outcome⟩ := by
  induction p with
  | finish run => rfl
  | ask x next ih => exact ih (f x)

@[simp]
theorem answer_andThen (p : Inquiry α β) (k : β → Inquiry α γ) :
    (p.andThen k).answer f = (p.answer f).andThen fun v => (k v).answer f := by
  induction p with
  | finish run =>
      obtain ⟨events, outcome⟩ := run
      cases outcome with
      | error e => rfl
      | ok v => exact answer_logged f events (k v)
  | ask x next ih => exact ih (f x)

@[simp]
theorem answer_each (k : β → Inquiry α γ) (bs : List β) :
    (each k bs).answer f = Trace.each (fun b => (k b).answer f) bs := by
  induction bs with
  | nil => rfl
  | cons b bs ih => simp only [each, Trace.each, answer_andThen, ih, answer_finish]

@[simp]
theorem answer_bisect (test : β → β → Inquiry α (Option β)) (allowed : Nat) (a : β)
    (pending : List β) :
    (bisect test allowed a pending).answer f =
      AdaptiveTables.bisect (fun a b => (test a b).answer f) allowed a pending := by
  induction allowed, a, pending using bisect.induct with
  | case1 allowed a =>
      rw [bisect, AdaptiveTables.bisect]
      rfl
  | case2 allowed a b rest accepted inserted =>
      rw [bisect, AdaptiveTables.bisect, answer_andThen]
      congr 1
      funext verdict
      cases verdict with
      | none => simp only [answer_andThen, accepted, answer_finish]
      | some m =>
          cases allowed with
          | zero => rfl
          | succ left => exact inserted m

variable {f} in
/-- What a function is elsewhere than at its calls has no influence. -/
theorem answer_congr {f' : α → α} {p : Inquiry α β} (h : ∀ x ∈ p.calls f, f' x = f x) :
    p.answer f' = p.answer f := by
  induction p with
  | finish run => rfl
  | ask x next ih =>
      rw [answer_ask, answer_ask, h x List.mem_cons_self]
      exact ih (f x) fun z hz => h z (List.mem_cons_of_mem _ hz)

theorem calls_logged (events : List (Event α)) (p : Inquiry α β) :
    (p.logged events).calls f = p.calls f := by
  induction p with
  | finish run => rfl
  | ask x next ih => exact congrArg (x :: ·) (ih (f x))

theorem calls_andThen (p : Inquiry α β) (k : β → Inquiry α γ) :
    (p.andThen k).calls f = p.calls f ++
      match (p.answer f).outcome with
      | .error _ => []
      | .ok v => (k v).calls f := by
  induction p with
  | finish run =>
      obtain ⟨events, outcome⟩ := run
      cases outcome with
      | error e => rfl
      | ok v => exact calls_logged f events (k v)
  | ask x next ih => exact congrArg (x :: ·) (ih (f x))

variable {f} in
theorem mem_calls_of_first {p : Inquiry α β} {k : β → Inquiry α γ} {x : α} (h : x ∈ p.calls f) :
    x ∈ (p.andThen k).calls f := by
  rw [calls_andThen]
  exact List.mem_append_left _ h

variable {f} in
theorem mem_calls_of_later {p : Inquiry α β} {k : β → Inquiry α γ} {x : α} {v : β}
    (run : p.answer f = .succeed v) (h : x ∈ (k v).calls f) : x ∈ (p.andThen k).calls f := by
  rw [calls_andThen, run]
  exact List.mem_append_right _ h

end Answers

/-- Whatever the answers are, an inquiry asks at abscissas of one kind only, and what it returns is
of a kind as well. -/
inductive Asks (P : α → Prop) (Q : β → Prop) : Inquiry α β → Prop
  | finish {run : Trace α β} (result : ∀ events v, run = ⟨events, .ok v⟩ → Q v) :
      Asks P Q (.finish run)
  | ask {x : α} {next : α → Inquiry α β} (asked : P x) (later : ∀ y, Asks P Q (next y)) :
      Asks P Q (.ask x next)

namespace Asks

variable {P : α → Prop} {Q : β → Prop} {R : γ → Prop}

theorem succeed {v : β} (h : Q v) : Asks P Q (.finish (.succeed v)) :=
  .finish fun _ _ heq => (Trace.succeed_eq_ok.mp heq).2 ▸ h

theorem fail (e : GridError α) : Asks P Q (.finish (.fail e)) :=
  .finish fun _ _ heq => absurd heq Trace.fail_ne_ok

theorem calls {p : Inquiry α β} (h : p.Asks P Q) (f : α → α) : ∀ x ∈ p.calls f, P x := by
  induction h with
  | finish _ => exact fun x hx => nomatch hx
  | @ask x next asked _ ih =>
      intro z hz
      cases hz with
      | head => exact asked
      | tail _ hz => exact ih (f x) z hz

theorem ofExcept {r : Except (GridError α) β} (h : ∀ v, r = .ok v → Q v) :
    Asks P Q (.finish (.ofExcept r)) :=
  .finish fun _ v heq => h v (Trace.ofExcept_eq_ok.mp heq).2

theorem mono {Q' : β → Prop} {p : Inquiry α β} (h : p.Asks P Q) (weaker : ∀ v, Q v → Q' v) :
    p.Asks P Q' := by
  induction h with
  | finish result => exact .finish fun events v run => weaker v (result events v run)
  | ask asked _ ih => exact .ask asked ih

theorem logged {p : Inquiry α β} (h : p.Asks P Q) (events : List (Event α)) :
    (p.logged events).Asks P Q := by
  induction h with
  | @finish run result =>
      exact .finish fun _ v heq =>
        result run.events v (congrArg (Trace.mk run.events) (Trace.mk.inj heq).2)
  | ask asked _ ih => exact .ask asked ih

theorem andThen {p : Inquiry α β} {k : β → Inquiry α γ} (h : p.Asks P Q)
    (hk : ∀ v, Q v → (k v).Asks P R) : (p.andThen k).Asks P R := by
  induction h with
  | @finish run result =>
      obtain ⟨events, outcome⟩ := run
      cases outcome with
      | error e => exact .finish fun _ _ heq => nomatch heq
      | ok v => exact (hk v (result events v rfl)).logged events
  | ask asked _ ih => exact .ask asked ih

theorem each {k : β → Inquiry α γ} {T : β → γ → Prop} {bs : List β}
    (h : ∀ b ∈ bs, (k b).Asks P (T b)) :
    (Inquiry.each k bs).Asks P fun cs => List.Forall₂ T bs cs := by
  induction bs with
  | nil => exact .succeed .nil
  | cons b bs ih =>
      refine (h b List.mem_cons_self).andThen fun c hc => ?_
      refine (ih fun b' hb' => h b' (List.mem_cons_of_mem _ hb')).andThen fun cs hcs => ?_
      exact .succeed (.cons hc hcs)

/-- A refinement asks where its tests ask, if the halves of an interval are intervals of the kind
that the tests are asked for. -/
theorem bisect {test : β → β → Inquiry α (Option β)} {S : β → β → Prop}
    (tests : ∀ a b, S a b → (test a b).Asks P fun split => ∀ m ∈ split, S a m ∧ S m b)
    {allowed : Nat} {a : β} {pending : List β}
    (chain : ∀ p ∈ adjacent (a :: pending), S p.1 p.2) :
    (Inquiry.bisect test allowed a pending).Asks P fun _ => True := by
  induction allowed, a, pending using Inquiry.bisect.induct with
  | case1 allowed a =>
      rw [Inquiry.bisect]
      exact .succeed trivial
  | case2 allowed a b rest accepted inserted =>
      rw [adjacent_cons_cons] at chain
      have later : ∀ p ∈ adjacent (b :: rest), S p.1 p.2 := fun p hp =>
        chain p (List.mem_cons_of_mem _ hp)
      rw [Inquiry.bisect]
      refine (tests a b (chain (a, b) List.mem_cons_self)).andThen fun verdict halves => ?_
      cases verdict with
      | none => exact (accepted later).andThen fun xs _ => .succeed trivial
      | some m =>
          obtain ⟨ham, hmb⟩ := halves m rfl
          cases allowed with
          | zero => exact .fail _
          | succ left =>
              refine inserted m fun p hp => ?_
              simp only [adjacent_cons_cons, List.mem_cons] at hp
              rcases hp with rfl | rfl | hp
              · exact ham
              · exact hmb
              · exact later p hp

end Asks
end Inquiry

section Runs

variable {α : Type} [Scalar α]

/-- The node at a point, if the value there is usable. -/
def askNode (usable : α → Bool) (x : α) : Inquiry α (Node α) :=
  .ask x fun y => .finish (.ofExcept (nodeAt (fun _ => y) usable x))

namespace LineGenerator

/-- The test of an interval, which asks for the value at its midpoint. -/
def askStep (g : LineGenerator α) (a b : Node α) : Inquiry α (Option (Node α)) :=
  .ask (g.rule.midpoint a.x b.x) fun y => .finish (g.step (fun _ => y) a b)

variable [Resolution α]

/-- The refinement of a grid between two limits. -/
def askBetween (g : LineGenerator α) (points : List α) (lo hi : α) : Inquiry α (LineGrid α) :=
  (Inquiry.each (askNode Scalar.isFinite) (points.takeWhile (· < lo))).andThen fun below =>
  (Inquiry.each (askNode g.rule.dependent.admits) (rightEnds points lo hi).reverse).andThen
    fun ends =>
  (askNode g.rule.dependent.admits lo).andThen fun start =>
  (Inquiry.bisect g.askStep (Resolution.valuesAbove lo hi) start ends.reverse).andThen fun inner =>
  (Inquiry.each (askNode Scalar.isFinite) (points.filter (hi < ·))).andThen fun above =>
  .finish (.succeed
    ((inner.foldr LineGrid.cons ⟨ends.reverse.getLastD start, []⟩).surround below above))

/-- The generation of a grid from a seed. -/
def askGenerate (g : LineGenerator α) (seed : List α) : Inquiry α (LineGrid α) :=
  (Inquiry.finish (.ofExcept (seedEnds g.rule.independent seed))).andThen fun (lo, hi) =>
  g.askBetween seed lo hi

/-- The refinement of a grid inside a range. -/
def askRefine (g : LineGenerator α) (points : List α) (lo hi : α) : Inquiry α (LineGrid α) :=
  (Inquiry.finish (.ofExcept (seedEnds g.rule.independent points))).andThen fun (first, last) =>
  (Inquiry.finish (.ofExcept (refinementRange first last lo hi))).andThen fun (lo, hi) =>
  g.askBetween points lo hi

end LineGenerator

variable (g : LineGenerator α) (f : α → α)

omit [Scalar α] in
@[simp]
theorem answer_askNode (usable : α → Bool) (x : α) :
    (askNode usable x).answer f = .ofExcept (nodeAt f usable x) := rfl

namespace LineGenerator

@[simp]
theorem answer_askStep (a b : Node α) : (g.askStep a b).answer f = g.step f a b := by
  rw [askStep, Inquiry.answer_ask, Inquiry.answer_finish, step_eq_ite, step_eq_ite]
  rfl

variable [Resolution α]

@[simp]
theorem answer_askBetween (points : List α) (lo hi : α) :
    (g.askBetween points lo hi).answer f = g.refineBetween f points lo hi := by
  simp only [askBetween, refineBetween, Inquiry.answer_andThen, Inquiry.answer_each,
    Inquiry.answer_bisect, answer_askNode, answer_askStep, Inquiry.answer_finish,
    sweep_eq_bisect, Trace.bind_eq_andThen, Trace.pure_eq_succeed, Trace.andThen_assoc,
    Trace.succeed_andThen]
  rfl

@[simp]
theorem answer_askGenerate (seed : List α) :
    (g.askGenerate seed).answer f = g.generate f seed := by
  simp only [askGenerate, generate, Inquiry.answer_andThen, Inquiry.answer_finish,
    answer_askBetween, Trace.bind_eq_andThen]

@[simp]
theorem answer_askRefine (points : List α) (lo hi : α) :
    (g.askRefine points lo hi).answer f = g.refine f points lo hi := by
  simp only [askRefine, refine, Inquiry.answer_andThen, Inquiry.answer_finish,
    answer_askBetween, Trace.bind_eq_andThen]

end LineGenerator
end Runs

section Calls

variable {α : Type} [Scalar α] {P : α → Prop}

omit [Scalar α] in
theorem asks_askNode (usable : α → Bool) {x : α} (h : P x) :
    (askNode usable x).Asks P fun n => n.x = x := by
  refine .ask h fun y => .ofExcept fun n hnode => ?_
  obtain ⟨rfl, _⟩ := nodeAt_eq_ok.mp hnode
  rfl

omit [Scalar α] in
theorem asks_nodes (usable : α → Bool) {xs : List α} (h : ∀ x ∈ xs, P x) :
    (Inquiry.each (askNode usable) xs).Asks P fun nodes => nodes.map (·.x) = xs := by
  refine (Inquiry.Asks.each fun x hx => asks_askNode usable (h x hx)).mono fun nodes hnodes => ?_
  clear h
  induction hnodes with
  | nil => rfl
  | cons hx _ ih => rw [List.map_cons, hx, ih]

namespace LineGenerator

/-- The abscissas that a run over a range may ask for: those of the range, and midpoints that were
computed for an interval in the range and do not lie inside that interval. -/
def Reaches (g : LineGenerator α) (first last x : α) : Prop :=
  (first ≤ x ∧ x ≤ last) ∨
    ∃ a b, first ≤ a ∧ a < b ∧ b ≤ last ∧ x = g.rule.midpoint a b ∧ ¬(a < x ∧ x < b)

variable {g : LineGenerator α} {first last : α}

theorem reaches_of_mem {x : α} (h : first ≤ x ∧ x ≤ last) : g.Reaches first last x := Or.inl h

theorem asks_askStep {a b : Node α} (h : P (g.rule.midpoint a.x b.x)) :
    (g.askStep a b).Asks P fun split => ∀ m ∈ split, a.x < m.x ∧ m.x < b.x := by
  refine .ask h fun y => .finish fun events split run m hm => ?_
  obtain rfl : split = some m := hm
  cases steps_of_step run with
  | split _ hverdict => exact inside_of_split hverdict

variable [Scalar.Ordered α]

theorem reaches_midpoint {a b : α} (ha : first ≤ a) (range : a < b) (hb : b ≤ last) :
    g.Reaches first last (g.rule.midpoint a b) := by
  by_cases inside : a < g.rule.midpoint a b ∧ g.rule.midpoint a b < b
  · exact reaches_of_mem ⟨Scalar.le_trans ha (Scalar.le_of_lt inside.1),
      Scalar.le_trans (Scalar.le_of_lt inside.2) hb⟩
  · exact Or.inr ⟨a, b, ha, range, hb, rfl, inside⟩

variable [Resolution α] {points : List α} {lo hi : α}

theorem asks_askBetween (h : SeedAccepted g.rule.independent points first last) (above : first ≤ lo)
    (range : lo < hi) (below : hi ≤ last) :
    (g.askBetween points lo hi).Asks (g.Reaches first last) fun _ => True := by
  have onGrid : ∀ x ∈ points, g.Reaches first last x := fun x hx =>
    reaches_of_mem ⟨h.first_le x hx, h.le_last x hx⟩
  have ends := rightEnds_spec h.ascending range
  have inRange : ∀ x ∈ lo :: rightEnds points lo hi, first ≤ x ∧ x ≤ last := fun x hx =>
    ⟨Scalar.le_trans above (ends.inside range x hx).1,
      Scalar.le_trans (ends.inside range x hx).2 below⟩
  refine (asks_nodes _ fun x hx => onGrid x (List.takeWhile_sublist _ |>.subset hx)).andThen
    fun _ _ => ?_
  refine (asks_nodes _ fun x hx =>
    reaches_of_mem (inRange x (List.mem_cons_of_mem _ (List.mem_reverse.mp hx)))).andThen
    fun nodes hnodes => ?_
  refine (asks_askNode _ (reaches_of_mem (inRange lo List.mem_cons_self))).andThen
    fun start hstart => ?_
  have hcoordinates : (start :: nodes.reverse).map (·.x) = lo :: rightEnds points lo hi := by
    rw [List.map_cons, List.map_reverse, hnodes, hstart, List.reverse_reverse]
  have chain : ∀ p ∈ adjacent (start :: nodes.reverse), Worklist.Within (·.x) first last p.1 p.2 :=
    Worklist.within_of_ascending (hcoordinates ▸ ends.ascending) fun c hc =>
      inRange c.x (hcoordinates ▸ List.mem_map_of_mem hc)
  refine Inquiry.Asks.andThen (Inquiry.Asks.bisect ?_ chain) fun _ _ => ?_
  · intro a b hab
    obtain ⟨ha, hlt, hb⟩ := hab
    refine (asks_askStep (reaches_midpoint ha hlt hb)).mono fun split inside m hm => ?_
    exact Worklist.within_halves (inside m hm) ⟨ha, hlt, hb⟩
  · refine (asks_nodes _ fun x hx => onGrid x (List.mem_filter.mp hx).1).andThen fun _ _ => ?_
    exact .succeed trivial

theorem asks_askGenerate (h : SeedAccepted g.rule.independent points first last) :
    (g.askGenerate points).Asks (g.Reaches first last) fun _ => True := by
  rw [askGenerate, seedEnds_of_seedAccepted h]
  have hfirst := h.first_le first (List.mem_of_head? h.head)
  have hlast := h.le_last last (List.mem_of_getLast? h.getLast)
  exact (asks_askBetween h hfirst h.range hlast).logged []

theorem asks_askRefine (h : SeedAccepted g.rule.independent points first last) (min max : α) :
    (g.askRefine points min max).Asks (g.Reaches first last) fun _ => True := by
  rw [askRefine, seedEnds_of_seedAccepted h]
  refine Inquiry.Asks.logged ?_ []
  refine (Inquiry.Asks.ofExcept fun _ limits => limits).andThen fun (lo, hi) limits => ?_
  have hfirst := h.first_le first (List.mem_of_head? h.head)
  have hlast := h.le_last last (List.mem_of_getLast? h.getLast)
  have accepted := rangeAccepted_of_refinementRange (Scalar.number_of_le hfirst).1
    (Scalar.number_of_le hlast).1 limits
  exact asks_askBetween h accepted.above accepted.range accepted.below

/-- Every call is at a point of the range of the grid, or at a midpoint that was computed for an
interval of the range and lies elsewhere. What the function is anywhere else has no influence, and
if no midpoint ever leaves its interval, no call leaves the range. -/
theorem calls_reach (g : LineGenerator α) (f : α → α)
    (accepted : seedEnds g.rule.independent points = .ok (first, last)) :
    ((g.askGenerate points).answer f = g.generate f points ∧
      ∀ x ∈ (g.askGenerate points).calls f, g.Reaches first last x) ∧
    (∀ lo hi, (g.askRefine points lo hi).answer f = g.refine f points lo hi ∧
      ∀ x ∈ (g.askRefine points lo hi).calls f, g.Reaches first last x) ∧
    (∀ f', (∀ x, g.Reaches first last x → f' x = f x) →
      g.generate f' points = g.generate f points ∧
        ∀ lo hi, g.refine f' points lo hi = g.refine f points lo hi) ∧
    ((∀ a b, first ≤ a → a < b → b ≤ last →
        a < g.rule.midpoint a b ∧ g.rule.midpoint a b < b) →
      ∀ x, g.Reaches first last x → first ≤ x ∧ x ≤ last) := by
  have h := seedAccepted_of_seedEnds accepted
  have generated := (asks_askGenerate h).calls f
  have refined (lo hi : α) := (asks_askRefine h lo hi).calls f
  refine ⟨⟨g.answer_askGenerate f points, generated⟩,
    fun lo hi => ⟨g.answer_askRefine f points lo hi, refined lo hi⟩, fun f' agree => ⟨?_, ?_⟩, ?_⟩
  · rw [← answer_askGenerate, ← answer_askGenerate]
    exact Inquiry.answer_congr fun x hx => agree x (generated x hx)
  · intro lo hi
    rw [← answer_askRefine, ← answer_askRefine]
    exact Inquiry.answer_congr fun x hx => agree x (refined lo hi x hx)
  · intro inside x reached
    cases reached with
    | inl hrange => exact hrange
    | inr hmidpoint =>
        obtain ⟨a, b, ha, range, hb, rfl, outside⟩ := hmidpoint
        exact absurd (inside a b ha range hb) outside

/-- The midpoint of the first interval of a seed is called, wherever it lies. -/
theorem midpoint_mem_calls {f : α → α} {a b : α} {rest : List α}
    (accepted : seedEnds g.rule.independent (a :: b :: rest) = .ok (first, last))
    (usable : ∀ x ∈ a :: b :: rest, g.rule.dependent.admits (f x) = true) :
    g.rule.midpoint a b ∈ (g.askGenerate (a :: b :: rest)).calls f := by
  have h := seedAccepted_of_seedEnds accepted
  obtain rfl : a = first := Option.some.inj h.head
  obtain ⟨below, ends, _⟩ := parts_of_seedAccepted h
  refine Inquiry.mem_calls_of_later (v := (a, last)) (by rw [accepted]; rfl) ?_
  simp only [askBetween, below, ends]
  refine Inquiry.mem_calls_of_later (v := []) rfl ?_
  refine Inquiry.mem_calls_of_later (v := (b :: rest).reverse.map (nodeOf f)) ?_ ?_
  · rw [Inquiry.answer_each]
    exact each_nodeAt fun x hx => usable x (List.mem_cons_of_mem _ (List.mem_reverse.mp hx))
  refine Inquiry.mem_calls_of_later (v := nodeOf f a) ?_ ?_
  · rw [answer_askNode, nodeAt_eq_ok.mpr ⟨rfl, usable a List.mem_cons_self⟩]
    rfl
  · rw [List.map_reverse, List.reverse_reverse, List.map_cons, Inquiry.bisect]
    exact Inquiry.mem_calls_of_first (Inquiry.mem_calls_of_first List.mem_cons_self)

/-- A run fails for the value at the midpoint of the first interval, wherever that lies. -/
theorem generate_of_refused_midpoint {f : α → α} {a b : α} {rest : List α}
    (accepted : seedEnds g.rule.independent (a :: b :: rest) = .ok (first, last))
    (usable : ∀ x ∈ a :: b :: rest, g.rule.dependent.admits (f x) = true) {m : α}
    (middle : g.rule.midpoint a b = m) (refused : ¬g.rule.dependent.admits (f m) = true) :
    g.generate f (a :: b :: rest) = .fail (.invalidArgument (.unusableValue (f m) m)) := by
  subst middle
  have h := seedAccepted_of_seedEnds accepted
  obtain rfl : a = first := Option.some.inj h.head
  obtain ⟨below, ends, above⟩ := parts_of_seedAccepted h
  have failed : g.step f (nodeOf f a) (nodeOf f b) = .fail (.invalidArgument
      (.unusableValue (f (g.rule.midpoint a b)) (g.rule.midpoint a b))) := by
    rw [step_eq_ite]
    exact if_neg refused
  rw [generate_of_seedEnds accepted, refineBetween_of_usable (by rw [below]; simp)
    (by rwa [ends]) (by rw [above]; simp), ends, sweep_eq_bisect, List.map_cons,
    bisect_of_error failed]
  rfl

end LineGenerator
end Calls

namespace LineGenerator

/-- The calls for a square, and the run that they belong to. -/
theorem calls_reach_square :
    seedEnds coarse.rule.independent [1.0, 2.0] = .ok ((1.0 : Float), 2.0) ∧
      (1.5 : Float) ∈ (coarse.askGenerate [1.0, 2.0]).calls square ∧
      (∀ x ∈ (coarse.askGenerate [1.0, 2.0]).calls square, coarse.Reaches 1.0 2.0 x) ∧
      (coarse.askGenerate [1.0, 2.0]).answer square =
        ⟨[], .ok ⟨⟨1.0, 1.0⟩, [⟨1.5, 2.25⟩, ⟨2.0, 4.0⟩]⟩⟩ := by
  have accepted : seedEnds coarse.rule.independent [1.0, 2.0] = .ok ((1.0 : Float), 2.0) := rfl
  have usable : ∀ x ∈ [1.0, 2.0], coarse.rule.dependent.admits (square x) = true := by decide
  obtain ⟨⟨answer, reached⟩, _⟩ := calls_reach coarse square accepted
  exact ⟨accepted, midpoint_mem_calls accepted usable, reached, answer.trans generate_square⟩

/-- One up to a limit, and infinite above it. -/
def oneUpTo (limit x : Float) : Float := if limit < x then 1.0 / 0.0 else 1.0

theorem generate_constant :
    ∃ events, (standard .linear).generate (fun _ => 1.0) [1e308, 1.7e308] =
      ⟨events, .ok ⟨⟨(1e308 : Float), 1.0⟩, [⟨1.7e308, 1.0⟩]⟩⟩ := by
  let g : LineGenerator Float := standard .linear
  let f : Float → Float := fun _ => 1.0
  let cause : Dirty Float := .closeEnds 1e308 1.7e308 (Scalar.relativeError 1e308 1.7e308)
  have accepted : seedEnds g.rule.independent [1e308, 1.7e308] = .ok (1e308, 1.7e308) := by
    decide +kernel
  have reported : (g.verdict f (nodeOf f 1e308) (nodeOf f 1.7e308)).dirty? = some cause := by
    decide +kernel
  have usable (x : Float) : g.rule.dependent.admits (f x) = true :=
    (rfl : Scalar.isFinite (1.0 : Float) = true)
  have hstretch : g.stretch? f 1e308 1.7e308 = some ⟨[nodeOf f 1e308], [cause]⟩ := by
    rw [stretch?_of_admits (usable 1e308) (usable 1.7e308) (usable (g.rule.midpoint 1e308 1.7e308))]
    generalize g.verdict f (nodeOf f 1e308) (nodeOf f 1.7e308) = verdict at reported
    cases verdict with
    | converged | split => cases reported
    | dirty _ =>
        cases reported
        rfl
  exact ⟨_, (generate_eq_ok_iff (seedAccepted_of_seedEnds accepted)).mpr
    ⟨[_], .cons hstretch .nil, rfl, rfl⟩⟩

/-- A midpoint that overflows is called. The function is one on the range of the seed, and yet the
run fails for its value there, where it returns the seed for the constant. -/
theorem infinity_is_called :
    let g : LineGenerator Float := standard .linear
    let seed : List Float := [1e308, 1.7e308]
    let infinity : Float := 1.0 / 0.0
    seedEnds g.rule.independent seed = .ok (1e308, 1.7e308) ∧
      infinity ∈ (g.askGenerate seed).calls (oneUpTo 1.7e308) ∧ ¬infinity ≤ 1.7e308 ∧
      (∀ x, x ≤ 1.7e308 → oneUpTo 1.7e308 x = 1.0) ∧
      g.generate (oneUpTo 1.7e308) seed =
        .fail (.invalidArgument (.unusableValue infinity infinity)) ∧
      ∃ events, g.generate (fun _ => 1.0) seed =
        ⟨events, .ok ⟨⟨1e308, 1.0⟩, [⟨1.7e308, 1.0⟩]⟩⟩ := by
  intro g seed infinity
  have accepted : seedEnds g.rule.independent seed = .ok (1e308, 1.7e308) := by decide +kernel
  have middle : g.rule.midpoint (1e308 : Float) 1.7e308 = infinity := by decide +kernel
  have usable : ∀ x ∈ seed, g.rule.dependent.admits (oneUpTo 1.7e308 x) = true := by
    decide +kernel
  have value : oneUpTo 1.7e308 infinity = infinity := by decide +kernel
  have refused : ¬g.rule.dependent.admits (oneUpTo 1.7e308 infinity) = true := by decide +kernel
  have called := midpoint_mem_calls accepted usable
  have failed := generate_of_refused_midpoint accepted usable middle refused
  rw [middle] at called
  rw [value] at failed
  exact ⟨accepted, called, by decide +kernel, fun x hx => if_neg (Scalar.not_lt_of_le hx), failed,
    generate_constant⟩

end LineGenerator
end AdaptiveTables
