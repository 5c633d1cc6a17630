import AdaptiveTables.Proofs.Runs

/-!
Refinement from left to right, apart from what is refined. A test either accepts an interval or
names a point to split it at. The pending right ends form a work-list, and every successful run
over it is a derivation: each seed interval is refined on its own, and a split interval is its
left half followed by its right half.
-/

namespace AdaptiveTables

/-- Every element of a list with the one after it. -/
def adjacent {β : Type} (xs : List β) : List (β × β) := xs.zip xs.tail

section Adjacent

variable {β : Type}

theorem adjacent_cons_cons (a b : β) (xs : List β) :
    adjacent (a :: b :: xs) = (a, b) :: adjacent (b :: xs) := rfl

/-- A list falls into two runs of neighbours at any of its elements. -/
theorem adjacent_append (xs ys : List β) (b : β) :
    adjacent (xs ++ b :: ys) = adjacent (xs ++ [b]) ++ adjacent (b :: ys) := by
  induction xs with
  | nil => rfl
  | cons x xs ih =>
      cases xs with
      | nil => rfl
      | cons x' xs =>
          simp only [List.cons_append, adjacent_cons_cons] at ih ⊢
          rw [ih]

theorem adjacent_map {γ : Type} (f : β → γ) (xs : List β) :
    adjacent (xs.map f) = (adjacent xs).map fun p => (f p.1, f p.2) := by
  rw [adjacent, ← List.map_tail, List.zip_map]
  rfl

theorem mem_adjacent_iff {xs : List β} {a b : β} : (a, b) ∈ adjacent xs ↔ [a, b] <:+: xs := by
  induction xs with
  | nil => simp [adjacent]
  | cons x xs ih =>
      cases xs with
      | nil => simp [adjacent, List.infix_cons_iff, List.cons_prefix_cons]
      | cons y xs =>
          rw [adjacent_cons_cons, List.mem_cons, ih]
          refine Iff.trans ?_ List.infix_cons_iff.symm
          simp [List.cons_prefix_cons]

theorem mem_of_adjacent {xs : List β} {p : β × β} (h : p ∈ adjacent xs) :
    p.1 ∈ xs ∧ p.2 ∈ xs :=
  ⟨(List.of_mem_zip h).1, List.mem_of_mem_tail (List.of_mem_zip h).2⟩

/-- Nothing lies between two neighbours of a list that ascends strictly. -/
theorem not_adjacent_of_between {R : β → β → Prop} (irrefl : ∀ a, ¬R a a)
    (trans : ∀ {a b c}, R a b → R b c → R a c) {xs : List β} {a m b : β} (ascending : xs.Pairwise R)
    (hm : m ∈ xs) (between : R a m ∧ R m b) : (a, b) ∉ adjacent xs := by
  intro h
  obtain ⟨before, after, rfl⟩ := mem_adjacent_iff.mp h
  obtain ⟨hleft, _, hafter⟩ := List.pairwise_append.mp ascending
  obtain ⟨_, _, hbefore⟩ := List.pairwise_append.mp hleft
  cases List.mem_append.mp hm with
  | inr hm => exact irrefl m (trans between.2 (hafter b (by simp) m hm))
  | inl hm =>
      cases List.mem_append.mp hm with
      | inl hm => exact irrefl m (trans (hbefore m hm a (by simp)) between.1)
      | inr hm =>
          cases hm with
          | head => exact irrefl _ between.1
          | tail _ hm =>
              obtain rfl := List.mem_singleton.mp hm
              exact irrefl _ between.2

theorem adjacent_of_pairwise {R : β → β → Prop} {xs : List β} (h : xs.Pairwise R) :
    ∀ p ∈ adjacent xs, R p.1 p.2 := by
  induction h with
  | nil => intro p hp; cases hp
  | @cons a xs ha _ ih =>
      cases xs with
      | nil => intro p hp; cases hp
      | cons b xs =>
          rw [adjacent_cons_cons]
          intro p hp
          rcases List.mem_cons.mp hp with rfl | hp
          · exact ha b List.mem_cons_self
          · exact ih p hp

theorem pairwise_of_adjacent {R : β → β → Prop} (trans : ∀ {a b c}, R a b → R b c → R a c)
    {xs : List β} (h : ∀ p ∈ adjacent xs, R p.1 p.2) : xs.Pairwise R := by
  induction xs with
  | nil => exact .nil
  | cons a xs ih =>
      cases xs with
      | nil => exact List.pairwise_singleton R a
      | cons b xs =>
          rw [adjacent_cons_cons] at h
          have hab : R a b := h (a, b) List.mem_cons_self
          have hrest := ih fun p hp => h p (List.mem_cons_of_mem _ hp)
          refine List.pairwise_cons.mpr ⟨fun c hc => ?_, hrest⟩
          rcases List.mem_cons.mp hc with rfl | hc
          · exact hab
          · exact trans hab ((List.pairwise_cons.mp hrest).1 c hc)

/-- What holds of the first element and at the ends of all pairs holds of every element. -/
theorem forall_of_adjacent {P : β → Prop} {a : β} {xs : List β} (head : P a)
    (h : ∀ p ∈ adjacent (a :: xs), P p.2) : ∀ c ∈ a :: xs, P c := by
  induction xs generalizing a with
  | nil => exact fun c hc => List.mem_singleton.mp hc ▸ head
  | cons b xs ih =>
      rw [adjacent_cons_cons] at h
      intro c hc
      rcases List.mem_cons.mp hc with rfl | hc
      · exact head
      · exact ih (h _ List.mem_cons_self) (fun p hp => h p (List.mem_cons_of_mem _ hp)) c hc

theorem fst_mem_of_adjacent_append {xs : List β} {b : β} {p : β × β}
    (h : p ∈ adjacent (xs ++ [b])) : p.1 ∈ xs := by
  induction xs with
  | nil => cases h
  | cons a xs ih =>
      cases xs with
      | nil =>
          obtain rfl := List.mem_singleton.mp h
          exact List.mem_cons_self
      | cons a' xs =>
          rw [List.cons_append, List.cons_append, adjacent_cons_cons] at h
          rcases List.mem_cons.mp h with rfl | h
          · exact List.mem_cons_self
          · exact List.mem_cons_of_mem _ (ih h)

theorem snd_mem_of_adjacent_cons {xs : List β} {a : β} {p : β × β}
    (h : p ∈ adjacent (a :: xs)) : p.2 ∈ xs := (List.of_mem_zip h).2

/-- The pairs of a stretch of a list, selected by what the elements around it fail. -/
theorem filter_adjacent {keep : β × β → Bool} {before inner after : List β} (nonempty : inner ≠ [])
    (hinner : ∀ p ∈ adjacent inner, keep p = true)
    (hbefore : ∀ p ∈ adjacent (before ++ (inner ++ after)), p.1 ∈ before → keep p = false)
    (hafter : ∀ p ∈ adjacent (before ++ (inner ++ after)), p.2 ∈ after → keep p = false) :
    (adjacent (before ++ (inner ++ after))).filter keep = adjacent inner := by
  obtain ⟨a, rest, rfl⟩ := List.exists_cons_of_ne_nil nonempty
  obtain ⟨init, b, hlast⟩ : ∃ init b, a :: rest = init ++ [b] :=
    ⟨_, _, (List.dropLast_concat_getLast nonempty).symm⟩
  -- The pairs fall into those up to the first inner element, the inner ones and the later ones.
  have hfirst : adjacent (before ++ (a :: rest ++ after)) =
      adjacent (before ++ [a]) ++ adjacent (a :: rest ++ after) := by
    rw [List.cons_append, adjacent_append]
  have hsecond : adjacent (a :: rest ++ after) = adjacent (a :: rest) ++ adjacent (b :: after) := by
    rw [hlast, List.append_assoc, List.singleton_append, adjacent_append]
  rw [hfirst, hsecond] at hbefore hafter ⊢
  have hnone : (adjacent (before ++ [a])).filter keep = [] :=
    List.filter_eq_nil_iff.mpr fun p hp => by
      simp [hbefore p (List.mem_append_left _ hp) (fst_mem_of_adjacent_append hp)]
  have hnone' : (adjacent (b :: after)).filter keep = [] :=
    List.filter_eq_nil_iff.mpr fun p hp => by
      have hmem := List.mem_append_right (adjacent (a :: rest)) hp
      simp [hafter p (List.mem_append_right _ hmem) (snd_mem_of_adjacent_cons hp)]
  rw [List.filter_append, List.filter_append, hnone, hnone', List.filter_eq_self.mpr hinner,
    List.nil_append, List.append_nil]

end Adjacent

variable {α β : Type}

/-- Refines from a left end over the pending right ends, nearest first. Returns the accepted left
ends. The number counts the points that may still be inserted. -/
def bisect (test : β → β → Trace α (Option β)) (allowed : Nat) (a : β) (pending : List β) :
    Trace α (List β) :=
  match pending with
  | [] => .succeed []
  | b :: rest =>
    (test a b).andThen fun
      | none => (bisect test allowed b rest).andThen fun xs => .succeed (a :: xs)
      | some m =>
        match allowed with
        | 0 => .fail .unresolved
        | left + 1 => bisect test left a (m :: b :: rest)
termination_by (allowed, pending.length)

/-- A successful refinement of one interval: the points from its left end up to the right end,
which is left out, and the events of the tests. -/
inductive Refines (test : β → β → Trace α (Option β)) :
    β → β → List β → List (Event α) → Prop
  | accept {a b events} (accepted : test a b = ⟨events, .ok none⟩) : Refines test a b [a] events
  | split {a m b events xs ys left right} (inserted : test a b = ⟨events, .ok (some m)⟩)
      (lower : Refines test a m xs left) (upper : Refines test m b ys right) :
      Refines test a b (xs ++ ys) (events ++ (left ++ right))

/-- A successful refinement of all intervals up to the pending right ends: the points from the
left end to the last right end, both included. -/
inductive Sweeps (test : β → β → Trace α (Option β)) :
    β → List β → List β → List (Event α) → Prop
  | done {a} : Sweeps test a [] [a] []
  | interval {a b rest xs ys events later} (first : Refines test a b xs events)
      (others : Sweeps test b rest ys later) :
      Sweeps test a (b :: rest) (xs ++ ys) (events ++ later)

variable {test : β → β → Trace α (Option β)} {a b : β} {pending xs : List β}
  {events : List (Event α)}

/-- The two halves of a split interval join to one derivation of the interval. -/
theorem Sweeps.join {m : β} {rest : List β} {later : List (Event α)}
    (inserted : test a b = ⟨events, .ok (some m)⟩)
    (h : Sweeps test a (m :: b :: rest) xs later) :
    Sweeps test a (b :: rest) xs (events ++ later) := by
  cases h with
  | interval lower others =>
      cases others with
      | interval upper others =>
          rw [← List.append_assoc, ← List.append_assoc, ← List.append_assoc,
            List.append_assoc events]
          exact .interval (.split inserted lower upper) others

/-- A run over the work-list is a derivation. -/
theorem bisect_eq_ok {allowed : Nat} (h : bisect test allowed a pending = ⟨events, .ok xs⟩) :
    Sweeps test a pending (xs ++ [pending.getLastD a]) events := by
  induction allowed, a, pending using bisect.induct generalizing xs events with
  | case1 allowed a =>
      rw [bisect] at h
      obtain ⟨rfl, rfl⟩ := Trace.succeed_eq_ok.mp h
      exact .done
  | case2 allowed a b rest accepted inserted =>
      rw [bisect] at h
      obtain ⟨tested, verdict, after, ht, hafter, rfl⟩ := Trace.andThen_eq_ok.mp h
      cases verdict with
      | none =>
          obtain ⟨later, ys, last, hys, hlast, rfl⟩ := Trace.andThen_eq_ok.mp hafter
          obtain ⟨rfl, rfl⟩ := Trace.succeed_eq_ok.mp hlast
          rw [List.append_nil, List.getLastD_cons]
          have joined := Sweeps.interval (.accept ht) (accepted hys)
          exact joined
      | some m =>
          cases allowed with
          | zero => exact absurd hafter Trace.fail_ne_ok
          -- The run goes on with both halves, and the two become one derivation again.
          | succ left => exact .join ht (inserted m hafter)

theorem refines_of_bisect {allowed : Nat} (h : bisect test allowed a [b] = ⟨events, .ok xs⟩) :
    Refines test a b xs events := by
  have swept := bisect_eq_ok h
  generalize hys : xs ++ [[b].getLastD a] = ys at swept
  cases swept with
  | interval first others =>
      cases others with
      | done =>
          obtain ⟨rfl, _⟩ := List.append_inj' hys rfl
          rw [List.append_nil]
          exact first

/-- Intervals that are refined one by one are refined together. -/
theorem sweeps_of_pieces {ends : List β} {refine : β × β → Trace α (List β)}
    {pieces : List (List β)}
    (each : ∀ {p events xs}, refine p = ⟨events, .ok xs⟩ → Refines test p.1 p.2 xs events)
    (h : Trace.EachOk refine (adjacent (a :: ends)) pieces events) :
    Sweeps test a ends (pieces.flatten ++ [ends.getLastD a]) events := by
  induction ends generalizing a pieces events with
  | nil =>
      cases h
      exact .done
  | cons b ends ih =>
      rw [adjacent_cons_cons] at h
      cases h with
      | cons head tail =>
          rw [List.flatten_cons, List.append_assoc, List.getLastD_cons]
          exact .interval (each head) (ih tail)

theorem Refines.exists_cons (h : Refines test a b xs events) : ∃ ys, xs = a :: ys := by
  induction h with
  | accept => exact ⟨[], rfl⟩
  | split _ _ _ lower _ =>
      obtain ⟨ys, rfl⟩ := lower
      exact ⟨_, List.cons_append⟩

theorem Sweeps.exists_cons (h : Sweeps test a pending xs events) : ∃ ys, xs = a :: ys := by
  cases h with
  | done => exact ⟨[], rfl⟩
  | interval first _ =>
      obtain ⟨ys, rfl⟩ := first.exists_cons
      exact ⟨_, List.cons_append⟩

/-- A relation that both halves of a split interval inherit holds of all neighbours, and the test
accepts them all. -/
theorem Refines.neighbours {R : β → β → Prop}
    (halves : ∀ {a m b events}, test a b = ⟨events, .ok (some m)⟩ → R a b → R a m ∧ R m b)
    (h : Refines test a b xs events) (hab : R a b) :
    ∀ p ∈ adjacent (xs ++ [b]), R p.1 p.2 ∧ ∃ events, test p.1 p.2 = ⟨events, .ok none⟩ := by
  induction h with
  | accept accepted =>
      intro p hp
      obtain rfl := List.mem_singleton.mp hp
      exact ⟨hab, _, accepted⟩
  | split inserted _ upper ihl ihu =>
      obtain ⟨ham, hmb⟩ := halves inserted hab
      obtain ⟨ys, rfl⟩ := upper.exists_cons
      rw [List.append_assoc, List.cons_append, adjacent_append]
      intro p hp
      rcases List.mem_append.mp hp with hp | hp
      · exact ihl ham p hp
      · exact ihu hmb p hp

theorem Sweeps.neighbours {R : β → β → Prop}
    (halves : ∀ {a m b events}, test a b = ⟨events, .ok (some m)⟩ → R a b → R a m ∧ R m b)
    (h : Sweeps test a pending xs events) (start : ∀ p ∈ adjacent (a :: pending), R p.1 p.2) :
    ∀ p ∈ adjacent xs, R p.1 p.2 ∧ ∃ events, test p.1 p.2 = ⟨events, .ok none⟩ := by
  induction h with
  | done => intro p hp; cases hp
  | interval first others ih =>
      rw [adjacent_cons_cons] at start
      obtain ⟨ys, rfl⟩ := others.exists_cons
      rw [adjacent_append]
      intro p hp
      rcases List.mem_append.mp hp with hp | hp
      · exact first.neighbours halves (start _ List.mem_cons_self) p hp
      · exact ih (fun q hq => start q (List.mem_cons_of_mem _ hq)) p hp

/-- However the intervals were split, every one that is left was accepted as it stands. -/
theorem Sweeps.accepted (h : Sweeps test a pending xs events) :
    ∀ p ∈ adjacent xs, ∃ events, test p.1 p.2 = ⟨events, .ok none⟩ := by
  have pairs := h.neighbours (R := fun _ _ => True) (fun _ _ => ⟨trivial, trivial⟩)
    fun _ _ => trivial
  exact fun p hp => (pairs p hp).2

/-- The ends of the intervals stay, in their order. -/
theorem Sweeps.sublist (h : Sweeps test a pending xs events) : (a :: pending).Sublist xs := by
  induction h with
  | done => exact List.Sublist.refl _
  | interval first _ ih =>
      obtain ⟨ys, rfl⟩ := first.exists_cons
      exact (ih.trans (List.sublist_append_right ys _)).cons_cons _

theorem Sweeps.getLast? (h : Sweeps test a pending xs events) :
    xs.getLast? = (a :: pending).getLast? := by
  induction h with
  | done => rfl
  | interval _ others ih =>
      obtain ⟨ys, rfl⟩ := others.exists_cons
      rw [List.getLast?_append, ih, List.getLast?_cons_cons, List.getLast?_cons]
      rfl

/-- A test of an interval between two points of a list. They are neighbours there if the interval
was accepted, and have the inserted point between them if it was split. -/
inductive TestedIn (test : β → β → Trace α (Option β)) (xs : List β) :
    β → β → Option β → List (Event α) → Prop
  | accepted {a b : β} {events : List (Event α)} (h : test a b = ⟨events, .ok none⟩)
      (neighbours : (a, b) ∈ adjacent xs) : TestedIn test xs a b none events
  | split {a m b : β} {events : List (Event α)} (h : test a b = ⟨events, .ok (some m)⟩)
      (between : [a, m, b].Sublist xs) : TestedIn test xs a b (some m) events

theorem TestedIn.test_eq {c d : β} {verdict : Option β} (h : TestedIn test xs c d verdict events) :
    test c d = ⟨events, .ok verdict⟩ := by
  cases h with
  | accepted h _ => exact h
  | split h _ => exact h

theorem TestedIn.mono {c d : β} {verdict : Option β} {ys : List β}
    (h : TestedIn test xs c d verdict events) (within : xs <:+: ys) :
    TestedIn test ys c d verdict events := by
  cases h with
  | accepted h neighbours =>
      exact .accepted h (mem_adjacent_iff.mpr ((mem_adjacent_iff.mp neighbours).trans within))
  | split h between => exact .split h (between.trans within.sublist)

theorem Refines.between {m : β} {ys : List β} {left right : List (Event α)}
    (lower : Refines test a m xs left) (upper : Refines test m b ys right) :
    [a, m, b].Sublist (xs ++ ys ++ [b]) := by
  obtain ⟨xs, rfl⟩ := lower.exists_cons
  obtain ⟨ys, rfl⟩ := upper.exists_cons
  rw [List.append_assoc, List.cons_append, List.cons_append]
  exact .cons_cons a (.trans (.cons_cons m (List.sublist_append_right ys [b]))
    (List.sublist_append_right xs _))

/-- Every event comes from a test of an interval whose ends stay. -/
theorem Refines.exists_tested (h : Refines test a b xs events) {e : Event α} (he : e ∈ events) :
    ∃ c d verdict tested, TestedIn test (xs ++ [b]) c d verdict tested ∧ e ∈ tested := by
  induction h with
  | @accept a b events accepted =>
      exact ⟨a, b, none, events, .accepted accepted (List.mem_singleton_self _), he⟩
  | @split a m b events xs ys left right inserted lower upper ihl ihu =>
      obtain ⟨xs, rfl⟩ := lower.exists_cons
      obtain ⟨ys, rfl⟩ := upper.exists_cons
      cases List.mem_append.mp he with
      | inl he =>
          have between := lower.between upper
          exact ⟨a, b, some m, events, .split inserted between, he⟩
      | inr he =>
          cases List.mem_append.mp he with
          | inl he =>
              obtain ⟨c, d, verdict, tested, htested, he⟩ := ihl he
              exact ⟨c, d, verdict, tested, htested.mono ⟨[], ys ++ [b], by simp⟩, he⟩
          | inr he =>
              obtain ⟨c, d, verdict, tested, htested, he⟩ := ihu he
              exact ⟨c, d, verdict, tested, htested.mono ⟨a :: xs, [], by simp⟩, he⟩

theorem Sweeps.exists_tested (h : Sweeps test a pending xs events) {e : Event α}
    (he : e ∈ events) :
    ∃ c d verdict tested, TestedIn test xs c d verdict tested ∧ e ∈ tested := by
  induction h with
  | done => cases he
  | interval first others ih =>
      obtain ⟨ys, rfl⟩ := others.exists_cons
      cases List.mem_append.mp he with
      | inl he =>
          obtain ⟨c, d, verdict, tested, htested, he⟩ := first.exists_tested he
          exact ⟨c, d, verdict, tested, htested.mono ⟨[], ys, by simp⟩, he⟩
      | inr he =>
          obtain ⟨c, d, verdict, tested, htested, he⟩ := ih he
          exact ⟨c, d, verdict, tested, htested.mono (List.suffix_append _ _).isInfix, he⟩

/-- Every point but the ends was inserted between two others, by a test that split their
interval. -/
theorem Refines.eq_or_inserted (h : Refines test a b xs events) :
    ∀ c ∈ xs, c = a ∨ ∃ d e tested, TestedIn test (xs ++ [b]) d e (some c) tested := by
  induction h with
  | accept _ => exact fun c hc => Or.inl (List.mem_singleton.mp hc)
  | @split a m b events xs ys left right inserted lower upper ihl ihu =>
      have between := lower.between upper
      obtain ⟨xs, rfl⟩ := lower.exists_cons
      obtain ⟨ys, rfl⟩ := upper.exists_cons
      intro c hc
      cases List.mem_append.mp hc with
      | inl hc =>
          refine (ihl c hc).imp_right fun ⟨d, e, tested, htested⟩ => ⟨d, e, tested, ?_⟩
          exact htested.mono ⟨[], ys ++ [b], by simp⟩
      | inr hc =>
          right
          cases ihu c hc with
          | inl heq =>
              subst heq
              exact ⟨a, b, events, .split inserted between⟩
          | inr hinserted =>
              obtain ⟨d, e, tested, htested⟩ := hinserted
              exact ⟨d, e, tested, htested.mono ⟨a :: xs, [], by simp⟩⟩

theorem Sweeps.mem_or_inserted (h : Sweeps test a pending xs events) :
    ∀ c ∈ xs, c ∈ a :: pending ∨ ∃ d e tested, TestedIn test xs d e (some c) tested := by
  induction h with
  | done => exact fun c hc => Or.inl hc
  | @interval a b rest xs ys events later first others ih =>
      obtain ⟨ys, rfl⟩ := others.exists_cons
      intro c hc
      cases List.mem_append.mp hc with
      | inl hc =>
          cases first.eq_or_inserted c hc with
          | inl heq => exact Or.inl (heq ▸ List.mem_cons_self)
          | inr hinserted =>
              obtain ⟨d, e, tested, htested⟩ := hinserted
              exact Or.inr ⟨d, e, tested, htested.mono ⟨[], ys, by simp⟩⟩
      | inr hc =>
          cases ih c hc with
          | inl hmem => exact Or.inl (List.mem_cons_of_mem _ hmem)
          | inr hinserted =>
              obtain ⟨d, e, tested, htested⟩ := hinserted
              exact Or.inr ⟨d, e, tested, htested.mono (List.suffix_append _ _).isInfix⟩

/-- If a split is silent, the events are those of the accepted intervals from left to right. -/
theorem Refines.events_eq
    (silent : ∀ {a m b events}, test a b = ⟨events, .ok (some m)⟩ → events = [])
    (h : Refines test a b xs events) :
    events = (adjacent (xs ++ [b])).flatMap fun p => (test p.1 p.2).events := by
  induction h with
  | @accept a b events accepted =>
      change events = (test a b).events ++ []
      rw [accepted, List.append_nil]
  | split inserted _ upper ihl ihu =>
      obtain rfl := silent inserted
      obtain ⟨ys, rfl⟩ := upper.exists_cons
      rw [List.append_assoc, List.cons_append, adjacent_append, List.flatMap_append, ihl, ihu]
      rfl

theorem Sweeps.events_eq
    (silent : ∀ {a m b events}, test a b = ⟨events, .ok (some m)⟩ → events = [])
    (h : Sweeps test a pending xs events) :
    events = (adjacent xs).flatMap fun p => (test p.1 p.2).events := by
  induction h with
  | done => rfl
  | interval first others ih =>
      obtain ⟨ys, rfl⟩ := others.exists_cons
      rw [adjacent_append, List.flatMap_append, ← ih, ← first.events_eq silent]

/-- A refinement whose intervals are all accepted inserts nothing. -/
theorem bisect_of_accepted {test : β → β → Trace α (Option β)} {a : β} {pending : List β}
    (h : ∀ p ∈ adjacent (a :: pending), ∃ events, test p.1 p.2 = ⟨events, .ok none⟩)
    (allowed : Nat) :
    bisect test allowed a pending =
      ⟨(adjacent (a :: pending)).flatMap fun p => (test p.1 p.2).events,
        .ok (a :: pending).dropLast⟩ := by
  induction pending generalizing a with
  | nil =>
      rw [bisect]
      rfl
  | cons b rest ih =>
      rw [adjacent_cons_cons] at h ⊢
      obtain ⟨events, accepted⟩ := h (a, b) List.mem_cons_self
      have accepted : test a b = ⟨events, .ok none⟩ := accepted
      have others := ih fun p hp => h p (List.mem_cons_of_mem _ hp)
      rw [bisect, accepted]
      simp [Trace.andThen, Trace.succeed, others, accepted]

section Turns

variable {m : β} {rest : List β} {allowed : Nat}

theorem bisect_of_error {e : GridError α} (h : test a b = ⟨events, .error e⟩) :
    bisect test allowed a (b :: rest) = ⟨events, .error e⟩ := by
  rw [bisect, h]
  rfl

theorem bisect_of_accepted_first (h : test a b = ⟨events, .ok none⟩) :
    bisect test allowed a (b :: rest) =
      ⟨events ++ (bisect test allowed b rest).events,
        (bisect test allowed b rest).outcome.map (a :: ·)⟩ := by
  rw [bisect, h]
  generalize bisect test allowed b rest = run
  obtain ⟨later, outcome⟩ := run
  cases outcome with
  | error e => rfl
  | ok xs => simp [Trace.andThen, Trace.succeed, Except.map]

theorem bisect_of_split_first (h : test a b = ⟨events, .ok (some m)⟩) :
    bisect test (allowed + 1) a (b :: rest) =
      ⟨events ++ (bisect test allowed a (m :: b :: rest)).events,
        (bisect test allowed a (m :: b :: rest)).outcome⟩ := by
  rw [bisect, h]
  rfl

end Turns

/-- A derivation of one interval is run before what is pending after it, with one insertion allowed
for every point that it inserts. -/
theorem bisect_of_refines {allowed : Nat} {rest ys : List β} {later : List (Event α)}
    (h : Refines test a b xs events) (others : bisect test allowed b rest = ⟨later, .ok ys⟩) :
    bisect test (xs.length - 1 + allowed) a (b :: rest) = ⟨events ++ later, .ok (xs ++ ys)⟩ := by
  induction h generalizing rest allowed ys later with
  | accept accepted =>
      rw [List.length_singleton, Nat.sub_self, Nat.zero_add, bisect_of_accepted_first accepted,
        others]
      rfl
  | @split a m b events xs zs left right inserted lower upper ihl ihu =>
      have run := ihl (ihu others)
      obtain ⟨xs, rfl⟩ := lower.exists_cons
      obtain ⟨zs, rfl⟩ := upper.exists_cons
      have allowance : (a :: xs ++ m :: zs).length - 1 + allowed =
          ((a :: xs).length - 1 + ((m :: zs).length - 1 + allowed)) + 1 := by
        simp only [List.length_append, List.length_cons]
        omega
      rw [allowance, bisect_of_split_first inserted, run]
      simp only [List.append_assoc]

/-- A derivation is a run, if as many insertions are allowed as it needs. -/
theorem bisect_of_sweeps {allowed : Nat} (h : Sweeps test a pending xs events)
    (enough : xs.length ≤ allowed + pending.length + 1) :
    bisect test allowed a pending = ⟨events, .ok xs.dropLast⟩ := by
  induction h generalizing allowed with
  | done =>
      rw [bisect]
      rfl
  | @interval a b rest xs ys events later first others ih =>
      have kept := others.sublist.length_le
      obtain ⟨xs, rfl⟩ := first.exists_cons
      simp only [List.length_append, List.length_cons] at enough kept
      have run := bisect_of_refines first (@ih (allowed - xs.length) (by omega))
      have allowance : (a :: xs).length - 1 + (allowed - xs.length) = allowed := by
        simp only [List.length_cons]
        omega
      obtain ⟨ys, rfl⟩ := others.exists_cons
      rw [← allowance, run, List.dropLast_append_of_ne_nil (List.cons_ne_nil _ _)]

/-- A run inserts no more points than are allowed. -/
theorem length_of_bisect {allowed : Nat} (h : bisect test allowed a pending = ⟨events, .ok xs⟩) :
    xs.length ≤ allowed + pending.length := by
  induction allowed, a, pending using bisect.induct generalizing xs events with
  | case1 allowed a =>
      rw [bisect] at h
      obtain ⟨rfl, rfl⟩ := Trace.succeed_eq_ok.mp h
      exact Nat.zero_le _
  | case2 allowed a b rest accepted inserted =>
      rw [bisect] at h
      obtain ⟨_, verdict, _, _, hafter, rfl⟩ := Trace.andThen_eq_ok.mp h
      cases verdict with
      | none =>
          obtain ⟨_, ys, _, hys, hlast, rfl⟩ := Trace.andThen_eq_ok.mp hafter
          obtain ⟨rfl, rfl⟩ := Trace.succeed_eq_ok.mp hlast
          have others := accepted hys
          simp only [List.length_cons]
          omega
      | some m =>
          cases allowed with
          | zero => exact absurd hafter Trace.fail_ne_ok
          | succ left =>
              have halves := inserted m hafter
              simp only [List.length_cons] at halves ⊢
              omega

end AdaptiveTables
