import AdaptiveTables.Proofs.DoubleOrder
import AdaptiveTables.Proofs.Searches

/-!
Searches turn by turn. A search is three loops over a bracket, each with its own counter of turns:
one lowers the lower end, one raises the upper end and one halves what is between. None of them is
bounded from outside, and all of them end, with counters that stay within the limit of iterations.
The trial at which the last loop ends decides the answer.
-/

namespace AdaptiveTables

/-- A loop that ends: the number of its turns and the state that has no further turn. -/
inductive Halts {σ : Type} (turn : σ → Option σ) : σ → Nat → σ → Prop
  | done {s} (h : turn s = none) : Halts turn s 0 s
  | turn {s t u n} (h : turn s = some t) (rest : Halts turn t n u) : Halts turn s (n + 1) u

namespace Halts

variable {σ : Type} {turn : σ → Option σ} {s t : σ} {n : Nat}

/-- What every turn keeps holds at the end of a loop. -/
theorem keeps {P : σ → Prop} (halts : Halts turn s n t)
    (kept : ∀ u v, turn u = some v → P u → P v) (start : P s) : P t := by
  induction halts with
  | done _ => exact start
  | turn h _ ih => exact ih (kept _ _ h start)

theorem ended (halts : Halts turn s n t) : turn t = none := by
  induction halts with
  | done h => exact h
  | turn _ _ ih => exact ih

theorem eq_of_none (halts : Halts turn s n t) (stopped : turn s = none) : t = s := by
  cases halts with
  | done _ => rfl
  | turn h _ => cases stopped.symm.trans h

end Halts

namespace Bisection

/-- The ends of a bracket inside a loop, with the counter of the turns taken. -/
structure Turns (α : Type) where
  lower : α
  upper : α
  count : Nat

variable {α : Type} [Scalar α]

/-- Lowers the lower end once, to zero when the counter reaches the limit. -/
def lowering (b : Bisection α) (target : α) (estimate : α → α) (s : Turns α) :
    Option (Turns α) :=
  if 0 < s.lower ∧ target < estimate s.lower then
    some ⟨if b.settings.maxIterations ≤ s.count + 1 then 0 else s.lower * (1 - b.widening),
      s.lower, s.count + 1⟩
  else none

/-- Raises the upper end once, to one when the counter reaches the limit. -/
def raising (b : Bisection α) (target : α) (estimate : α → α) (s : Turns α) :
    Option (Turns α) :=
  if s.upper < 1 ∧ estimate s.upper < target then
    let grown := Scalar.min (s.upper * (1 + b.widening)) 1
    let moved := if grown == 0 then Scalar.min b.widening 1 else grown
    some ⟨s.upper, if b.settings.maxIterations ≤ s.count + 1 then 1 else moved, s.count + 1⟩
  else none

/-- The estimate at the middle of the bracket. -/
def trial (f : α → MatchedPoints α) (s : Turns α) : Outcome α := attempt f s.count s.lower s.upper

/-- Keeps one half of the bracket, unless the trial in the middle is accepted or the last one
allowed. -/
def halving (b : Bisection α) (target norm tolerance : α) (f : α → MatchedPoints α)
    (s : Turns α) : Option (Turns α) :=
  let t := trial f s
  if accepts target norm tolerance t.points.estimate = true ∨
      b.settings.maxIterations ≤ t.iterations then none
  else if t.points.estimate < target then some ⟨t.probability, s.upper, t.iterations⟩
  else some ⟨s.lower, t.probability, t.iterations⟩

/-- What lets a trial end a search with success. -/
def Hits (b : Bisection α) (target norm tolerance : α) (t : Outcome α) : Prop :=
  (t.points.estimate == target) = true ∨
    Scalar.abs ((target - t.points.estimate) / norm) ≤ tolerance ∨
    b.settings.maxIterations ≤ t.iterations ∧
      Scalar.abs (target - t.points.estimate) < b.settings.error

/-- The failure that a trial is reported with. -/
def failureOf (b : Bisection α) (target norm tolerance : α) (t : Outcome α) : TableError α :=
  .convergenceFailure b.settings.maxIterations
    (Scalar.abs ((target - t.points.estimate) / norm)) tolerance
    (Scalar.abs (target - t.points.estimate)) b.settings.error

/-- The unit of errors: the target, or for a target of zero the largest magnitude of the estimates
at the ends of the bracket, and at least one. -/
def normAt (target : α) (f : α → MatchedPoints α) (s : Turns α) : α :=
  if target == 0 then
    Scalar.max (Scalar.max (Scalar.abs (f s.lower).estimate) (Scalar.abs (f s.upper).estimate)) 1
  else target

/-- The tolerance for errors in that unit. -/
def toleranceFor (b : Bisection α) (target : α) : α :=
  if target == 0 then b.settings.error else b.settings.relativeError

/-- A search with the states at which its loops end. The answer is that of the last trial. -/
structure Searches (b : Bisection α) (target lo hi : α) (f : α → MatchedPoints α)
    (lowered raised last : Turns α) : Prop where
  lowering : Halts (b.lowering target fun c => (f c).estimate)
    ⟨Scalar.clamp 0 1 lo, Scalar.clamp 0 1 hi, 0⟩ lowered.count lowered
  raising : Halts (b.raising target fun c => (f c).estimate) { lowered with count := 0 }
    raised.count raised
  halving : Halts (b.halving target (normAt target f raised) (b.toleranceFor target) f)
    { raised with count := 0 } last.count last
  lowered_le : lowered.count ≤ Nat.max 1 b.settings.maxIterations
  raised_le : raised.count ≤ Nat.max 1 b.settings.maxIterations
  iterations_le : (trial f last).iterations ≤ Nat.max 1 b.settings.maxIterations
  iterations_pos : 1 ≤ (trial f last).iterations
  fits : b.settings.maxIterations < 2 ^ 32 →
    lowered.count < 2 ^ 32 ∧ raised.count < 2 ^ 32 ∧ (trial f last).iterations < 2 ^ 32
  points : (trial f last).points = f (trial f last).probability
  norm_ne : ¬(normAt target f raised == 0) = true
  ok_iff : ∀ outcome, b.solve target lo hi f = .ok outcome ↔ outcome = trial f last ∧
    b.Hits target (normAt target f raised) (b.toleranceFor target) outcome
  error_iff : ∀ e, b.solve target lo hi f = .error e ↔
    e = b.failureOf target (normAt target f raised) (b.toleranceFor target) (trial f last) ∧
      b.settings.maxIterations ≤ (trial f last).iterations ∧
      ¬b.Hits target (normAt target f raised) (b.toleranceFor target) (trial f last)

variable {b : Bisection α} {target norm tolerance lo hi : α} {estimate : α → α}
  {f : α → MatchedPoints α}

omit [Scalar α] in
theorem stepLimit_pos (b : Bisection α) : 0 < b.stepLimit := by
  simp only [stepLimit, Nat.max_eq_max]
  omega

omit [Scalar α] in
theorem limit_reached_iff {count steps : Nat} (h : count + (steps + 1) = b.stepLimit) :
    b.settings.maxIterations ≤ count + 1 ↔ steps = 0 := by
  simp only [stepLimit, Nat.max_eq_max] at h
  omega

/-- A bracket as the state of a loop. -/
def Bracket.turns (k : Bracket α) (count : Nat) : Turns α := ⟨k.lower, k.upper, count⟩

/-- A recursion over the steps left that takes the turns of a loop. Once no step is left the loop
has no further turn either. -/
def Follows (b : Bisection α) (turn : Turns α → Option (Turns α))
    (run : Nat → Bracket α → Bracket α) : Prop :=
  ∀ count steps (k : Bracket α), count + (steps + 1) = b.stepLimit →
    (turn (k.turns count) = none ∧ (run (steps + 1) k).turns count = k.turns count) ∨
    ∃ next, turn (k.turns count) = some (Bracket.turns next (count + 1)) ∧
      run (steps + 1) k = run steps next ∧
      (steps = 0 → turn (next.turns (count + 1)) = none)

omit [Scalar α] in
theorem Follows.halts_from {turn : Turns α → Option (Turns α)}
    {run : Nat → Bracket α → Bracket α} (h : b.Follows turn run) (stop : ∀ k, run 0 k = k)
    {count steps : Nat} {k : Bracket α} (limit : count + steps = b.stepLimit)
    (final : steps = 0 → turn (k.turns count) = none) :
    ∃ n ≤ steps, Halts turn (k.turns count) n ((run steps k).turns (count + n)) := by
  induction steps generalizing k count with
  | zero =>
      refine ⟨0, Nat.le_refl 0, ?_⟩
      rw [stop]
      exact .done (final rfl)
  | succ steps ih =>
      cases h count steps k limit with
      | inl stopped =>
          refine ⟨0, Nat.zero_le _, ?_⟩
          change Halts turn (k.turns count) 0 ((run (steps + 1) k).turns count)
          rw [stopped.2]
          exact .done stopped.1
      | inr moved =>
          obtain ⟨next, hturn, hrun, hfinal⟩ := moved
          have hlimit : count + 1 + steps = b.stepLimit := by omega
          obtain ⟨n, hn, rest⟩ := ih hlimit hfinal
          refine ⟨n + 1, by omega, .turn hturn ?_⟩
          rw [hrun, show count + (n + 1) = count + 1 + n by omega]
          exact rest

omit [Scalar α] in
theorem Follows.halts {turn : Turns α → Option (Turns α)} {run : Nat → Bracket α → Bracket α}
    (h : b.Follows turn run) (stop : ∀ k, run 0 k = k) (k : Bracket α) :
    ∃ n ≤ b.stepLimit, Halts turn (k.turns 0) n ((run b.stepLimit k).turns n) := by
  have hlimit := b.stepLimit_pos
  have halts := h.halts_from stop (k := k) (Nat.zero_add b.stepLimit) (by omega)
  simpa only [Nat.zero_add] using halts

section Widening

variable [Scalar.Ordered α]

theorem lowerEnd_follows (b : Bisection α) (target : α) (estimate : α → α) :
    b.Follows (b.lowering target estimate) (b.lowerEnd target estimate) := by
  intro count steps k limit
  rw [lowerEnd]
  by_cases hpositive : 0 < k.lower
  · by_cases habove : target < estimate k.lower
    · right
      simp only [if_pos hpositive, if_pos habove]
      refine ⟨_, ?_, rfl, ?_⟩
      · simp [lowering, Bracket.turns, hpositive, habove, limit_reached_iff limit]
      · -- The last turn allowed moves the end to zero, where the loop is over.
        intro hzero
        simp [lowering, Bracket.turns, hzero, Scalar.Ordered.lt_irrefl]
    · left
      simp [lowering, Bracket.turns, hpositive, habove]
  · left
    simp [lowering, Bracket.turns, hpositive]

theorem upperEnd_follows (b : Bisection α) (target : α) (estimate : α → α) :
    b.Follows (b.raising target estimate) (b.upperEnd target estimate) := by
  intro count steps k limit
  rw [upperEnd]
  by_cases hinside : k.upper < 1
  · by_cases hbelow : estimate k.upper < target
    · right
      simp only [if_pos hinside, if_pos hbelow]
      refine ⟨_, ?_, rfl, ?_⟩
      · simp only [raising, Bracket.turns, hinside, hbelow, limit_reached_iff limit, and_self,
          if_true]
        rfl
      · intro hzero
        simp [raising, Bracket.turns, hzero, Scalar.Ordered.lt_irrefl]
    · left
      simp [raising, Bracket.turns, hinside, hbelow]
  · left
    simp [raising, Bracket.turns, hinside]

end Widening

theorem accepts_iff {t : α} :
    accepts target norm tolerance t = true ↔
      (t == target) = true ∨ Scalar.abs ((target - t) / norm) ≤ tolerance := by
  rw [accepts, Bool.or_eq_true, decide_eq_true_eq, scaledError]

/-- The loop ends at a trial that is accepted or the last one allowed, and the answer is the one
for that trial. -/
theorem halts_halve (b : Bisection α) (target norm tolerance : α) (f : α → MatchedPoints α)
    (lo hi : α) {left taken : Nat} (limit : taken + (left + 1) = b.stepLimit) :
    ∃ n ≤ left, ∃ last : Turns α, last.count = taken + n ∧
      Halts (b.halving target norm tolerance f) ⟨lo, hi, taken⟩ n last ∧
      (accepts target norm tolerance (trial f last).points.estimate = true ∨
        b.settings.maxIterations ≤ (trial f last).iterations) ∧
      b.halve target norm tolerance f left taken lo hi =
        b.halve target norm tolerance f 0 last.count last.lower last.upper := by
  have hlimit := limit_reached_iff limit
  induction left generalizing taken lo hi with
  | zero =>
      have hcap : b.settings.maxIterations ≤ (trial f ⟨lo, hi, taken⟩).iterations := hlimit.mpr rfl
      refine ⟨0, Nat.le_refl 0, ⟨lo, hi, taken⟩, rfl, .done ?_, Or.inr hcap, rfl⟩
      simp [halving, hcap]
  | succ left ih =>
      have hcap : ¬b.settings.maxIterations ≤ (trial f ⟨lo, hi, taken⟩).iterations := by
        intro hcap
        cases hlimit.mp hcap
      by_cases haccepted :
          accepts target norm tolerance (trial f ⟨lo, hi, taken⟩).points.estimate = true
      · refine ⟨0, Nat.zero_le _, ⟨lo, hi, taken⟩, rfl, .done ?_, Or.inl haccepted, ?_⟩
        · simp [halving, haccepted]
        · change accepts target norm tolerance (attempt f taken lo hi).points.estimate = true
            at haccepted
          simp [halve, haccepted]
      · have hrest : (taken + 1) + (left + 1) = b.stepLimit := by omega
        have hmiss := not_or.mpr ⟨haccepted, hcap⟩
        change ¬accepts target norm tolerance (attempt f taken lo hi).points.estimate = true
          at haccepted
        rw [halve]
        simp only [if_neg haccepted]
        by_cases hbelow : (trial f ⟨lo, hi, taken⟩).points.estimate < target
        · obtain ⟨n, hn, last, hcount, halts, hends, hanswer⟩ :=
            ih (trial f ⟨lo, hi, taken⟩).probability hi hrest (limit_reached_iff hrest)
          refine ⟨n + 1, by omega, last, by omega, .turn ?_ halts, hends, ?_⟩
          · simp only [halving, if_neg hmiss, if_pos hbelow]
            rfl
          · exact (if_pos hbelow).trans hanswer
        · obtain ⟨n, hn, last, hcount, halts, hends, hanswer⟩ :=
            ih lo (trial f ⟨lo, hi, taken⟩).probability hrest (limit_reached_iff hrest)
          refine ⟨n + 1, by omega, last, by omega, .turn ?_ halts, hends, ?_⟩
          · simp only [halving, if_neg hmiss, if_neg hbelow]
            rfl
          · exact (if_neg hbelow).trans hanswer

/-- The answer for the trial at which the loop has ended. -/
theorem halve_at_end {last : Turns α}
    (ended : accepts target norm tolerance (trial f last).points.estimate = true ∨
      b.settings.maxIterations ≤ (trial f last).iterations) :
    (b.Hits target norm tolerance (trial f last) ∧
      b.halve target norm tolerance f 0 last.count last.lower last.upper =
        .ok (trial f last)) ∨
    (b.settings.maxIterations ≤ (trial f last).iterations ∧
      ¬b.Hits target norm tolerance (trial f last) ∧
      b.halve target norm tolerance f 0 last.count last.lower last.upper =
        .error (b.failureOf target norm tolerance (trial f last))) := by
  have hhalve : b.halve target norm tolerance f 0 last.count last.lower last.upper =
      if accepts target norm tolerance (trial f last).points.estimate ||
        Scalar.abs (target - (trial f last).points.estimate) < b.settings.error then
        .ok (trial f last)
      else .error (b.failureOf target norm tolerance (trial f last)) := rfl
  rw [hhalve]
  by_cases haccepted : accepts target norm tolerance (trial f last).points.estimate = true
  · left
    refine ⟨?_, by simp [haccepted]⟩
    exact (accepts_iff.mp haccepted).imp_right Or.inl
  · have hcap := ended.resolve_left haccepted
    have hmissed := not_or.mp (mt accepts_iff.mpr haccepted)
    by_cases hsmall : Scalar.abs (target - (trial f last).points.estimate) < b.settings.error
    · exact Or.inl ⟨Or.inr (Or.inr ⟨hcap, hsmall⟩), by simp [hsmall]⟩
    · right
      refine ⟨hcap, ?_, by simp [haccepted, hsmall]⟩
      simp [Hits, hmissed.1, hmissed.2, hsmall]

omit [Scalar α] in
/-- An answer that a trial decides, by what it hits and by whether it was the last one allowed. -/
theorem answer_iff {answer : Except (TableError α) (Outcome α)} {t : Outcome α}
    {failure : TableError α} {hits : Outcome α → Prop} {final : Prop}
    (h : (hits t ∧ answer = .ok t) ∨ (final ∧ ¬hits t ∧ answer = .error failure)) :
    (∀ outcome, answer = .ok outcome ↔ outcome = t ∧ hits outcome) ∧
      ∀ e, answer = .error e ↔ e = failure ∧ final ∧ ¬hits t := by
  cases h with
  | inl found =>
      obtain ⟨hhits, rfl⟩ := found
      constructor
      · intro outcome
        constructor
        · intro heq
          cases heq
          exact ⟨rfl, hhits⟩
        · intro heq
          rw [heq.1]
      · intro e
        constructor
        · intro heq
          cases heq
        · intro heq
          exact absurd hhits heq.2.2
  | inr failed =>
      obtain ⟨hfinal, hmissed, rfl⟩ := failed
      constructor
      · intro outcome
        constructor
        · intro heq
          cases heq
        · intro heq
          exact absurd (heq.1 ▸ heq.2) hmissed
      · intro e
        constructor
        · intro heq
          cases heq
          exact ⟨rfl, hfinal, hmissed⟩
        · intro heq
          rw [heq.1]

variable [Scalar.Ordered α]

theorem normAt_ne_zero (positive : (0 : α) < 1) (target : α) (f : α → MatchedPoints α)
    (s : Turns α) : ¬(normAt target f s == 0) = true := by
  rw [normAt]
  split
  next hzero =>
    generalize Scalar.max (Scalar.abs (f s.lower).estimate) (Scalar.abs (f s.upper).estimate) = m
    intro heq
    -- The largest magnitude is at least one, or the estimates are no numbers and it is one.
    have hle := (Scalar.beq_iff_le.mp heq).1
    have hlt := Scalar.lt_of_le_of_lt hle positive
    rw [Scalar.max] at hlt
    split at hlt
    next =>
      split at hlt
      next => exact Scalar.Ordered.lt_irrefl _ hlt
      next hnot => exact hnot hlt
    next => exact Scalar.Ordered.lt_irrefl _ hlt
  next hne => exact hne

/-- Widening as its two loops. -/
theorem exists_halts_widen (b : Bisection α) (target lo hi : α) (estimate : α → α) :
    ∃ lowered raised : Turns α,
      Halts (b.lowering target estimate) ⟨Scalar.clamp 0 1 lo, Scalar.clamp 0 1 hi, 0⟩
        lowered.count lowered ∧
      Halts (b.raising target estimate) { lowered with count := 0 } raised.count raised ∧
      lowered.count ≤ b.stepLimit ∧ raised.count ≤ b.stepLimit ∧
      raised.lower = (b.widen target lo hi estimate).lower ∧
      raised.upper = (b.widen target lo hi estimate).upper := by
  let start : Bracket α := { lower := Scalar.clamp 0 1 lo, upper := Scalar.clamp 0 1 hi }
  let low := b.lowerEnd target estimate b.stepLimit start
  obtain ⟨downs, hdowns, lowering⟩ :=
    (b.lowerEnd_follows target estimate).halts (fun _ => rfl) start
  obtain ⟨ups, hups, raising⟩ := (b.upperEnd_follows target estimate).halts (fun _ => rfl) low
  exact ⟨low.turns downs, (b.upperEnd target estimate b.stepLimit low).turns ups, lowering,
    raising, hdowns, hups, rfl, rfl⟩

theorem exists_searches (positive : (0 : α) < 1) (b : Bisection α) (target lo hi : α)
    (f : α → MatchedPoints α) :
    ∃ lowered raised last, b.Searches target lo hi f lowered raised last := by
  have limit : b.stepLimit = Max.max 1 b.settings.maxIterations := rfl
  obtain ⟨lowered, raised, lowering, raising, hdowns, hups, hlower, hupper⟩ :=
    exists_halts_widen b target lo hi fun c => (f c).estimate
  let norm := normAt target f raised
  let tolerance := b.toleranceFor target
  have hsolve : b.solve target lo hi f =
      b.halve target norm tolerance f (b.stepLimit - 1) 0 raised.lower raised.upper := by
    simp only [solve, norm, tolerance, normAt, toleranceFor, hlower, hupper]
    split <;> rfl
  have hsteps : 0 + (b.stepLimit - 1 + 1) = b.stepLimit := by omega
  obtain ⟨halves, hhalves, last, hcount, halving, ended, hanswer⟩ :=
    b.halts_halve target norm tolerance f raised.lower raised.upper hsteps
  have hiterations : (trial f last).iterations = last.count + 1 := rfl
  have answer := halve_at_end ended
  rw [← hanswer, ← hsolve] at answer
  rw [Nat.zero_add] at hcount
  refine ⟨lowered, raised, last, lowering, raising, hcount ▸ halving, hdowns, hups, ?_, ?_,
    ?_, rfl, normAt_ne_zero positive target f raised, ?_, ?_⟩
  · change last.count + 1 ≤ b.stepLimit
    omega
  · omega
  · intro hsize
    change lowered.count < 2 ^ 32 ∧ raised.count < 2 ^ 32 ∧ last.count + 1 < 2 ^ 32
    omega
  · exact (answer_iff answer).1
  · exact (answer_iff answer).2

/-- A search only fails by running out of iterations. -/
theorem solve_eq_error (positive : (0 : α) < 1) {e : TableError α}
    (h : b.solve target lo hi f = .error e) :
    ∃ relative tolerance error, e =
      .convergenceFailure b.settings.maxIterations relative tolerance error b.settings.error := by
  obtain ⟨_, _, _, searches⟩ := exists_searches positive b target lo hi f
  exact ⟨_, _, _, ((searches.error_iff e).mp h).1⟩

/-- Every search ends, and a trial that misses every tolerance is never answered with. In exact
arithmetic an answer is a probability. -/
theorem solve_decides (positive : (0 : α) < 1) (b : Bisection α) (target lo hi : α)
    (f : α → MatchedPoints α) :
    (∃ lowered raised last, b.Searches target lo hi f lowered raised last) ∧
    ∀ (exact : Bisection ℝ) (y lower upper : ℝ) (h : ℝ → MatchedPoints ℝ) (outcome : Outcome ℝ),
      Scalar.inOpenUnit exact.widening = true → exact.solve y lower upper h = .ok outcome →
        outcome.probability ∈ Set.Icc (0 : ℝ) 1 := by
  refine ⟨exists_searches positive b target lo hi f, ?_⟩
  intro exact y lower upper h outcome hwidening hsolve
  have widening : exact.widening ∈ Set.Ioo (0 : ℝ) 1 := by
    simpa [Scalar.inOpenUnit] using hwidening
  have inside := @widen_inUnit exact (fun c => (h c).estimate) widening y lower upper
  exact probability_of_halve hsolve inside.1 inside.2

/-- The search for a target that the first middle hits. -/
theorem solve_decides_half :
    let f : Float → MatchedPoints Float := fun c => ⟨c, c, c⟩
    let h : ℝ → MatchedPoints ℝ := fun c => ⟨c, c, c⟩
    let b : Bisection Float := .standard ⟨1e-3, 1e-7, 1e-15, 0⟩
    (0.0 : Float) < 1.0 ∧
      (∃ lowered raised last, b.Searches 0.5 0.0 1.0 f lowered raised last) ∧
      (standard .standard : Bisection ℝ).solve (1 / 2) 0 1 h = .ok (attempt h 0 0 1) ∧
      (attempt h 0 0 1).probability ∈ Set.Icc (0 : ℝ) 1 := by
  intro f h b
  have positive : (0.0 : Float) < 1.0 := by decide
  have hunit : Scalar.inOpenUnit (standard .standard : Bisection ℝ).widening = true := by
    norm_num [standard, Scalar.inOpenUnit]
  have hsolve : (standard .standard : Bisection ℝ).solve (1 / 2) 0 1 h =
      .ok (attempt h 0 0 1) := by
    refine solve_of_accepted (by norm_num) (by simp) (by simp) (by norm_num) (by norm_num) ?_
    refine accepts_iff.mpr (Or.inl (beq_iff_eq.mpr ?_))
    change (0.5 : ℝ) * (0 + 1) = 1 / 2
    norm_num
  obtain ⟨searched, exact⟩ := solve_decides positive b 0.5 0.0 1.0 f
  exact ⟨positive, searched, hsolve, exact _ _ _ _ _ _ hunit hsolve⟩

end Bisection
end AdaptiveTables
