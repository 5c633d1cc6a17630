import AdaptiveTables.Proofs.SearchLoops

/-!
Brackets of a target. Widening asks for an estimate at most once a step, and it ends at two
probabilities that have the target between their estimates, as far as the unit interval reaches.
That holds of every estimate: an end that was found is only given up for one whose estimate falls
short of the target.
-/

namespace AdaptiveTables

namespace Bisection

section Calls

variable {α : Type} [Scalar α]

/-- The probabilities at which a phase asks for the estimate, as many as it counts. Elsewhere the
estimate has no influence on the phase. -/
structure Asks (phase : (α → α) → Bracket α → Bracket α) (estimate : α → α) (k : Bracket α)
    (asked : List α) : Prop where
  counted : (phase estimate k).probes = k.probes + asked.length
  determined : ∀ other, (∀ c ∈ asked, other c = estimate c) → phase other k = phase estimate k

/-- A phase that asks for the estimate at most once a step, and goes on if the answer says so. -/
structure Probing (moves : α → Prop) [DecidablePred moves]
    (phase : Nat → (α → α) → Bracket α → Bracket α) : Prop where
  spent : ∀ estimate k, phase 0 estimate k = k
  step : ∀ steps k, (∀ estimate, phase (steps + 1) estimate k = k) ∨
    ∃ c next stopped, (∀ estimate, phase (steps + 1) estimate k =
      if moves (estimate c) then phase steps estimate next else stopped) ∧
        next.probes = k.probes + 1 ∧ stopped.probes = k.probes + 1

theorem lowerEnd_probing (b : Bisection α) (target : α) :
    Probing (target < ·) fun steps estimate => b.lowerEnd target estimate steps where
  spent _ _ := rfl
  step steps k := by
    by_cases hpositive : 0 < k.lower
    · exact Or.inr ⟨k.lower, _, _, fun _ => if_pos hpositive, rfl, rfl⟩
    · exact Or.inl fun _ => if_neg hpositive

theorem upperEnd_probing (b : Bisection α) (target : α) :
    Probing (· < target) fun steps estimate => b.upperEnd target estimate steps where
  spent _ _ := rfl
  step steps k := by
    by_cases hinside : k.upper < 1
    · exact Or.inr ⟨k.upper, _, _, fun _ => if_pos hinside, rfl, rfl⟩
    · exact Or.inl fun _ => if_neg hinside

omit [Scalar α] in
/-- A phase asks no more often than it has steps. -/
theorem Probing.exists_asks {moves : α → Prop} [DecidablePred moves]
    {phase : Nat → (α → α) → Bracket α → Bracket α} (probing : Probing moves phase)
    (estimate : α → α) (steps : Nat) (k : Bracket α) :
    ∃ asked, asked.length ≤ steps ∧ Asks (phase steps) estimate k asked := by
  induction steps generalizing k with
  | zero =>
      refine ⟨[], Nat.le_refl 0, ?_, fun other _ => ?_⟩
      · rw [probing.spent]
        rfl
      · rw [probing.spent, probing.spent]
  | succ steps ih =>
      cases probing.step steps k with
      | inl stays =>
          refine ⟨[], Nat.zero_le _, ?_, fun other _ => ?_⟩
          · rw [stays]
            rfl
          · rw [stays, stays]
      | inr asks =>
          obtain ⟨c, next, stopped, hphase, hnext, hstopped⟩ := asks
          by_cases hmoves : moves (estimate c)
          · obtain ⟨asked, hlength, rest⟩ := ih next
            refine ⟨c :: asked, Nat.succ_le_succ hlength, ?_, fun other h => ?_⟩
            · rw [hphase, if_pos hmoves, rest.counted, hnext, List.length_cons]
              omega
            · obtain ⟨hhere, hlater⟩ := List.forall_mem_cons.mp h
              rw [hphase, hphase, hhere, if_pos hmoves, if_pos hmoves]
              exact rest.determined other hlater
          · refine ⟨[c], Nat.succ_le_succ (Nat.zero_le steps), ?_, fun other h => ?_⟩
            · rw [hphase, if_neg hmoves]
              exact hstopped
            · rw [hphase, hphase, h c (List.mem_singleton.mpr rfl), if_neg hmoves, if_neg hmoves]

theorem exists_asks_widen (b : Bisection α) (target lo hi : α) (estimate : α → α) :
    ∃ asked : List α, asked.length ≤ 2 * Nat.max 1 b.settings.maxIterations ∧
      (b.widen target lo hi estimate).probes = asked.length ∧
      ∀ other, (∀ c ∈ asked, other c = estimate c) →
        b.widen target lo hi other = b.widen target lo hi estimate := by
  let start : Bracket α := { lower := Scalar.clamp 0 1 lo, upper := Scalar.clamp 0 1 hi }
  obtain ⟨down, hdown, lowered⟩ :=
    (b.lowerEnd_probing target).exists_asks estimate b.stepLimit start
  obtain ⟨up, hup, raised⟩ := (b.upperEnd_probing target).exists_asks estimate b.stepLimit
    (b.lowerEnd target estimate b.stepLimit start)
  refine ⟨down ++ up, ?_, ?_, fun other h => ?_⟩
  · change down.length ≤ Nat.max 1 b.settings.maxIterations at hdown
    change up.length ≤ Nat.max 1 b.settings.maxIterations at hup
    rw [List.length_append]
    omega
  · have hcounted := raised.counted
    rw [lowered.counted] at hcounted
    rw [widen, hcounted, List.length_append]
    exact congrArg (· + up.length) (Nat.zero_add down.length)
  · obtain ⟨hdowns, hups⟩ := List.forall_mem_append.mp h
    rw [widen, widen, lowered.determined other hdowns, raised.determined other hups]

end Calls

variable {b : Bisection ℝ} {target lo hi : ℝ} {estimate : ℝ → ℝ} {s t : Turns ℝ}

/-- The ends of a stretch of the unit interval. -/
structure Inside (lower upper : ℝ) : Prop where
  nonneg : 0 ≤ lower
  ordered : lower ≤ upper
  le_one : upper ≤ 1

/-- Two probabilities that have the target between their estimates, as far as the unit interval
reaches. -/
structure Encloses (estimate : ℝ → ℝ) (target lower upper : ℝ) : Prop
    extends Inside lower upper where
  below : lower = 0 ∨ estimate lower ≤ target
  above : upper = 1 ∨ target ≤ estimate upper

theorem Inside.mem_unit {lower upper : ℝ} (inside : Inside lower upper) :
    lower ∈ Set.Icc (0 : ℝ) 1 ∧ upper ∈ Set.Icc (0 : ℝ) 1 :=
  ⟨⟨inside.nonneg, inside.ordered.trans inside.le_one⟩,
    ⟨inside.nonneg.trans inside.ordered, inside.le_one⟩⟩

theorem clamp_unit_eq (a : ℝ) : Scalar.clamp 0 1 a = max 0 (min a 1) := by
  rw [Scalar.clamp]
  split
  next hlow => exact (max_eq_left (min_le_of_left_le hlow.le)).symm
  next hlow =>
    split
    next hhigh => rw [min_eq_right hhigh.le, max_eq_right zero_le_one]
    next hhigh => rw [min_eq_left (not_lt.mp hhigh), max_eq_right (not_lt.mp hlow)]

theorem inside_clamp (ordered : lo ≤ hi) :
    Inside (Scalar.clamp 0 1 lo) (Scalar.clamp 0 1 hi) := by
  refine ⟨(clamp_mem_unit lo).1, ?_, (clamp_mem_unit hi).2⟩
  rw [clamp_unit_eq, clamp_unit_eq]
  exact max_le_max (le_refl 0) (min_le_min ordered (le_refl 1))

theorem lowering_eq_none_iff :
    b.lowering target estimate s = none ↔ s.lower ≤ 0 ∨ estimate s.lower ≤ target := by
  simp only [lowering, ite_eq_right_iff, reduceCtorEq, imp_false, not_and_or, not_lt]

theorem raising_eq_none_iff :
    b.raising target estimate s = none ↔ 1 ≤ s.upper ∨ target ≤ estimate s.upper := by
  simp only [raising, ite_eq_right_iff, reduceCtorEq, imp_false, not_and_or, not_lt]

theorem lowering_eq_some (widening : b.widening ∈ Set.Ioo (0 : ℝ) 1) (nonneg : 0 ≤ s.lower)
    (h : b.lowering target estimate s = some t) :
    t.upper = s.lower ∧ t.lower ∈ Set.Icc 0 s.lower := by
  have hshrink : 0 ≤ 1 - b.widening := sub_nonneg.mpr widening.2.le
  have hlowered : s.lower * (1 - b.widening) ∈ Set.Icc 0 s.lower :=
    ⟨mul_nonneg nonneg hshrink,
      mul_le_of_le_one_right nonneg (sub_le_self 1 widening.1.le)⟩
  rw [lowering] at h
  split at h
  next =>
    obtain rfl := Option.some.inj h
    refine ⟨rfl, ?_⟩
    split
    next => exact ⟨le_refl 0, nonneg⟩
    next => exact hlowered
  next => cases h

/-- The point that an upper end moves to. Only an end at zero is not stretched. -/
theorem moved_mem {w u : ℝ} (hw : 0 ≤ w) (hu : u ∈ Set.Icc (0 : ℝ) 1) :
    (if min (u * (1 + w)) 1 = 0 then min w 1 else min (u * (1 + w)) 1) ∈ Set.Icc u 1 := by
  have hgrown : u ≤ u * (1 + w) := le_mul_of_one_le_right hu.1 (le_add_of_nonneg_right hw)
  have hmoved : u ≤ min (u * (1 + w)) 1 := le_min hgrown hu.2
  split
  next hzero =>
    have hle : u ≤ 0 := hmoved.trans hzero.le
    exact ⟨hle.trans (le_min hw zero_le_one), min_le_right _ _⟩
  next => exact ⟨hmoved, min_le_right _ _⟩

theorem raising_eq_some (widening : b.widening ∈ Set.Ioo (0 : ℝ) 1)
    (unit : s.upper ∈ Set.Icc (0 : ℝ) 1) (h : b.raising target estimate s = some t) :
    t.lower = s.upper ∧ estimate t.lower < target ∧ t.upper ∈ Set.Icc s.upper 1 := by
  have hmoved := moved_mem widening.1.le unit
  simp only [raising, Exact.min_eq, beq_iff_eq] at h
  split at h
  next hmoves =>
    obtain rfl := Option.some.inj h
    refine ⟨rfl, hmoves.2, ?_⟩
    split
    next => exact ⟨unit.2, le_refl 1⟩
    next => exact hmoved
  next => cases h

/-- Where lowering and then raising end, the target is enclosed. Raising may give up the lower end,
but only for one whose estimate falls short of the target. -/
theorem encloses_of_halts (widening : b.widening ∈ Set.Ioo (0 : ℝ) 1) {lowered raised : Turns ℝ}
    {downs ups : Nat} (inside : Inside s.lower s.upper)
    (lowering : Halts (b.lowering target estimate) s downs lowered)
    (raising : Halts (b.raising target estimate) { lowered with count := 0 } ups raised) :
    Encloses estimate target raised.lower raised.upper := by
  have hlowered : Inside lowered.lower lowered.upper := by
    refine lowering.keeps (P := fun u => Inside u.lower u.upper) (fun u v h kept => ?_) inside
    obtain ⟨hupper, hlower⟩ := lowering_eq_some widening kept.nonneg h
    rw [← hupper] at hlower
    exact ⟨hlower.1, hlower.2, hupper.trans_le kept.mem_unit.1.2⟩
  have hbelow : lowered.lower = 0 ∨ estimate lowered.lower ≤ target :=
    (lowering_eq_none_iff.mp lowering.ended).imp_left fun hzero =>
      le_antisymm hzero hlowered.nonneg
  obtain ⟨hraised, hkept⟩ : Inside raised.lower raised.upper ∧
      (raised.lower = 0 ∨ estimate raised.lower ≤ target) := by
    refine raising.keeps
      (P := fun u => Inside u.lower u.upper ∧ (u.lower = 0 ∨ estimate u.lower ≤ target))
      (fun u v h kept => ?_) ⟨hlowered, hbelow⟩
    obtain ⟨hlower, hshort, hupper⟩ := raising_eq_some widening kept.1.mem_unit.2 h
    rw [← hlower] at hupper
    exact ⟨⟨kept.1.mem_unit.2.1.trans_eq hlower.symm, hupper.1, hupper.2⟩, Or.inr hshort.le⟩
  have habove : raised.upper = 1 ∨ target ≤ estimate raised.upper :=
    (raising_eq_none_iff.mp raising.ended).imp_left fun hone => le_antisymm hraised.le_one hone
  exact ⟨hraised, hkept, habove⟩

/-- Widening ends at a bracket of the target, whether or not the estimate rises. It asks for the
estimate at no more than twice the allowed number of probabilities, and it leaves a bracket of the
target as it is. -/
theorem widen_encloses (widening : b.widening ∈ Set.Ioo (0 : ℝ) 1) (ordered : lo ≤ hi)
    (target : ℝ) (estimate : ℝ → ℝ) :
    let k := b.widen target lo hi estimate
    Encloses estimate target k.lower k.upper ∧
      (∃ asked : List ℝ, asked.length ≤ 2 * max 1 b.settings.maxIterations ∧
        k.probes = asked.length ∧
        ∀ other, (∀ c ∈ asked, other c = estimate c) → b.widen target lo hi other = k) ∧
      (Encloses estimate target (Scalar.clamp 0 1 lo) (Scalar.clamp 0 1 hi) →
        k.lower = Scalar.clamp 0 1 lo ∧ k.upper = Scalar.clamp 0 1 hi) := by
  obtain ⟨lowered, raised, lowering, raising, _, _, hlower, hupper⟩ :=
    exists_halts_widen b target lo hi estimate
  refine ⟨?_, exists_asks_widen b target lo hi estimate, fun encloses => ?_⟩
  · rw [← hlower, ← hupper]
    exact encloses_of_halts widening (inside_clamp ordered) lowering raising
  · -- Neither loop has a turn to take.
    obtain rfl := lowering.eq_of_none
      (lowering_eq_none_iff.mpr (encloses.below.imp_left le_of_eq))
    obtain rfl := raising.eq_of_none
      (raising_eq_none_iff.mpr (encloses.above.imp_left ge_of_eq))
    exact ⟨hlower.symm, hupper.symm⟩

/-- With one step allowed the lower end moves to zero, and the upper end follows it down. -/
theorem widen_encloses_slope :
    let b : Bisection ℝ := ⟨⟨0, 0, 0, 1⟩, 1 / 10⟩
    let slope : ℝ → ℝ := fun c => 2 + 3 * c
    b.widening ∈ Set.Ioo (0 : ℝ) 1 ∧ (3 / 5 : ℝ) ≤ 7 / 10 ∧
      b.widen (13 / 5) (3 / 5) (7 / 10) slope = ⟨0, 3 / 5, 2⟩ ∧
      Encloses slope (13 / 5) 0 (3 / 5) ∧
      ∃ asked : List ℝ, asked.length = 2 ∧ ∀ other, (∀ c ∈ asked, other c = slope c) →
        b.widen (13 / 5) (3 / 5) (7 / 10) other = ⟨0, 3 / 5, 2⟩ := by
  intro b slope
  have widening : b.widening ∈ Set.Ioo (0 : ℝ) 1 := by
    change (1 / 10 : ℝ) ∈ Set.Ioo (0 : ℝ) 1
    norm_num
  have ordered : (3 / 5 : ℝ) ≤ 7 / 10 := by norm_num
  have hwiden : b.widen (13 / 5) (3 / 5) (7 / 10) slope = ⟨0, 3 / 5, 2⟩ := by
    norm_num [b, slope, widen, stepLimit, lowerEnd, upperEnd, Scalar.clamp]
  obtain ⟨encloses, ⟨asked, _, hcount, determined⟩, _⟩ :=
    widen_encloses widening ordered (13 / 5) slope
  rw [hwiden] at encloses hcount determined
  exact ⟨widening, ordered, hwiden, encloses, asked, hcount.symm, determined⟩

end Bisection
end AdaptiveTables
