import AdaptiveTables.Proofs.Runs

/-!
What the verdict on an interval says of it, and what a run reports of it. An interval is split
when it misses every tolerance. One that is accepted with a cause has missed the relative
tolerance and is reported, so a run that refuses such intervals accepts converged ones only.
-/

namespace AdaptiveTables

variable {α : Type} [Scalar α]

namespace Tolerances

variable (t : Tolerances α)

/-- The cause for which an interval is accepted although its midpoint misses the relative
tolerance. -/
def cause? (lower midpoint upper exact estimate : α) : Option (Dirty α) :=
  if Scalar.relativeError exact estimate ≤ t.convergence then none
  else if Scalar.relativeError lower upper ≤ t.distance ∨
      ¬(lower < midpoint ∧ midpoint < upper) then
    some (.closeEnds lower upper (Scalar.relativeError lower upper))
  else if Scalar.absoluteDistance exact estimate ≤ t.absolute then
    some (.closeValues lower upper midpoint exact estimate)
  else none

/-- The tolerances that an accepted interval meets. -/
def Accepts (lower midpoint upper exact estimate : α) : Prop :=
  Scalar.relativeError exact estimate ≤ t.convergence ∨
    Scalar.relativeError lower upper ≤ t.distance ∨
    ¬(lower < midpoint ∧ midpoint < upper) ∨
    Scalar.absoluteDistance exact estimate ≤ t.absolute

inductive Judges (lower midpoint upper exact estimate : α) : Verdict α → Prop
  | converged (h : Scalar.relativeError exact estimate ≤ t.convergence) :
      Judges lower midpoint upper exact estimate .converged
  | dirty (cause : Dirty α) (missed : ¬Scalar.relativeError exact estimate ≤ t.convergence)
      (h : t.cause? lower midpoint upper exact estimate = some cause)
      (accepts : t.Accepts lower midpoint upper exact estimate) :
      Judges lower midpoint upper exact estimate (.dirty cause)
  | split (h : ¬t.Accepts lower midpoint upper exact estimate) :
      Judges lower midpoint upper exact estimate .split

theorem judges_checkInterval (lower midpoint upper exact estimate : α) :
    t.Judges lower midpoint upper exact estimate
      (t.checkInterval lower midpoint upper exact estimate) := by
  simp only [checkInterval, checkDistance, checkPoint, Bool.and_eq_true, decide_eq_true_eq]
  by_cases hrel : Scalar.relativeError exact estimate ≤ t.convergence
  · rw [if_pos hrel]
    exact .converged hrel
  · rw [if_neg hrel]
    by_cases hdist : Scalar.relativeError lower upper ≤ t.distance
    · rw [if_pos hdist]
      exact .dirty _ hrel (by simp [cause?, hrel, hdist]) (Or.inr (Or.inl hdist))
    · rw [if_neg hdist]
      by_cases hinside : lower < midpoint ∧ midpoint < upper
      · simp only [if_pos hinside, if_neg hrel]
        by_cases habs : Scalar.absoluteDistance exact estimate ≤ t.absolute
        · rw [if_pos habs]
          exact .dirty _ hrel (by simp [cause?, hrel, hdist, hinside, habs])
            (Or.inr (Or.inr (Or.inr habs)))
        · rw [if_neg habs]
          exact .split (by simp [Accepts, hrel, hdist, hinside, habs])
      · simp only [if_neg hinside]
        exact .dirty _ hrel (by simp [cause?, hrel, hinside]) (Or.inr (Or.inr (Or.inl hinside)))

theorem isAccepted_checkInterval {lower midpoint upper exact estimate : α} :
    (t.checkInterval lower midpoint upper exact estimate).isAccepted = true ↔
      t.Accepts lower midpoint upper exact estimate := by
  have judged := t.judges_checkInterval lower midpoint upper exact estimate
  generalize t.checkInterval lower midpoint upper exact estimate = verdict at judged
  cases judged with
  | converged h => exact ⟨fun _ => Or.inl h, fun _ => rfl⟩
  | dirty _ _ _ accepts => exact ⟨fun _ => accepts, fun _ => rfl⟩
  | split missed =>
      exact ⟨fun h => absurd h Bool.false_ne_true, fun accepts => absurd accepts missed⟩

/-- An interval is refused only with a midpoint strictly inside. -/
theorem inside_of_refused {lower midpoint upper exact estimate : α}
    (h : ¬(t.checkInterval lower midpoint upper exact estimate).isAccepted = true) :
    lower < midpoint ∧ midpoint < upper :=
  Classical.byContradiction fun hout =>
    h (t.isAccepted_checkInterval.mpr (Or.inr (Or.inr (Or.inl hout))))

end Tolerances

theorem Trace.report_eq_ok {α : Type} {reaction : Reaction} {origin : Origin} {cause : Dirty α}
    {events : List (Event α)} :
    Trace.report reaction origin cause = ⟨events, .ok ()⟩ ↔
      reaction = .warn ∧ events = [.warning origin cause] := by
  cases reaction <;> simp [report, log, fail, eq_comm]

end AdaptiveTables
