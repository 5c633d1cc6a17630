import AdaptiveTables.Bivariate.Settings

/-!
Bisection for a cumulative probability. Two boundary points of equal probability give an estimate
that rises with the probability; the search finds the probability at which the estimate meets a
target. It first widens a bracket and then halves it, and it never takes more steps than allowed.
-/

namespace AdaptiveTables

/-- Boundary values at a trial probability, and the estimate made from them. -/
structure MatchedPoints (α : Type) where
  lower : α
  upper : α
  estimate : α
deriving DecidableEq

structure Bisection (α : Type) where
  settings : EvaluationSettings α
  /-- The relative step by which an end of the bracket moves out. -/
  widening : α

namespace Bisection

structure Bracket (α : Type) where
  lower : α
  upper : α
  /-- How often the estimate was asked for on the way here. -/
  probes : Nat := 0
deriving DecidableEq

structure Outcome (α : Type) where
  probability : α
  points : MatchedPoints α
  iterations : Nat
deriving DecidableEq

variable {α : Type} [Scalar α]

def standard (settings : EvaluationSettings α) : Bisection α := ⟨settings, 0.01⟩

def withWidening (b : Bisection α) (factor : α) : Except (TableError α) (Bisection α) :=
  if Scalar.inOpenUnit factor then .ok { b with widening := factor }
  else .error (.invalidArgument (.widening factor))

/-- How many steps each phase may take. -/
def stepLimit (b : Bisection α) : Nat := Nat.max 1 b.settings.maxIterations

/-- Moves the lower end down while the estimate there exceeds the target. The last step allowed
goes to zero. -/
@[specialize]
def lowerEnd (b : Bisection α) (target : α) (estimate : α → α) :
    Nat → Bracket α → Bracket α
  | 0, k => k
  | steps + 1, k =>
    if 0 < k.lower then
      let k' := { k with probes := k.probes + 1 }
      if target < estimate k.lower then
        lowerEnd b target estimate steps
          { k' with
            lower := if steps = 0 then 0 else k.lower * (1 - b.widening)
            upper := k.lower }
      else k'
    else k

/-- Moves the upper end up while the estimate there falls short of the target. An end at zero
moves to the widening factor, and the last step allowed goes to one. -/
@[specialize]
def upperEnd (b : Bisection α) (target : α) (estimate : α → α) :
    Nat → Bracket α → Bracket α
  | 0, k => k
  | steps + 1, k =>
    if k.upper < 1 then
      let k' := { k with probes := k.probes + 1 }
      if estimate k.upper < target then
        let grown := Scalar.min (k.upper * (1 + b.widening)) 1
        let moved := if grown == 0 then Scalar.min b.widening 1 else grown
        upperEnd b target estimate steps
          { k' with
            lower := k.upper
            upper := if steps = 0 then 1 else moved }
      else k'
    else k

/-- Widens a bracket within `[0, 1]` until it holds the target. -/
@[specialize]
def widen (b : Bisection α) (target lo hi : α) (estimate : α → α) : Bracket α :=
  let start : Bracket α := { lower := Scalar.clamp 0 1 lo, upper := Scalar.clamp 0 1 hi }
  b.upperEnd target estimate b.stepLimit (b.lowerEnd target estimate b.stepLimit start)

/-- The error of an estimate in units of `norm`. -/
@[specialize]
def scaledError (target norm estimate : α) : α := Scalar.abs ((target - estimate) / norm)

/-- Whether an estimate hits the target or lies within the tolerance of it. -/
@[specialize]
def accepts (target norm tolerance estimate : α) : Bool :=
  estimate == target || scaledError target norm estimate ≤ tolerance

/-- The estimate at the middle of a bracket. -/
@[specialize]
def attempt (f : α → MatchedPoints α) (taken : Nat) (lo hi : α) : Outcome α :=
  let c := 0.5 * (lo + hi)
  ⟨c, f c, taken + 1⟩

/-- Halves a bracket until the estimate at its middle is accepted. The number counts the halvings
that are left; when none is, an estimate within the absolute error is accepted too. -/
@[specialize]
def halve (b : Bisection α) (target norm tolerance : α) (f : α → MatchedPoints α) :
    Nat → Nat → α → α → Except (TableError α) (Outcome α)
  | 0, taken, lo, hi =>
    let outcome := attempt f taken lo hi
    let estimate := outcome.points.estimate
    let error := Scalar.abs (target - estimate)
    if accepts target norm tolerance estimate || error < b.settings.error then .ok outcome
    else
      .error (.convergenceFailure b.settings.maxIterations (scaledError target norm estimate)
        tolerance error b.settings.error)
  | left + 1, taken, lo, hi =>
    let outcome := attempt f taken lo hi
    let estimate := outcome.points.estimate
    if accepts target norm tolerance estimate then .ok outcome
    else if estimate < target then
      halve b target norm tolerance f left (taken + 1) outcome.probability hi
    else halve b target norm tolerance f left (taken + 1) lo outcome.probability

/-- The probability at which the estimate meets the target. Errors are measured relative to the
target, or, for a target of zero, to the estimates at the ends of the bracket. -/
@[specialize]
def solve (b : Bisection α) (target lo hi : α) (f : α → MatchedPoints α) :
    Except (TableError α) (Outcome α) :=
  let k := b.widen target lo hi fun c => (f c).estimate
  let (norm, tolerance) :=
    if target == 0 then
      let scale := Scalar.max (Scalar.abs (f k.lower).estimate) (Scalar.abs (f k.upper).estimate)
      (Scalar.max scale 1, b.settings.error)
    else (target, b.settings.relativeError)
  b.halve target norm tolerance f (b.stepLimit - 1) 0 k.lower k.upper

end Bisection
end AdaptiveTables
