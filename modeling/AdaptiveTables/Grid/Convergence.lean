import AdaptiveTables.Scalar
import AdaptiveTables.Decimal.Text

/-!
Convergence tests. An interval is accepted when the interpolated value at a probe agrees with the
exact one. It is accepted as dirty when it cannot be refined any further, or when the difference
is negligible in absolute terms although the relative tolerance is missed.
-/

namespace AdaptiveTables

structure Tolerances (α : Type) where
  /-- The relative error of an estimate that is accepted. -/
  convergence : α
  /-- The absolute error of an estimate that is accepted as dirty. -/
  absolute : α
  /-- The relative distance between two points below which nothing is inserted between them. -/
  distance : α
deriving DecidableEq

/-- Why an interval is accepted although its estimate misses the relative tolerance. -/
inductive Dirty (α : Type) where
  | closeEnds (lower upper relativeDistance : α)
  | closeValues (lower upper abscissa exact estimate : α)
deriving DecidableEq

inductive Verdict (α : Type) where
  | converged
  | dirty (cause : Dirty α)
  | split
deriving DecidableEq

namespace Verdict

variable {α : Type}

def isAccepted : Verdict α → Bool
  | split => false
  | _ => true

def dirty? : Verdict α → Option (Dirty α)
  | dirty d => some d
  | _ => none

end Verdict

namespace Tolerances

variable {α : Type} [Scalar α]

@[specialize]
def checkDistance (t : Tolerances α) (lower upper : α) : Option (Dirty α) :=
  let r := Scalar.relativeError lower upper
  if r ≤ t.distance then some (.closeEnds lower upper r) else none

/-- Compares the value at a probe of an interval with its estimate. -/
@[specialize]
def checkPoint (t : Tolerances α) (lower upper abscissa exact estimate : α) : Verdict α :=
  if Scalar.relativeError exact estimate ≤ t.convergence then .converged
  else if Scalar.absoluteDistance exact estimate ≤ t.absolute then
    .dirty (.closeValues lower upper abscissa exact estimate)
  else .split

/-- Tests an interval at its midpoint. A midpoint that is not strictly inside counts as an
interval too short to split. -/
@[specialize]
def checkInterval (t : Tolerances α) (lower midpoint upper exact estimate : α) : Verdict α :=
  if Scalar.relativeError exact estimate ≤ t.convergence then .converged
  else
    match t.checkDistance lower upper with
    | some d => .dirty d
    | none =>
      if lower < midpoint && midpoint < upper then
        t.checkPoint lower upper midpoint exact estimate
      else .dirty (.closeEnds lower upper (Scalar.relativeError lower upper))

end Tolerances

/-- The text of a dirty convergence. Its numbers have one digit before the point. -/
def Dirty.message : Dirty Float → String
  | closeEnds lower upper r =>
    "distance tolerance hit before convergence: relError(" ++ num lower ++ ", " ++ num upper ++
      ") = " ++ num r
  | closeValues lower upper x exact estimate =>
    "absolute difference tolerance hit before convergence in [" ++ num lower ++ ", " ++
      num upper ++ "]: f(" ++ num x ++ ") = " ++ num exact ++ ", estimate = " ++ num estimate
where
  num (v : Float) : String := Double.text .scientific v

end AdaptiveTables
