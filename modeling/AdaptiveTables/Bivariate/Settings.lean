import AdaptiveTables.Table.Error

/-!
Settings of a bivariate evaluation: how far beyond the conditional bounds a query may round off,
and when the search for a matching probability stops.
-/

namespace AdaptiveTables

structure EvaluationSettings (α : Type) where
  fuzzyBoundary : α
  relativeError : α
  /-- The absolute error accepted at the last iteration, and the tolerance for a target of zero. -/
  error : α
  maxIterations : Nat
deriving DecidableEq

namespace EvaluationSettings

variable {α : Type} [Scalar α]

def standard : EvaluationSettings α where
  fuzzyBoundary := 1e-3
  relativeError := 1e-7
  error := 1e-15
  maxIterations := 500

def tolerance (s : EvaluationSettings α) : EvaluationTolerance → α
  | .fuzzyBoundary => s.fuzzyBoundary
  | .relativeError => s.relativeError
  | .error => s.error

/-- Tolerances lie in `[0, 1)` and at least one iteration is allowed. The first tolerance at
fault is reported. -/
def check (s : EvaluationSettings α) : Except (TableError α) Unit :=
  match EvaluationTolerance.all.find? (fun which => !Scalar.inHalfOpenUnit (s.tolerance which)) with
  | some which => .error (.invalidArgument (.tolerance which (s.tolerance which)))
  | none => if s.maxIterations = 0 then .error (.invalidArgument .noIterations) else .ok ()

end EvaluationSettings
end AdaptiveTables
