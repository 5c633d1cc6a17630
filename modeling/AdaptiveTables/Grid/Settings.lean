import AdaptiveTables.Grid.Error

/-!
Settings of the grid generators: the tolerances, and what to do about a dirty interval.
-/

namespace AdaptiveTables

/-- The reaction to an interval that is accepted before it has converged. -/
inductive Reaction where
  /-- Accepts the interval with a warning. -/
  | warn
  /-- Ends the generation with an error. -/
  | throw
deriving DecidableEq, Repr

def Reaction.all : List Reaction := [warn, throw]

def Reaction.name : Reaction → String
  | warn => "warn"
  | throw => "throw"

structure GridSettings (α : Type) where
  tolerances : Tolerances α
  reaction : Reaction
  /-- Whether the steps of a generator on a plane are logged. -/
  verbose : Bool
deriving DecidableEq

namespace GridSettings

variable {α : Type} [Scalar α]

def standard : GridSettings α := ⟨⟨1e-3, 1e-12, 1e-14⟩, .warn, false⟩

def precise : GridSettings α := ⟨⟨1e-6, 1e-15, 1e-16⟩, .warn, false⟩

/-- For quick previews. -/
def fast : GridSettings α := ⟨⟨1e-2, 1e-10, 1e-10⟩, .warn, false⟩

/-- The tolerances lie in `(0, 1)` for convergence, `[0, 1)` for the distance and `[0, 1]` for
the absolute difference. The first at fault, in this order, is reported. -/
def check (s : GridSettings α) : Except (GridError α) Unit :=
  let t := s.tolerances
  if !Scalar.inOpenUnit t.convergence then
    .error (.invalidArgument (.convergenceTolerance t.convergence))
  else if !Scalar.inHalfOpenUnit t.distance then
    .error (.invalidArgument (.distanceTolerance t.distance))
  else if !Scalar.inUnit t.absolute then
    .error (.invalidArgument (.absoluteTolerance t.absolute))
  else .ok ()

end GridSettings
end AdaptiveTables
