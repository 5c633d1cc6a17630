import AdaptiveTables.Table.Error
import AdaptiveTables.Grid.Convergence

/-!
What can go wrong when a grid is generated.
-/

namespace AdaptiveTables

/-- Why an argument of a grid generator is refused. -/
inductive GridFault (α : Type) where
  | convergenceTolerance (value : α)
  | distanceTolerance (value : α)
  | absoluteTolerance (value : α)
  | malformedSettings
  | seedOffScale (point : α)
  | seedDescent (first second : α)
  | rangeNotNumber
  | rangeEmpty (lower upper : α)
  | unusableValue (value point : α)
  | criticalOffScale (value : α) (scale : Scale)
  | stated (text : String)
deriving DecidableEq

inductive GridError (α : Type) where
  | invalidArgument (fault : GridFault α)
  | insufficientData (required provided : Nat)
  | dirtyConvergence (cause : Dirty α)
  | table (error : TableError α)
  /-- More points were asked for than there are values to insert. -/
  | unresolved
deriving DecidableEq

namespace GridError

variable {α : Type}

def isInvalidArgument : GridError α → Bool
  | invalidArgument _ | insufficientData _ _ => true
  | _ => false

def isDirtyConvergence : GridError α → Bool
  | dirtyConvergence _ => true
  | _ => false

end GridError

def GridFault.message : GridFault Float → String
  | convergenceTolerance v => "convergence tolerance must be in (0, 1): got " ++ numeral v
  | distanceTolerance v => "distance tolerance must be in [0, 1): got " ++ numeral v
  | absoluteTolerance v => "absolute difference tolerance must be in [0, 1]: got " ++ numeral v
  | malformedSettings => "malformed generator config"
  | seedOffScale x => "seed point " ++ numeral x ++ " cannot be processed"
  | seedDescent a b =>
    "seed grid must be strictly ascending: " ++ numeral a ++ " is followed by " ++ numeral b
  | rangeNotNumber => "refinement range is NaN"
  | rangeEmpty lower upper =>
    "refinement range " ++ intervalText lower upper ++ " is empty on the grid"
  | unusableValue y x =>
    "function value " ++ numeral y ++ " at " ++ numeral x ++ " cannot be interpolated"
  | criticalOffScale x s =>
    "critical primary value " ++ numeral x ++ " is not valid for " ++ s.name ++ " processing"
  | stated text => text

def GridError.message : GridError Float → String
  | invalidArgument fault => "Invalid argument: " ++ fault.message
  | insufficientData required provided =>
    "Insufficient grid points: need at least " ++ toString required ++ ", got " ++
      toString provided
  | dirtyConvergence cause => "Dirty convergence: " ++ cause.message
  | table error => "Distribution error: " ++ error.message
  | unresolved => "Refinement ran out of values to insert"

end AdaptiveTables
