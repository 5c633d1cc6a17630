import AdaptiveTables.Scale
import AdaptiveTables.Bivariate.Policy
import AdaptiveTables.Decimal.Text

/-!
What can go wrong when a table is built, looked up or sampled. An error holds its cause and the
offending values; its wording is in one place.
-/

namespace AdaptiveTables

/-- The tolerances of a bivariate evaluation. -/
inductive EvaluationTolerance where
  | fuzzyBoundary
  | relativeError
  | error
deriving DecidableEq, Repr

def EvaluationTolerance.all : List EvaluationTolerance := [fuzzyBoundary, relativeError, error]

def EvaluationTolerance.name : EvaluationTolerance → String
  | fuzzyBoundary => "fuzzy boundary tolerance"
  | relativeError => "relative error tolerance"
  | error => "error tolerance"

/-- Why an argument is refused. -/
inductive ArgumentFault (α : Type) where
  | columnLengths (independent dependent : Nat)
  | independentNotFinite
  | independentDescent (first second : α)
  | density (value : α)
  | integral (total : α)
  | randomNumber (value : α)
  | primaryLengths (values distributions : Nat)
  | primaryNotNumber
  | primaryNotFinite (value : α)
  | primaryDescent (first second : α)
  | queryNotNumber
  | tolerance (which : EvaluationTolerance) (value : α)
  | noIterations
  | widening (factor : α)
  | primaryOffScale (value : α) (scale : Scale)
  | boundsOffScale (lower upper primary : α) (scale : Scale)
  | needsBinNumber (policy : Policy)
  | stated (text : String)
deriving DecidableEq

inductive TableError (α : Type) where
  | invalidArgument (fault : ArgumentFault α)
  | insufficientData (got need : Nat)
  | outOfRange (value lower upper : α)
  | convergenceFailure (iterations : Nat) (relativeError tolerance error errorTolerance : α)
deriving DecidableEq

namespace TableError

variable {α : Type}

def isInvalidArgument : TableError α → Bool
  | invalidArgument _ | insufficientData _ _ => true
  | _ => false

def isOutOfRange : TableError α → Bool
  | outOfRange _ _ _ => true
  | _ => false

def isConvergenceFailure : TableError α → Bool
  | convergenceFailure _ _ _ _ _ => true
  | _ => false

end TableError

/-- A number in a message: shortest digits, no power of ten. -/
def numeral (x : Float) : String := Double.text .positional x

/-- A closed interval in a message. -/
def intervalText (lower upper : Float) : String :=
  "[" ++ numeral lower ++ ", " ++ numeral upper ++ "]"

def ArgumentFault.message : ArgumentFault Float → String
  | columnLengths i d =>
    "independent and dependent values must have same length: got " ++ toString i ++ " and " ++
      toString d
  | independentNotFinite => "independent values must be finite"
  | independentDescent a b =>
    "independent values must be strictly ascending: " ++ numeral a ++ " followed by " ++ numeral b
  | density y => "dependent values must be finite and non-negative: found " ++ numeral y
  | integral t => "distribution integral must be positive and finite: got " ++ numeral t
  | randomNumber u => "random number " ++ numeral u ++ " is not in [0, 1]"
  | primaryLengths v d =>
    "primary values and distributions must have same length: got " ++ toString v ++ " and " ++
      toString d
  | primaryNotNumber => "primary values must not be NaN"
  | primaryNotFinite x => "primary values must be finite: found " ++ numeral x
  | primaryDescent a b =>
    "primary values must be strictly ascending and unique: " ++ numeral a ++ " followed by " ++
      numeral b
  | queryNotNumber => "primary value must not be NaN"
  | tolerance which v => which.name ++ " must be in [0, 1): got " ++ numeral v
  | noIterations => "max iterations must be positive"
  | widening w => "widening factor must be in (0, 1): got " ++ numeral w
  | primaryOffScale x s =>
    "primary value " ++ numeral x ++ " is not valid for " ++ s.name ++ " primary processing"
  | boundsOffScale lower upper x s =>
    "secondary bounds " ++ intervalText lower upper ++ " at primary value " ++ numeral x ++
      " are not valid for " ++ s.name ++ " secondary processing"
  | needsBinNumber p => p.name ++ " sampling needs a bin random number"
  | stated text => text

def TableError.message : TableError Float → String
  | invalidArgument fault => "Invalid argument: " ++ fault.message
  | insufficientData got need =>
    "Insufficient data: need at least " ++ toString need ++ " points, got " ++ toString got
  | outOfRange v lower upper =>
    "Query value " ++ numeral v ++ " outside tabulated domain " ++ intervalText lower upper
  | convergenceFailure n r t e et =>
    "max number of iterations (" ++ toString n ++ ") hit before convergence (" ++ numeral t ++
      "): relative error = " ++ numeral r ++ ", error = " ++ numeral e ++ " (error tolerance " ++
      numeral et ++ ")"

end AdaptiveTables
