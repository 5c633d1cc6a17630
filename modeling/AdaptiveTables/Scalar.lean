/-!
The arithmetic that tables, interpolation rules and grids are written over. The class holds
operations only and assumes no law, so one definition has a meaning on doubles and on the real
numbers alike, and a statement names the laws that it needs.
-/

namespace AdaptiveTables

class Scalar (α : Type) extends Zero α, One α, Add α, Sub α, Mul α, Div α, Neg α,
    OfScientific α, LT α, LE α, BEq α where
  decLt : DecidableLT α
  decLe : DecidableLE α
  abs : α → α
  sqrt : α → α
  exp : α → α
  ln : α → α
  pow : α → α → α
  isFinite : α → Bool
  /-- A total order for sorting. It separates values that `==` may identify. -/
  totalLe : α → α → Bool

@[inline]
instance Scalar.instDecidableLT {α : Type} [Scalar α] (a b : α) : Decidable (a < b) :=
  Scalar.decLt a b

@[inline]
instance Scalar.instDecidableLE {α : Type} [Scalar α] (a b : α) : Decidable (a ≤ b) :=
  Scalar.decLe a b

/-- Counts values between two others. A refinement that only inserts points strictly inside
an interval cannot insert more of them than the interval holds. -/
class Resolution (α : Type) where
  /-- How many values lie above the first and not above the second, or more. -/
  valuesAbove : α → α → Nat

namespace Scalar

variable {α : Type} [Scalar α]

/-- A value is a number unless it differs from itself. -/
@[specialize]
def isNumber (a : α) : Bool := a == a

/-- The smaller of two values. One that is not a number yields to the other. -/
@[specialize]
def min (a b : α) : α :=
  if isNumber a then (if b < a then b else a) else b

/-- The larger of two values. One that is not a number yields to the other. -/
@[specialize]
def max (a b : α) : α :=
  if isNumber a then (if a < b then b else a) else b

/-- Moves a value into `[lo, hi]`. A value that is not a number stays as it is. Bounds that are
crossed or not numbers enclose nothing, and a program should stop at them. The definition is total:
it compares with them all the same, and nothing may rely on what it returns. -/
@[specialize]
def clamp (lo hi a : α) : α :=
  if a < lo then lo else if hi < a then hi else a

@[specialize]
def absoluteDistance (a b : α) : α := abs (a - b)

/-- The distance of two values in units of the larger magnitude, and zero between zeros. -/
@[specialize]
def relativeError (a b : α) : α :=
  let scale := max (abs a) (abs b)
  if scale == 0 then 0 else abs (a - b) / scale

/-- Whether a value lies in `[0, 1]`. -/
def inUnit (a : α) : Bool := 0 ≤ a && a ≤ 1

/-- Whether a value lies in `[0, 1)`. -/
def inHalfOpenUnit (a : α) : Bool := 0 ≤ a && a < 1

/-- Whether a value lies in `(0, 1)`. -/
def inOpenUnit (a : α) : Bool := 0 < a && a < 1

end Scalar

/-- The first two neighbours of a list that do not ascend strictly. -/
def firstDescent? {α : Type} [Scalar α] : List α → Option (α × α)
  | a :: b :: rest => if b ≤ a then some (a, b) else firstDescent? (b :: rest)
  | _ => none

end AdaptiveTables
