import AdaptiveTables.Rule
import AdaptiveTables.UnitBase
import AdaptiveTables.Table.Basic
import AdaptiveTables.Bivariate.Bisection

/-!
Primary bins. A query strictly between two primary values sees the two tables there, and the
fraction of the way between them. Secondary limits are blended on the secondary scale; lengths of
secondary grids are blended linearly, which keeps unit bases and limits consistent.
-/

namespace AdaptiveTables

/-- What a query asks of a table: the tabulated value or the normalised density. -/
inductive Quantity where
  | value
  | density
deriving DecidableEq, Repr

inductive Side where
  | lower
  | upper
deriving DecidableEq, Repr

structure Bin (α : Type) where
  lower : Table α
  upper : Table α
  lowerIndex : Nat
  fraction : α
  rule : PlaneRule
  settings : EvaluationSettings α

structure SecondarySample (α : Type) where
  sample : α
  /-- The sample of the table that was picked, before it is carried to the bin's own grid. -/
  raw : α
  primaryIndex : Nat
deriving DecidableEq

variable {α : Type} [Scalar α]

def Table.quantity (t : Table α) (q : Quantity) (y : α) : α :=
  match q with
  | .value => t.evaluate y
  | .density => t.pdf y

namespace Bin

def table (b : Bin α) : Side → Table α
  | .lower => b.lower
  | .upper => b.upper

def index (b : Bin α) : Side → Nat
  | .lower => b.lowerIndex
  | .upper => b.lowerIndex + 1

def scale (b : Bin α) : Scale := b.rule.secondary

/-- The side picked by a random number: the upper one with the fraction as its probability. -/
def pick (b : Bin α) (u : α) : Side := if u < b.fraction then .upper else .lower

/-- The linear mixture of a quantity of both sides. -/
def mix (b : Bin α) (lower upper : α) : α := Scale.linear.blend b.fraction lower upper

def blendSecondary (b : Bin α) (lower upper : α) : α := b.scale.blend b.fraction lower upper

def blendDependent (b : Bin α) (lower upper : α) : α :=
  b.rule.dependent.blendOrLinear b.fraction lower upper

/-- Blends on the dependent scale where both sides have one sign, and mixes linearly otherwise. -/
def blendSigned (b : Bin α) (lower upper : α) : α :=
  if 0 < lower * upper then b.blendDependent lower upper else b.mix lower upper

def lowerLimit (b : Bin α) : α := b.blendSecondary b.lower.lowerBound b.upper.lowerBound

def upperLimit (b : Bin α) : α := b.blendSecondary b.lower.upperBound b.upper.upperBound

def unitBase (b : Bin α) (side : Side) : UnitBase α :=
  let t := b.table side
  UnitBase.ofEnds b.scale t.lowerBound t.upperBound b.settings.fuzzyBoundary

/-- The unit base of the bin's own secondary grid. -/
def middleBase (b : Bin α) : UnitBase α where
  scale := b.scale
  lower := b.lowerLimit
  length := b.mix (b.unitBase .lower).length (b.unitBase .upper).length
  tolerance := b.settings.fuzzyBoundary

/-- Whether a value lies beyond the bin's limits by more than the fuzzy tolerance. -/
def isOutside (b : Bin α) (y : α) : Bool :=
  y < fuzzyLower b.settings.fuzzyBoundary b.lowerLimit ||
    fuzzyUpper b.settings.fuzzyBoundary b.upperLimit < y

def bisection (b : Bin α) : Bisection α := Bisection.standard b.settings

/-- A sample that is not tied to one side counts as the lower side's. -/
def sharedSample (b : Bin α) (y : α) : SecondarySample α := ⟨y, y, b.lowerIndex⟩

end Bin
end AdaptiveTables
