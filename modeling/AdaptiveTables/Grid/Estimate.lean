import AdaptiveTables.UnitBase
import AdaptiveTables.Bivariate.Bisection
import AdaptiveTables.Grid.LineGrid
import AdaptiveTables.Grid.Error
import AdaptiveTables.Table.Basic

/-!
Estimates between two slices of a function of two variables. A secondary value between the slices
is matched to one point of either slice, by equal unit coordinate or by equal cumulative
probability, and the values at the two points are blended.
-/

namespace AdaptiveTables

/-- A primary point with the evaluated secondary grid there. -/
structure Column (α : Type) where
  x : α
  slice : LineGrid α
deriving DecidableEq

/-- How the points of two slices are matched. -/
inductive Estimator where
  | unitBase
  | correlated
deriving DecidableEq, Repr

namespace Estimator

def all : List Estimator := [unitBase, correlated]

def name : Estimator → String
  | unitBase => "UnitBase"
  | correlated => "Correlated"

def title : Estimator → String
  | unitBase => "Unit-base"
  | correlated => "Correlated"

end Estimator

/-- Two slices, and the fraction of the way between them at which a value is estimated. -/
structure SlicePair (α : Type) where
  rule : PlaneRule
  fraction : α
  lower : LineGrid α
  upper : LineGrid α

namespace SlicePair

variable {α : Type} [Scalar α]

def ofColumns (rule : PlaneRule) (a b : Column α) (x : α) : SlicePair α :=
  ⟨rule, rule.primary.fraction a.x b.x x, a.slice, b.slice⟩

@[specialize]
def blendSecondary (p : SlicePair α) (y₀ y₁ : α) : α := p.rule.secondary.blend p.fraction y₀ y₁

/-- The least secondary value between the slices. -/
@[specialize]
def lowerLimit (p : SlicePair α) : α := p.blendSecondary p.lower.first.x p.upper.first.x

@[specialize]
def upperLimit (p : SlicePair α) : α := p.blendSecondary p.lower.last.x p.upper.last.x

/-- The blend of the values interpolated at a point of either slice. -/
@[specialize]
def blendAt (p : SlicePair α) (y₀ y₁ : α) : α :=
  p.rule.dependent.blendOrLinear p.fraction (p.lower.valueAt p.rule.alongSecondary y₀)
    (p.upper.valueAt p.rule.alongSecondary y₁)

/-- How far beyond an end a unit coordinate may round off. -/
@[specialize]
def unitTolerance : α := 1e-10

@[specialize]
def sliceBase (p : SlicePair α) (g : LineGrid α) : UnitBase α :=
  UnitBase.ofEnds p.rule.secondary g.first.x g.last.x unitTolerance

@[specialize]
def middleBase (p : SlicePair α) : UnitBase α :=
  UnitBase.ofEnds p.rule.secondary p.lowerLimit p.upperLimit unitTolerance

/-- The estimate that matches points of equal unit coordinate. -/
@[specialize]
def unitBaseEstimate (p : SlicePair α) (y : α) : α :=
  let η := p.middleBase.coordinate y
  p.blendAt ((p.sliceBase p.lower).value η) ((p.sliceBase p.upper).value η)

/-- The points of equal cumulative probability whose blend is a secondary value. Limits match
limits without a search. -/
@[specialize]
def matchedValues (p : SlicePair α) (lower upper : Table α) (y : α) :
    Except (TableError α) (α × α) :=
  if y ≤ p.lowerLimit then .ok (lower.lowerBound, upper.lowerBound)
  else if p.upperLimit ≤ y then .ok (lower.upperBound, upper.upperBound)
  else
    let c₀ := lower.cdf y
    let c₁ := upper.cdf y
    let points := fun c =>
      let y₀ := lower.sample c
      let y₁ := upper.sample c
      MatchedPoints.mk y₀ y₁ (p.blendSecondary y₀ y₁)
    ((Bisection.standard .standard).solve y (Scalar.min c₀ c₁) (Scalar.max c₀ c₁) points).map
      fun outcome => (outcome.points.lower, outcome.points.upper)

/-- The estimate that matches points of equal cumulative probability. -/
@[specialize]
def correlatedEstimate (p : SlicePair α) (lower upper : Table α) (y : α) :
    Except (TableError α) α :=
  (p.matchedValues lower upper y).map fun (y₀, y₁) => p.blendAt y₀ y₁

end SlicePair

/-- The estimate of an estimator, as a function of the secondary value. Matching probabilities
needs both slices as tables, which can fail. -/
@[specialize]
def Estimator.prepare {α : Type} [Scalar α] (e : Estimator) (p : SlicePair α) :
    Except (TableError α) (α → Except (TableError α) α) :=
  match e with
  | unitBase => .ok fun y => .ok (p.unitBaseEstimate y)
  | correlated => do
    let lower ← Table.ofColumns p.lower.points p.lower.values
    let upper ← Table.ofColumns p.upper.points p.upper.values
    return p.correlatedEstimate lower upper

end AdaptiveTables
