import AdaptiveTables.Bivariate.Distribution
import AdaptiveTables.Grid.Estimate
import AdaptiveTables.Grid.Line

/-!
Grids for functions of two variables. Every primary point carries a secondary grid of its own. A
primary interval is accepted when the slice at its midpoint is reproduced from the slices at its
ends, at the points of the slice and at the midpoints between them; otherwise the midpoint becomes
a primary point and both halves are tested in turn.
-/

namespace AdaptiveTables

structure PlaneGrid (α : Type) where
  columns : List (Column α)
deriving DecidableEq

namespace PlaneGrid

variable {α : Type}

def primary (g : PlaneGrid α) : List α := g.columns.map (·.x)

def size (g : PlaneGrid α) : Nat := g.columns.length

def slice? (g : PlaneGrid α) (i : Nat) : Option (LineGrid α) := g.columns[i]?.map (·.slice)

end PlaneGrid

variable {α : Type} [Scalar α]

/-- The points of a grid with their values, and between neighbours the midpoint with its exact
value. -/
@[specialize]
def LineGrid.probes (scale : Scale) (f : α → α) (g : LineGrid α) : List (Node α) :=
  go g.first g.later
where
  go (a : Node α) : List (Node α) → List (Node α)
    | [] => [a]
    | b :: rest =>
      let y := scale.midpoint a.x b.x
      a :: ⟨y, f y⟩ :: go b rest

/-- Drops every value that equals the one kept before it. -/
def dropRepeats : List α → List α
  | a :: b :: rest => if a == b then dropRepeats (a :: rest) else a :: dropRepeats (b :: rest)
  | short => short
termination_by xs => xs.length

structure PlaneGenerator (α : Type) where
  rule : PlaneRule
  settings : GridSettings α
  estimator : Estimator := .unitBase
  /-- Primary values that every grid over a range around them contains. -/
  critical : List α := []

namespace PlaneGenerator

def standard (rule : PlaneRule) : PlaneGenerator α := { rule, settings := .standard }

def build (rule : PlaneRule) (settings : GridSettings α) :
    Except (GridError α) (PlaneGenerator α) :=
  settings.check.map fun () => { rule, settings }

/-- Adds critical values. All of them have to be finite and admitted by the primary scale. -/
def withCritical (g : PlaneGenerator α) (values : List α) :
    Except (GridError α) (PlaneGenerator α) :=
  match values.find? fun x => !(Scalar.isFinite x && g.rule.primary.admits x) with
  | some x => .error (.invalidArgument (.criticalOffScale x g.rule.primary))
  | none => .ok { g with critical := g.critical ++ values }

/-- The generator of the slices. -/
def secondary (g : PlaneGenerator α) : LineGenerator α := ⟨g.rule.alongSecondary, g.settings⟩

def report (g : PlaneGenerator α) (cause : Dirty α) : Trace α Unit :=
  Trace.report g.settings.reaction .plane cause

def logVerbose (g : PlaneGenerator α) (events : List (Event α)) : Trace α Unit :=
  if g.settings.verbose then .log events else .succeed ()

/-- A seed with the critical values strictly inside it, in ascending order. -/
def mergedSeed (g : PlaneGenerator α) (seed : List α) (first last : α) : List α :=
  let inside := g.critical.filter fun x => first < x && x < last
  dropRepeats ((seed ++ inside).mergeSort Scalar.totalLe)

@[specialize]
def checkProbe (g : PlaneGenerator α) (a b : Column α) (x : α)
    (estimate : α → Except (TableError α) α) (probe : Node α) : Trace α Bool := do
  let z ← Trace.ofTable (estimate probe.x)
  let verdict := g.settings.tolerances.checkPoint a.x b.x probe.x probe.y z
  g.logVerbose [.probe x probe.x probe.y z a.x b.x verdict.isAccepted]
  match verdict.dirty? with
  | some cause => g.report cause
  | none => pure ()
  return verdict.isAccepted

/-- Checks probes in order, up to the first that is not accepted. -/
@[specialize]
def checkProbes (g : PlaneGenerator α) (a b : Column α) (x : α)
    (estimate : α → Except (TableError α) α) : List (Node α) → Trace α Bool
  | [] => .succeed true
  | probe :: rest => do
    if ← g.checkProbe a b x estimate probe then g.checkProbes a b x estimate rest
    else return false

variable [Resolution α]

/-- The slice at a primary point. -/
@[specialize]
def slice (g : PlaneGenerator α) (init : α → List α) (f : α → α → α) (x : α) :
    Trace α (LineGrid α) :=
  g.secondary.generate (f x) (init x)

@[specialize]
def column (g : PlaneGenerator α) (init : α → List α) (f : α → α → α) (x : α) :
    Trace α (Column α) :=
  (g.slice init f x).andThen fun s => .succeed ⟨x, s⟩

/-- Tests the interval between two columns at a point in its middle. Returns the column there if
the interval has to be split. -/
@[specialize]
def testAt (g : PlaneGenerator α) (midpoint : α → α → α) (init : α → List α) (f : α → α → α)
    (a b : Column α) : Trace α (Option (Column α)) :=
  let x := midpoint a.x b.x
  match g.settings.tolerances.checkDistance a.x b.x with
  | some cause => (g.report cause).andThen fun () => .succeed none
  | none =>
    if a.x < x && x < b.x then do
      let middle ← g.column init f x
      let estimate ← Trace.ofTable (g.estimator.prepare (.ofColumns g.rule a b x))
      let probes := middle.slice.probes g.rule.secondary (f x)
      if ← g.checkProbes a b x estimate probes then return none else return some middle
    else
      (g.report (.closeEnds a.x b.x (Scalar.relativeError a.x b.x))).andThen fun () =>
        .succeed none

/-- Tests the interval between two columns at the midpoint of the primary scale. -/
@[specialize]
def test (g : PlaneGenerator α) (init : α → List α) (f : α → α → α) (a b : Column α) :
    Trace α (Option (Column α)) :=
  g.testAt g.rule.primary.midpoint init f a b

/-- Refines from a column over the right ends that are pending, nearest first. Returns the
columns up to the last end, which is left out. The number counts the columns that may still be
inserted. -/
@[specialize]
def sweep (g : PlaneGenerator α) (init : α → List α) (f : α → α → α) (allowed : Nat)
    (a : Column α) (pending : List (Column α)) : Trace α (List (Column α)) :=
  match pending with
  | [] => .succeed []
  | b :: rest =>
    (g.test init f a b).andThen fun
      | none => (g.sweep init f allowed b rest).andThen fun columns => .succeed (a :: columns)
      | some middle =>
        match allowed with
        | 0 => .fail .unresolved
        | left + 1 => g.sweep init f left a (middle :: b :: rest)
termination_by (allowed, pending.length)

/-- Refines the interval between two columns. -/
@[specialize]
def refineInterval (g : PlaneGenerator α) (init : α → List α) (f : α → α → α)
    (interval : Column α × Column α) : Trace α (List (Column α)) :=
  let (a, b) := interval
  g.sweep init f (Resolution.valuesAbove a.x b.x) a [b]

/-- Generates a grid from a primary seed. All slices of the seed come first, then its intervals
from left to right. -/
@[specialize]
def generate (g : PlaneGenerator α) (init : α → List α) (f : α → α → α) (seed : List α) :
    Trace α (PlaneGrid α) := do
  let (first, last) ← Trace.ofExcept (seedEnds g.rule.primary seed)
  let merged := g.mergedSeed seed first last
  if seed.length < merged.length then
    g.logVerbose [.addedCritical (merged.length - seed.length)]
  let ends ← Trace.each (g.column init f) merged
  let pieces ← Trace.each (g.refineInterval init f) (ends.zip ends.tail)
  let columns := pieces.flatten ++ ends.getLast?.toList
  g.logVerbose (columns.mapIdx fun i c => .addedPoint c.x i)
  return ⟨columns⟩

/-- Generates a grid and makes a table of every slice. -/
@[specialize]
def generateDistribution (g : PlaneGenerator α) (init : α → List α) (f : α → α → α)
    (seed : List α) (policy : Policy) (settings : EvaluationSettings α) :
    Trace α (BivariateDistribution α) := do
  let grid ← g.generate init f seed
  Trace.ofTable do
    let tables ← grid.columns.mapM fun c => Table.ofColumns c.slice.points c.slice.values
    let primary ← PrimaryGrid.ofColumns grid.primary tables
    BivariateDistribution.build primary policy g.rule settings

end PlaneGenerator
end AdaptiveTables
