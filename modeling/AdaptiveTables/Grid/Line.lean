import AdaptiveTables.Grid.LineGrid
import AdaptiveTables.Grid.PointStore
import AdaptiveTables.Grid.Trace

/-!
Grids for functions of one variable. An interval is tested at its midpoint, where the exact value
is compared with the one interpolated from the ends. An interval that fails is split there and
both halves are tested in turn, from left to right, until every interval is accepted.
-/

namespace AdaptiveTables

variable {α : Type} [Scalar α]

/-- Checks that a seed has at least two points, that a scale admits them all, and that they
ascend strictly. Returns its ends. -/
def seedEnds (scale : Scale) (seed : List α) : Except (GridError α) (α × α) :=
  match seed with
  | first :: second :: rest =>
    match seed.find? (!scale.admits ·) with
    | some x => .error (.invalidArgument (.seedOffScale x))
    | none =>
      match firstDescent? seed with
      | some (a, b) => .error (.invalidArgument (.seedDescent a b))
      | none => .ok (first, rest.getLastD second)
  | short => .error (.insufficientData 2 short.length)

/-- The node of a function at a point, if its value is usable. -/
@[specialize]
def nodeAt (f : α → α) (usable : α → Bool) (x : α) : Except (GridError α) (Node α) :=
  let y := f x
  if usable y then .ok ⟨x, y⟩ else .error (.invalidArgument (.unusableValue y x))

structure LineGenerator (α : Type) where
  rule : LineRule
  settings : GridSettings α

namespace LineGenerator

def standard (rule : LineRule) : LineGenerator α := ⟨rule, .standard⟩

def build (rule : LineRule) (settings : GridSettings α) :
    Except (GridError α) (LineGenerator α) :=
  settings.check.map fun () => ⟨rule, settings⟩

/-- The node at a point that takes part in interpolation. -/
@[specialize]
def node (g : LineGenerator α) (f : α → α) (x : α) : Except (GridError α) (Node α) :=
  nodeAt f g.rule.dependent.admits x

/-- Tests the interval between two nodes at a point in its middle. Returns the node there with the
verdict. -/
@[specialize]
def testAt (g : LineGenerator α) (midpoint : α → α → α) (f : α → α) (a b : Node α) :
    Except (GridError α) (Node α × Verdict α) :=
  (g.node f (midpoint a.x b.x)).map fun m =>
    let estimate := g.rule.interpolate a.x b.x m.x a.y b.y
    (m, g.settings.tolerances.checkInterval a.x m.x b.x m.y estimate)

/-- Tests the interval between two nodes at the midpoint of the rule. -/
@[specialize]
def test (g : LineGenerator α) (f : α → α) (a b : Node α) :
    Except (GridError α) (Node α × Verdict α) :=
  g.testAt g.rule.midpoint f a b

def report (g : LineGenerator α) (verdict : Verdict α) : Trace α Unit :=
  match verdict.dirty? with
  | some cause => Trace.report g.settings.reaction .line cause
  | none => Trace.succeed ()

/-- Refines from a node over the right ends that are pending, nearest first. The interval up to
the nearest one is either accepted or split at its midpoint, which then becomes the nearest end.
The number counts the midpoints that may still be inserted. -/
@[specialize]
def sweep (g : LineGenerator α) (f : α → α) (allowed : Nat) (a : Node α)
    (pending : List (Node α)) : Trace α (LineGrid α) :=
  match pending with
  | [] => .succeed ⟨a, []⟩
  | b :: rest =>
    match g.test f a b with
    | .error e => .fail e
    | .ok (m, verdict) =>
      if verdict.isAccepted then
        (g.report verdict).andThen fun () =>
          (g.sweep f allowed b rest).andThen fun grid => .succeed (grid.cons a)
      else
        match allowed with
        | 0 => .fail .unresolved
        | left + 1 => g.sweep f left a (m :: b :: rest)
termination_by (allowed, pending.length)

/-- The right ends of the intervals between two limits: the points between them and the upper
limit itself. -/
def rightEnds (points : List α) (lo hi : α) : List α :=
  let inside := points.filter fun x => lo < x && x ≤ hi
  match inside.getLast? with
  | some x => if x == hi then inside else inside ++ [hi]
  | none => [hi]

variable [Resolution α]

/-- Refines a grid between two limits and keeps its points outside. Points below come first;
the right ends are evaluated from right to left, and then the lower limit. -/
@[specialize]
def refineBetween (g : LineGenerator α) (f : α → α) (points : List α) (lo hi : α) :
    Trace α (LineGrid α) := do
  let below ← Trace.each (.ofExcept <| nodeAt f Scalar.isFinite ·) (points.takeWhile (· < lo))
  let ends ← Trace.each (.ofExcept <| g.node f ·) (rightEnds points lo hi).reverse
  let start ← Trace.ofExcept (g.node f lo)
  let inner ← g.sweep f (Resolution.valuesAbove lo hi) start ends.reverse
  let above ← Trace.each (.ofExcept <| nodeAt f Scalar.isFinite ·) (points.filter (hi < ·))
  return inner.surround below above

/-- Generates a grid from a seed, whose points are kept. -/
@[specialize]
def generate (g : LineGenerator α) (f : α → α) (seed : List α) : Trace α (LineGrid α) := do
  let (lo, hi) ← Trace.ofExcept (seedEnds g.rule.independent seed)
  g.refineBetween f seed lo hi

/-- The limits of a refinement, moved to the ends of the grid where they lie beyond it. -/
def refinementRange (first last lo hi : α) : Except (GridError α) (α × α) :=
  if !Scalar.isNumber lo || !Scalar.isNumber hi then
    .error (.invalidArgument .rangeNotNumber)
  else
    let lo := Scalar.max lo first
    let hi := Scalar.min hi last
    if hi ≤ lo then .error (.invalidArgument (.rangeEmpty lo hi)) else .ok (lo, hi)

/-- Refines a grid inside a range, whose limits are added to it. -/
@[specialize]
def refine (g : LineGenerator α) (f : α → α) (points : List α) (lo hi : α) :
    Trace α (LineGrid α) := do
  let (first, last) ← Trace.ofExcept (seedEnds g.rule.independent points)
  let (lo, hi) ← Trace.ofExcept (refinementRange first last lo hi)
  g.refineBetween f points lo hi

variable {σ τ : Type} [PointStore σ α] [PointStore τ α]

/-- Stores the points of a run's grid, if the run succeeds. -/
def storePoints (run : Trace α (LineGrid α)) (points : σ) : Trace α σ :=
  run.andThen fun grid => .succeed (PointStore.replace points grid.points)

/-- Stores the points and the values of a run's grid, if the run succeeds. -/
def storeNodes (run : Trace α (LineGrid α)) (points : σ) (values : τ) : Trace α (σ × τ) :=
  run.andThen fun grid =>
    .succeed (PointStore.replace points grid.points, PointStore.replace values grid.values)

def generateIn (g : LineGenerator α) (f : α → α) (points : σ) : Trace α σ :=
  storePoints (g.generate f (PointStore.points points)) points

def generateAndEvaluateIn (g : LineGenerator α) (f : α → α) (points : σ) (values : τ) :
    Trace α (σ × τ) :=
  storeNodes (g.generate f (PointStore.points points)) points values

def refineIn (g : LineGenerator α) (f : α → α) (points : σ) (lo hi : α) : Trace α σ :=
  storePoints (g.refine f (PointStore.points points) lo hi) points

def refineAndEvaluateIn (g : LineGenerator α) (f : α → α) (points : σ) (values : τ)
    (lo hi : α) : Trace α (σ × τ) :=
  storeNodes (g.refine f (PointStore.points points) lo hi) points values

end LineGenerator
end AdaptiveTables
