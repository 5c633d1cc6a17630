import AdaptiveTables.Lookup
import AdaptiveTables.RandomSource
import AdaptiveTables.Table.Error

/-!
Tabulated distributions. A table is an unnormalised density that is linear between neighbouring
points. Its cumulative distribution is exact on every segment, and sampling inverts it there.
-/

namespace AdaptiveTables

structure Knot (α : Type) where
  abscissa : α
  density : α
deriving DecidableEq

/-- A stretch of the table between two neighbouring knots. -/
structure Segment (α : Type) where
  left : α
  right : α
  /-- The density at the left end. -/
  density : α
  slope : α
  /-- The integral of the density from the start of the table to the left end. -/
  cumulative : α
deriving DecidableEq

/-- A table has at least one segment. -/
structure Table (α : Type) where
  first : Segment α
  later : List (Segment α)
  last : Knot α
  /-- The integral of the density. -/
  total : α
deriving DecidableEq

variable {α : Type} [Scalar α]

namespace Segment

def between (cumulative : α) (a b : Knot α) : Segment α where
  left := a.abscissa
  right := b.abscissa
  density := a.density
  slope := (b.density - a.density) / (b.abscissa - a.abscissa)
  cumulative := cumulative

/-- The integral of the density over the stretch between two knots. -/
def area (a b : Knot α) : α := 0.5 * (b.abscissa - a.abscissa) * (a.density + b.density)

/-- The segments through a run of knots, with the last knot and the integral up to it. -/
def chain (cumulative : α) (a : Knot α) : List (Knot α) → List (Segment α) × Knot α × α
  | [] => ([], a, cumulative)
  | b :: rest =>
    let (segments, last, total) := chain (cumulative + area a b) b rest
    (between cumulative a b :: segments, last, total)

def densityAt (s : Segment α) (x : α) : α := s.density + s.slope * (x - s.left)

/-- The integral of the density from the start of the table to a point of the segment. -/
@[specialize]
def cumulativeAt (s : Segment α) (x : α) : α :=
  let dx := x - s.left
  s.cumulative + dx * s.density + 0.5 * dx * dx * s.slope

/-- The point of the segment up to which the integral is `target`. The quotient is the root of
the quadratic in the form that stays accurate for a small slope. -/
@[specialize]
def abscissaAt (s : Segment α) (target : α) : α :=
  let rise := Scalar.max (target - s.cumulative) 0
  let root := Scalar.sqrt (Scalar.max (s.density * s.density + 2.0 * s.slope * rise) 0)
  let denominator := s.density + root
  let x := if 0 < denominator then s.left + 2.0 * rise / denominator else s.left
  Scalar.min x s.right

end Segment

namespace Table

def segments (t : Table α) : List (Segment α) := t.first :: t.later

def independent (t : Table α) : List α := t.segments.map (·.left) ++ [t.last.abscissa]

def dependent (t : Table α) : List α := t.segments.map (·.density) ++ [t.last.density]

def size (t : Table α) : Nat := t.segments.length + 1

def lowerBound (t : Table α) : α := t.first.left

def upperBound (t : Table α) : α := t.last.abscissa

/-- The factor that makes the density integrate to one. -/
@[specialize]
def normalisation (t : Table α) : α := 1 / t.total

/-- The table through at least two knots. -/
def ofKnots (a b : Knot α) (rest : List (Knot α)) : Except (TableError α) (Table α) :=
  let (later, last, total) := Segment.chain (0 + Segment.area a b) b rest
  if 0 < total && Scalar.isFinite total then
    .ok ⟨Segment.between 0 a b, later, last, total⟩
  else .error (.invalidArgument (.integral total))

/-- Whether a value can be a density. -/
def isDensity (y : α) : Bool := Scalar.isFinite y && !decide (y < 0)

/-- Builds a table from its two columns. The independent values have to be finite and strictly
ascending, the densities finite and not negative, and the integral positive and finite. -/
def ofColumns (independent dependent : List α) : Except (TableError α) (Table α) :=
  if independent.length ≠ dependent.length then
    .error (.invalidArgument (.columnLengths independent.length dependent.length))
  else if independent.length < 2 then .error (.insufficientData independent.length 2)
  else if independent.any (!Scalar.isFinite ·) then .error (.invalidArgument .independentNotFinite)
  else
    match firstDescent? independent with
    | some (a, b) => .error (.invalidArgument (.independentDescent a b))
    | none =>
      match dependent.find? (!isDensity ·) with
      | some y => .error (.invalidArgument (.density y))
      | none =>
        match List.zipWith Knot.mk independent dependent with
        | a :: b :: rest => ofKnots a b rest
        | short => .error (.insufficientData short.length 2)

/-- The segment that holds a point. Points before the table belong to the first segment, points
after it to the last one. -/
@[specialize]
def segmentAt (t : Table α) (x : α) : Segment α :=
  (advance (fun s => s.left ≤ x) t.first t.later).1

/-- The segment where the integral reaches a target. -/
@[specialize]
def segmentReaching (t : Table α) (target : α) : Segment α :=
  (advance (fun s => s.cumulative < target) t.first t.later).1

/-- The tabulated density, which is zero outside the table. -/
def evaluate (t : Table α) (x : α) : α :=
  if x < t.lowerBound || t.upperBound < x then 0
  else if x == t.upperBound then t.last.density
  else (t.segmentAt x).densityAt x

/-- The normalised density. -/
def pdf (t : Table α) (x : α) : α := t.evaluate x * t.normalisation

/-- The cumulative distribution. -/
@[specialize]
def cdf (t : Table α) (x : α) : α :=
  if x ≤ t.lowerBound then 0
  else if t.upperBound ≤ x then 1
  else Scalar.min ((t.segmentAt x).cumulativeAt x * t.normalisation) 1

/-- The quantile of a probability. -/
@[specialize]
def sample (t : Table α) (u : α) : α :=
  if u ≤ 0 then t.lowerBound
  else if 1 ≤ u then t.upperBound
  else
    let target := u * t.total
    (t.segmentReaching target).abscissaAt target

/-- The quantile in the table cut off at `limit`. -/
def sampleBelow (t : Table α) (u limit : α) : α :=
  if limit ≤ t.lowerBound then t.lowerBound
  else
    let limit := Scalar.min limit t.upperBound
    Scalar.min (t.sample (u * t.cdf limit)) limit

end Table

/-- Refuses a random number outside `[0, 1]`. -/
def checkRandomNumber (u : α) : Except (TableError α) Unit :=
  if Scalar.inUnit u then .ok () else .error (.invalidArgument (.randomNumber u))

namespace Table

def sampleChecked (t : Table α) (u : α) : Except (TableError α) α := do
  checkRandomNumber u
  return t.sample u

def draw (t : Table α) (source : RandomSource α) : α × RandomSource α :=
  let (u, source) := source.next
  (t.sample u, source)

def drawBelow (t : Table α) (limit : α) (source : RandomSource α) : α × RandomSource α :=
  let (u, source) := source.next
  (t.sampleBelow u limit, source)

end Table
end AdaptiveTables
