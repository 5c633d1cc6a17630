/-!
Shortest decimals. A binary number stands for every real number that rounds to it. Among the
decimals in that interval the shortest is the one on the coarsest decimal grid, and on that grid
it is one of the two neighbours of the number itself.
-/

namespace AdaptiveTables

/-- The number `digits · 10 ^ exponent`. -/
structure Decimal where
  digits : Nat
  exponent : Int
deriving DecidableEq, Repr

namespace Decimal

/-- A positive number and the ends of an interval around it, over a common denominator. -/
structure Interval where
  lower : Nat
  value : Nat
  upper : Nat
  denominator : Nat
  /-- Whether the ends belong to the interval. -/
  closed : Bool

namespace Interval

/-- The reals that round to `m · 2 ^ q`, where a significand has `width` bits. Ends round to the
even neighbour. The gap below a power of two is half the gap above it. -/
def ofBinary (width m : Nat) (q : Int) : Interval :=
  let factor := Nat.pow 2 (q - 2).toNat
  { lower := (if m = Nat.pow 2 (width - 1) then 4 * m - 1 else 4 * m - 2) * factor
    value := 4 * m * factor
    upper := (4 * m + 2) * factor
    denominator := Nat.pow 2 (2 - q).toNat
    closed := m % 2 = 0 }

/-- The same interval in units of `10 ^ e`. -/
def inUnits (i : Interval) (e : Int) : Interval :=
  let f := Nat.pow 10 (-e).toNat
  { i with
    lower := i.lower * f
    value := i.value * f
    upper := i.upper * f
    denominator := i.denominator * Nat.pow 10 e.toNat }

def contains (i : Interval) (n : Nat) : Bool :=
  let p := n * i.denominator
  if i.closed then i.lower ≤ p && p ≤ i.upper else i.lower < p && p < i.upper

/-- The integer of the interval nearest to the value, among the value's two integer neighbours.
Halfway between them the upper one is taken. -/
def nearestInteger? (i : Interval) : Option Nat :=
  let n := i.value / i.denominator
  match i.contains n, i.contains (n + 1) with
  | true, true => if 2 * (i.value % i.denominator) < i.denominator then some n else some (n + 1)
  | true, false => some n
  | false, true => some (n + 1)
  | false, false => none

/-- Whether the value is at least `10 ^ k`. -/
def reaches (i : Interval) (k : Int) : Bool :=
  i.denominator * Nat.pow 10 k.toNat ≤ i.value * Nat.pow 10 (-k).toNat

/-- The largest `k` with `10 ^ k` not above the value. The first guess, from the binary
logarithm, is at most two below it. -/
def decade (i : Interval) : Int :=
  let guess := ((i.value.log2 : Int) - i.denominator.log2 - 1) * 30103 / 100000
  let next := fun k : Int => if i.reaches (k + 1) then k + 1 else k
  next (next guess)

/-- Looks for a decimal of the interval on the grid of `10 ^ e` and then on finer ones. -/
def search (i : Interval) : Nat → Int → Decimal
  | 0, e => ⟨(i.inUnits e).value / (i.inUnits e).denominator, e⟩
  | grids + 1, e =>
    match (i.inUnits e).nearestInteger? with
    | some n => ⟨n, e⟩
    | none => search i grids (e - 1)

end Interval

/-- Moves zeros at the end of the digits into the exponent. -/
def trimmed (d : Decimal) : Decimal :=
  if d.digits ≠ 0 ∧ d.digits % 10 = 0 then
    trimmed ⟨d.digits / 10, d.exponent + 1⟩
  else d
termination_by d.digits
decreasing_by omega

/-- The shortest decimal that rounds to `m · 2 ^ q`, where a significand has 53 bits. Seventeen
digits always suffice. -/
def shortest (m : Nat) (q : Int) : Decimal :=
  let i := Interval.ofBinary 53 m q
  (i.search 17 i.decade).trimmed

end Decimal
end AdaptiveTables
