import AdaptiveTables.Scalar

/-!
Double precision as an arithmetic. The order key of a double counts the representable values
up to it, so differences of keys bound how often an interval can be split.
-/

namespace AdaptiveTables
namespace Double

/-- What the sign bit of a double is worth. -/
def signWeight : Nat := Nat.pow 2 63

/-- The position of a double in the order of all bit patterns: the bits below the sign count
up from the middle for a positive sign and down from it for a negative one. -/
def orderKey (x : Float) : Nat :=
  let bits := x.toBits.toNat
  if bits < signWeight then signWeight + bits else 2 * signWeight - 1 - bits

@[inline]
instance instScalar : Scalar Float where
  zero := 0.0
  one := 1.0
  decLt := fun a b => inferInstanceAs (Decidable (a < b))
  decLe := fun a b => inferInstanceAs (Decidable (a ≤ b))
  abs := Float.abs
  sqrt := Float.sqrt
  exp := Float.exp
  ln := Float.log
  pow := Float.pow
  isFinite := Float.isFinite
  totalLe := fun a b => orderKey a ≤ orderKey b

instance instResolution : Resolution Float where
  valuesAbove := fun a b => orderKey b - orderKey a

end Double
end AdaptiveTables
