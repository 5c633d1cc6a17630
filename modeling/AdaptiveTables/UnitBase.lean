import AdaptiveTables.Scale

/-!
Unit bases. A secondary grid is measured from its lower end in units of its own length on a
scale, so grids of different extent share the coordinates `[0, 1]`. The length is negative on a
cosine scale, and the coordinate rises with the value all the same.
-/

namespace AdaptiveTables

variable {α : Type} [Scalar α]

/-- The length of a grid on a scale. -/
@[specialize]
def Scale.length (s : Scale) (lower upper : α) : α := s.transform upper - s.transform lower

/-- A lower bound, moved down by a relative tolerance. -/
@[specialize]
def fuzzyLower (tolerance bound : α) : α :=
  if bound < 0 then bound * (1 + tolerance) else bound * (1 - tolerance)

/-- An upper bound, moved up by a relative tolerance. -/
def fuzzyUpper (tolerance bound : α) : α :=
  if 0 < bound then bound * (1 + tolerance) else bound * (1 - tolerance)

structure UnitBase (α : Type) where
  scale : Scale
  lower : α
  length : α
  /-- How far beyond an end a result may round off and still count as that end. -/
  tolerance : α

namespace UnitBase

@[specialize]
def ofEnds (scale : Scale) (lower upper tolerance : α) : UnitBase α :=
  ⟨scale, lower, scale.length lower upper, tolerance⟩

/-- The unit coordinate of a value. -/
@[specialize]
def coordinate (u : UnitBase α) (v : α) : α :=
  let η := (u.scale.transform v - u.scale.transform u.lower) / u.length
  if 1 < η && η - 1 < u.tolerance then 1
  else if η < 0 && -u.tolerance < η then 0
  else η

/-- The value at a unit coordinate. -/
@[specialize]
def value (u : UnitBase α) (η : α) : α :=
  let v := u.scale.inverse (u.scale.transform u.lower + u.length * η)
  if v < u.lower && fuzzyLower u.tolerance u.lower ≤ v then u.lower else v

/-- The change of the value for a change of its coordinate, at a value. -/
def jacobian (u : UnitBase α) (v : α) : α := u.length * u.scale.inverseDeriv v

end UnitBase
end AdaptiveTables
