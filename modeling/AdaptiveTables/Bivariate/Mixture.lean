import AdaptiveTables.Bivariate.Bin

/-!
Policies that mix the two sides of a bin: at the same secondary value (direct), or at the same
unit coordinate, where the sampler either picks a side at random (unit base) or inverts the
mixture of the two cumulative distributions (cumulative points).
-/

namespace AdaptiveTables

variable {α : Type} [Scalar α]

namespace Direct

def lowerBound (b : Bin α) : α := Scalar.min b.lower.lowerBound b.upper.lowerBound

def upperBound (b : Bin α) : α := Scalar.max b.lower.upperBound b.upper.upperBound

def evaluate (b : Bin α) (q : Quantity) (y : α) : α :=
  b.blendSigned (b.lower.quantity q y) (b.upper.quantity q y)

def cdf (b : Bin α) (y : α) : α := b.blendSigned (b.lower.cdf y) (b.upper.cdf y)

def sample (b : Bin α) (binNumber u : α) : SecondarySample α :=
  let side := b.pick binNumber
  let y := (b.table side).sample u
  ⟨y, y, b.index side⟩

def sampleBelow (b : Bin α) (binNumber u limit : α) : α :=
  let t := b.table (b.pick binNumber)
  t.sampleBelow u (Scalar.min limit t.upperBound)

end Direct

namespace Bin

/-- The values of both sides at a unit coordinate. -/
def sideValue (b : Bin α) (side : Side) (η : α) : α := (b.unitBase side).value η

/-- The quantity of a side per unit of its own coordinate. -/
def perUnit (b : Bin α) (q : Quantity) (side : Side) (y : α) : α :=
  (b.table side).quantity q y * (b.unitBase side).jacobian y

/-- The mixture of the cumulative distributions at a unit coordinate. -/
def mixtureAt (b : Bin α) (η : α) : MatchedPoints α :=
  let y₀ := b.sideValue .lower η
  let y₁ := b.sideValue .upper η
  ⟨y₀, y₁, b.mix (b.lower.cdf y₀) (b.upper.cdf y₁)⟩

/-- The mixture of the cumulative distributions at a value of the bin's own grid. -/
def mixtureCdf (b : Bin α) (y : α) : α :=
  if y ≤ b.lowerLimit then 0
  else if b.upperLimit ≤ y then 1
  else (b.mixtureAt (b.middleBase.coordinate y)).estimate

end Bin

namespace UnitBased

def evaluate (b : Bin α) (q : Quantity) (y : α) : α :=
  if b.isOutside y then 0
  else
    let η := b.middleBase.coordinate y
    let lower := b.perUnit q .lower (b.sideValue .lower η)
    let upper := b.perUnit q .upper (b.sideValue .upper η)
    b.blendSigned lower upper / b.middleBase.jacobian y

def cdf (b : Bin α) (y : α) : α := b.mixtureCdf y

/-- Carries a value of a side to the bin's own grid. -/
def rescale (b : Bin α) (side : Side) (y : α) : α :=
  b.middleBase.value ((b.unitBase side).coordinate y)

def sample (b : Bin α) (binNumber u : α) : SecondarySample α :=
  let side := b.pick binNumber
  let y := (b.table side).sample u
  ⟨rescale b side y, y, b.index side⟩

def sampleBelow (b : Bin α) (binNumber u limit : α) : α :=
  if limit ≤ b.lowerLimit then b.lowerLimit
  else
    let side := b.pick binNumber
    if b.upperLimit ≤ limit then rescale b side ((b.table side).sample u)
    else
      let sideLimit := b.sideValue side (b.middleBase.coordinate limit)
      Scalar.min (rescale b side ((b.table side).sampleBelow u sideLimit)) limit

end UnitBased

namespace CumulativePoints

def evaluate (b : Bin α) (q : Quantity) (y : α) : α :=
  if b.isOutside y then 0
  else
    let y := Scalar.clamp b.lowerLimit b.upperLimit y
    let η := b.middleBase.coordinate y
    let lower := b.perUnit q .lower (b.sideValue .lower η)
    let upper := b.perUnit q .upper (b.sideValue .upper η)
    b.mix lower upper / b.middleBase.jacobian y

def cdf (b : Bin α) (y : α) : α := b.mixtureCdf y

/-- Inverts the mixture by bisection over the unit coordinate. -/
def sample (b : Bin α) (u : α) : Except (TableError α) (SecondarySample α) :=
  if u ≤ 0 then .ok (b.sharedSample b.lowerLimit)
  else if 1 ≤ u then .ok (b.sharedSample b.upperLimit)
  else do
    let outcome ← b.bisection.solve u 0 1 b.mixtureAt
    return b.sharedSample (b.middleBase.value outcome.probability)

def sampleBelow (b : Bin α) (u limit : α) : Except (TableError α) α :=
  if limit ≤ b.lowerLimit then .ok b.lowerLimit
  else do
    let s ← sample b (u * cdf b limit)
    return Scalar.min s.sample limit

end CumulativePoints
end AdaptiveTables
