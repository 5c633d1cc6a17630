import AdaptiveTables.Bivariate.Bin

/-!
Policies that match points of equal cumulative probability on the two sides of a bin, and blend
either the matched values themselves (correlated) or their unit coordinates (unit-base
correlated). Sampling is direct; evaluation searches for the probability that reproduces a value,
and the density is the derivative of the sampler.
-/

namespace AdaptiveTables

variable {α : Type} [Scalar α]

/-- A search starts between the probabilities that the two sides give to a value. -/
def Bin.searchBetween (b : Bin α) (search : Bisection α) (target y₀ y₁ : α)
    (f : α → MatchedPoints α) : Except (TableError α) (Bisection.Outcome α) :=
  let c₀ := b.lower.cdf y₀
  let c₁ := b.upper.cdf y₁
  search.solve target (Scalar.min c₀ c₁) (Scalar.max c₀ c₁) f

/-- A product over a sum, which is zero where the sum is. -/
def quotientOrZero (numerator denominator : α) : α :=
  if denominator == 0 then 0 else numerator / denominator

namespace Correlated

/-- Values of equal probability change faster with it than unit coordinates do. -/
def widening : α := 0.1

def pointsAt (b : Bin α) (c : α) : MatchedPoints α :=
  let y₀ := b.lower.sample c
  let y₁ := b.upper.sample c
  ⟨y₀, y₁, b.blendSecondary y₀ y₁⟩

/-- The probability at which the blended samples meet a value. -/
def matching (b : Bin α) (y : α) : Except (TableError α) (Bisection.Outcome α) := do
  let search ← b.bisection.withWidening widening
  b.searchBetween search y y y (pointsAt b)

/-- The density of the blended value at `y`, from the densities at the matched points. -/
def density (b : Bin α) (y y₀ e₀ y₁ e₁ : α) : α :=
  if e₀ == e₁ then e₀
  else
    let w₀ := e₀ * Scalar.abs (b.scale.inverseDeriv y₀)
    let w₁ := e₁ * Scalar.abs (b.scale.inverseDeriv y₁)
    quotientOrZero (w₀ * w₁) ((w₁ + (w₀ - w₁) * b.fraction) * Scalar.abs (b.scale.inverseDeriv y))

/-- The matched points of a value. Limits match limits without a search. -/
def matchedValues (b : Bin α) (y : α) : Except (TableError α) (α × α) :=
  if y ≤ b.lowerLimit then .ok (b.lower.lowerBound, b.upper.lowerBound)
  else if b.upperLimit ≤ y then .ok (b.lower.upperBound, b.upper.upperBound)
  else do
    let outcome ← matching b y
    return (outcome.points.lower, outcome.points.upper)

def evaluate (b : Bin α) (q : Quantity) (y : α) : Except (TableError α) α :=
  if b.isOutside y then .ok 0
  else do
    let (y₀, y₁) ← matchedValues b y
    return density b (Scalar.clamp b.lowerLimit b.upperLimit y) y₀ (b.lower.quantity q y₀) y₁
      (b.upper.quantity q y₁)

def cdf (b : Bin α) (y : α) : Except (TableError α) α :=
  if y ≤ b.lowerLimit then .ok 0
  else if b.upperLimit ≤ y then .ok 1
  else do
    let outcome ← matching b y
    return outcome.probability

def sample (b : Bin α) (u : α) : α :=
  let y₀ := b.lower.sample u
  let y₁ := b.upper.sample u
  if y₀ == y₁ then y₀ else b.blendSecondary y₀ y₁

end Correlated

namespace UnitBaseCorrelated

/-- Unit coordinates are blended geometrically where the secondary axis is logarithmic. -/
def blendCoordinates (b : Bin α) (η₀ η₁ : α) : α :=
  if b.scale.isLogarithmic then b.scale.blendOrLinear b.fraction η₀ η₁ else b.mix η₀ η₁

def sideCoordinate (b : Bin α) (side : Side) (y : α) : α := (b.unitBase side).coordinate y

def pointsAt (b : Bin α) (c : α) : MatchedPoints α :=
  let y₀ := b.lower.sample c
  let y₁ := b.upper.sample c
  ⟨y₀, y₁, blendCoordinates b (sideCoordinate b .lower y₀) (sideCoordinate b .upper y₁)⟩

/-- The probability at which the blended coordinates meet a coordinate. -/
def matching (b : Bin α) (η : α) : Except (TableError α) (Bisection.Outcome α) :=
  b.searchBetween b.bisection η ((b.unitBase .lower).value η) ((b.unitBase .upper).value η)
    (pointsAt b)

/-- The unit coordinate of a value and its matched points. -/
def matchedValues (b : Bin α) (y : α) : Except (TableError α) (α × α × α) :=
  if y ≤ b.lowerLimit then .ok (0, b.lower.lowerBound, b.upper.lowerBound)
  else if b.upperLimit ≤ y then .ok (1, b.lower.upperBound, b.upper.upperBound)
  else do
    let η := b.middleBase.coordinate y
    let outcome ← matching b η
    return (η, outcome.points.lower, outcome.points.upper)

/-- The density of the blended coordinate, from the densities per unit coordinate of the sides. -/
def coordinateDensity (b : Bin α) (η η₀ g₀ η₁ g₁ : α) : α :=
  if g₀ == g₁ then g₀
  else if b.scale.isLogarithmic && 0 < η && 0 < η₀ && 0 < η₁ then
    let w₀ := η₀ * g₀
    let w₁ := η₁ * g₁
    quotientOrZero (w₀ * w₁) (η * (w₁ + (w₀ - w₁) * b.fraction))
  else quotientOrZero (g₀ * g₁) (g₁ + (g₀ - g₁) * b.fraction)

def evaluate (b : Bin α) (q : Quantity) (y : α) : Except (TableError α) α :=
  if b.isOutside y then .ok 0
  else do
    let (η, y₀, y₁) ← matchedValues b y
    let g₀ := b.lower.quantity q y₀ * (b.unitBase .lower).jacobian y₀
    let g₁ := b.upper.quantity q y₁ * (b.unitBase .upper).jacobian y₁
    let g := coordinateDensity b η (sideCoordinate b .lower y₀) g₀ (sideCoordinate b .upper y₁) g₁
    return g / b.middleBase.jacobian (Scalar.clamp b.lowerLimit b.upperLimit y)

def cdf (b : Bin α) (y : α) : Except (TableError α) α :=
  if y ≤ b.lowerLimit then .ok 0
  else if b.upperLimit ≤ y then .ok 1
  else do
    let outcome ← matching b (b.middleBase.coordinate y)
    return outcome.probability

def sample (b : Bin α) (u : α) : α :=
  let η₀ := sideCoordinate b .lower (b.lower.sample u)
  let η₁ := sideCoordinate b .upper (b.upper.sample u)
  b.middleBase.value (blendCoordinates b η₀ η₁)

end UnitBaseCorrelated

/-- A sampler cut off at a limit: its random number is scaled by the probability of the limit. -/
def Bin.sampleMatchedBelow (b : Bin α) (sample : α → α)
    (cdf : α → Except (TableError α) α) (u limit : α) : Except (TableError α) α :=
  if limit ≤ b.lowerLimit then .ok b.lowerLimit
  else if b.upperLimit ≤ limit then .ok (sample u)
  else do
    let c ← cdf limit
    return Scalar.min (sample (u * c)) limit

def Correlated.sampleBelow (b : Bin α) (u limit : α) : Except (TableError α) α :=
  b.sampleMatchedBelow (sample b) (cdf b) u limit

def UnitBaseCorrelated.sampleBelow (b : Bin α) (u limit : α) : Except (TableError α) α :=
  b.sampleMatchedBelow (sample b) (cdf b) u limit

end AdaptiveTables
