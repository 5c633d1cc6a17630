import AdaptiveTables.Scale

/-!
Interpolation rules. A rule on a line gives the dependent axis and the one independent axis their
scales; a rule on a plane has a secondary and a primary independent axis. Two axes that meet in
one interpolation are never both cosines.
-/

namespace AdaptiveTables

structure LineRule where
  dependent : Scale
  independent : Scale
  oneCosine : (dependent.isCosine && independent.isCosine) = false := by decide
deriving DecidableEq

namespace LineRule

def ofScales? (dependent independent : Scale) : Option LineRule :=
  if h : (dependent.isCosine && independent.isCosine) = false then
    some ⟨dependent, independent, h⟩
  else none

def all : List LineRule :=
  Scale.all.flatMap fun d => Scale.all.filterMap fun i => ofScales? d i

def linear : LineRule := ⟨.linear, .linear, rfl⟩

/-- The scales' abbreviations, the dependent one first. -/
def name (r : LineRule) : String :=
  r.dependent.abbreviation ++ r.independent.abbreviation

def ofName? (s : String) : Option LineRule := all.find? (·.name == s)

variable {α : Type} [Scalar α]

@[specialize]
def fraction (r : LineRule) (x₀ x₁ x : α) : α := r.independent.fraction x₀ x₁ x

@[specialize]
def midpoint (r : LineRule) (x₀ x₁ : α) : α := r.independent.midpoint x₀ x₁

/-- The value at `x` between the points `(x₀, y₀)` and `(x₁, y₁)`. Without a cosine axis the
blend of the fraction is written in closed form. -/
@[specialize]
def interpolate (r : LineRule) (x₀ x₁ x y₀ y₁ : α) : α :=
  match r.dependent, r.independent with
  | .linear, .linear => y₀ + (y₁ - y₀) / (x₁ - x₀) * (x - x₀)
  | .logarithmic, .linear => y₀ * Scalar.pow (y₁ / y₀) ((x - x₀) / (x₁ - x₀))
  | .linear, .logarithmic => y₀ + (y₁ - y₀) * Scalar.ln (x / x₀) / Scalar.ln (x₁ / x₀)
  | .logarithmic, .logarithmic =>
    y₀ * Scalar.pow (y₁ / y₀) (Scalar.ln (x / x₀) / Scalar.ln (x₁ / x₀))
  | d, i => d.blend (i.fraction x₀ x₁ x) y₀ y₁

end LineRule

structure PlaneRule where
  dependent : Scale
  secondary : Scale
  primary : Scale
  dependentStraight : dependent.isCosine = false := by decide
  primaryStraight : primary.isCosine = false := by decide
deriving DecidableEq

namespace PlaneRule

def ofScales? (dependent secondary primary : Scale) : Option PlaneRule :=
  if hd : dependent.isCosine = false then
    if hp : primary.isCosine = false then some ⟨dependent, secondary, primary, hd, hp⟩ else none
  else none

def all : List PlaneRule :=
  Scale.all.flatMap fun d => Scale.all.flatMap fun s => Scale.all.filterMap fun p =>
    ofScales? d s p

def linear : PlaneRule := ⟨.linear, .linear, .linear, rfl, rfl⟩

/-- The scales' abbreviations in the order dependent, secondary, primary. -/
def name (r : PlaneRule) : String :=
  r.dependent.abbreviation ++ r.secondary.abbreviation ++ r.primary.abbreviation

def ofName? (s : String) : Option PlaneRule := all.find? (·.name == s)

/-- The dependent axis along the secondary one. -/
def alongSecondary (r : PlaneRule) : LineRule :=
  ⟨r.dependent, r.secondary, by simp [r.dependentStraight]⟩

/-- The dependent axis along the primary one. -/
def alongPrimary (r : PlaneRule) : LineRule :=
  ⟨r.dependent, r.primary, by simp [r.dependentStraight]⟩

/-- The secondary axis along the primary one. -/
def secondaryAlongPrimary (r : PlaneRule) : LineRule :=
  ⟨r.secondary, r.primary, by simp [r.primaryStraight]⟩

end PlaneRule
end AdaptiveTables
