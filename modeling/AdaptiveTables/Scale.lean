import AdaptiveTables.Scalar

/-!
Axis scales. A scale carries an axis to the space where interpolation is linear: the axis as it
is, its logarithm, or the logarithm of the distance to one for cosines of angles.
-/

namespace AdaptiveTables

inductive Scale where
  | linear
  | logarithmic
  /-- For cosines in `[-1, 1)`. -/
  | logCosine
  /-- For cosines in `[-1, 1]`. The distance to one is nudged, so one itself has a logarithm. -/
  | nudgedLogCosine
deriving DecidableEq, Repr

namespace Scale

def all : List Scale := [linear, logarithmic, logCosine, nudgedLogCosine]

def name : Scale → String
  | linear => "Linear"
  | logarithmic => "Logarithmic"
  | logCosine => "LogCosine"
  | nudgedLogCosine => "NudgedLogCosine"

def abbreviation : Scale → String
  | linear => "Lin"
  | logarithmic => "Log"
  | logCosine => "LogCos"
  | nudgedLogCosine => "NudgedLogCos"

def isLogarithmic : Scale → Bool
  | logarithmic => true
  | _ => false

def isCosine : Scale → Bool
  | logCosine | nudgedLogCosine => true
  | _ => false

variable {α : Type} [Scalar α]

@[specialize]
def nudge : α := 1e-10

/-- Carries a value to the space where interpolation is linear. -/
@[specialize]
def transform (s : Scale) (v : α) : α :=
  match s with
  | linear => v
  | logarithmic => Scalar.ln v
  | logCosine => Scalar.ln (1 - v)
  | nudgedLogCosine => Scalar.ln ((1 - v) + nudge)

/-- Brings a transformed value back to the axis. -/
@[specialize]
def inverse (s : Scale) (t : α) : α :=
  match s with
  | linear => t
  | logarithmic => Scalar.exp t
  | logCosine => 1 - Scalar.exp t
  | nudgedLogCosine => (nudge - Scalar.exp t) + 1

/-- The derivative of `inverse` at the transform of `v`, in terms of `v`. It is negative on the
cosine scales, whose transforms fall as the cosine rises. -/
def inverseDeriv (s : Scale) (v : α) : α :=
  match s with
  | linear => 1
  | logarithmic => v
  | logCosine => -(1 - v)
  | nudgedLogCosine => -((1 - v) + nudge)

/-- Whether the scale is defined at a value. -/
@[specialize]
def admits (s : Scale) (v : α) : Bool :=
  match s with
  | linear => Scalar.isFinite v
  | logarithmic => Scalar.isFinite v && 0 < v
  | logCosine => -1 ≤ v && v < 1
  | nudgedLogCosine => -1 ≤ v && v ≤ 1

/-- The value at a fraction of the way from `a` to `b`, measured on the scale. -/
@[specialize]
def blend (s : Scale) (fraction a b : α) : α :=
  match s with
  | linear => a + (b - a) * fraction
  | logarithmic => a * Scalar.pow (b / a) fraction
  | logCosine | nudgedLogCosine =>
    if a == b then a
    else
      let t := s.transform a
      s.inverse (t + (s.transform b - t) * fraction)

/-- Blends on the scale where both ends are admitted, and linearly otherwise. -/
@[specialize]
def blendOrLinear (s : Scale) (fraction a b : α) : α :=
  if s.admits a && s.admits b then s.blend fraction a b else linear.blend fraction a b

/-- Where `x` lies between `x₀` and `x₁`, as a fraction measured on the scale. -/
@[specialize]
def fraction (s : Scale) (x₀ x₁ x : α) : α :=
  (s.transform x - s.transform x₀) / (s.transform x₁ - s.transform x₀)

/-- The point halfway between two others, measured on the scale. -/
@[specialize]
def midpoint (s : Scale) (x₀ x₁ : α) : α :=
  s.inverse (0.5 * (s.transform x₀ + s.transform x₁))

end Scale
end AdaptiveTables
