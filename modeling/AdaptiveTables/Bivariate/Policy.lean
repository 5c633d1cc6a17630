/-!
Policies for interpolating between the two distributions that bound a primary bin.
-/

namespace AdaptiveTables

inductive Policy where
  /-- Interpolates the queried quantity at the same secondary value. -/
  | direct
  /-- Rescales both bounds to a unit base and picks one of them at random. -/
  | unitBase
  /-- Interpolates secondary values of equal cumulative probability. -/
  | correlated
  /-- Interpolates unit coordinates of equal cumulative probability. -/
  | unitBaseCorrelated
  /-- Mixes the cumulative distributions on the unit base and inverts the mixture. -/
  | cumulativePoints
deriving DecidableEq, Repr

namespace Policy

def all : List Policy := [direct, unitBase, correlated, unitBaseCorrelated, cumulativePoints]

def name : Policy → String
  | direct => "Direct"
  | unitBase => "UnitBase"
  | correlated => "Correlated"
  | unitBaseCorrelated => "UnitBaseCorrelated"
  | cumulativePoints => "CumulativePoints"

/-- Whether a sample needs a second random number, to pick a bound of the bin. -/
def isStochastic : Policy → Bool
  | direct | unitBase => true
  | _ => false

def usesUnitBase : Policy → Bool
  | unitBase | unitBaseCorrelated | cumulativePoints => true
  | _ => false

end Policy
end AdaptiveTables
