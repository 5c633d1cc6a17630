import AdaptiveTables.Bivariate.Mixture
import AdaptiveTables.Bivariate.Matching

/-!
The conditional distribution inside a primary bin, by policy.
-/

namespace AdaptiveTables

variable {α : Type} [Scalar α]

namespace Policy

def lowerBound (p : Policy) (b : Bin α) : α :=
  match p with
  | direct => Direct.lowerBound b
  | _ => b.lowerLimit

def upperBound (p : Policy) (b : Bin α) : α :=
  match p with
  | direct => Direct.upperBound b
  | _ => b.upperLimit

def evaluate (p : Policy) (b : Bin α) (q : Quantity) (y : α) : Except (TableError α) α :=
  match p with
  | direct => .ok (Direct.evaluate b q y)
  | unitBase => .ok (UnitBased.evaluate b q y)
  | correlated => Correlated.evaluate b q y
  | unitBaseCorrelated => UnitBaseCorrelated.evaluate b q y
  | cumulativePoints => .ok (CumulativePoints.evaluate b q y)

def cdf (p : Policy) (b : Bin α) (y : α) : Except (TableError α) α :=
  match p with
  | direct => .ok (Direct.cdf b y)
  | unitBase => .ok (UnitBased.cdf b y)
  | correlated => Correlated.cdf b y
  | unitBaseCorrelated => UnitBaseCorrelated.cdf b y
  | cumulativePoints => .ok (CumulativePoints.cdf b y)

def sample (p : Policy) (b : Bin α) (binNumber u : α) :
    Except (TableError α) (SecondarySample α) :=
  match p with
  | direct => .ok (Direct.sample b binNumber u)
  | unitBase => .ok (UnitBased.sample b binNumber u)
  | correlated => .ok (b.sharedSample (Correlated.sample b u))
  | unitBaseCorrelated => .ok (b.sharedSample (UnitBaseCorrelated.sample b u))
  | cumulativePoints => CumulativePoints.sample b u

def sampleBelow (p : Policy) (b : Bin α) (binNumber u limit : α) : Except (TableError α) α :=
  match p with
  | direct => .ok (Direct.sampleBelow b binNumber u limit)
  | unitBase => .ok (UnitBased.sampleBelow b binNumber u limit)
  | correlated => Correlated.sampleBelow b u limit
  | unitBaseCorrelated => UnitBaseCorrelated.sampleBelow b u limit
  | cumulativePoints => CumulativePoints.sampleBelow b u limit

end Policy
end AdaptiveTables
