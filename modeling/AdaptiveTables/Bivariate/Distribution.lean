import AdaptiveTables.Bivariate.Conditional
import AdaptiveTables.Bivariate.PrimaryGrid

/-!
Bivariate distributions. A bivariate distribution keeps a table at every primary value. Queries
at a primary value, or beyond an extended end, are answered by the one table there; queries
between two primary values go to the policy.
-/

namespace AdaptiveTables

structure BivariateDistribution (α : Type) [Scalar α] where
  grid : PrimaryGrid α (Table α)
  policy : Policy
  rule : PlaneRule
  settings : EvaluationSettings α

namespace BivariateDistribution

variable {α : Type} [Scalar α]

/-- Whether the bounds of the table at an entry can be carried to the secondary scale. -/
def boundsAdmitted (rule : PlaneRule) (e : PrimaryEntry α (Table α)) : Bool :=
  rule.secondary.admits e.item.lowerBound && rule.secondary.admits e.item.upperBound

/-- Builds a distribution after checking the settings, then the primary values, then the
secondary bounds. The direct policy never transforms the bounds and does not check them. -/
def build (grid : PrimaryGrid α (Table α)) (policy : Policy) (rule : PlaneRule)
    (settings : EvaluationSettings α) : Except (TableError α) (BivariateDistribution α) :=
  match settings.check with
  | .error e => .error e
  | .ok () =>
    match grid.values.find? (!rule.primary.admits ·) with
    | some x => .error (.invalidArgument (.primaryOffScale x rule.primary))
    | none =>
      match grid.entries.find? fun e => policy ≠ .direct && !boundsAdmitted rule e with
      | some e =>
        .error (.invalidArgument
          (.boundsOffScale e.item.lowerBound e.item.upperBound e.value rule.secondary))
      | none => .ok ⟨grid, policy, rule, settings⟩

def extendBeyondPrimaryLimits (d : BivariateDistribution α) : BivariateDistribution α :=
  { d with grid := d.grid.extend }

def limitToPrimaryGrid (d : BivariateDistribution α) : BivariateDistribution α :=
  { d with grid := d.grid.limit }

def primaryLowerBound (d : BivariateDistribution α) : α := d.grid.lowerLimit

def primaryUpperBound (d : BivariateDistribution α) : α := d.grid.upperLimit

/-- The bin of a query strictly between two primary values. -/
def bin (d : BivariateDistribution α) (x : α) (index : Nat)
    (lower upper : PrimaryEntry α (Table α)) : Bin α where
  lower := lower.item
  upper := upper.item
  lowerIndex := index
  fraction := d.rule.primary.fraction lower.value upper.value x
  rule := d.rule
  settings := d.settings

/-- Answers a query by the one table at `x` or by the bin around it. -/
def dispatch {β : Type} (d : BivariateDistribution α) (x : α)
    (single : Nat → Table α → β) (interior : Bin α → Except (TableError α) β) :
    Except (TableError α) β :=
  match d.grid.locate x with
  | .error e => .error e
  | .ok (.entry i e) => .ok (single i e.item)
  | .ok (.bin i lower upper) => interior (d.bin x i lower upper)

def quantity (d : BivariateDistribution α) (q : Quantity) (x y : α) : Except (TableError α) α :=
  d.dispatch x (fun _ t => t.quantity q y) fun b => d.policy.evaluate b q y

/-- The tabulated value at a point. -/
def evaluate (d : BivariateDistribution α) (x y : α) : Except (TableError α) α :=
  d.quantity .value x y

def conditionalPdf (d : BivariateDistribution α) (x y : α) : Except (TableError α) α :=
  d.quantity .density x y

def conditionalCdf (d : BivariateDistribution α) (x y : α) : Except (TableError α) α :=
  d.dispatch x (fun _ t => t.cdf y) fun b => d.policy.cdf b y

def conditionalLowerBound (d : BivariateDistribution α) (x : α) : Except (TableError α) α :=
  d.dispatch x (fun _ t => t.lowerBound) fun b => .ok (d.policy.lowerBound b)

def conditionalUpperBound (d : BivariateDistribution α) (x : α) : Except (TableError α) α :=
  d.dispatch x (fun _ t => t.upperBound) fun b => .ok (d.policy.upperBound b)

/-- A sample with its origin. Both random numbers are checked before the primary value. -/
def sampleDetailed (d : BivariateDistribution α) (x binNumber u : α) :
    Except (TableError α) (SecondarySample α) := do
  checkRandomNumber binNumber
  checkRandomNumber u
  d.dispatch x (fun i t => ⟨t.sample u, t.sample u, i⟩) fun b => d.policy.sample b binNumber u

def sample (d : BivariateDistribution α) (x binNumber u : α) : Except (TableError α) α :=
  (d.sampleDetailed x binNumber u).map (·.sample)

/-- A sample not above a limit. -/
def sampleBelow (d : BivariateDistribution α) (x binNumber u limit : α) :
    Except (TableError α) α := do
  checkRandomNumber binNumber
  checkRandomNumber u
  d.dispatch x (fun _ t => t.sampleBelow u limit) fun b => d.policy.sampleBelow b binNumber u limit

/-- Refuses a policy that picks a side of the bin at random. -/
def requireDeterministic (d : BivariateDistribution α) : Except (TableError α) Unit :=
  if d.policy.isStochastic then .error (.invalidArgument (.needsBinNumber d.policy)) else .ok ()

/-- A sample from one random number. -/
def sampleSingle (d : BivariateDistribution α) (x u : α) : Except (TableError α) α := do
  d.requireDeterministic
  d.sample x 0 u

def sampleSingleBelow (d : BivariateDistribution α) (x u limit : α) :
    Except (TableError α) α := do
  d.requireDeterministic
  d.sampleBelow x 0 u limit

/-- The random numbers of one sample: a policy that picks a side draws the number for it first. -/
def drawNumbers (d : BivariateDistribution α) (source : RandomSource α) :
    α × α × RandomSource α :=
  if d.policy.isStochastic then
    let (binNumber, source) := source.next
    let (u, source) := source.next
    (binNumber, u, source)
  else
    let (u, source) := source.next
    (0, u, source)

def draw (d : BivariateDistribution α) (x : α) (source : RandomSource α) :
    Except (TableError α) α × RandomSource α :=
  let (binNumber, u, source) := d.drawNumbers source
  (d.sample x binNumber u, source)

def drawBelow (d : BivariateDistribution α) (x limit : α) (source : RandomSource α) :
    Except (TableError α) α × RandomSource α :=
  let (binNumber, u, source) := d.drawNumbers source
  (d.sampleBelow x binNumber u limit, source)

end BivariateDistribution
end AdaptiveTables
