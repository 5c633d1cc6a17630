import AdaptiveTables.Lookup
import AdaptiveTables.Rule

/-!
Evaluated grids on a line. A grid pairs every point with the value there and has at least one
point, so a point and its value cannot come apart.
-/

namespace AdaptiveTables

structure Node (α : Type) where
  x : α
  y : α
deriving DecidableEq

structure LineGrid (α : Type) where
  first : Node α
  later : List (Node α)
deriving DecidableEq

namespace LineGrid

variable {α : Type}

def nodes (g : LineGrid α) : List (Node α) := g.first :: g.later

def points (g : LineGrid α) : List α := g.nodes.map (·.x)

def values (g : LineGrid α) : List α := g.nodes.map (·.y)

def size (g : LineGrid α) : Nat := g.nodes.length

def last (g : LineGrid α) : Node α := g.later.getLastD g.first

def cons (a : Node α) (g : LineGrid α) : LineGrid α := ⟨a, g.nodes⟩

/-- Puts nodes before a grid and after it. -/
def surround (before : List (Node α)) (g : LineGrid α) (after : List (Node α)) : LineGrid α :=
  before.foldr cons { g with later := g.later ++ after }

variable [Scalar α]

/-- The value interpolated between two nodes, linearly where the rule gives no finite value. -/
@[specialize]
def between (r : LineRule) (a b : Node α) (x : α) : α :=
  let y := r.interpolate a.x b.x x a.y b.y
  if Scalar.isFinite y then y else LineRule.linear.interpolate a.x b.x x a.y b.y

/-- The value interpolated on the grid. Beyond its ends it stays at the value of the end. -/
@[specialize]
def valueAt (r : LineRule) (g : LineGrid α) (x : α) : α :=
  if g.first.x ≤ x then
    match advance (fun n => n.x ≤ x) g.first g.later with
    | (here, []) => here.y
    | (here, next :: _) => if here.x == x then here.y else between r here next x
  else g.first.y

end LineGrid
end AdaptiveTables
