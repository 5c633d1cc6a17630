import AdaptiveTables.Grid.Settings

/-!
Runs of a generator. A run yields a result or an error, and the events logged on the way. The
events up to an error are kept.
-/

namespace AdaptiveTables

/-- The generator that an event comes from. -/
inductive Origin where
  | line
  | plane
deriving DecidableEq, Repr

inductive Event (α : Type) where
  /-- A dirty interval or probe was accepted. -/
  | warning (origin : Origin) (cause : Dirty α)
  /-- A probe at `(x, y)` of the interval from `lower` to `upper` was compared. -/
  | probe (x y exact estimate lower upper : α) (passed : Bool)
  | addedPoint (x : α) (index : Nat)
  | addedCritical (count : Nat)
deriving DecidableEq

structure Trace (α β : Type) where
  events : List (Event α)
  outcome : Except (GridError α) β

namespace Trace

variable {α β γ : Type}

def succeed (v : β) : Trace α β := ⟨[], .ok v⟩

def fail (e : GridError α) : Trace α β := ⟨[], .error e⟩

def log (events : List (Event α)) : Trace α Unit := ⟨events, .ok ()⟩

/-- Goes on with the result of a run. A run that failed is not continued. -/
def andThen (t : Trace α β) (f : β → Trace α γ) : Trace α γ :=
  match t.outcome with
  | .error e => ⟨t.events, .error e⟩
  | .ok v =>
    let next := f v
    ⟨t.events ++ next.events, next.outcome⟩

instance instMonad : Monad (Trace α) where
  pure := succeed
  bind := andThen

def ofExcept : Except (GridError α) β → Trace α β
  | .ok v => succeed v
  | .error e => fail e

def ofTable : Except (TableError α) β → Trace α β
  | .ok v => succeed v
  | .error e => fail (.table e)

/-- Runs a step on every element in order, up to the first failure. -/
def each (f : β → Trace α γ) : List β → Trace α (List γ)
  | [] => succeed []
  | b :: rest => (f b).andThen fun c => (each f rest).andThen fun cs => succeed (c :: cs)

/-- Accepts a dirty interval with a warning or refuses it, as the reaction says. -/
def report (reaction : Reaction) (origin : Origin) (cause : Dirty α) : Trace α Unit :=
  match reaction with
  | .warn => log [.warning origin cause]
  | .throw => fail (.dirtyConvergence cause)

end Trace
end AdaptiveTables
