import AdaptiveTables.Lookup
import AdaptiveTables.Table.Error

/-!
Primary grids. A primary grid keeps at least two items at finite, strictly ascending primary
values, and locates a primary query among them.
-/

namespace AdaptiveTables

structure PrimaryEntry (α δ : Type) where
  value : α
  item : δ
deriving DecidableEq

structure PrimaryGrid (α δ : Type) [Scalar α] where
  first : PrimaryEntry α δ
  second : PrimaryEntry α δ
  rest : List (PrimaryEntry α δ)
  /-- Whether queries beyond an end are answered by the entry at that end. -/
  extended : Bool := false
  finite : ∀ e ∈ first :: second :: rest, Scalar.isFinite e.value = true
  ascending : firstDescent? ((first :: second :: rest).map (·.value)) = none

/-- Where a primary query falls: on one entry, or strictly between two neighbours. -/
inductive Location (α δ : Type) where
  | entry (index : Nat) (found : PrimaryEntry α δ)
  | bin (lowerIndex : Nat) (lower upper : PrimaryEntry α δ)

def Location.lowerIndex {α δ : Type} : Location α δ → Nat
  | entry i _ | bin i _ _ => i

def Location.upperIndex {α δ : Type} : Location α δ → Nat
  | entry i _ => i
  | bin i _ _ => i + 1

def Location.isSingle {α δ : Type} : Location α δ → Bool
  | entry _ _ => true
  | bin _ _ _ => false

variable {α δ : Type} [Scalar α]

namespace PrimaryGrid

def entries (g : PrimaryGrid α δ) : List (PrimaryEntry α δ) := g.first :: g.second :: g.rest

def values (g : PrimaryGrid α δ) : List α := g.entries.map (·.value)

def size (g : PrimaryGrid α δ) : Nat := g.entries.length

def entry? (g : PrimaryGrid α δ) (i : Nat) : Option (PrimaryEntry α δ) := g.entries[i]?

def lowerLimit (g : PrimaryGrid α δ) : α := g.first.value

def last (g : PrimaryGrid α δ) : PrimaryEntry α δ := g.rest.getLastD g.second

def upperLimit (g : PrimaryGrid α δ) : α := g.last.value

def extend (g : PrimaryGrid α δ) : PrimaryGrid α δ := { g with extended := true }

def limit (g : PrimaryGrid α δ) : PrimaryGrid α δ := { g with extended := false }

/-- Builds a grid from entries that are already in order. -/
def ofSorted (entries : List (PrimaryEntry α δ)) :
    Except (TableError α) (PrimaryGrid α δ) :=
  match entries with
  | first :: second :: rest =>
    match hf : (first :: second :: rest).find? (!Scalar.isFinite ·.value) with
    | some e => .error (.invalidArgument (.primaryNotFinite e.value))
    | none =>
      match ha : firstDescent? ((first :: second :: rest).map (·.value)) with
      | some (a, b) => .error (.invalidArgument (.primaryDescent a b))
      | none =>
        .ok { first, second, rest, ascending := ha, finite := by simpa using hf }
  | short => .error (.insufficientData short.length 2)

/-- Builds a grid from its values and items, which have to be in order. -/
def ofColumns (values : List α) (items : List δ) :
    Except (TableError α) (PrimaryGrid α δ) :=
  if values.length ≠ items.length then
    .error (.invalidArgument (.primaryLengths values.length items.length))
  else ofSorted (List.zipWith PrimaryEntry.mk values items)

/-- Builds a grid from entries in any order. -/
def ofEntries (entries : List (PrimaryEntry α δ)) :
    Except (TableError α) (PrimaryGrid α δ) :=
  if entries.any (!Scalar.isNumber ·.value) then
    .error (.invalidArgument .primaryNotNumber)
  else ofSorted (entries.mergeSort fun a b => Scalar.totalLe a.value b.value)

/-- The answer to a query beyond an end of the grid, given the entry at that end. -/
def beyond (g : PrimaryGrid α δ) (x : α) (index : Nat) (nearest : PrimaryEntry α δ) :
    Except (TableError α) (Location α δ) :=
  if g.extended then .ok (.entry index nearest)
  else .error (.outOfRange x g.lowerLimit g.upperLimit)

/-- Finds the entry at a primary value, or the two entries around it. -/
def locate (g : PrimaryGrid α δ) (x : α) : Except (TableError α) (Location α δ) :=
  if !Scalar.isNumber x then .error (.invalidArgument .queryNotNumber)
  else if !decide (g.first.value ≤ x) then g.beyond x 0 g.first
  else
    let later := g.second :: g.rest
    let (here, after) := advance (fun e => e.value ≤ x) g.first later
    let index := later.length - after.length
    if here.value == x then .ok (.entry index here)
    else
      match after with
      | [] => g.beyond x index here
      | next :: _ => .ok (.bin index here next)

end PrimaryGrid
end AdaptiveTables
