/-!
Containers of points. A generator reads the points of a container in order and replaces them as
a whole, so it works on any container that can do the two.
-/

namespace AdaptiveTables

class PointStore (σ : Type) (α : outParam Type) where
  points : σ → List α
  replace : σ → List α → σ
  size : σ → Nat

instance PointStore.instList (α : Type) : PointStore (List α) α where
  points := id
  replace := fun _ points => points
  size := List.length

instance PointStore.instArray (α : Type) : PointStore (Array α) α where
  points := Array.toList
  replace := fun _ points => points.toArray
  size := Array.size

/-- A sequence that is open at both ends: the elements of `front` in order, and then those of
`back` in reverse order. -/
structure Deque (α : Type) where
  front : List α
  back : List α

namespace Deque

variable {α : Type}

def toList (d : Deque α) : List α := d.front ++ d.back.reverse

/-- Half of the elements go to either end. -/
def ofList (xs : List α) : Deque α :=
  let half := (xs.length + 1) / 2
  ⟨xs.take half, (xs.drop half).reverse⟩

def size (d : Deque α) : Nat := d.front.length + d.back.length

theorem toList_ofList (xs : List α) : (ofList xs).toList = xs := by
  simp [ofList, toList]

theorem length_toList (d : Deque α) : d.toList.length = d.size := by
  simp [toList, size]

end Deque

instance PointStore.instDeque (α : Type) : PointStore (Deque α) α where
  points := Deque.toList
  replace := fun _ points => Deque.ofList points
  size := Deque.size

end AdaptiveTables
