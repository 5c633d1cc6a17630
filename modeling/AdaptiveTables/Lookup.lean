/-!
Look-up in ascending data. The elements that satisfy a threshold come first, so the last of them
is found by walking on while the next one satisfies it too.
-/

namespace AdaptiveTables

/-- Walks from an element to the last one that a run of satisfying successors reaches. Returns it
with the elements after it. The start counts as reached whether it satisfies the test or not. -/
@[specialize]
def advance {β : Type} (p : β → Bool) (here : β) : List β → β × List β
  | [] => (here, [])
  | next :: rest => if p next then advance p next rest else (here, next :: rest)

/-- A walk ends at the last element of the longest satisfying run, and what is left is the rest. -/
theorem advance_eq {β : Type} (p : β → Bool) (here : β) (later : List β) :
    advance p here later = ((later.takeWhile p).getLastD here, later.dropWhile p) := by
  induction later generalizing here with
  | nil => rfl
  | cons next rest ih =>
      cases h : p next with
      | true =>
          simp only [advance, h, if_true, ih, List.takeWhile_cons_of_pos,
            List.dropWhile_cons_of_pos, List.getLastD_cons]
      | false => simp [advance, h]

end AdaptiveTables
