import AdaptiveTables.Proofs.PlaneStructure

/-!
Convergence of grids on a plane. Every primary interval was accepted with the very columns that
the grid holds at its ends.
-/

namespace AdaptiveTables
namespace PlaneGenerator

variable {α : Type} [Scalar α] [Resolution α]

/-- Neighbouring columns are too close to split, or the slice halfway between them is reproduced
at every probe. Only the latter is left if causes are errors. -/
theorem generate_converges {g : PlaneGenerator α} {init : α → List α} {f : α → α → α}
    {seed : List α} {events : List (Event α)} {grid : PlaneGrid α}
    (h : g.generate init f seed = ⟨events, .ok grid⟩) :
    ∀ p ∈ adjacent grid.columns, g.Accepts init f p.1 p.2 ∧
      (g.settings.reaction = .throw → g.Reproduces init f p.1 p.2) := by
  obtain ⟨_, _, ends, _, grown⟩ := g.grown_of_generate init f h
  intro p hp
  cases ends with
  | nil =>
      rw [grown.empty rfl] at hp
      cases hp
  | cons a rest =>
      obtain ⟨_, sweeps⟩ := grown.sweeps rfl
      obtain ⟨_, _, haccepted⟩ := sweeps.neighbours (R := fun _ _ => True)
        (fun _ _ => ⟨trivial, trivial⟩) (fun _ _ => trivial) p hp
      cases judges_of_test haccepted with
      | accepts accepted strict => exact ⟨accepted, strict⟩

theorem identity_converges :
    let g : PlaneGenerator Float := standard .linear
    let grid : PlaneGrid Float := ⟨[identityColumn 1.0, identityColumn 2.0]⟩
    g.generate (fun _ => [1.0, 2.0]) (fun _ y => y) [1.0, 2.0] = ⟨[], .ok grid⟩ ∧
      g.Accepts (fun _ => [1.0, 2.0]) (fun _ y => y) (identityColumn 1.0) (identityColumn 2.0) := by
  intro g grid
  have hmem : (identityColumn 1.0, identityColumn 2.0) ∈ adjacent grid.columns :=
    List.mem_singleton_self _
  exact ⟨identity_generate, (generate_converges identity_generate _ hmem).1⟩

end PlaneGenerator
end AdaptiveTables
