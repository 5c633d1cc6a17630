import AdaptiveTables.Proofs.RecursiveBisection

/-!
Calls of a generator on containers, one after another. A call works on the points that its
container holds and writes the grid back only when it succeeds, so every grid extends the ones
before it, whatever the functions, the ranges and the errors on the way. The kind of container
does not matter.
-/

namespace AdaptiveTables

/-- A container that reads back the points written to it. -/
class LawfulPointStore (σ : Type) {α : outParam Type} [PointStore σ α] : Prop where
  points_replace (s : σ) (xs : List α) : PointStore.points (PointStore.replace s xs) = xs
  size_eq (s : σ) : PointStore.size s = (PointStore.points s).length

instance LawfulPointStore.instList (α : Type) : LawfulPointStore (List α) where
  points_replace _ _ := rfl
  size_eq _ := rfl

instance LawfulPointStore.instArray (α : Type) : LawfulPointStore (Array α) where
  points_replace _ _ := rfl
  size_eq _ := rfl

instance LawfulPointStore.instDeque (α : Type) : LawfulPointStore (Deque α) where
  points_replace _ xs := Deque.toList_ofList xs
  size_eq d := (Deque.length_toList d).symm

/-- The containers of a grid and of the values on it. -/
structure Containers (σ τ : Type) where
  points : σ
  values : τ

/-- What containers hold, apart from their kind. -/
def Containers.view {α σ τ : Type} [PointStore σ α] [PointStore τ α] (s : Containers σ τ) :
    Containers (List α) (List α) :=
  ⟨PointStore.points s.points, PointStore.points s.values⟩

/-- A call of the generator that works in place. -/
inductive Call (α : Type) where
  | generate (f : α → α)
  | generateAndEvaluate (f : α → α)
  | refine (f : α → α) (lo hi : α)
  | refineAndEvaluate (f : α → α) (lo hi : α)

namespace Call

variable {α σ τ : Type}

def function : Call α → α → α
  | generate f | generateAndEvaluate f | refine f _ _ | refineAndEvaluate f _ _ => f

/-- The lower limit of the range, if the call has one. -/
def lower? : Call α → Option α
  | generate _ | generateAndEvaluate _ => none
  | refine _ lo _ | refineAndEvaluate _ lo _ => some lo

def evaluates : Call α → Bool
  | generateAndEvaluate _ | refineAndEvaluate _ _ _ => true
  | generate _ | refine _ _ _ => false

variable [Scalar α] [Resolution α]

section Semantics

variable [PointStore σ α] [PointStore τ α] (g : LineGenerator α)

def run (s : Containers σ τ) : Call α → Trace α (Containers σ τ)
  | generate f => (g.generateIn f s.points).andThen fun points => .succeed { s with points }
  | generateAndEvaluate f =>
    (g.generateAndEvaluateIn f s.points s.values).andThen fun (points, values) =>
      .succeed ⟨points, values⟩
  | refine f lo hi =>
    (g.refineIn f s.points lo hi).andThen fun points => .succeed { s with points }
  | refineAndEvaluate f lo hi =>
    (g.refineAndEvaluateIn f s.points s.values lo hi).andThen fun (points, values) =>
      .succeed ⟨points, values⟩

/-- The containers after a call, and its outcome. A call that fails has written nothing. -/
def perform (s : Containers σ τ) (call : Call α) :
    Containers σ τ × Except (GridError α) Unit :=
  match (call.run g s).outcome with
  | .ok now => (now, .ok ())
  | .error e => (s, .error e)

/-- The containers after a sequence of calls. -/
def after (s : Containers σ τ) (calls : List (Call α)) : Containers σ τ :=
  calls.foldl (fun s call => (call.perform g s).1) s

/-- The run of the generator in a call. -/
def grid (points : List α) : Call α → Trace α (LineGrid α)
  | generate f | generateAndEvaluate f => g.generate f points
  | refine f lo hi | refineAndEvaluate f lo hi => g.refine f points lo hi

/-- Writes the grid of a call back. -/
def store (call : Call α) (grid : LineGrid α) (s : Containers σ τ) : Containers σ τ :=
  ⟨PointStore.replace s.points grid.points,
    if call.evaluates then PointStore.replace s.values grid.values else s.values⟩

theorem run_eq_grid (call : Call α) (s : Containers σ τ) :
    call.run g s =
      (call.grid g s.view.points).andThen fun grid => .succeed (call.store grid s) := by
  cases call <;>
    simp only [run, LineGenerator.generateIn, LineGenerator.generateAndEvaluateIn,
      LineGenerator.refineIn, LineGenerator.refineAndEvaluateIn, LineGenerator.storePoints,
      LineGenerator.storeNodes, Trace.andThen_assoc, Trace.succeed_andThen] <;>
    rfl

inductive Performs (call : Call α) (s : Containers σ τ) :
    Containers σ τ × Except (GridError α) Unit → Prop
  | stored {grid : LineGrid α} {events : List (Event α)}
      (h : call.grid g s.view.points = ⟨events, .ok grid⟩) :
      Performs call s (call.store grid s, .ok ())
  | failed {e : GridError α} {events : List (Event α)}
      (h : call.grid g s.view.points = ⟨events, .error e⟩) : Performs call s (s, .error e)

theorem perform_of_grid (call : Call α) (s : Containers σ τ) {grid : LineGrid α}
    {events : List (Event α)} (h : call.grid g s.view.points = ⟨events, .ok grid⟩) :
    call.perform g s = (call.store grid s, .ok ()) := by
  rw [perform, run_eq_grid, h]
  rfl

theorem performs_perform (call : Call α) (s : Containers σ τ) :
    Performs g call s (call.perform g s) := by
  rw [perform, run_eq_grid]
  cases hgrid : call.grid g s.view.points with
  | mk events outcome =>
      cases outcome with
      | ok grid => exact .stored hgrid
      | error e => exact .failed hgrid

end Semantics

section Keeps

variable [Scalar.Ordered α] {g : LineGenerator α} {points : List α} {grid : LineGrid α}
  {events : List (Event α)}

theorem extends_of_grid (call : Call α) (h : call.grid g points = ⟨events, .ok grid⟩) :
    Extends g.rule.independent points grid.points ∧
      (∀ x ∈ points, x ∈ grid.points ∨ ∃ lo ∈ call.lower?, (x == lo) = true) ∧
      grid.values = grid.points.map call.function := by
  cases call with
  | generate f | generateAndEvaluate f =>
      obtain ⟨first, last, inner, run⟩ := LineGenerator.run_of_generate h
      obtain ⟨hmem, kept⟩ := run.kept
      refine ⟨run.extended, fun x hx => Or.inl ?_, LineGrid.values_of_valued run.valued⟩
      cases kept x hx with
      | inl hx => exact hx
      | inr heq => exact run.seed.eq_first_of_beq hx heq ▸ hmem
  | refine f lo hi | refineAndEvaluate f lo hi =>
      obtain ⟨first, last, lower, upper, inner, range, run⟩ := LineGenerator.run_of_refine h
      obtain ⟨hmem, kept⟩ := run.kept
      refine ⟨run.extended, fun x hx => ?_, LineGrid.values_of_valued run.valued⟩
      cases kept x hx with
      | inl hx => exact Or.inl hx
      | inr heq =>
          cases range.lower_eq with
          | inl hlo => exact Or.inr ⟨lo, rfl, hlo ▸ heq⟩
          | inr hfirst =>
              exact Or.inl (run.seed.eq_first_of_beq hx (hfirst ▸ heq) ▸ hfirst ▸ hmem)

variable [PointStore σ α] [PointStore τ α]

/-- What holds of the containers after a call, given the seed of the first one. -/
structure Keeps (g : LineGenerator α) (call : Call α) (seed : List α) (before now : Containers σ τ)
    (outcome : Except (GridError α) Unit) : Prop where
  ofSeed : Extends g.rule.independent seed now.view.points
  ofBefore : Extends g.rule.independent before.view.points now.view.points
  /-- Only a zero of the other sign, given as a limit, replaces a point. -/
  exact : ∀ x ∈ before.view.points, x ∈ now.view.points ∨ ∃ lo ∈ call.lower?, (x == lo) = true
  failed : ∀ e, outcome = .error e → now = before
  evaluated : call.evaluates = true → outcome = .ok () →
    now.view.values = now.view.points.map call.function ∧
      PointStore.size now.values = PointStore.size now.points
  untouched : call.evaluates = false → now.values = before.values

variable [LawfulPointStore σ] [LawfulPointStore τ]

theorem keeps_of_extends {seed : List α} {before : Containers σ τ}
    (h : Extends g.rule.independent seed before.view.points) (call : Call α) :
    call.Keeps g seed before (call.perform g before).1 (call.perform g before).2 := by
  have performs := performs_perform g call before
  generalize call.perform g before = result at performs
  cases performs with
  | @stored grid events hgrid =>
      obtain ⟨extended, exact, values⟩ := extends_of_grid call hgrid
      have hpoints : (call.store grid before).view.points = grid.points :=
        LawfulPointStore.points_replace _ _
      rw [← hpoints] at extended exact
      refine ⟨h.trans extended, extended, exact, fun e he => (nomatch he), fun hevaluates _ => ?_,
        fun hevaluates => ?_⟩
      · have hvalues : (call.store grid before).view.values = grid.values := by
          simp only [store, hevaluates, if_true, Containers.view]
          exact LawfulPointStore.points_replace _ _
        have hview : (call.store grid before).view.values =
            (call.store grid before).view.points.map call.function := by
          rw [hvalues, hpoints, values]
        refine ⟨hview, ?_⟩
        rw [LawfulPointStore.size_eq, LawfulPointStore.size_eq]
        exact (congrArg List.length hview).trans (List.length_map _)
      · simp only [store, hevaluates, Bool.false_eq_true, if_false]
  | failed _ =>
      exact ⟨h, .refl h.ascending h.admitted, fun x hx => Or.inl hx, fun _ _ => rfl,
        fun _ hok => (nomatch hok), fun _ => rfl⟩

theorem extends_after {seed : List α} {s : Containers σ τ}
    (h : Extends g.rule.independent seed s.view.points) (calls : List (Call α)) :
    Extends g.rule.independent seed (after g s calls).view.points := by
  induction calls generalizing s with
  | nil => exact h
  | cons call calls ih => exact ih (keeps_of_extends h call).ofSeed

end Keeps

section Kinds

variable {σ' τ' : Type} [PointStore σ α] [PointStore τ α] [PointStore σ' α] [PointStore τ' α]
  [LawfulPointStore σ] [LawfulPointStore σ'] (g : LineGenerator α) {s : Containers σ τ}
  {s' : Containers σ' τ'}

/-- A call on containers of another kind with the same points has the same outcome and leaves the
same points. -/
theorem points_perform (call : Call α) (same : s'.view.points = s.view.points) :
    (call.perform g s').1.view.points = (call.perform g s).1.view.points ∧
      (call.perform g s').2 = (call.perform g s).2 := by
  simp only [perform, run_eq_grid, same]
  cases call.grid g s.view.points with
  | mk events outcome =>
      cases outcome with
      | error e => exact ⟨same, rfl⟩
      | ok grid =>
          have hs := LawfulPointStore.points_replace s.points grid.points
          have hs' := LawfulPointStore.points_replace s'.points grid.points
          exact ⟨hs'.trans hs.symm, rfl⟩

theorem points_after (calls : List (Call α)) (same : s'.view.points = s.view.points) :
    (after g s' calls).view.points = (after g s calls).view.points := by
  induction calls generalizing s s' with
  | nil => exact same
  | cons call calls ih => exact ih (points_perform g call same).1

end Kinds

end Call

/-- After any calls on containers whose points are an accepted seed, the next one keeps what grids
have to keep, and containers of other kinds with the same points go the same way. -/
theorem LineGenerator.calls_keep_grids {α σ τ σ' τ' : Type} [Scalar α] [Scalar.Ordered α]
    [Resolution α] [PointStore σ α] [PointStore τ α] [PointStore σ' α] [PointStore τ' α]
    [LawfulPointStore σ] [LawfulPointStore τ] [LawfulPointStore σ']
    (g : LineGenerator α) (s : Containers σ τ) (s' : Containers σ' τ')
    (same : s'.view.points = s.view.points) {ends : α × α}
    (accepted : seedEnds g.rule.independent s.view.points = .ok ends)
    (earlier : List (Call α)) (call : Call α) :
    call.Keeps g s.view.points (Call.after g s earlier)
        (call.perform g (Call.after g s earlier)).1
        (call.perform g (Call.after g s earlier)).2 ∧
      (call.perform g (Call.after g s' earlier)).1.view.points =
        (call.perform g (Call.after g s earlier)).1.view.points ∧
      (call.perform g (Call.after g s' earlier)).2 =
        (call.perform g (Call.after g s earlier)).2 := by
  have seed := seedAccepted_of_seedEnds accepted
  have start := Extends.refl seed.ascending seed.admitted
  exact ⟨Call.keeps_of_extends (Call.extends_after start earlier) call,
    Call.points_perform g call (Call.points_after g earlier same)⟩

namespace LineGenerator

set_option maxRecDepth 20000 in
/-- The square over its own grid, refined from a point that the grid does not have. -/
theorem refine_square :
    coarse.refine square [1.0, 1.5, 2.0] 1.25 1.5 =
      ⟨[], .ok ⟨⟨1.0, 1.0⟩, [⟨1.25, 1.5625⟩, ⟨1.5, 2.25⟩, ⟨2.0, 4.0⟩]⟩⟩ := by
  have ascending : [1.0, 1.5, 2.0].Pairwise fun a b : Float => a < b := by decide
  have range : (1.25 : Float) < 1.5 := by decide
  have accepted : coarse.verdict square (nodeOf square 1.25) (nodeOf square 1.5) = .converged := rfl
  have inner : coarse.stretch? square 1.25 1.5 = some ⟨[⟨1.25, 1.5625⟩], []⟩ := by
    rw [stretch?_of_admits rfl rfl rfl, accepted]
    rfl
  change coarse.refineBetween square [1.0, 1.5, 2.0] 1.25 1.5 = _
  exact (refineBetween_eq_ok_iff ascending range).mpr
    ⟨by decide, by decide, _, ⟨[_], .cons inner .nil, rfl, rfl⟩, rfl⟩

/-- The second call fails at the first value, and the third one works on what the first has left. -/
theorem calls_keep_square_grids :
    let call := Call.refineAndEvaluate square 1.25 1.5
    let earlier := [Call.generate square, Call.generateAndEvaluate fun _ => 1.0 / 0.0]
    let s : Containers (Array Float) (Array Float) := ⟨#[1.0, 2.0], #[]⟩
    let s' : Containers (Deque Float) (List Float) := ⟨⟨[1.0], [2.0]⟩, []⟩
    let before := Call.after coarse s earlier
    let performed := call.perform coarse before
    call.Keeps coarse [1.0, 2.0] before performed.1 performed.2 ∧
      before = ⟨#[1.0, 1.5, 2.0], #[]⟩ ∧
      performed = (⟨#[1.0, 1.25, 1.5, 2.0], #[1.0, 1.5625, 2.25, 4.0]⟩, .ok ()) ∧
      (call.perform coarse (Call.after coarse s' earlier)).1.view.points =
        [1.0, 1.25, 1.5, 2.0] := by
  intro call earlier s s' before performed
  have accepted : seedEnds coarse.rule.independent [(1.0 : Float), 2.0] = .ok (1.0, 2.0) := rfl
  have hbefore : before = ⟨#[1.0, 1.5, 2.0], #[]⟩ := by
    change ((Call.generateAndEvaluate fun _ => 1.0 / 0.0).perform coarse
      ((Call.generate square).perform coarse s).1).1 = _
    rw [Call.perform_of_grid coarse (.generate square) s generate_square]
    rfl
  have hperformed :
      performed = (⟨#[1.0, 1.25, 1.5, 2.0], #[1.0, 1.5625, 2.25, 4.0]⟩, .ok ()) := by
    change call.perform coarse before = _
    rw [hbefore, Call.perform_of_grid coarse call ⟨#[1.0, 1.5, 2.0], #[]⟩ refine_square]
    rfl
  obtain ⟨kept, same, _⟩ := coarse.calls_keep_grids s s' rfl accepted earlier call
  refine ⟨kept, hbefore, hperformed, same.trans ?_⟩
  change performed.1.view.points = _
  rw [hperformed]
  rfl

end LineGenerator
end AdaptiveTables
