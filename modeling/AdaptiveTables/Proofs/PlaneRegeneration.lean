import AdaptiveTables.Proofs.PlaneStructure

/-!
Grids on a plane that are generated again from their primary points. Every column of a grid is the
one that its primary point generates, and every interval between two columns was accepted as it
stands, so nothing is inserted the second time. The critical values are merged again, and each is
found among the primary points.
-/

namespace AdaptiveTables

/-- The left ends of all intervals and the last element make up a list. -/
theorem flatten_left_ends {β : Type} (xs : List β) :
    ((adjacent xs).map fun p => [p.1]).flatten ++ xs.getLast?.toList = xs := by
  induction xs with
  | nil => rfl
  | cons a xs ih =>
      cases xs with
      | nil => rfl
      | cons b xs =>
          rw [adjacent_cons_cons, List.map_cons, List.flatten_cons, List.append_assoc,
            List.getLast?_cons_cons, ih]
          rfl

variable {α : Type}

namespace PlaneGenerator

theorem exists_logVerbose (g : PlaneGenerator α) (logged : List (Event α)) :
    ∃ events, g.logVerbose logged = ⟨events, .ok ()⟩ := by
  rw [logVerbose]
  cases g.settings.verbose with
  | true => exact ⟨logged, rfl⟩
  | false => exact ⟨[], rfl⟩

variable [Scalar α]

section Probes

variable {g : PlaneGenerator α} {a b : Column α} {x : α} {estimate : α → Except (TableError α) α}

/-- A probe that passes is accepted, with a warning if it has not converged. -/
theorem checkProbe_of_passes {probe : Node α} {z : α} (estimated : estimate probe.x = .ok z)
    (h : g.Passes probe.y z) :
    ∃ events, g.checkProbe a b x estimate probe = ⟨events, .ok true⟩ := by
  obtain ⟨logged, hlog⟩ := g.exists_logVerbose [.probe x probe.x probe.y z a.x b.x true]
  rw [checkProbe, estimated]
  simp only [Trace.ofTable, Trace.bind_eq_andThen, Trace.pure_eq_succeed, Trace.succeed_andThen,
    Tolerances.checkPoint]
  by_cases hrel : Scalar.relativeError probe.y z ≤ g.settings.tolerances.convergence
  · simp only [if_pos hrel, Verdict.isAccepted, Verdict.dirty?, hlog]
    exact ⟨_, rfl⟩
  · have hwarn : g.settings.reaction = .warn := by
      cases hreaction : g.settings.reaction with
      | warn => rfl
      | throw => exact absurd (h.2 hreaction) hrel
    simp only [if_neg hrel, if_pos (h.1.resolve_left hrel), Verdict.isAccepted, Verdict.dirty?,
      hlog, report, hwarn]
    exact ⟨_, rfl⟩

theorem checkProbes_of_passes {probes : List (Node α)}
    (h : ∀ probe ∈ probes, ∃ z, estimate probe.x = .ok z ∧ g.Passes probe.y z) :
    ∃ events, g.checkProbes a b x estimate probes = ⟨events, .ok true⟩ := by
  induction probes with
  | nil => exact ⟨[], rfl⟩
  | cons probe rest ih =>
      obtain ⟨z, estimated, passes⟩ := h probe List.mem_cons_self
      obtain ⟨first, hfirst⟩ := checkProbe_of_passes (a := a) (b := b) (x := x) estimated passes
      obtain ⟨later, hlater⟩ := ih fun p hp => h p (List.mem_cons_of_mem _ hp)
      refine ⟨first ++ later, ?_⟩
      rw [checkProbes]
      simp only [Trace.bind_eq_andThen, hfirst, Trace.andThen, hlater, if_true]

end Probes

variable [Resolution α] {g : PlaneGenerator α} {init : α → List α} {f : α → α → α}
  {events : List (Event α)} {grid : PlaneGrid α}

/-- A generator that warns accepts every interval that meets what is asked of one. -/
theorem test_of_accepts {a b : Column α} (reaction : g.settings.reaction = .warn)
    (h : g.Accepts init f a b) : ∃ events, g.test init f a b = ⟨events, .ok none⟩ := by
  have reported (cause : Dirty α) :
      ∃ events, ((g.report cause).andThen fun () => .succeed none) =
        (⟨events, .ok none⟩ : Trace α (Option (Column α))) := by
    rw [report, reaction]
    exact ⟨_, rfl⟩
  simp only [test, testAt, Tolerances.checkDistance]
  by_cases hdistance : Scalar.relativeError a.x b.x ≤ g.settings.tolerances.distance
  · simp only [if_pos hdistance]
    exact reported _
  · simp only [if_neg hdistance, Bool.and_eq_true, decide_eq_true_eq]
    split
    next hinside =>
      have reproduces := (h.resolve_left hdistance).resolve_left (not_not.mpr hinside)
      rw [Reproduces] at reproduces
      generalize g.rule.primary.midpoint a.x b.x = x at reproduces ⊢
      obtain ⟨generated, middle, estimate, hslice, prepared, points, between⟩ := reproduces
      have hcolumn : g.column init f x = ⟨generated, .ok ⟨x, middle⟩⟩ :=
        column_eq_ok.mpr ⟨rfl, hslice⟩
      obtain ⟨compared, hprobes⟩ : ∃ compared, g.checkProbes a b x estimate
          (middle.probes g.rule.secondary (f x)) = ⟨compared, .ok true⟩ := by
        refine checkProbes_of_passes fun n hn => ?_
        cases (middle.mem_probes _ _ n).mp hn with
        | inl hn => exact points n hn
        | inr hn =>
            obtain ⟨q, hq, rfl⟩ := hn
            exact between q hq
      simp only [hcolumn, prepared, Trace.ofTable, Trace.bind_eq_andThen, Trace.pure_eq_succeed,
        Trace.andThen, Trace.succeed, hprobes, if_true]
      exact ⟨_, rfl⟩
    next => exact reported _

theorem refineInterval_of_accepted {p : Column α × Column α}
    (h : g.test init f p.1 p.2 = ⟨events, .ok none⟩) :
    ∃ events, g.refineInterval init f p = ⟨events, .ok [p.1]⟩ := by
  have accepted : ∀ q ∈ adjacent [p.1, p.2], ∃ events,
      g.test init f q.1 q.2 = ⟨events, .ok none⟩ := by
    intro q hq
    obtain rfl := List.mem_singleton.mp hq
    exact ⟨events, h⟩
  rw [refineInterval, sweep_eq_bisect, bisect_of_accepted accepted]
  exact ⟨_, rfl⟩

/-- A grid whose columns are those of its primary points and whose intervals are all accepted
grows from these points. -/
theorem grow_primary
    (columns : ∀ c ∈ grid.columns, ∃ events, g.column init f c.x = ⟨events, .ok c⟩)
    (accepted : ∀ p ∈ adjacent grid.columns, ∃ events, g.test init f p.1 p.2 = ⟨events, .ok none⟩) :
    ∃ events, g.grow init f grid.primary = ⟨events, .ok grid⟩ := by
  obtain ⟨generated, hcolumns⟩ := Trace.each_of_forall (k := Column.x) (v := id) columns
  obtain ⟨tested, hpieces⟩ := Trace.each_of_forall (k := id) (v := fun p => [p.1])
    fun p hp => refineInterval_of_accepted (accepted p hp).choose_spec
  obtain ⟨logged, hlog⟩ := g.exists_logVerbose (grid.columns.mapIdx fun i c => .addedPoint c.x i)
  rw [List.map_id] at hcolumns hpieces
  refine ⟨generated ++ (tested ++ (logged ++ [])), ?_⟩
  rw [grow, PlaneGrid.primary, hcolumns]
  simp only [Trace.andThen, Trace.succeed, hpieces, flatten_left_ends, hlog]

/-- A run finds a grid over its merged seed whose columns are those of its primary points and whose
intervals are all accepted. -/
theorem generate_of_accepted {seed : List α} {first last : α}
    (ends : seedEnds g.rule.primary seed = .ok (first, last))
    (merged : grid.primary = g.mergedSeed seed first last)
    (columns : ∀ c ∈ grid.columns, ∃ events, g.column init f c.x = ⟨events, .ok c⟩)
    (accepted : ∀ p ∈ adjacent grid.columns, ∃ events, g.test init f p.1 p.2 = ⟨events, .ok none⟩) :
    ∃ events, g.generate init f seed = ⟨events, .ok grid⟩ := by
  obtain ⟨grown, hgrow⟩ := grow_primary columns accepted
  rw [generate_eq_grow, ends]
  simp only [Trace.ofExcept, Trace.succeed_andThen, ← merged, hgrow]
  split
  next =>
    obtain ⟨noted, hnoted⟩ :=
      g.exists_logVerbose [.addedCritical (grid.primary.length - seed.length)]
    rw [hnoted]
    exact ⟨_, rfl⟩
  next => exact ⟨_, rfl⟩

variable [Scalar.Ordered α] [Scalar.Separated α]

/-- A grid is found again from its primary points, with the same slices and values. -/
theorem generate_primary {seed : List α} (h : g.generate init f seed = ⟨events, .ok grid⟩) :
    ∃ events', g.generate init f grid.primary = ⟨events', .ok grid⟩ := by
  obtain ⟨first, last, ends, accepted, grown⟩ := g.grown_of_generate init f h
  have seedAccepted := seedAccepted_of_seedEnds accepted
  have merged := merged_mergedSeed (g := g) seedAccepted
  cases ends with
  | nil =>
      have head := merged.head
      rw [← grown.primary] at head
      cases head
  | cons a rest =>
      obtain ⟨ascending, sublist, columns, head, getLast⟩ := columns_of_grown merged.ascending grown
      obtain ⟨_, sweeps⟩ := grown.sweeps rfl
      have primary := seedAccepted.between ascending (head.trans merged.head)
        (getLast.trans merged.getLast)
      have again := mergedSeed_again seedAccepted primary fun x hx => sublist.subset hx
      obtain ⟨events', hgrow⟩ := grow_primary columns sweeps.accepted
      refine ⟨events', ?_⟩
      rw [generate_eq_grow, seedEnds_of_seedAccepted primary]
      simp only [Trace.ofExcept, Trace.succeed_andThen, again, Nat.lt_irrefl, if_false, hgrow]

/-- A generator whose grids over one and two contain the value halfway. -/
def halved : PlaneGenerator Float := { standard .linear with critical := [1.5] }

theorem halved_mergedSeed : halved.mergedSeed [1.0, 2.0] 1.0 2.0 = [1.0, 1.5, 2.0] :=
  mergedSeed_of_perm (by decide +kernel) (by decide +kernel)

theorem halved_column (x : Float) :
    halved.column (fun _ => [1.0, 2.0]) (fun _ y => y) x = ⟨[], .ok (identityColumn x)⟩ :=
  column_eq_ok.mpr ⟨rfl, LineGenerator.identity_generate⟩

set_option maxRecDepth 20000 in
theorem halved_generate : ∃ events,
    halved.generate (fun _ => [1.0, 2.0]) (fun _ y => y) [1.0, 2.0] =
      ⟨events, .ok ⟨[identityColumn 1.0, identityColumn 1.5, identityColumn 2.0]⟩⟩ := by
  have hlower : halved.test (fun _ => [1.0, 2.0]) (fun _ y => y) (identityColumn 1.0)
      (identityColumn 1.5) = ⟨[], .ok none⟩ := by
    simp only [test, testAt, halved_column]
    rfl
  have hupper : halved.test (fun _ => [1.0, 2.0]) (fun _ y => y) (identityColumn 1.5)
      (identityColumn 2.0) = ⟨[], .ok none⟩ := by
    simp only [test, testAt, halved_column]
    rfl
  have hends : seedEnds halved.rule.primary [(1.0 : Float), 2.0] = .ok (1.0, 2.0) := rfl
  refine generate_of_accepted hends halved_mergedSeed.symm ?_ ?_
  · simp [halved_column, identityColumn]
  · simp [adjacent, hlower, hupper]

theorem halved_primary :
    let grid : PlaneGrid Float :=
      ⟨[identityColumn 1.0, identityColumn 1.5, identityColumn 2.0]⟩
    (∃ events, halved.generate (fun _ => [1.0, 2.0]) (fun _ y => y) [1.0, 2.0] =
        ⟨events, .ok grid⟩) ∧
      ∃ events, halved.generate (fun _ => [1.0, 2.0]) (fun _ y => y) grid.primary =
        ⟨events, .ok grid⟩ :=
  ⟨halved_generate, generate_primary halved_generate.choose_spec⟩

end PlaneGenerator
end AdaptiveTables
