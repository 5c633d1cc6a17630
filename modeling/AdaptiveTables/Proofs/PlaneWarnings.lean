import AdaptiveTables.Proofs.FirstWarning

/-!
Warnings of the generator on a plane. A warning comes from the test of one interval and names it,
but the test goes on: a probe that is accepted as dirty is reported at once, and a later probe can
still ask for a split. Both ends of the interval belong to the grid either way. They are neighbours
there exactly when the interval was accepted; otherwise the point that was inserted lies between
them. A generator that throws does not wait for the rest of the test either.
-/

namespace AdaptiveTables

/-- The ends of the interval that a cause names. -/
def Dirty.ends {α : Type} : Dirty α → α × α
  | .closeEnds lower upper _ => (lower, upper)
  | .closeValues lower upper _ _ _ => (lower, upper)

/-- A run that is cut at its first warning stays as it is or fails with the cause of a warning. -/
theorem Trace.strict_eq_or_error {α β : Type} (t : Trace α β) :
    t.strict = t ∨ ∃ origin cause, .warning origin cause ∈ t.events ∧
      t.strict.outcome = .error (.dirtyConvergence cause) := by
  rw [strict]
  cases hfind : t.events.findSome? Event.warning? with
  | none => exact Or.inl rfl
  | some cause =>
      obtain ⟨_, e, _, hevents, hwarning, _⟩ := List.findSome?_eq_some_iff.mp hfind
      cases e with
      | warning origin warned =>
          obtain rfl := Option.some.inj hwarning
          exact Or.inr ⟨origin, warned, by simp [hevents], rfl⟩
      | probe | addedPoint | addedCritical => cases hwarning

variable {α : Type} [Scalar α]

/-- The generator on a line logs nothing but warnings of its own. -/
theorem LineGenerator.exists_cause_of_generate [Resolution α] {g : LineGenerator α}
    {f : α → α} {seed : List α} {events : List (Event α)} {grid : LineGrid α}
    (h : g.generate f seed = ⟨events, .ok grid⟩) {e : Event α} (he : e ∈ events) :
    ∃ cause, e = .warning .line cause := by
  obtain ⟨_, _, _, hrun⟩ := generate_eq_ok.mp h
  obtain ⟨_, refined⟩ := g.refined_of_refineBetween f hrun
  obtain ⟨_, _, _, _, tested, he⟩ := refined.sweeps.exists_tested he
  cases tested with
  | accepted haccepted _ =>
      rw [(step_accepts haccepted).2.1] at he
      obtain ⟨cause, _, rfl⟩ := List.mem_map.mp he
      exact ⟨cause, rfl⟩
  | split hsplit _ =>
      rw [(step_inserts hsplit).1] at he
      cases he

namespace PlaneGenerator

variable {g : PlaneGenerator α} {a b : Column α} {events : List (Event α)} {cause : Dirty α}

section Probes

variable {x : α} {estimate : α → Except (TableError α) α}

theorem cause_of_checkProbe {probe : Node α} {accepted : Bool}
    (h : g.checkProbe a b x estimate probe = ⟨events, .ok accepted⟩)
    (hc : .warning .plane cause ∈ events) :
    ∃ z, cause = .closeValues a.x b.x probe.x probe.y z := by
  have silent {z : α} {passed : Bool} :
      .warning .plane cause ∉
        (g.logVerbose [.probe x probe.x probe.y z a.x b.x passed]).events := by
    intro hlogged
    cases List.mem_singleton.mp (mem_of_mem_logVerbose hlogged)
  cases compares_of_checkProbe h with
  | converged _ _ => exact absurd hc silent
  | refused _ _ _ => exact absurd hc silent
  | dirty _ _ _ _ =>
      cases List.mem_append.mp hc with
      | inl hlogged => exact absurd hlogged silent
      | inr hwarned =>
          cases List.mem_singleton.mp hwarned
          exact ⟨_, rfl⟩

theorem cause_of_checkProbes {probes : List (Node α)} {passed : Bool}
    (h : g.checkProbes a b x estimate probes = ⟨events, .ok passed⟩)
    (hc : .warning .plane cause ∈ events) :
    ∃ probe ∈ probes, ∃ z, cause = .closeValues a.x b.x probe.x probe.y z := by
  induction probes generalizing events with
  | nil =>
      obtain ⟨rfl, _⟩ := Trace.succeed_eq_ok.mp h
      cases hc
  | cons probe rest ih =>
      simp only [checkProbes, Trace.bind_eq_andThen, Trace.pure_eq_succeed] at h
      obtain ⟨_, accepted, _, hprobe, hrest, rfl⟩ := Trace.andThen_eq_ok.mp h
      cases List.mem_append.mp hc with
      | inl hc => exact ⟨probe, List.mem_cons_self, cause_of_checkProbe hprobe hc⟩
      | inr hc =>
          cases accepted with
          | false =>
              obtain ⟨rfl, _⟩ := Trace.succeed_eq_ok.mp hrest
              cases hc
          | true =>
              obtain ⟨p, hp, named⟩ := ih hrest hc
              exact ⟨p, List.mem_cons_of_mem _ hp, named⟩

/-- The loop over the probes asks for a split only at a probe that is refused. -/
theorem exists_refused_of_checkProbes {probes : List (Node α)}
    (h : g.checkProbes a b x estimate probes = ⟨events, .ok false⟩) :
    ∃ probe ∈ probes, ∃ z, estimate probe.x = .ok z ∧ ¬g.Passes probe.y z := by
  induction probes generalizing events with
  | nil => cases (Trace.succeed_eq_ok.mp h).2
  | cons probe rest ih =>
      simp only [checkProbes, Trace.bind_eq_andThen, Trace.pure_eq_succeed] at h
      obtain ⟨_, accepted, _, hprobe, hrest, rfl⟩ := Trace.andThen_eq_ok.mp h
      cases accepted with
      | false =>
          cases compares_of_checkProbe hprobe with
          | refused estimated missed far =>
              exact ⟨probe, List.mem_cons_self, _, estimated,
                fun passes => passes.1.elim missed far⟩
      | true =>
          obtain ⟨p, hp, refused⟩ := ih hrest
          exact ⟨p, List.mem_cons_of_mem _ hp, refused⟩

end Probes

variable [Resolution α] {init : α → List α} {f : α → α → α}

/-- A slice is generated without warnings about primary intervals. -/
theorem not_warned_of_column {x : α} {c : Column α}
    (h : g.column init f x = ⟨events, .ok c⟩) : .warning .plane cause ∉ events := by
  intro hc
  obtain ⟨_, heq⟩ := LineGenerator.exists_cause_of_generate (column_eq_ok.mp h).2 hc
  cases heq

theorem not_warned_of_eachOk {xs : List α} {columns : List (Column α)}
    (h : Trace.EachOk (g.column init f) xs columns events) : .warning .plane cause ∉ events := by
  induction h with
  | nil => exact List.not_mem_nil
  | cons head _ ih =>
      rw [List.mem_append, not_or]
      exact ⟨not_warned_of_column head, ih⟩

/-- A warning of a test names the interval that was tested. -/
theorem ends_of_test {verdict : Option (Column α)}
    (h : g.test init f a b = ⟨events, .ok verdict⟩) (hc : .warning .plane cause ∈ events) :
    cause.ends = (a.x, b.x) := by
  cases tests_of_test h with
  | short _ _ =>
      cases List.mem_singleton.mp hc
      rfl
  | probed _ _ _ column _ probes =>
      cases List.mem_append.mp hc with
      | inl hc => exact absurd hc (not_warned_of_column column)
      | inr hc =>
          obtain ⟨_, _, _, rfl⟩ := cause_of_checkProbes probes hc
          rfl

/-- What a test that asks for a split says of the column it returns. -/
structure Splits (g : PlaneGenerator α) (init : α → List α) (f : α → α → α) (a b m : Column α)
    (events : List (Event α)) : Prop where
  midpoint : m.x = g.rule.primary.midpoint a.x b.x
  inside : a.x < m.x ∧ m.x < b.x
  missed : ¬g.Accepts init f a b
  causes : ∀ cause, .warning .plane cause ∈ events →
    ∃ probe ∈ m.slice.probes g.rule.secondary (f m.x), ∃ z,
      cause = .closeValues a.x b.x probe.x probe.y z

/-- A slice with a probe that was refused is not reproduced: the slice and the estimate are those
that the test has seen. -/
theorem not_reproduces_of_refused {m : Column α} {estimate : α → Except (TableError α) α}
    {p : Node α} {z : α} (midpoint : m.x = g.rule.primary.midpoint a.x b.x)
    (column : g.column init f m.x = ⟨events, .ok m⟩)
    (prepared : g.estimator.prepare (.ofColumns g.rule a b m.x) = .ok estimate)
    (hp : p ∈ m.slice.probes g.rule.secondary (f m.x)) (estimated : estimate p.x = .ok z)
    (refused : ¬g.Passes p.y z) : ¬g.Reproduces init f a b := by
  rintro ⟨_, s, again, hslice, hprepare, points, between⟩
  rw [midpoint] at column prepared hp
  obtain ⟨_, hs⟩ := Trace.mk.inj (hslice.symm.trans (column_eq_ok.mp column).2)
  obtain rfl := Except.ok.inj hs
  obtain rfl := Except.ok.inj (hprepare.symm.trans prepared)
  have passes : ∃ z, again p.x = .ok z ∧ g.Passes p.y z := by
    cases (m.slice.mem_probes _ _ p).mp hp with
    | inl hpoint => exact points p hpoint
    | inr hbetween =>
        obtain ⟨q, hq, rfl⟩ := hbetween
        exact between q hq
  obtain ⟨w, hw, passes⟩ := passes
  obtain rfl := Except.ok.inj (hw.symm.trans estimated)
  exact refused passes

theorem splits_of_test {m : Column α} (h : g.test init f a b = ⟨events, .ok (some m)⟩) :
    g.Splits init f a b m events := by
  generalize hverdict : some m = verdict at h
  cases tests_of_test h with
  | short _ _ => cases hverdict
  | @probed middle estimate passed _ _ far midpoint inside column prepared probes =>
      cases passed with
      | true => cases hverdict
      | false =>
          obtain rfl := Option.some.inj hverdict
          obtain ⟨p, hp, z, estimated, refused⟩ := exists_refused_of_checkProbes probes
          have differs := not_reproduces_of_refused midpoint column prepared hp estimated refused
          refine ⟨midpoint, inside, ?_, fun cause hc => ?_⟩
          · rw [Accepts, ← midpoint, not_or, not_or, not_not]
            exact ⟨far, inside, differs⟩
          · cases List.mem_append.mp hc with
            | inl hc => exact absurd hc (not_warned_of_column column)
            | inr hc => exact cause_of_checkProbes probes hc

/-- The columns of the seed and the notes of a run are silent about primary intervals, so the
warnings come from the refinement. -/
theorem exists_sweeps_of_generate {seed : List α} {grid : PlaneGrid α}
    (h : g.generate init f seed = ⟨events, .ok grid⟩) (hc : .warning .plane cause ∈ events) :
    ∃ a rest swept, Sweeps (g.test init f) a rest grid.columns swept ∧
      .warning .plane cause ∈ swept := by
  obtain ⟨first, last, noted, grown, _, hgrow, rfl, silent⟩ := g.grow_of_generate init f h
  obtain ⟨generated, ends, _, hends, h₁, rfl⟩ := Trace.andThen_eq_ok.mp hgrow
  obtain ⟨swept, pieces, _, hpieces, h₂, rfl⟩ := Trace.andThen_eq_ok.mp h₁
  obtain ⟨added, ⟨⟩, _, hadded, h₃, rfl⟩ := Trace.andThen_eq_ok.mp h₂
  obtain ⟨rfl, rfl⟩ := Trace.succeed_eq_ok.mp h₃
  have hnoted : .warning .plane cause ∉ noted := by
    intro hc
    obtain ⟨_, heq⟩ := silent _ hc
    cases heq
  have hgenerated : .warning .plane cause ∉ generated :=
    not_warned_of_eachOk (Trace.each_eq_ok hends)
  have hadded : .warning .plane cause ∉ added := by
    obtain rfl : (g.logVerbose _).events = added := congrArg Trace.events hadded
    intro hc
    obtain ⟨_, _, heq⟩ := List.mem_mapIdx.mp (mem_of_mem_logVerbose hc)
    cases heq
  have hswept : .warning .plane cause ∈ swept := by
    simpa [hnoted, hgenerated, hadded] using hc
  cases ends with
  | nil =>
      cases Trace.each_eq_ok hpieces
      cases hswept
  | cons a rest => exact ⟨a, rest, swept, g.sweeps_of_refineIntervals init f hpieces, hswept⟩

/-- What a warning says of the grid of its run. The interval that it names ends at two columns,
which are neighbours if the interval was accepted. If it was split, its midpoint is in the grid as
well, and the cause is a probe of the slice there. -/
structure Reported (g : PlaneGenerator α) (init : α → List α) (f : α → α → α)
    (grid : PlaneGrid α) (cause : Dirty α) (a b : Column α) : Prop where
  ends : cause.ends = (a.x, b.x)
  left : a ∈ grid.columns
  right : b ∈ grid.columns
  neighbours : (a.x, b.x) ∈ adjacent grid.primary ↔ g.Accepts init f a b
  split : ¬g.Accepts init f a b → ∃ m ∈ grid.columns,
    m.x = g.rule.primary.midpoint a.x b.x ∧ (a.x < m.x ∧ m.x < b.x) ∧
      ∃ probe ∈ m.slice.probes g.rule.secondary (f m.x), ∃ z,
        cause = .closeValues a.x b.x probe.x probe.y z

variable [Scalar.Ordered α]

theorem exists_reported_of_generate {seed : List α} {grid : PlaneGrid α}
    (h : g.generate init f seed = ⟨events, .ok grid⟩) (hc : .warning .plane cause ∈ events) :
    ∃ a b, g.Reported init f grid cause a b := by
  obtain ⟨_, _, _, ascending, _⟩ := columns_of_generate h
  obtain ⟨_, _, _, sweeps, hswept⟩ := exists_sweeps_of_generate h hc
  obtain ⟨a, b, verdict, _, tested, hc⟩ := sweeps.exists_tested hswept
  refine ⟨a, b, ?_⟩
  have ends := ends_of_test tested.test_eq hc
  cases tested with
  | accepted haccepted neighbours =>
      have accepts : g.Accepts init f a b := by
        cases judges_of_test haccepted with
        | accepts accepts _ => exact accepts
      have primary : (a.x, b.x) ∈ adjacent grid.primary := by
        rw [PlaneGrid.primary, adjacent_map]
        exact List.mem_map_of_mem neighbours
      obtain ⟨left, right⟩ := mem_of_adjacent neighbours
      exact ⟨ends, left, right, iff_of_true primary accepts, fun missed => absurd accepts missed⟩
  | @split m _ _ hsplit between =>
      have splits := splits_of_test hsplit
      have hm : m ∈ grid.columns := between.subset (by simp)
      refine ⟨ends, between.subset (by simp), between.subset (by simp),
        iff_of_false ?_ splits.missed,
        fun _ => ⟨m, hm, splits.midpoint, splits.inside, splits.causes cause hc⟩⟩
      exact not_adjacent_of_between Scalar.Ordered.lt_irrefl Scalar.Ordered.lt_trans ascending
        (List.mem_map_of_mem hm) splits.inside

/-- Every warning about a primary interval names two points of the grid, which are neighbours
exactly if the interval was accepted. A run that throws fails for a cause that the same run would
have warned of, or not at all. -/
theorem warnings_name_intervals {seed : List α} {grid : PlaneGrid α}
    (h : (g.reacting .warn).generate init f seed = ⟨events, .ok grid⟩) :
    (∀ cause, .warning .plane cause ∈ events →
      ∃ a b, (g.reacting .warn).Reported init f grid cause a b) ∧
    ((g.reacting .throw).generate init f seed = ⟨events, .ok grid⟩ ∨
      ∃ origin cause, .warning origin cause ∈ events ∧
        ((g.reacting .throw).generate init f seed).outcome =
          .error (.dirtyConvergence cause)) := by
  refine ⟨fun cause hc => exists_reported_of_generate h hc, ?_⟩
  rw [g.generate_throw init f seed, h]
  exact Trace.strict_eq_or_error _

/-- A warning names an interval that is split by the same test, and a generator that throws fails
there. -/
theorem ridge_warns_of_split :
    let init : Float → List Float := fun _ => [0.0, 1.0]
    coarse.settings.check = .ok () ∧
      (coarse.reacting .warn).generate init ridge [0.0, 1.0] =
        ⟨[.warning .plane ridgeCause], .ok ridgeGrid⟩ ∧
      ridgeCause.ends ∉ adjacent ridgeGrid.primary ∧
      (coarse.reacting .throw).generate init ridge [0.0, 1.0] =
        ⟨[], .error (.dirtyConvergence ridgeCause)⟩ := by
  intro init
  have hwarn : (coarse.reacting .warn).generate init ridge [0.0, 1.0] =
      ⟨[.warning .plane ridgeCause], .ok ridgeGrid⟩ := ridge_generate
  refine ⟨rfl, hwarn, ?_, ?_⟩
  · have hmid : (ridgeColumn 0.5).x ∈ ridgeGrid.primary := List.mem_map_of_mem (by simp [ridgeGrid])
    exact not_adjacent_of_between Scalar.Ordered.lt_irrefl Scalar.Ordered.lt_trans
      (by decide +kernel) hmid (by decide +kernel)
  · rw [coarse.generate_throw init ridge, hwarn]
    rfl

theorem ridge_warnings_name_intervals :
    let init : Float → List Float := fun _ => [0.0, 1.0]
    (coarse.reacting .warn).generate init ridge [0.0, 1.0] =
        ⟨[.warning .plane ridgeCause], .ok ridgeGrid⟩ ∧
      ∃ a b, (coarse.reacting .warn).Reported init ridge ridgeGrid ridgeCause a b :=
    ⟨ridge_generate, (warnings_name_intervals (g := coarse) ridge_generate).1 ridgeCause
    (List.mem_singleton_self _)⟩

end PlaneGenerator
end AdaptiveTables
