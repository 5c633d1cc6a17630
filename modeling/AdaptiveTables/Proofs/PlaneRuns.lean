import AdaptiveTables.Grid.Plane
import AdaptiveTables.Proofs.Bisect
import AdaptiveTables.Proofs.Verdicts

/-!
Successful runs of the generator on a plane. Its columns are a refinement of those of the merged
seed. A split inserts the column of the midpoint, and an accepted interval is too short to split
or has its middle slice reproduced at every probe.
-/

namespace AdaptiveTables

variable {α : Type} [Scalar α]

/-- Probes are the points of a grid and the midpoints between neighbours. -/
theorem LineGrid.mem_probes (g : LineGrid α) (scale : Scale) (f : α → α) (n : Node α) :
    n ∈ g.probes scale f ↔ n ∈ g.nodes ∨ ∃ q ∈ adjacent g.nodes,
      n = ⟨scale.midpoint q.1.x q.2.x, f (scale.midpoint q.1.x q.2.x)⟩ := by
  obtain ⟨first, later⟩ := g
  simp only [nodes, probes]
  induction later generalizing first with
  | nil => simp [probes.go, adjacent]
  | cons b rest ih =>
      rw [probes.go, adjacent_cons_cons, List.mem_cons, List.mem_cons, ih b]
      simp only [List.mem_cons, exists_eq_or_imp]
      constructor
      · rintro (rfl | rfl | hn | hn)
        · exact Or.inl (Or.inl rfl)
        · exact Or.inr (Or.inl rfl)
        · exact Or.inl (Or.inr hn)
        · exact Or.inr (Or.inr hn)
      · rintro ((rfl | hn) | (rfl | hn))
        · exact Or.inl rfl
        · exact Or.inr (Or.inr (Or.inl hn))
        · exact Or.inr (Or.inl rfl)
        · exact Or.inr (Or.inr (Or.inr hn))

namespace PlaneGenerator

variable (g : PlaneGenerator α)

omit [Scalar α] in
theorem mem_of_mem_logVerbose {g : PlaneGenerator α} {events : List (Event α)} {e : Event α}
    (h : e ∈ (g.logVerbose events).events) : e ∈ events := by
  rw [logVerbose] at h
  split at h
  next => exact h
  next => cases h

/-- What an accepted probe meets. -/
def Passes (exact estimate : α) : Prop :=
  (Scalar.relativeError exact estimate ≤ g.settings.tolerances.convergence ∨
    Scalar.absoluteDistance exact estimate ≤ g.settings.tolerances.absolute) ∧
  (g.settings.reaction = .throw →
    Scalar.relativeError exact estimate ≤ g.settings.tolerances.convergence)

/-- How the comparison at a probe goes: the estimate has converged, it is accepted with a warning,
or it is refused. -/
inductive Compares (g : PlaneGenerator α) (a b : Column α) (x : α)
    (estimate : α → Except (TableError α) α) (probe : Node α) : List (Event α) → Bool → Prop
  | converged {z : α} (estimated : estimate probe.x = .ok z)
      (h : Scalar.relativeError probe.y z ≤ g.settings.tolerances.convergence) :
      Compares g a b x estimate probe
        (g.logVerbose [.probe x probe.x probe.y z a.x b.x true]).events true
  | dirty {z : α} (estimated : estimate probe.x = .ok z)
      (missed : ¬Scalar.relativeError probe.y z ≤ g.settings.tolerances.convergence)
      (h : Scalar.absoluteDistance probe.y z ≤ g.settings.tolerances.absolute)
      (reaction : g.settings.reaction = .warn) :
      Compares g a b x estimate probe
        ((g.logVerbose [.probe x probe.x probe.y z a.x b.x true]).events ++
          [.warning .plane (.closeValues a.x b.x probe.x probe.y z)]) true
  | refused {z : α} (estimated : estimate probe.x = .ok z)
      (missed : ¬Scalar.relativeError probe.y z ≤ g.settings.tolerances.convergence)
      (far : ¬Scalar.absoluteDistance probe.y z ≤ g.settings.tolerances.absolute) :
      Compares g a b x estimate probe
        (g.logVerbose [.probe x probe.x probe.y z a.x b.x false]).events false

section Probes

variable {g} {a b : Column α} {x : α} {estimate : α → Except (TableError α) α}
  {events : List (Event α)}

theorem compares_of_checkProbe {probe : Node α} {accepted : Bool}
    (h : g.checkProbe a b x estimate probe = ⟨events, .ok accepted⟩) :
    g.Compares a b x estimate probe events accepted := by
  simp only [checkProbe, Trace.bind_eq_andThen, Trace.pure_eq_succeed] at h
  obtain ⟨_, z, _, hz, h₁, rfl⟩ := Trace.andThen_eq_ok.mp h
  obtain ⟨rfl, hestimate⟩ := Trace.ofTable_eq_ok.mp hz
  obtain ⟨logged, ⟨⟩, _, hlogged, h₂, rfl⟩ := Trace.andThen_eq_ok.mp h₁
  obtain rfl : (g.logVerbose _).events = logged := congrArg Trace.events hlogged
  simp only [Tolerances.checkPoint] at h₂ ⊢
  by_cases hrel :
      Scalar.relativeError probe.y z ≤ g.settings.tolerances.convergence
  · simp only [if_pos hrel] at h₂ ⊢
    obtain ⟨rfl, rfl⟩ := Trace.succeed_eq_ok.mp h₂
    rw [List.append_nil]
    exact .converged hestimate hrel
  · simp only [if_neg hrel] at h₂ ⊢
    by_cases habs : Scalar.absoluteDistance probe.y z ≤ g.settings.tolerances.absolute
    · simp only [if_pos habs] at h₂ ⊢
      obtain ⟨_, ⟨⟩, _, hreport, hlast, rfl⟩ := Trace.andThen_eq_ok.mp h₂
      obtain ⟨rfl, rfl⟩ := Trace.succeed_eq_ok.mp hlast
      obtain ⟨hwarn, rfl⟩ := Trace.report_eq_ok.mp hreport
      rw [List.append_nil]
      exact .dirty hestimate hrel habs hwarn
    · simp only [if_neg habs] at h₂ ⊢
      obtain ⟨rfl, rfl⟩ := Trace.succeed_eq_ok.mp h₂
      rw [List.append_nil]
      exact .refused hestimate hrel habs

theorem passes_of_checkProbe {probe : Node α}
    (h : g.checkProbe a b x estimate probe = ⟨events, .ok true⟩) :
    ∃ z, estimate probe.x = .ok z ∧ g.Passes probe.y z := by
  cases compares_of_checkProbe h with
  | converged estimated hrel => exact ⟨_, estimated, Or.inl hrel, fun _ => hrel⟩
  | dirty estimated _ habs reaction =>
      refine ⟨_, estimated, Or.inr habs, fun hthrow => ?_⟩
      rw [reaction] at hthrow
      cases hthrow

/-- The loop over the probes ends with success only after the last one. -/
theorem passes_of_checkProbes {probes : List (Node α)}
    (h : g.checkProbes a b x estimate probes = ⟨events, .ok true⟩) :
    ∀ probe ∈ probes, ∃ z, estimate probe.x = .ok z ∧ g.Passes probe.y z := by
  induction probes generalizing events with
  | nil =>
      intro probe hprobe
      cases hprobe
  | cons probe rest ih =>
      simp only [checkProbes, Trace.bind_eq_andThen, Trace.pure_eq_succeed] at h
      obtain ⟨_, accepted, _, hprobe, hrest, rfl⟩ := Trace.andThen_eq_ok.mp h
      cases accepted with
      | false => cases (Trace.succeed_eq_ok.mp hrest).2
      | true =>
          intro p hp
          cases List.mem_cons.mp hp with
          | inl heq => exact heq ▸ passes_of_checkProbe hprobe
          | inr hp => exact ih hrest p hp

end Probes

variable [Resolution α] (init : α → List α) (f : α → α → α)

/-- The slice at the midpoint of an interval is reproduced, at its points and at the midpoints
between them, by the estimate from the slices at the ends. -/
def Reproduces (a b : Column α) : Prop :=
  let x := g.rule.primary.midpoint a.x b.x
  ∃ events middle estimate, g.slice init f x = ⟨events, .ok middle⟩ ∧
    g.estimator.prepare (.ofColumns g.rule a b x) = .ok estimate ∧
    (∀ n ∈ middle.nodes, ∃ z, estimate n.x = .ok z ∧ g.Passes n.y z) ∧
    ∀ q ∈ adjacent middle.nodes,
      let y := g.rule.secondary.midpoint q.1.x q.2.x
      ∃ z, estimate y = .ok z ∧ g.Passes (f x y) z

/-- What an accepted interval meets. -/
def Accepts (a b : Column α) : Prop :=
  let x := g.rule.primary.midpoint a.x b.x
  Scalar.relativeError a.x b.x ≤ g.settings.tolerances.distance ∨
    ¬(a.x < x ∧ x < b.x) ∨ g.Reproduces init f a b

theorem testAt_midpoint : g.testAt g.rule.primary.midpoint init f = g.test init f := rfl

variable {g init f} {a b : Column α} {events : List (Event α)}

theorem column_eq_ok {x : α} {c : Column α} :
    g.column init f x = ⟨events, .ok c⟩ ↔ c.x = x ∧ g.slice init f x = ⟨events, .ok c.slice⟩ := by
  rw [column, Trace.andThen_eq_ok]
  constructor
  · rintro ⟨before, s, after, hs, hc, rfl⟩
    obtain ⟨rfl, rfl⟩ := Trace.succeed_eq_ok.mp hc
    rw [List.append_nil]
    exact ⟨rfl, hs⟩
  · rintro ⟨rfl, hs⟩
    exact ⟨events, c.slice, [], hs, rfl, (List.append_nil events).symm⟩

/-- How a test goes that succeeds. An interval that is too short to split is reported, and any
other one is judged by the probes of the slice at its midpoint. -/
inductive Tests (g : PlaneGenerator α) (midpoint : α → α → α) (init : α → List α)
    (f : α → α → α) (a b : Column α) : List (Event α) → Option (Column α) → Prop
  | short (reaction : g.settings.reaction = .warn)
      (h : Scalar.relativeError a.x b.x ≤ g.settings.tolerances.distance ∨
        ¬(a.x < midpoint a.x b.x ∧ midpoint a.x b.x < b.x)) :
      Tests g midpoint init f a b
        [.warning .plane (.closeEnds a.x b.x (Scalar.relativeError a.x b.x))] none
  | probed {middle : Column α} {estimate : α → Except (TableError α) α} {passed : Bool}
      {generated compared : List (Event α)}
      (far : ¬Scalar.relativeError a.x b.x ≤ g.settings.tolerances.distance)
      (halfway : middle.x = midpoint a.x b.x)
      (inside : a.x < middle.x ∧ middle.x < b.x)
      (column : g.column init f middle.x = ⟨generated, .ok middle⟩)
      (prepared : g.estimator.prepare (.ofColumns g.rule a b middle.x) = .ok estimate)
      (probes : g.checkProbes a b middle.x estimate
        (middle.slice.probes g.rule.secondary (f middle.x)) = ⟨compared, .ok passed⟩) :
      Tests g midpoint init f a b (generated ++ compared) (if passed then none else some middle)

theorem tests_of_testAt {midpoint : α → α → α} {verdict : Option (Column α)}
    (h : g.testAt midpoint init f a b = ⟨events, .ok verdict⟩) :
    g.Tests midpoint init f a b events verdict := by
  -- An interval that is too short for a split is reported, whichever test found it so.
  have hreported
      (hshort : Scalar.relativeError a.x b.x ≤ g.settings.tolerances.distance ∨
        ¬(a.x < midpoint a.x b.x ∧ midpoint a.x b.x < b.x))
      (h : ((g.report (.closeEnds a.x b.x (Scalar.relativeError a.x b.x))).andThen fun () =>
        .succeed none) = ⟨events, .ok verdict⟩) : g.Tests midpoint init f a b events verdict := by
    obtain ⟨_, ⟨⟩, _, hreport, hnone, rfl⟩ := Trace.andThen_eq_ok.mp h
    obtain ⟨rfl, rfl⟩ := Trace.succeed_eq_ok.mp hnone
    obtain ⟨hwarn, rfl⟩ := Trace.report_eq_ok.mp hreport
    exact .short hwarn hshort
  simp only [testAt, Tolerances.checkDistance] at h
  by_cases hdistance : Scalar.relativeError a.x b.x ≤ g.settings.tolerances.distance
  · rw [if_pos hdistance] at h
    exact hreported (Or.inl hdistance) h
  · rw [if_neg hdistance] at h
    simp only [Bool.and_eq_true, decide_eq_true_eq] at h
    split at h
    next hinside =>
      simp only [Trace.bind_eq_andThen, Trace.pure_eq_succeed] at h
      obtain ⟨_, middle, _, hmiddle, h₁, rfl⟩ := Trace.andThen_eq_ok.mp h
      obtain ⟨_, estimate, _, hestimate, h₂, rfl⟩ := Trace.andThen_eq_ok.mp h₁
      obtain ⟨_, passed, last, hprobes, h₃, rfl⟩ := Trace.andThen_eq_ok.mp h₂
      obtain ⟨rfl, hprepare⟩ := Trace.ofTable_eq_ok.mp hestimate
      obtain ⟨hx, _⟩ := column_eq_ok.mp hmiddle
      rw [← hx] at hinside hmiddle hprepare hprobes
      have htests := Tests.probed hdistance hx hinside hmiddle hprepare hprobes
      cases passed with
      | false =>
          obtain ⟨rfl, rfl⟩ := Trace.succeed_eq_ok.mp h₃
          simpa using htests
      | true =>
          obtain ⟨rfl, rfl⟩ := Trace.succeed_eq_ok.mp h₃
          simpa using htests
    next hinside => exact hreported (Or.inr hinside) h

theorem tests_of_test {verdict : Option (Column α)}
    (h : g.test init f a b = ⟨events, .ok verdict⟩) :
    g.Tests g.rule.primary.midpoint init f a b events verdict :=
  tests_of_testAt h

/-- Only an interval with the midpoint strictly inside is split. -/
theorem inside_of_testAt {midpoint : α → α → α} {m : Column α}
    (h : g.testAt midpoint init f a b = ⟨events, .ok (some m)⟩) : a.x < m.x ∧ m.x < b.x := by
  generalize hverdict : some m = verdict at h
  cases tests_of_testAt h with
  | short _ _ => cases hverdict
  | @probed _ _ passed _ _ _ _ inside _ _ _ =>
      cases passed with
      | true => cases hverdict
      | false =>
          obtain rfl := Option.some.inj hverdict
          exact inside

inductive Judges (g : PlaneGenerator α) (init : α → List α) (f : α → α → α) (a b : Column α) :
    Option (Column α) → Prop
  | accepts (h : g.Accepts init f a b) (strict : g.settings.reaction = .throw →
      g.Reproduces init f a b) : Judges g init f a b none
  | inserts {m : Column α} {events : List (Event α)} (inside : a.x < m.x ∧ m.x < b.x)
      (h : g.column init f m.x = ⟨events, .ok m⟩) : Judges g init f a b (some m)

theorem judges_of_test {verdict : Option (Column α)}
    (h : g.test init f a b = ⟨events, .ok verdict⟩) : g.Judges init f a b verdict := by
  cases tests_of_test h with
  | short reaction hshort =>
      refine .accepts (hshort.imp_right Or.inl) fun hthrow => ?_
      rw [reaction] at hthrow
      cases hthrow
  | @probed middle estimate passed _ _ _ midpoint inside column prepared probes =>
      cases passed with
      | false => exact .inserts inside column
      | true =>
          have passes := passes_of_checkProbes probes
          have reproduces : g.Reproduces init f a b := by
            rw [midpoint] at column prepared passes
            have probed := middle.slice.mem_probes g.rule.secondary
              (f (g.rule.primary.midpoint a.x b.x))
            exact ⟨_, middle.slice, estimate, (column_eq_ok.mp column).2, prepared,
              fun n hn => passes _ ((probed n).mpr (Or.inl hn)),
              fun q hq => passes _ ((probed _).mpr (Or.inr ⟨q, hq, rfl⟩))⟩
          exact .accepts (Or.inr (Or.inr reproduces)) fun _ => reproduces

variable (g init f)

theorem sweep_eq_bisect (allowed : Nat) (a : Column α) (pending : List (Column α)) :
    g.sweep init f allowed a pending = bisect (g.test init f) allowed a pending := by
  induction allowed, a, pending using bisect.induct with
  | case1 allowed a => rw [sweep, bisect]
  | case2 allowed a b rest accepted inserted =>
      rw [sweep, bisect]
      congr 1
      funext verdict
      cases verdict with
      | none => simp only [accepted]
      | some m =>
          cases allowed with
          | zero => rfl
          | succ left => exact inserted m

variable {g init f}

theorem columns_of_eachOk {xs : List α} {columns : List (Column α)}
    (h : Trace.EachOk (g.column init f) xs columns events) :
    columns.map (·.x) = xs ∧ ∀ c ∈ columns, ∃ events, g.column init f c.x = ⟨events, .ok c⟩ := by
  induction h with
  | nil => exact ⟨rfl, fun c hc => nomatch hc⟩
  | cons head _ ih =>
      obtain ⟨hx, _⟩ := column_eq_ok.mp head
      refine ⟨by rw [List.map_cons, hx, ih.1], fun c hc => ?_⟩
      cases List.mem_cons.mp hc with
      | inl heq =>
          rw [heq, hx]
          exact ⟨_, head⟩
      | inr hc => exact ih.2 c hc

variable (g init f)

/-- The run over a merged seed. -/
def grow (merged : List α) : Trace α (PlaneGrid α) :=
  (Trace.each (g.column init f) merged).andThen fun ends =>
    (Trace.each (g.refineInterval init f) (adjacent ends)).andThen fun pieces =>
      let columns := pieces.flatten ++ ends.getLast?.toList
      (g.logVerbose (columns.mapIdx fun i c => .addedPoint c.x i)).andThen fun _ =>
        .succeed ⟨columns⟩

theorem generate_eq_grow (seed : List α) :
    g.generate init f seed =
      (Trace.ofExcept (seedEnds g.rule.primary seed)).andThen fun ends =>
        let merged := g.mergedSeed seed ends.1 ends.2
        if seed.length < merged.length then
          (g.logVerbose [.addedCritical (merged.length - seed.length)]).andThen fun _ =>
            g.grow init f merged
        else g.grow init f merged := rfl

/-- The log of a run begins with that of the first slice. -/
theorem exists_events_grow (x : α) (rest : List α) :
    ∃ later, (g.grow init f (x :: rest)).events = (g.slice init f x).events ++ later := by
  have hcolumns : Trace.each (g.column init f) (x :: rest) =
      (g.column init f x).andThen fun c =>
        (Trace.each (g.column init f) rest).andThen fun cs => .succeed (c :: cs) := rfl
  rw [grow, hcolumns, column, Trace.andThen_assoc, Trace.andThen_assoc]
  exact Trace.exists_events_andThen _ _

/-- What a successful run consists of: the columns of the merged seed and their refinement. -/
structure Grown (merged : List α) (ends : List (Column α)) (grid : PlaneGrid α) : Prop where
  primary : ends.map (·.x) = merged
  columns : ∀ c ∈ ends, ∃ events, g.column init f c.x = ⟨events, .ok c⟩
  sweeps : ∀ {a rest}, ends = a :: rest → ∃ events,
    Sweeps (g.test init f) a rest grid.columns events
  empty : ends = [] → grid.columns = []

/-- The pieces of the intervals of a seed and its last column are a refinement of the seed. -/
theorem sweeps_of_refineIntervals {a : Column α} {rest : List (Column α)}
    {pieces : List (List (Column α))}
    (h : Trace.each (g.refineInterval init f) (adjacent (a :: rest)) = ⟨events, .ok pieces⟩) :
    Sweeps (g.test init f) a rest (pieces.flatten ++ (a :: rest).getLast?.toList) events := by
  have hlast : ((a :: rest).getLast?).toList = [rest.getLastD a] := by
    rw [List.getLast?_cons, List.getLastD_eq_getLast?]
    rfl
  rw [hlast]
  refine sweeps_of_pieces (fun {p _ xs} hrun => ?_) (Trace.each_eq_ok h)
  rw [refineInterval, sweep_eq_bisect] at hrun
  exact refines_of_bisect hrun

theorem grown_of_grow {merged : List α} {grid : PlaneGrid α}
    (h : g.grow init f merged = ⟨events, .ok grid⟩) : ∃ ends, g.Grown init f merged ends grid := by
  obtain ⟨_, ends, _, hends, h₁, rfl⟩ := Trace.andThen_eq_ok.mp h
  obtain ⟨swept, pieces, _, hpieces, h₂, rfl⟩ := Trace.andThen_eq_ok.mp h₁
  obtain ⟨_, ⟨⟩, _, _, h₃, rfl⟩ := Trace.andThen_eq_ok.mp h₂
  obtain ⟨rfl, rfl⟩ := Trace.succeed_eq_ok.mp h₃
  obtain ⟨primary, columns⟩ := columns_of_eachOk (Trace.each_eq_ok hends)
  refine ⟨ends, primary, columns, fun {a rest} hcons => ⟨swept, ?_⟩, fun hnil => ?_⟩
  · subst hcons
    exact g.sweeps_of_refineIntervals init f hpieces
  · subst hnil
    cases Trace.each_eq_ok hpieces
    rfl

/-- A run over a seed is one over the merged seed, after a note of the critical values in it. -/
theorem grow_of_generate {seed : List α} {grid : PlaneGrid α}
    (h : g.generate init f seed = ⟨events, .ok grid⟩) :
    ∃ first last noted grown, seedEnds g.rule.primary seed = .ok (first, last) ∧
      g.grow init f (g.mergedSeed seed first last) = ⟨grown, .ok grid⟩ ∧
      events = noted ++ grown ∧ ∀ e ∈ noted, ∃ count, e = .addedCritical count := by
  rw [generate_eq_grow] at h
  obtain ⟨_, ⟨first, last⟩, _, hseed, h₁, rfl⟩ := Trace.andThen_eq_ok.mp h
  obtain ⟨rfl, accepted⟩ := Trace.ofExcept_eq_ok.mp hseed
  simp only at h₁
  split at h₁
  next =>
    obtain ⟨noted, ⟨⟩, grown, hnoted, hgrow, rfl⟩ := Trace.andThen_eq_ok.mp h₁
    obtain rfl : (g.logVerbose _).events = noted := congrArg Trace.events hnoted
    refine ⟨first, last, _, grown, accepted, hgrow, rfl, fun e he => ?_⟩
    exact ⟨_, List.mem_singleton.mp (mem_of_mem_logVerbose he)⟩
  next => exact ⟨first, last, [], _, accepted, h₁, rfl, fun e he => (nomatch he)⟩

theorem grown_of_generate {seed : List α} {grid : PlaneGrid α}
    (h : g.generate init f seed = ⟨events, .ok grid⟩) :
    ∃ first last ends, seedEnds g.rule.primary seed = .ok (first, last) ∧
      g.Grown init f (g.mergedSeed seed first last) ends grid := by
  obtain ⟨first, last, _, _, accepted, hgrow, _⟩ := g.grow_of_generate init f h
  obtain ⟨ends, grown⟩ := g.grown_of_grow init f hgrow
  exact ⟨first, last, ends, accepted, grown⟩

end PlaneGenerator
end AdaptiveTables
