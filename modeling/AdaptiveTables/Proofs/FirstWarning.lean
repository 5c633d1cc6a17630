import AdaptiveTables.Proofs.LineFixedPoints
import AdaptiveTables.Proofs.PlaneStructure

/-!
Runs that refuse dirty intervals. A generator that throws does what one that warns does, up to the
first warning, and fails there with the cause that the warning names. The cut commutes with the
composition of runs, so it is found for one report and passes from there to every run.
-/

namespace AdaptiveTables

/-- The cause that an event warns of. -/
def Event.warning? {α : Type} : Event α → Option (Dirty α)
  | .warning _ cause => some cause
  | _ => none

namespace Trace

variable {α β γ : Type}

/-- A run that fails at its first warning. -/
def strict (t : Trace α β) : Trace α β :=
  match t.events.findSome? Event.warning? with
  | none => t
  | some cause =>
    ⟨t.events.takeWhile (·.warning?.isNone), .error (.dirtyConvergence cause)⟩

/-- One run is another one cut at its first warning. -/
structure CutAtWarning (lenient strict : Trace α β) : Prop where
  same : (∀ e ∈ lenient.events, e.warning? = none) → strict = lenient
  cut : ∀ before origin cause after, lenient.events = before ++ .warning origin cause :: after →
    (∀ e ∈ before, e.warning? = none) → strict = ⟨before, .error (.dirtyConvergence cause)⟩

theorem strict_of_silent {t : Trace α β} (h : ∀ e ∈ t.events, e.warning? = none) :
    t.strict = t := by
  rw [strict, List.findSome?_eq_none_iff.mpr h]

theorem strict_of_warning {before after : List (Event α)} {e : Event α} {cause : Dirty α}
    {outcome : Except (GridError α) β} (silent : ∀ e ∈ before, e.warning? = none)
    (h : e.warning? = some cause) :
    (⟨before ++ e :: after, outcome⟩ : Trace α β).strict =
      ⟨before, .error (.dirtyConvergence cause)⟩ := by
  have hfind : (before ++ e :: after).findSome? Event.warning? = some cause :=
    List.findSome?_eq_some_iff.mpr ⟨before, e, after, rfl, h, silent⟩
  have hbefore : (before ++ e :: after).takeWhile (·.warning?.isNone) = before := by
    rw [List.takeWhile_append_of_pos (by simpa using silent),
      List.takeWhile_cons_of_neg (by simp [h]), List.append_nil]
  simp only [strict, hfind, hbefore]

theorem cutAtWarning_strict (t : Trace α β) : t.CutAtWarning t.strict := by
  constructor
  · exact strict_of_silent
  · intro before origin cause after hevents silent
    obtain ⟨events, outcome⟩ := t
    cases hevents
    exact strict_of_warning silent rfl

@[simp]
theorem strict_succeed (v : β) : (succeed v : Trace α β).strict = succeed v := rfl

@[simp]
theorem strict_ofExcept (r : Except (GridError α) β) : (ofExcept r).strict = ofExcept r := by
  cases r <;> rfl

@[simp]
theorem strict_ofTable (r : Except (TableError α) β) : (ofTable r).strict = ofTable r := by
  cases r <;> rfl

@[simp]
theorem strict_andThen (t : Trace α β) (f : β → Trace α γ) :
    (t.andThen f).strict = t.strict.andThen fun v => (f v).strict := by
  obtain ⟨events, outcome⟩ := t
  cases hfind : events.findSome? Event.warning? with
  | none =>
      have silent := List.findSome?_eq_none_iff.mp hfind
      rw [strict_of_silent (t := ⟨events, outcome⟩) silent]
      cases outcome with
      | error e => exact strict_of_silent silent
      | ok v =>
          simp only [andThen, strict, List.findSome?_append, hfind, Option.none_or]
          cases (f v).events.findSome? Event.warning? with
          | none => rfl
          | some cause =>
              simp only
              rw [List.takeWhile_append_of_pos (by simpa using silent)]
  | some cause =>
      -- The warning is in the first run, and what follows it is cut off.
      obtain ⟨before, e, after, rfl, hwarning, silent⟩ := List.findSome?_eq_some_iff.mp hfind
      rw [strict_of_warning silent hwarning]
      cases outcome with
      | error failure => exact strict_of_warning silent hwarning
      | ok v =>
          simp only [andThen, List.append_assoc, List.cons_append]
          exact strict_of_warning silent hwarning

theorem strict_each (f : β → Trace α γ) (bs : List β) :
    (each f bs).strict = each (fun b => (f b).strict) bs := by
  induction bs with
  | nil => rfl
  | cons b bs ih => simp [each, ih]

end Trace

theorem bisect_strict {α β : Type} {test refusing : β → β → Trace α (Option β)}
    (h : ∀ a b, refusing a b = (test a b).strict) (allowed : Nat) (a : β) (pending : List β) :
    bisect refusing allowed a pending = (bisect test allowed a pending).strict := by
  induction allowed, a, pending using bisect.induct with
  | case1 allowed a => simp [bisect]
  | case2 allowed a b rest accepted inserted =>
      rw [bisect, bisect, Trace.strict_andThen, h]
      congr 1
      funext verdict
      cases verdict with
      | none => simp [accepted]
      | some m =>
          cases allowed with
          | zero => rfl
          | succ left => exact inserted m

variable {α : Type} [Scalar α]

namespace LineGenerator

/-- The generator with another reaction to dirty intervals. -/
def reacting (g : LineGenerator α) (reaction : Reaction) : LineGenerator α :=
  { g with settings := { g.settings with reaction } }

variable (g : LineGenerator α) (f : α → α)

theorem step_throw (a b : Node α) :
    (g.reacting .throw).step f a b = ((g.reacting .warn).step f a b).strict := by
  have htest : (g.reacting .throw).testAt (g.reacting .throw).rule.midpoint f a b =
      (g.reacting .warn).testAt (g.reacting .warn).rule.midpoint f a b := rfl
  rw [step, step, stepAt, stepAt, htest]
  cases (g.reacting .warn).testAt (g.reacting .warn).rule.midpoint f a b with
  | error e => rfl
  | ok tested =>
      obtain ⟨m, verdict⟩ := tested
      cases verdict <;> rfl

theorem sweep_throw (allowed : Nat) (a : Node α) (pending : List (Node α)) :
    (g.reacting .throw).sweep f allowed a pending =
      ((g.reacting .warn).sweep f allowed a pending).strict := by
  rw [sweep_eq_bisect, sweep_eq_bisect, bisect_strict (g.step_throw f)]
  simp

variable [Resolution α]

theorem refineBetween_throw (points : List α) (lo hi : α) :
    (g.reacting .throw).refineBetween f points lo hi =
      ((g.reacting .warn).refineBetween f points lo hi).strict := by
  simp only [refineBetween, Trace.bind_eq_andThen, Trace.pure_eq_succeed, Trace.strict_andThen,
    Trace.strict_each, Trace.strict_ofExcept, Trace.strict_succeed, g.sweep_throw f]
  rfl

theorem generate_throw (seed : List α) :
    (g.reacting .throw).generate f seed = ((g.reacting .warn).generate f seed).strict := by
  simp only [generate, Trace.bind_eq_andThen, Trace.strict_andThen, Trace.strict_ofExcept,
    g.refineBetween_throw f]
  rfl

theorem refine_throw (points : List α) (lo hi : α) :
    (g.reacting .throw).refine f points lo hi =
      ((g.reacting .warn).refine f points lo hi).strict := by
  simp only [refine, Trace.bind_eq_andThen, Trace.strict_andThen, Trace.strict_ofExcept,
    g.refineBetween_throw f]
  rfl

end LineGenerator

namespace PlaneGenerator

/-- The generator with another reaction to dirty intervals, of its slices as well. -/
def reacting (g : PlaneGenerator α) (reaction : Reaction) : PlaneGenerator α :=
  { g with settings := { g.settings with reaction } }

variable (g : PlaneGenerator α)

omit [Scalar α] in
theorem report_throw (cause : Dirty α) :
    (g.reacting .throw).report cause = ((g.reacting .warn).report cause).strict := rfl

omit [Scalar α] in
theorem logVerbose_throw {events : List (Event α)} (h : ∀ e ∈ events, e.warning? = none) :
    (g.reacting .throw).logVerbose events = ((g.reacting .warn).logVerbose events).strict := by
  have silent : (Trace.log events : Trace α Unit).strict = Trace.log events :=
    Trace.strict_of_silent h
  simp only [logVerbose]
  rw [apply_ite Trace.strict, silent]
  rfl

theorem checkProbe_throw (a b : Column α) (x : α) (estimate : α → Except (TableError α) α)
    (probe : Node α) :
    (g.reacting .throw).checkProbe a b x estimate probe =
      ((g.reacting .warn).checkProbe a b x estimate probe).strict := by
  simp only [checkProbe, Trace.bind_eq_andThen, Trace.pure_eq_succeed, Trace.strict_andThen,
    Trace.strict_ofTable]
  congr 1
  funext z
  rw [← logVerbose_throw g (by simp [Event.warning?])]
  congr 1
  funext _
  simp only [reacting]
  cases (g.settings.tolerances.checkPoint a.x b.x probe.x probe.y z) <;> rfl

theorem checkProbes_throw (a b : Column α) (x : α) (estimate : α → Except (TableError α) α)
    (probes : List (Node α)) :
    (g.reacting .throw).checkProbes a b x estimate probes =
      ((g.reacting .warn).checkProbes a b x estimate probes).strict := by
  induction probes with
  | nil => rfl
  | cons probe rest ih =>
      simp only [checkProbes, Trace.bind_eq_andThen, Trace.pure_eq_succeed, Trace.strict_andThen,
        ← checkProbe_throw]
      congr 1
      funext accepted
      cases accepted with
      | false => rfl
      | true => exact ih

variable [Resolution α] (init : α → List α) (f : α → α → α)

theorem column_throw (x : α) :
    (g.reacting .throw).column init f x = ((g.reacting .warn).column init f x).strict := by
  have hslice : (g.reacting .throw).slice init f x =
      ((g.reacting .warn).slice init f x).strict := g.secondary.generate_throw (f x) (init x)
  simp only [column, Trace.strict_andThen, hslice, Trace.strict_succeed]

theorem test_throw (a b : Column α) :
    (g.reacting .throw).test init f a b = ((g.reacting .warn).test init f a b).strict := by
  have hpassed : ∀ (middle : Column α) (passed : Bool),
      (if passed then Trace.succeed none else Trace.succeed (some middle) :
        Trace α (Option (Column α))).strict =
      if passed then .succeed none else .succeed (some middle) := by
    intro middle passed
    cases passed <;> rfl
  have htolerances : ∀ reaction, (g.reacting reaction).settings.tolerances =
      g.settings.tolerances := fun _ => rfl
  simp only [test, testAt, htolerances, column_throw, report_throw, checkProbes_throw,
    Trace.bind_eq_andThen, Trace.pure_eq_succeed]
  cases g.settings.tolerances.checkDistance a.x b.x with
  | some cause => simp
  | none =>
      simp only
      rw [apply_ite Trace.strict]
      simp only [Trace.strict_andThen, Trace.strict_ofTable, hpassed]
      rfl

theorem refineInterval_throw (interval : Column α × Column α) :
    (g.reacting .throw).refineInterval init f interval =
      ((g.reacting .warn).refineInterval init f interval).strict := by
  simp only [refineInterval, sweep_eq_bisect]
  exact bisect_strict (g.test_throw init f) _ _ _

theorem grow_throw (merged : List α) :
    (g.reacting .throw).grow init f merged =
      ((g.reacting .warn).grow init f merged).strict := by
  have hadded : ∀ columns : List (Column α),
      ∀ e ∈ columns.mapIdx (fun i c => Event.addedPoint c.x i), e.warning? = none := by
    intro columns e he
    obtain ⟨i, hi, rfl⟩ := List.mem_mapIdx.mp he
    rfl
  have hcolumns : (g.reacting .throw).column init f =
      fun x => ((g.reacting .warn).column init f x).strict := funext (g.column_throw init f)
  have hpieces : (g.reacting .throw).refineInterval init f =
      fun interval => ((g.reacting .warn).refineInterval init f interval).strict :=
    funext (g.refineInterval_throw init f)
  simp only [grow, Trace.strict_andThen, Trace.strict_each, Trace.strict_succeed, hcolumns,
    hpieces, g.logVerbose_throw (hadded _)]

theorem generate_throw (seed : List α) :
    (g.reacting .throw).generate init f seed =
      ((g.reacting .warn).generate init f seed).strict := by
  simp only [generate_eq_grow, Trace.strict_andThen, Trace.strict_ofExcept,
    apply_ite Trace.strict, g.grow_throw init f]
  congr 1
  funext ends
  rw [← logVerbose_throw g (by simp [Event.warning?])]
  rfl

end PlaneGenerator

/-- A generator that throws is the one that warns, cut at its first warning: without a warning the
two runs are the same, and otherwise the cause of the first one is the error. -/
theorem throw_is_cut_warn [Resolution α] :
    (∀ (g : LineGenerator α) (f : α → α),
      (∀ seed, ((g.reacting .warn).generate f seed).CutAtWarning
        ((g.reacting .throw).generate f seed)) ∧
      ∀ points lo hi, ((g.reacting .warn).refine f points lo hi).CutAtWarning
        ((g.reacting .throw).refine f points lo hi)) ∧
    ∀ (g : PlaneGenerator α) (init : α → List α) (f : α → α → α) (seed : List α),
      ((g.reacting .warn).generate init f seed).CutAtWarning
        ((g.reacting .throw).generate init f seed) := by
  refine ⟨?_, ?_⟩
  · intro g f
    refine ⟨?_, ?_⟩
    · intro seed
      rw [g.generate_throw f seed]
      exact Trace.cutAtWarning_strict _
    · intro points lo hi
      rw [g.refine_throw f points lo hi]
      exact Trace.cutAtWarning_strict _
  · intro g init f seed
    rw [g.generate_throw init f seed]
    exact Trace.cutAtWarning_strict _

/-- A function that vanishes at zero and one and is largest halfway between them. -/
def ridge (x y : Float) : Float :=
  (if x < 0.5 then 2.0 * x else 2.0 * (1.0 - x)) * (0.25 + y)

def ridgeColumn (x : Float) : Column Float := ⟨x, ⟨0.0, ridge x 0.0⟩, [⟨1.0, ridge x 1.0⟩]⟩

namespace PlaneGenerator

def coarse : PlaneGenerator Float :=
  { rule := .linear, settings := ⟨⟨0.5, 0.25, 0.0⟩, .warn, false⟩ }

theorem ridge_column {x : Float} {m : Node Float}
    (usable : ∀ y ∈ [(0.0 : Float), 1.0], Scalar.isFinite (ridge x y) = true)
    (converged : coarse.secondary.test (ridge x) ⟨0.0, ridge x 0.0⟩ ⟨1.0, ridge x 1.0⟩ =
      .ok (m, .converged)) :
    coarse.column (fun _ => [0.0, 1.0]) ridge x = ⟨[], .ok (ridgeColumn x)⟩ := by
  have hslice : coarse.secondary.generate (ridge x) [0.0, 1.0] = _ :=
    LineGenerator.generate_pair rfl usable converged rfl
  exact column_eq_ok.mpr ⟨rfl, hslice⟩

set_option maxRecDepth 20000 in
theorem ridge_columns : ∀ x ∈ [(0.0 : Float), 0.25, 0.5, 0.75, 1.0],
    coarse.column (fun _ => [0.0, 1.0]) ridge x = ⟨[], .ok (ridgeColumn x)⟩ := by
  intro x hx
  simp only [List.mem_cons, List.not_mem_nil, or_false] at hx
  rcases hx with rfl | rfl | rfl | rfl | rfl
  · exact ridge_column (by decide +kernel) rfl
  · exact ridge_column (by decide +kernel) rfl
  · exact ridge_column (by decide +kernel) rfl
  · exact ridge_column (by decide +kernel) rfl
  · exact ridge_column (by decide +kernel) rfl

/-- The cause at the first probe between zero and one. The second probe asks for the split. -/
def ridgeCause : Dirty Float := .closeValues 0.0 1.0 0.0 0.25 0.0

def ridgeGrid : PlaneGrid Float := ⟨[ridgeColumn 0.0, ridgeColumn 0.5, ridgeColumn 1.0]⟩

set_option maxRecDepth 20000 in
theorem ridge_tests :
    coarse.test (fun _ => [0.0, 1.0]) ridge (ridgeColumn 0.0) (ridgeColumn 1.0) =
        ⟨[.warning .plane ridgeCause], .ok (some (ridgeColumn 0.5))⟩ ∧
      coarse.test (fun _ => [0.0, 1.0]) ridge (ridgeColumn 0.0) (ridgeColumn 0.5) =
        ⟨[], .ok none⟩ ∧
      coarse.test (fun _ => [0.0, 1.0]) ridge (ridgeColumn 0.5) (ridgeColumn 1.0) =
        ⟨[], .ok none⟩ := by
  refine ⟨?_, ?_, ?_⟩
  · have hcolumn := ridge_columns 0.5 (by simp)
    have hmid : coarse.rule.primary.midpoint (ridgeColumn 0.0).x (ridgeColumn 1.0).x = 0.5 := rfl
    simp only [test, testAt, hmid, hcolumn]
    rfl
  · have hcolumn := ridge_columns 0.25 (by simp)
    have hmid : coarse.rule.primary.midpoint (ridgeColumn 0.0).x (ridgeColumn 0.5).x = 0.25 := rfl
    simp only [test, testAt, hmid, hcolumn]
    rfl
  · have hcolumn := ridge_columns 0.75 (by simp)
    have hmid : coarse.rule.primary.midpoint (ridgeColumn 0.5).x (ridgeColumn 1.0).x = 0.75 := rfl
    simp only [test, testAt, hmid, hcolumn]
    rfl

theorem ridge_refineInterval :
    coarse.refineInterval (fun _ => [0.0, 1.0]) ridge (ridgeColumn 0.0, ridgeColumn 1.0) =
      ⟨[.warning .plane ridgeCause], .ok [ridgeColumn 0.0, ridgeColumn 0.5]⟩ := by
  obtain ⟨whole, lower, upper⟩ := ridge_tests
  obtain ⟨left, hallowed⟩ : ∃ left, Resolution.valuesAbove (0.0 : Float) 1.0 = left + 1 :=
    Nat.exists_eq_succ_of_ne_zero (by decide +kernel)
  have hends : Resolution.valuesAbove (ridgeColumn 0.0).x (ridgeColumn 1.0).x = left + 1 := hallowed
  rw [refineInterval, hends, sweep, whole]
  simp only [Trace.andThen, sweep, lower, upper]
  rfl

theorem ridge_mergedSeed : coarse.mergedSeed [0.0, 1.0] 0.0 1.0 = [0.0, 1.0] :=
  mergedSeed_of_ascending rfl (by decide +kernel) _ _

theorem ridge_generate :
    coarse.generate (fun _ => [0.0, 1.0]) ridge [0.0, 1.0] =
      ⟨[.warning .plane ridgeCause], .ok ridgeGrid⟩ := by
  have hends : Trace.each (coarse.column (fun _ => [0.0, 1.0]) ridge) [0.0, 1.0] =
      ⟨[], .ok [ridgeColumn 0.0, ridgeColumn 1.0]⟩ := by
    simp only [Trace.each, ridge_columns 0.0 (by simp), ridge_columns 1.0 (by simp)]
    rfl
  have hpieces : Trace.each (coarse.refineInterval (fun _ => [0.0, 1.0]) ridge)
      [(ridgeColumn 0.0, ridgeColumn 1.0)] =
        ⟨[.warning .plane ridgeCause], .ok [[ridgeColumn 0.0, ridgeColumn 0.5]]⟩ := by
    simp only [Trace.each, ridge_refineInterval]
    rfl
  rw [generate_eq_grow]
  refine Trace.andThen_eq_ok.mpr ⟨[], (0.0, 1.0), _, rfl, ?_, rfl⟩
  simp only [ridge_mergedSeed, Nat.lt_irrefl, if_false]
  refine Trace.andThen_eq_ok.mpr ⟨[], _, _, hends, ?_, rfl⟩
  exact Trace.andThen_eq_ok.mpr ⟨_, _, [], hpieces, rfl, rfl⟩

/-- The generator with a critical value and a log of its steps. -/
def noted : PlaneGenerator Float :=
  { coarse with settings := { coarse.settings with verbose := true }, critical := [0.5] }

/-- The cause in the slice at zero, along the ridge's other coordinate. -/
def sliceCause : Dirty Float := .closeValues 0.0 1.0 0.5 0.25 0.0

set_option maxRecDepth 20000 in
theorem noted_slice :
    (noted.slice (fun _ => [0.0, 1.0]) (flip ridge) 0.0).events = [.warning .line sliceCause] := by
  have tested : noted.secondary.test (flip ridge 0.0) (nodeOf (flip ridge 0.0) 0.0)
      (nodeOf (flip ridge 0.0) 1.0) = .ok (⟨0.5, 0.25⟩, .dirty sliceCause) := rfl
  have hslice : noted.secondary.generate (flip ridge 0.0) [0.0, 1.0] = _ :=
    LineGenerator.generate_pair rfl (by decide +kernel) tested rfl
  exact congrArg Trace.events hslice

theorem noted_mergedSeed : noted.mergedSeed [0.0, 1.0] 0.0 1.0 = [0.0, 0.5, 1.0] :=
  mergedSeed_of_perm (by decide +kernel) (by decide +kernel)

theorem noted_events : ∃ after,
    (noted.generate (fun _ => [0.0, 1.0]) (flip ridge) [0.0, 1.0]).events =
      [.addedCritical 1] ++ .warning .line sliceCause :: after := by
  obtain ⟨after, hgrow⟩ :=
    noted.exists_events_grow (fun _ => [0.0, 1.0]) (flip ridge) 0.0 [0.5, 1.0]
  rw [noted_slice] at hgrow
  refine ⟨after, ?_⟩
  have hends : seedEnds noted.rule.primary [(0.0 : Float), 1.0] = .ok (0.0, 1.0) := rfl
  rw [generate_eq_grow, hends]
  simp only [Trace.ofExcept, Trace.succeed_andThen, noted_mergedSeed]
  change [Event.addedCritical 1] ++ (noted.grow _ _ [0.0, 0.5, 1.0]).events = _
  rw [hgrow]
  rfl

/-- A run whose first warning comes from the plane, one whose first warning comes from a slice, and
the run over that slice. -/
theorem ridge_throws :
    let init : Float → List Float := fun _ => [0.0, 1.0]
    ((coarse.reacting .warn).generate init ridge [0.0, 1.0] =
        ⟨[.warning .plane ridgeCause], .ok ridgeGrid⟩ ∧
      (coarse.reacting .throw).generate init ridge [0.0, 1.0] =
        ⟨[], .error (.dirtyConvergence ridgeCause)⟩) ∧
    ((∃ after, ((noted.reacting .warn).generate init (flip ridge) [0.0, 1.0]).events =
        [.addedCritical 1] ++ .warning .line sliceCause :: after) ∧
      (noted.reacting .throw).generate init (flip ridge) [0.0, 1.0] =
        ⟨[.addedCritical 1], .error (.dirtyConvergence sliceCause)⟩) ∧
    ((noted.secondary.reacting .warn).generate (flip ridge 0.0) [0.0, 1.0]).events =
        [.warning .line sliceCause] ∧
      (noted.secondary.reacting .throw).generate (flip ridge 0.0) [0.0, 1.0] =
        ⟨[], .error (.dirtyConvergence sliceCause)⟩ := by
  intro init
  obtain ⟨lines, planes⟩ := throw_is_cut_warn (α := Float)
  have hplane : ((coarse.reacting .warn).generate init ridge [0.0, 1.0]).events =
      [] ++ .warning .plane ridgeCause :: [] := congrArg Trace.events ridge_generate
  obtain ⟨after, hslice⟩ : ∃ after,
      ((noted.reacting .warn).generate init (flip ridge) [0.0, 1.0]).events =
        [.addedCritical 1] ++ .warning .line sliceCause :: after := noted_events
  have silent : ∀ e ∈ [(.addedCritical 1 : Event Float)], e.warning? = none := by
    simp [Event.warning?]
  obtain ⟨cutLine, _⟩ := lines noted.secondary (flip ridge 0.0)
  exact ⟨⟨ridge_generate, (planes coarse init ridge _).cut [] _ _ _ hplane (by simp)⟩,
    ⟨⟨after, hslice⟩, (planes noted init (flip ridge) _).cut _ _ _ _ hslice silent⟩,
    noted_slice, (cutLine _).cut [] _ _ [] noted_slice (by simp)⟩

end PlaneGenerator
end AdaptiveTables
