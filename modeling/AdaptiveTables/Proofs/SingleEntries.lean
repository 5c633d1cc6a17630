import Mathlib.Data.List.Pairwise
import Mathlib.Data.List.TakeWhile
import AdaptiveTables.Proofs.Bins
import AdaptiveTables.Proofs.DoubleOrder
import AdaptiveTables.Proofs.LineRuns

/-!
Queries answered by one entry. A query at a primary value finds the entry there, and a query
beyond an end finds the entry at that end while the limits are extended and fails otherwise. What
is found alone decides every answer: the policy, the rule, the settings and the random number that
would pick a side are not consulted.
-/

namespace AdaptiveTables

/-- A walk past satisfying elements only ends at the last of them. -/
theorem advance_of_forall {β : Type} {p : β → Bool} (here : β) {later : List β}
    (h : ∀ b ∈ later, p b = true) : advance p here later = (later.getLastD here, []) := by
  rw [advance_eq, List.takeWhile_eq_self_iff.mpr h, List.dropWhile_eq_nil_iff.mpr h]

variable {α δ : Type} [Scalar α] [Scalar.Ordered α]

/-- A walk over ascending entries ends at an entry that the query has reached, if it has not
reached the next one. -/
theorem advance_of_reached {x : α} {e here : PrimaryEntry α δ} {later : List (PrimaryEntry α δ)}
    {i : Nat} (ascending : (here :: later).Pairwise fun a b => a.value < b.value)
    (stored : (here :: later)[i]? = some e) (reached : e.value ≤ x)
    (past : ∀ next, (here :: later)[i + 1]? = some next → ¬next.value ≤ x) :
    advance (fun e => decide (e.value ≤ x)) here later = (e, later.drop i) := by
  induction i generalizing here later with
  | zero =>
      obtain rfl := Option.some.inj stored
      cases later with
      | nil => rfl
      | cons next rest => simp [advance, past next rfl]
  | succ i ih =>
      cases later with
      | nil => cases stored
      | cons next rest =>
          have htail := (List.pairwise_cons.mp ascending).2
          have hreached : next.value ≤ x := by
            cases i with
            | zero =>
                obtain rfl := Option.some.inj stored
                exact reached
            | succ i =>
                have hlt := (List.pairwise_cons.mp htail).1 e (List.mem_of_getElem? stored)
                exact Scalar.le_trans (Scalar.le_of_lt hlt) reached
          rw [advance, if_pos (decide_eq_true hreached), ih htail stored past]
          rfl

namespace PrimaryGrid

variable (g : PrimaryGrid α δ) {x : α}

omit [Scalar.Ordered α] in
theorem finite_values : ∀ v ∈ g.values, Scalar.isFinite v = true := by
  intro v hv
  obtain ⟨e, he, rfl⟩ := List.mem_map.mp hv
  exact g.finite e he

theorem entries_ascending : g.entries.Pairwise fun a b => a.value < b.value := by
  have hfinite : ∀ v ∈ g.values, Scale.linear.admits v = true := g.finite_values
  exact List.pairwise_map.mp (ascending_of_firstDescent? hfinite g.ascending)

theorem first_le {e : PrimaryEntry α δ} (he : e ∈ g.entries) : g.first.value ≤ e.value := by
  cases List.mem_cons.mp he with
  | inl heq =>
      rw [heq]
      exact Scalar.le_refl (Scalar.Ordered.number_of_finite (g.finite _ List.mem_cons_self))
  | inr hmem =>
      exact Scalar.le_of_lt ((List.pairwise_cons.mp g.entries_ascending).1 e hmem)

omit [Scalar.Ordered α] in
theorem last_eq_getLast : g.entries.getLast? = some g.last := by
  rw [entries, List.getLast?_cons_cons, List.getLast?_cons, last, List.getLastD_eq_getLast?]

theorem le_last {e : PrimaryEntry α δ} (he : e ∈ g.entries) : e.value ≤ g.last.value := by
  have hlast : g.entries.getLast (List.cons_ne_nil _ _) = g.last :=
    Option.some.inj ((List.getLast?_eq_some_getLast _).symm.trans g.last_eq_getLast)
  have hordered : g.entries.Pairwise fun a b => a.value ≤ b.value :=
    g.entries_ascending.imp fun hlt => Scalar.le_of_lt hlt
  rw [← hlast]
  refine hordered.rel_getLast_of_rel_getLast_getLast he (Scalar.le_refl ?_)
  exact Scalar.Ordered.number_of_finite (g.finite _ (List.getLast_mem _))

theorem lt_of_stored {i j : Nat} {e e' : PrimaryEntry α δ} (stored : g.entries[i]? = some e)
    (stored' : g.entries[j]? = some e') (h : i < j) : e.value < e'.value := by
  obtain ⟨hi, rfl⟩ := List.getElem?_eq_some_iff.mp stored
  obtain ⟨hj, rfl⟩ := List.getElem?_eq_some_iff.mp stored'
  exact List.pairwise_iff_getElem.mp g.entries_ascending i j hi hj h

/-- A query that has reached an entry and not the next one finds this entry, or the bin above it. -/
theorem locate_of_reached {i : Nat} {e : PrimaryEntry α δ} (stored : g.entries[i]? = some e)
    (reached : e.value ≤ x)
    (past : ∀ next, g.entries[i + 1]? = some next → ¬next.value ≤ x) :
    g.locate x =
      if e.value == x then .ok (.entry i e)
      else
        match g.entries.drop (i + 1) with
        | [] => g.beyond x i e
        | next :: _ => .ok (.bin i e next) := by
  have hfirst : g.first.value ≤ x :=
    Scalar.le_trans (g.first_le (List.mem_of_getElem? stored)) reached
  have hnumber : Scalar.isNumber x = true := (Scalar.number_of_le hfirst).2
  have hwalk := advance_of_reached g.entries_ascending stored reached past
  have hindex : i ≤ (g.second :: g.rest).length := by
    have hlt : i < g.entries.length := (List.getElem?_eq_some_iff.mp stored).1
    exact Nat.le_of_lt_succ hlt
  have hleft : (g.second :: g.rest).length - ((g.second :: g.rest).drop i).length = i := by
    rw [List.length_drop]
    omega
  simp only [locate, hnumber, decide_eq_true hfirst, Bool.not_true, Bool.false_eq_true,
    if_false, hwalk, hleft]
  rfl

theorem locate_of_beq {i : Nat} {e : PrimaryEntry α δ} (stored : g.entries[i]? = some e)
    (hx : (e.value == x) = true) : g.locate x = .ok (.entry i e) := by
  obtain ⟨hex, hxe⟩ := Scalar.beq_iff_le.mp hx
  have past : ∀ next, g.entries[i + 1]? = some next → ¬next.value ≤ x := fun next hnext hle =>
    Scalar.not_lt_of_le (Scalar.le_trans hle hxe) (g.lt_of_stored stored hnext (Nat.lt_succ_self i))
  rw [g.locate_of_reached stored hex past, if_pos hx]

theorem locate_of_between {i : Nat} {lower upper : PrimaryEntry α δ}
    (stored : g.entries[i]? = some lower) (stored' : g.entries[i + 1]? = some upper)
    (hlow : lower.value < x) (hhigh : x < upper.value) :
    g.locate x = .ok (.bin i lower upper) := by
  have past : ∀ next, g.entries[i + 1]? = some next → ¬next.value ≤ x := fun next hnext hle => by
    obtain rfl := Option.some.inj (stored'.symm.trans hnext)
    exact Scalar.not_lt_of_le hle hhigh
  have hne : ¬(lower.value == x) = true := fun heq =>
    Scalar.not_lt_of_le (Scalar.beq_iff_le.mp heq).2 hlow
  obtain ⟨hlength, rfl⟩ := List.getElem?_eq_some_iff.mp stored'
  rw [g.locate_of_reached stored (Scalar.le_of_lt hlow) past, if_neg hne,
    List.drop_eq_getElem_cons hlength]

theorem locate_of_lt (h : x < g.lowerLimit) : g.locate x = g.beyond x 0 g.first := by
  have hnumber : Scalar.isNumber x = true := (Scalar.Ordered.number_of_lt h).1
  have hbelow : ¬g.first.value ≤ x := fun hle => Scalar.not_lt_of_le hle h
  simp only [locate, hnumber, decide_eq_false hbelow, Bool.not_true, Bool.not_false,
    Bool.false_eq_true, if_false, if_true]

theorem locate_of_gt (h : g.upperLimit < x) :
    g.locate x = g.beyond x (g.size - 1) g.last := by
  have hnumber : Scalar.isNumber x = true := (Scalar.Ordered.number_of_lt h).2
  have hreached : ∀ e ∈ g.entries, e.value ≤ x := fun e he =>
    Scalar.le_trans (g.le_last he) (Scalar.le_of_lt h)
  have hwalk : advance (fun e => decide (e.value ≤ x)) g.first (g.second :: g.rest) =
      (g.last, []) := by
    rw [advance_of_forall g.first fun e he =>
      decide_eq_true (hreached e (List.mem_cons_of_mem _ he)), List.getLastD_cons]
    rfl
  have hpast : (g.last.value == x) = false :=
    Bool.eq_false_iff.mpr fun heq => Scalar.not_lt_of_le (Scalar.beq_iff_le.mp heq).2 h
  have hsize : (g.second :: g.rest).length - [].length (α := PrimaryEntry α δ) = g.size - 1 := rfl
  simp only [locate, hnumber, decide_eq_true (hreached _ List.mem_cons_self), Bool.not_true,
    Bool.false_eq_true, if_false, hwalk, hpast, hsize]

end PrimaryGrid

/-- A call that says what happens to queries beyond the primary values. -/
inductive LimitCall where
  | extend
  | limit
deriving DecidableEq, Repr

/-- Whether a call leaves the limits extended. -/
def LimitCall.extended : LimitCall → Bool
  | extend => true
  | limit => false

namespace PrimaryGrid

def setLimits (g : PrimaryGrid α δ) : LimitCall → PrimaryGrid α δ
  | .extend => g.extend
  | .limit => g.limit

/-- The grid after a sequence of calls. -/
def afterCalls (g : PrimaryGrid α δ) (calls : List LimitCall) : PrimaryGrid α δ :=
  calls.foldl setLimits g

omit [Scalar.Ordered α] in
theorem setLimits_eq (g : PrimaryGrid α δ) (call : LimitCall) :
    g.setLimits call = { g with extended := call.extended } := by
  cases call with
  | extend | limit => rfl

omit [Scalar.Ordered α] in
/-- A sequence of calls leaves the entries as they were, and its last call sets the limits. -/
theorem afterCalls_eq (g : PrimaryGrid α δ) (calls : List LimitCall) :
    g.afterCalls calls =
      { g with extended := (calls.getLast?.map LimitCall.extended).getD g.extended } := by
  induction calls generalizing g with
  | nil => rfl
  | cons call calls ih =>
      have hstep : g.afterCalls (call :: calls) = (g.setLimits call).afterCalls calls := rfl
      rw [hstep, ih, setLimits_eq]
      cases calls with
      | nil => rfl
      | cons next calls => rw [List.getLast?_cons_cons]; rfl

end PrimaryGrid

namespace BivariateDistribution

def setLimits (d : BivariateDistribution α) : LimitCall → BivariateDistribution α
  | .extend => d.extendBeyondPrimaryLimits
  | .limit => d.limitToPrimaryGrid

/-- The distribution after a sequence of calls. -/
def afterCalls (d : BivariateDistribution α) (calls : List LimitCall) : BivariateDistribution α :=
  calls.foldl setLimits d

/-- The same distribution with another answer to queries beyond the primary values. -/
def withExtended (d : BivariateDistribution α) (extended : Bool) : BivariateDistribution α :=
  { d with grid := { d.grid with extended } }

omit [Scalar.Ordered α] in
theorem setLimits_grid (d : BivariateDistribution α) (grid : PrimaryGrid α (Table α))
    (call : LimitCall) :
    ({ d with grid } : BivariateDistribution α).setLimits call =
      { d with grid := grid.setLimits call } := by
  cases call with
  | extend | limit => rfl

omit [Scalar.Ordered α] in
/-- A sequence of calls leaves everything as it was but the limits, which its last call sets. -/
theorem afterCalls_eq (d : BivariateDistribution α) (calls : List LimitCall) :
    d.afterCalls calls =
      d.withExtended ((calls.getLast?.map LimitCall.extended).getD d.grid.extended) := by
  have hgrid : d.afterCalls calls = { d with grid := d.grid.afterCalls calls } :=
    List.foldl_hom (fun grid => ({ d with grid } : BivariateDistribution α)) d.setLimits_grid
  rw [hgrid, PrimaryGrid.afterCalls_eq]
  rfl

/-- Every query at `x` is answered by the one table that was found, or fails as finding it did.
A sample is that table's own, and is recorded with the index of its entry. -/
structure AnswersBy (d : BivariateDistribution α) (x : α)
    (found : Except (TableError α) (Nat × Table α)) : Prop where
  evaluate : ∀ y, d.evaluate x y = found.map fun e => e.2.evaluate y
  pdf : ∀ y, d.conditionalPdf x y = found.map fun e => e.2.pdf y
  cdf : ∀ y, d.conditionalCdf x y = found.map fun e => e.2.cdf y
  lowerBound : d.conditionalLowerBound x = found.map fun e => e.2.lowerBound
  upperBound : d.conditionalUpperBound x = found.map fun e => e.2.upperBound
  sampleDetailed : ∀ u p, Scalar.inUnit u = true → Scalar.inUnit p = true →
    d.sampleDetailed x u p = found.map fun e => ⟨e.2.sample p, e.2.sample p, e.1⟩
  sampleBelow : ∀ u p limit, Scalar.inUnit u = true → Scalar.inUnit p = true →
    d.sampleBelow x u p limit = found.map fun e => e.2.sampleBelow p limit

omit [Scalar.Ordered α] in
theorem answersBy_of_locate {d : BivariateDistribution α} {x : α}
    (found : Except (TableError α) (Nat × PrimaryEntry α (Table α)))
    (h : d.grid.locate x = found.map fun e => .entry e.1 e.2) :
    d.AnswersBy x (found.map fun e => (e.1, e.2.item)) := by
  have hdispatch {β : Type} (single : Nat → Table α → β)
      (interior : Bin α → Except (TableError α) β) :
      d.dispatch x single interior =
        (found.map fun e => (e.1, e.2.item)).map fun e => single e.1 e.2 := by
    rw [dispatch, h]
    cases found with
    | error e => rfl
    | ok e => rfl
  refine ⟨fun y => ?_, fun y => ?_, fun y => ?_, ?_, ?_, fun u p hu hp => ?_,
    fun u p limit hu hp => ?_⟩
  · exact hdispatch (fun _ t => t.quantity .value y) fun b => d.policy.evaluate b .value y
  · exact hdispatch (fun _ t => t.quantity .density y) fun b => d.policy.evaluate b .density y
  · exact hdispatch (fun _ t => t.cdf y) _
  · exact hdispatch (fun _ t => t.lowerBound) _
  · exact hdispatch (fun _ t => t.upperBound) _
  · rw [BivariateDistribution.sampleDetailed, checkRandomNumber, checkRandomNumber, if_pos hu,
      if_pos hp]
    exact hdispatch (fun i t => SecondarySample.mk (t.sample p) (t.sample p) i)
      fun b => d.policy.sample b u p
  · rw [BivariateDistribution.sampleBelow, checkRandomNumber, checkRandomNumber, if_pos hu,
      if_pos hp]
    exact hdispatch (fun _ t => t.sampleBelow p limit) fun b => d.policy.sampleBelow b u p limit

theorem single_entries_answer {grid : PrimaryGrid α (Table α)} {policy : Policy}
    {rule : PlaneRule} {settings : EvaluationSettings α} {d : BivariateDistribution α}
    (built : build grid policy rule settings = .ok d) (calls : List LimitCall) (x : α) :
    let extended := (calls.getLast?.map LimitCall.extended).getD grid.extended
    let reached := d.afterCalls calls
    (∀ i e, grid.entries[i]? = some e → (e.value == x) = true →
      reached.AnswersBy x (.ok (i, e.item))) ∧
    (extended = true → x < grid.lowerLimit → reached.AnswersBy x (.ok (0, grid.first.item))) ∧
    (extended = true → grid.upperLimit < x →
      reached.AnswersBy x (.ok (grid.size - 1, grid.last.item))) ∧
    (extended = false → x < grid.lowerLimit ∨ grid.upperLimit < x →
      reached.AnswersBy x (.error (.outOfRange x grid.lowerLimit grid.upperLimit))) := by
  obtain rfl := eq_of_build built
  intro extended reached
  have hreached : reached = withExtended ⟨grid, policy, rule, settings⟩ extended :=
    afterCalls_eq _ calls
  have hbelow (h : x < grid.lowerLimit) :
      reached.grid.locate x = reached.grid.beyond x 0 grid.first := by
    rw [hreached]
    exact PrimaryGrid.locate_of_lt _ h
  have habove (h : grid.upperLimit < x) :
      reached.grid.locate x = reached.grid.beyond x (grid.size - 1) grid.last := by
    rw [hreached]
    exact PrimaryGrid.locate_of_gt _ h
  have hbeyond (index : Nat) (nearest : PrimaryEntry α (Table α)) :
      reached.grid.beyond x index nearest =
        if extended then .ok (.entry index nearest)
        else .error (.outOfRange x grid.lowerLimit grid.upperLimit) := by
    rw [hreached]
    rfl
  refine ⟨fun i e stored hx => ?_, fun hextended h => ?_, fun hextended h => ?_,
    fun hlimited h => ?_⟩
  · refine answersBy_of_locate (.ok (i, e)) ?_
    rw [hreached]
    exact PrimaryGrid.locate_of_beq _ stored hx
  · refine answersBy_of_locate (.ok (0, grid.first)) ?_
    rw [hbelow h, hbeyond, if_pos hextended]
    rfl
  · refine answersBy_of_locate (.ok (grid.size - 1, grid.last)) ?_
    rw [habove h, hbeyond, if_pos hextended]
    rfl
  · refine answersBy_of_locate (.error (.outOfRange x grid.lowerLimit grid.upperLimit)) ?_
    cases h with
    | inl h =>
        rw [hbelow h, hbeyond, hlimited]
        rfl
    | inr h =>
        rw [habove h, hbeyond, hlimited]
        rfl

/-- A table of constant density one from zero to a width. -/
def level (width : Float) : Table Float :=
  ⟨⟨0.0, width, 1.0, 0.0, 0.0⟩, [], ⟨width, 1.0⟩, width⟩

def stepGrid : PrimaryGrid Float (Table Float) where
  first := ⟨1.0, level 1.0⟩
  second := ⟨2.0, level 4.0⟩
  rest := []
  finite := by decide +kernel
  ascending := rfl

theorem build_stepGrid (policy : Policy) :
    build stepGrid policy .linear .standard = .ok ⟨stepGrid, policy, .linear, .standard⟩ := by
  cases policy with
  | direct | unitBase | correlated | unitBaseCorrelated | cumulativePoints => rfl

theorem stepGrid_answers :
    let d : BivariateDistribution Float := ⟨stepGrid, .cumulativePoints, .linear, .standard⟩
    (d.afterCalls []).AnswersBy 2.0 (.ok (1, level 4.0)) ∧
      (d.afterCalls [.limit, .extend]).AnswersBy 0.5 (.ok (0, level 1.0)) ∧
      (d.afterCalls [.limit, .extend]).AnswersBy 3.0 (.ok (1, level 4.0)) ∧
      (d.afterCalls [.extend, .limit]).AnswersBy 3.0 (.error (.outOfRange 3.0 1.0 2.0)) := by
  have hbuilt := build_stepGrid .cumulativePoints
  obtain ⟨stored, _⟩ := single_entries_answer hbuilt [] 2.0
  obtain ⟨_, below, _⟩ := single_entries_answer hbuilt [.limit, .extend] 0.5
  obtain ⟨_, _, above, _⟩ := single_entries_answer hbuilt [.limit, .extend] 3.0
  obtain ⟨_, _, _, refused⟩ := single_entries_answer hbuilt [.extend, .limit] 3.0
  exact ⟨stored 1 _ rfl (by decide +kernel), below rfl (by decide +kernel),
    above rfl (by decide +kernel), refused rfl (Or.inr (by decide +kernel))⟩

end BivariateDistribution
end AdaptiveTables
