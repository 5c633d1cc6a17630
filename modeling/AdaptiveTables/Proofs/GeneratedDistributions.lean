import AdaptiveTables.Proofs.AffineFunctions
import AdaptiveTables.Proofs.PrimaryGrids
import AdaptiveTables.Proofs.TableNodes

/-!
Distributions over generated grids. What a generator checks of its seeds is what the primary grid
and the distribution check of their values and bounds, so only the settings and the slices
themselves can be refused: a slice with a negative value, or without a positive one, is no density.
Every other grid becomes a distribution that gives back the function at all its points.
-/

namespace AdaptiveTables

section Results

variable {ε β γ : Type} {f : β → Except ε γ} {bs : List β}

/-- A list of results is what each element gives. -/
theorem forall₂_of_mapM {cs : List γ} (h : bs.mapM f = .ok cs) :
    List.Forall₂ (fun b c => f b = .ok c) bs cs := by
  induction bs generalizing cs with
  | nil =>
      obtain rfl := Except.ok.inj h
      exact .nil
  | cons b bs ih =>
      rw [List.mapM_cons] at h
      obtain ⟨c, hc, hrest⟩ := exists_of_bind_eq_ok h
      obtain ⟨later, hlater, hcons⟩ := exists_of_bind_eq_ok hrest
      obtain rfl := Except.ok.inj hcons
      exact .cons hc (ih hlater)

/-- A list of results fails as one of its elements does. -/
theorem exists_of_mapM_error {e : ε} (h : bs.mapM f = .error e) : ∃ b ∈ bs, f b = .error e := by
  induction bs with
  | nil => cases h
  | cons b bs ih =>
      rw [List.mapM_cons] at h
      cases hb : f b with
      | error e' =>
          rw [hb] at h
          obtain rfl := Except.error.inj h
          exact ⟨b, List.mem_cons_self, hb⟩
      | ok c =>
          cases hbs : bs.mapM f with
          | error e' =>
              rw [hb, hbs] at h
              obtain rfl := Except.error.inj h
              obtain ⟨b', hmem, hb'⟩ := ih hbs
              exact ⟨b', List.mem_cons_of_mem _ hmem, hb'⟩
          | ok cs =>
              rw [hb, hbs] at h
              cases h

end Results

/-- Points that begin and end at different values are at least two. -/
theorem two_le_of_ends {α : Type} [Scalar α] [Scalar.Ordered α] {points : List α} {first last : α}
    (head : (points.head? == some first) = true) (getLast : (points.getLast? == some last) = true)
    (range : first < last) : 2 ≤ points.length := by
  match points with
  | [] => cases head
  | [x] =>
      have hfirst : x ≤ first := (Scalar.beq_iff_le.mp head).1
      have hlast : last ≤ x := (Scalar.beq_iff_le.mp getLast).2
      exact absurd range (Scalar.not_lt_of_le (Scalar.le_trans hlast hfirst))
  | _ :: _ :: _ => simp

/-- A slice that is not a density: a value is negative, or none is positive. -/
def LineGrid.NoDensity (s : LineGrid ℝ) : Prop :=
  (∃ z ∈ s.values, z < 0) ∨ ∀ z ∈ s.values, z = 0

namespace LineGrid

variable {s : LineGrid ℝ}

theorem not_noDensity_iff :
    ¬s.NoDensity ↔ (∀ z ∈ s.values, 0 ≤ z) ∧ ∃ z ∈ s.values, 0 < z := by
  rw [NoDensity, not_or]
  constructor
  · rintro ⟨negative, zero⟩
    have nonneg : ∀ z ∈ s.values, 0 ≤ z := fun z hz =>
      not_lt.mp fun hlt => negative ⟨z, hz, hlt⟩
    refine ⟨nonneg, ?_⟩
    by_contra positive
    exact zero fun z hz => le_antisymm (not_lt.mp fun hlt => positive ⟨z, hz, hlt⟩) (nonneg z hz)
  · rintro ⟨nonneg, z, hz, positive⟩
    exact ⟨fun ⟨w, hw, hlt⟩ => absurd (nonneg w hw) (not_le.mpr hlt),
      fun zero => positive.ne' (zero z hz)⟩

/-- The table of a slice. -/
noncomputable def table (s : LineGrid ℝ) : Except (TableError ℝ) (Table ℝ) :=
  Table.ofColumns s.points s.values

theorem exists_table_iff (two : 2 ≤ s.points.length) (ascending : s.points.Pairwise (· < ·)) :
    (∃ t, s.table = .ok t) ↔ ¬s.NoDensity := by
  have lengths : s.points.length = s.values.length := by
    rw [points, values, List.length_map, List.length_map]
  rw [not_noDensity_iff]
  exact Table.exists_ofColumns_iff lengths two ascending

theorem evaluate_table {t : Table ℝ} (built : s.table = .ok t) {n : Node ℝ} (hn : n ∈ s.nodes) :
    t.evaluate n.x = n.y := by
  refine Table.evaluate_of_mem_zip built (p := (n.x, n.y)) ?_
  rw [points, values, List.zip_map']
  exact List.mem_map_of_mem hn

end LineGrid

namespace PlaneGrid

/-- The distribution over a grid: a table of every slice, at the primary points. -/
noncomputable def distribution (grid : PlaneGrid ℝ) (policy : Policy) (rule : PlaneRule)
    (settings : EvaluationSettings ℝ) : Except (TableError ℝ) (BivariateDistribution ℝ) := do
  let tables ← grid.columns.mapM fun c => c.slice.table
  let primary ← PrimaryGrid.ofColumns grid.primary tables
  BivariateDistribution.build primary policy rule settings

/-- What a grid has to satisfy so that nothing but its settings and the values of its slices can
be refused. -/
structure Tabular (grid : PlaneGrid ℝ) (rule : PlaneRule) : Prop where
  two : 2 ≤ grid.primary.length
  ascending : grid.primary.Pairwise (· < ·)
  admitted : ∀ x ∈ grid.primary, rule.primary.admits x = true
  slices_two : ∀ c ∈ grid.columns, 2 ≤ c.slice.points.length
  slices_ascending : ∀ c ∈ grid.columns, c.slice.points.Pairwise (· < ·)
  slices_admitted : ∀ c ∈ grid.columns, ∀ y ∈ c.slice.points, rule.secondary.admits y = true

namespace Tabular

variable {grid : PlaneGrid ℝ} {rule : PlaneRule} {tables : List (Table ℝ)}

theorem exists_table_iff (tabular : grid.Tabular rule) {c : Column ℝ} (hc : c ∈ grid.columns) :
    (∃ t, c.slice.table = .ok t) ↔ ¬c.slice.NoDensity :=
  LineGrid.exists_table_iff (tabular.slices_two c hc) (tabular.slices_ascending c hc)

end Tabular

/-- The entry of a column holds the table of its slice, at the same index. -/
theorem entry_of_column {columns : List (Column ℝ)} {tables : List (Table ℝ)} {i : Nat}
    {c : Column ℝ} (h : List.Forall₂ (fun c t => c.slice.table = .ok t) columns tables)
    (hi : columns[i]? = some c) :
    ∃ t, (List.zipWith PrimaryEntry.mk (columns.map (·.x)) tables)[i]? = some ⟨c.x, t⟩ ∧
      c.slice.table = .ok t := by
  induction h generalizing i with
  | nil => cases hi
  | cons hc _ ih =>
      cases i with
      | zero =>
          obtain rfl := Option.some.inj hi
          exact ⟨_, rfl, hc⟩
      | succ i => exact ih hi

/-- Every entry is that of a column. -/
theorem column_of_entry {columns : List (Column ℝ)} {tables : List (Table ℝ)}
    {e : PrimaryEntry ℝ (Table ℝ)}
    (h : List.Forall₂ (fun c t => c.slice.table = .ok t) columns tables)
    (he : e ∈ List.zipWith PrimaryEntry.mk (columns.map (·.x)) tables) :
    ∃ c ∈ columns, e.value = c.x ∧ c.slice.table = .ok e.item := by
  induction h with
  | nil => cases he
  | cons hc _ ih =>
      cases List.mem_cons.mp he with
      | inl heq => exact ⟨_, List.mem_cons_self, by rw [heq], by rw [heq]; exact hc⟩
      | inr he =>
          obtain ⟨c, hmem, hvalue, htable⟩ := ih he
          exact ⟨c, List.mem_cons_of_mem _ hmem, hvalue, htable⟩

theorem build_of_admitted {primary : PrimaryGrid ℝ (Table ℝ)} {rule : PlaneRule}
    (values : ∀ e ∈ primary.entries, rule.primary.admits e.value = true)
    (bounds : ∀ e ∈ primary.entries, BivariateDistribution.boundsAdmitted rule e = true)
    (policy : Policy) (settings : EvaluationSettings ℝ) :
    BivariateDistribution.build primary policy rule settings =
      settings.check.map fun _ => ⟨primary, policy, rule, settings⟩ := by
  have hvalues : primary.values.find? (!rule.primary.admits ·) = none := by
    refine List.find?_eq_none.mpr fun x hx => ?_
    obtain ⟨e, he, rfl⟩ := List.mem_map.mp hx
    simp [values e he]
  have hbounds : primary.entries.find? (fun e =>
      policy ≠ .direct && !BivariateDistribution.boundsAdmitted rule e) = none :=
    List.find?_eq_none.mpr fun e he => by simp [bounds e he]
  rw [BivariateDistribution.build, hvalues]
  simp only [hbounds]
  cases settings.check with
  | error cause => rfl
  | ok _ => rfl

/-- Nothing that a primary grid or a distribution checks of points and bounds can fail. -/
theorem Tabular.exists_primary {grid : PlaneGrid ℝ} {rule : PlaneRule} {tables : List (Table ℝ)}
    (tabular : grid.Tabular rule)
    (h : List.Forall₂ (fun c t => c.slice.table = .ok t) grid.columns tables) :
    ∃ primary, PrimaryGrid.ofColumns grid.primary tables = .ok primary ∧
      primary.entries = List.zipWith PrimaryEntry.mk grid.primary tables ∧
      ∀ policy settings, BivariateDistribution.build primary policy rule settings =
        settings.check.map fun _ => ⟨primary, policy, rule, settings⟩ := by
  have lengths : grid.primary.length = tables.length := (List.length_map _).trans h.length_eq
  obtain ⟨primary, hprimary, hentries⟩ := PrimaryGrid.ofColumns_of_ascending tabular.two lengths
    (fun _ _ => rfl) tabular.ascending
  have columns (e : PrimaryEntry ℝ (Table ℝ)) (he : e ∈ primary.entries) :
      ∃ c ∈ grid.columns, e.value = c.x ∧ c.slice.table = .ok e.item :=
    column_of_entry h (hentries ▸ he)
  refine ⟨primary, hprimary, hentries, build_of_admitted (fun e he => ?_) fun e he => ?_⟩
  · obtain ⟨c, hc, hvalue, _⟩ := columns e he
    rw [hvalue]
    exact tabular.admitted c.x (List.mem_map_of_mem hc)
  · obtain ⟨c, hc, _, htable⟩ := columns e he
    obtain ⟨hlower, hupper⟩ := Table.bounds_of_ofColumns htable
    have hadmitted := tabular.slices_admitted c hc
    rw [BivariateDistribution.boundsAdmitted, Bool.and_eq_true]
    exact ⟨hadmitted _ (List.mem_of_head? hlower), hadmitted _ (List.mem_of_getLast? hupper)⟩

/-- A distribution with the table of every slice at its primary point. -/
structure TabulatedBy (grid : PlaneGrid ℝ) (d : BivariateDistribution ℝ) : Prop where
  values : d.grid.values = grid.primary
  entry : ∀ (i : Nat) (c : Column ℝ), grid.columns[i]? = some c →
    ∃ t : Table ℝ, d.grid.entries[i]? = some ⟨c.x, t⟩ ∧ c.slice.table = .ok t

/-- Settings apart, the distribution over a grid is refused for its slices only. -/
theorem distribution_of_tabular {grid : PlaneGrid ℝ} {rule : PlaneRule}
    (tabular : grid.Tabular rule) (policy : Policy) (settings : EvaluationSettings ℝ) :
    (∀ cause, grid.distribution policy rule settings = .error cause →
      settings.check = .error cause ∨ ∃ c ∈ grid.columns, c.slice.table = .error cause) ∧
    ∀ d, grid.distribution policy rule settings = .ok d →
      settings.check = .ok () ∧ grid.TabulatedBy d := by
  cases hmap : grid.columns.mapM fun c => c.slice.table with
  | error e =>
      have hdistribution : grid.distribution policy rule settings = .error e := by
        rw [distribution, hmap]
        rfl
      rw [hdistribution]
      refine ⟨fun cause h => ?_, fun d h => nomatch h⟩
      obtain rfl := Except.error.inj h
      exact Or.inr (exists_of_mapM_error hmap)
  | ok tables =>
      have htables := forall₂_of_mapM hmap
      obtain ⟨primary, hprimary, hentries, hbuild⟩ := tabular.exists_primary htables
      have hdistribution : grid.distribution policy rule settings =
          settings.check.map fun _ => ⟨primary, policy, rule, settings⟩ := by
        rw [distribution, hmap, ← hbuild]
        change (PrimaryGrid.ofColumns grid.primary tables >>= fun primary =>
          BivariateDistribution.build primary policy rule settings) = _
        rw [hprimary]
        rfl
      rw [hdistribution]
      cases settings.check with
      | error e =>
          refine ⟨fun cause h => ?_, fun d h => nomatch h⟩
          obtain rfl := Except.error.inj h
          exact Or.inl rfl
      | ok _ =>
          refine ⟨fun cause h => (nomatch h), fun d h => ?_⟩
          obtain rfl := Except.ok.inj h
          refine ⟨rfl, ?_, fun i c hc => ?_⟩
          · rw [PrimaryGrid.values, hentries]
            exact PrimaryEntry.map_value ((List.length_map _).trans htables.length_eq)
          · change ∃ t : Table ℝ, primary.entries[i]? = some ⟨c.x, t⟩ ∧ _
            rw [hentries]
            exact entry_of_column htables hc

end PlaneGrid

namespace PlaneGenerator

variable [Resolution ℝ] {g : PlaneGenerator ℝ} {init : ℝ → List ℝ} {f : ℝ → ℝ → ℝ}
  {seed : List ℝ} {events : List (Event ℝ)} {grid : PlaneGrid ℝ}

/-- What the seeds were checked for holds of the whole grid. -/
theorem tabular_of_generate (h : g.generate init f seed = ⟨events, .ok grid⟩) :
    grid.Tabular g.rule := by
  obtain ⟨first, last, accepted, ascending, head, getLast, slices⟩ := columns_of_generate h
  have runs (c : Column ℝ) (hc : c ∈ grid.columns) : ∃ first last inner events,
      g.secondary.Run (f c.x) (init c.x) first last first last c.slice inner events := by
    obtain ⟨generated, hslice⟩ := slices c hc
    obtain ⟨first, last, inner, run⟩ := LineGenerator.run_of_generate hslice
    exact ⟨first, last, inner, generated, run⟩
  refine ⟨two_le_of_ends (beq_iff_eq.mpr head) (beq_iff_eq.mpr getLast) accepted.range, ascending,
    fun x hx => ?_, fun c hc => ?_, fun c hc => ?_, fun c hc => ?_⟩
  · have hbetween := eq_or_lt_of_ends ascending head getLast x hx
    exact g.rule.primary.admits_between
      (accepted.admitted first (List.mem_of_head? accepted.head))
      (accepted.admitted last (List.mem_of_getLast? accepted.getLast))
      (hbetween.1.elim ge_of_eq le_of_lt) (hbetween.2.elim le_of_eq le_of_lt)
  · obtain ⟨_, _, _, _, run⟩ := runs c hc
    have head := run.extended.head
    have getLast := run.extended.getLast
    rw [run.seed.head] at head
    rw [run.seed.getLast] at getLast
    exact two_le_of_ends head getLast run.seed.range
  · obtain ⟨_, _, _, _, run⟩ := runs c hc
    exact run.ascending
  · obtain ⟨_, _, _, _, run⟩ := runs c hc
    exact run.extended.admitted

/-- The slices of a generated grid hold the values of the function. -/
theorem valued_of_generate (h : g.generate init f seed = ⟨events, .ok grid⟩) {c : Column ℝ}
    (hc : c ∈ grid.columns) {y : ℝ} (hy : y ∈ c.slice.points) :
    nodeOf (f c.x) y ∈ c.slice.nodes := by
  obtain ⟨_, _, _, _, _, _, slices⟩ := columns_of_generate h
  obtain ⟨_, hslice⟩ := slices c hc
  obtain ⟨_, _, _, run⟩ := LineGenerator.run_of_generate hslice
  obtain ⟨n, hn, rfl⟩ := List.mem_map.mp hy
  rw [← run.valued n hn]
  exact hn

/-- A distribution over a generated grid gives back the function at its points. -/
theorem evaluate_of_tabulated {d : BivariateDistribution ℝ}
    (h : g.generate init f seed = ⟨events, .ok grid⟩) (tabulated : grid.TabulatedBy d)
    {c : Column ℝ} (hc : c ∈ grid.columns) {y : ℝ} (hy : y ∈ c.slice.points) :
    d.evaluate c.x y = .ok (f c.x y) := by
  obtain ⟨i, hi⟩ := List.mem_iff_getElem?.mp hc
  obtain ⟨t, hentry, htable⟩ := tabulated.entry i c hi
  have hlocate := d.grid.locate_of_beq hentry (x := c.x) (beq_self_eq_true _)
  have answers := BivariateDistribution.answersBy_of_locate (.ok (i, ⟨c.x, t⟩)) hlocate
  rw [answers.evaluate y]
  exact congrArg Except.ok (LineGrid.evaluate_table htable (valued_of_generate h hc hy))

theorem generateDistribution_eq (generated : g.generate init f seed = ⟨events, .ok grid⟩)
    (policy : Policy) (settings : EvaluationSettings ℝ) :
    g.generateDistribution init f seed policy settings =
      ⟨events, (grid.distribution policy g.rule settings).mapError .table⟩ := by
  have hrun : g.generateDistribution init f seed policy settings =
      (⟨events, .ok grid⟩ : Trace ℝ (PlaneGrid ℝ)).andThen fun grid =>
        Trace.ofTable (grid.distribution policy g.rule settings) := by
    rw [← generated]
    rfl
  rw [hrun]
  simp only [Trace.andThen]
  cases grid.distribution policy g.rule settings with
  | error cause => exact congrArg (Trace.mk · _) (List.append_nil events)
  | ok d => exact congrArg (Trace.mk · _) (List.append_nil events)

/-- Over a grid that was generated, a distribution is refused exactly if its settings are or a
slice is no density. Otherwise it has the primary points of the grid, and at every point of a
slice the value of the function. -/
theorem generated_distribution (generated : g.generate init f seed = ⟨events, .ok grid⟩)
    (policy : Policy) (settings : EvaluationSettings ℝ) :
    let run := g.generateDistribution init f seed policy settings
    let refused := settings.check ≠ .ok () ∨ ∃ c ∈ grid.columns, c.slice.NoDensity
    run.events = events ∧
      (refused → ∃ cause, run.outcome = .error (.table cause) ∧
        (settings.check = .error cause ∨
          ∃ c ∈ grid.columns, Table.ofColumns c.slice.points c.slice.values = .error cause)) ∧
      (¬refused → ∃ d, run.outcome = .ok d ∧ d.grid.values = grid.primary ∧
        ∀ c ∈ grid.columns, ∀ y ∈ c.slice.points, d.evaluate c.x y = .ok (f c.x y)) := by
  intro run refused
  have tabular := tabular_of_generate generated
  obtain ⟨errors, built⟩ := PlaneGrid.distribution_of_tabular tabular policy settings
  have hrun : run = ⟨events, (grid.distribution policy g.rule settings).mapError .table⟩ :=
    generateDistribution_eq generated policy settings
  rw [hrun]
  cases hdistribution : grid.distribution policy g.rule settings with
  | error cause =>
      have hcause := errors cause hdistribution
      refine ⟨rfl, fun _ => ⟨cause, rfl, hcause⟩, fun hrefused => absurd ?_ hrefused⟩
      cases hcause with
      | inl hsettings =>
          left
          rw [hsettings]
          exact fun h => nomatch h
      | inr hslice =>
          obtain ⟨c, hc, htable⟩ := hslice
          refine Or.inr ⟨c, hc, ?_⟩
          by_contra hdensity
          obtain ⟨t, ht⟩ := (tabular.exists_table_iff hc).mpr hdensity
          rw [ht] at htable
          cases htable
  | ok d =>
      obtain ⟨hsettings, tabulated⟩ := built d hdistribution
      refine ⟨rfl, fun hrefused => ?_, fun _ => ⟨d, rfl, tabulated.values, fun c hc y hy =>
        evaluate_of_tabulated generated tabulated hc hy⟩⟩
      cases hrefused with
      | inl hcheck => exact absurd hsettings hcheck
      | inr hslice =>
          obtain ⟨c, hc, hdensity⟩ := hslice
          obtain ⟨i, hi⟩ := List.mem_iff_getElem?.mp hc
          obtain ⟨t, _, htable⟩ := tabulated.entry i c hi
          exact absurd hdensity ((tabular.exists_table_iff hc).mp ⟨t, htable⟩)

omit [Resolution ℝ] in
/-- The product of the coordinates is affine in either of them. -/
theorem straight_product (domain : Set ℝ) :
    Straight (fun _ => [0, 1, 3]) (fun x y => x * y) (fun _ => 0) (fun _ => 3) domain where
  points _ _ := Spans.accepted ⟨by norm_num, by simp, rfl, rfl⟩
  lower_affine := ⟨0, 0, fun x => by ring⟩
  upper_affine := ⟨3, 0, fun x => by ring⟩
  along x := ⟨0, x, fun y => by ring⟩
  across η := ⟨0, 3 * η, fun x => by ring⟩

/-- A seed of the product is its grid. -/
theorem generate_product {first last : ℝ} (ascending : seed.Pairwise (· < ·))
    (ends : seedEnds .linear seed = .ok (first, last)) :
    ∃ events grid, (standard .linear).generate (fun _ => [0, 1, 3]) (fun x y => x * y) seed =
        ⟨events, .ok grid⟩ ∧
      grid.primary = seed ∧ ∀ c ∈ grid.columns, c.slice.points = [0, 1, 3] ∧
        c.slice.values = [0, 1, 3].map (c.x * ·) := by
  have valid : (GridSettings.standard : GridSettings ℝ).check = .ok () := by
    norm_num [GridSettings.check, GridSettings.standard, Scalar.inOpenUnit,
      Scalar.inHalfOpenUnit, Scalar.inUnit]
  obtain ⟨events, grid, hgenerate, primary, samples⟩ :=
    generate_of_straight (g := standard .linear) rfl rfl rfl valid ends (straight_product _)
  refine ⟨events, grid, hgenerate, ?_, fun c hc => ?_⟩
  · rw [primary, mergedSeed_of_ascending rfl ascending]
  · obtain ⟨_, sampled⟩ := samples c hc
    exact ⟨sampled.points, sampled.values⟩

omit [Resolution ℝ] in
/-- A slice of the product is a density on the positive side only. -/
theorem noDensity_product_iff {s : LineGrid ℝ} {x : ℝ} (values : s.values = [0, 1, 3].map (x * ·)) :
    s.NoDensity ↔ x ≤ 0 := by
  have htriple : x * 3 < 0 ↔ x < 0 := by
    constructor <;> intro h <;> linarith
  rw [LineGrid.NoDensity, values, le_iff_lt_or_eq]
  simp [htriple]

omit [Resolution ℝ] in
/-- The product over positive points, and over points of which one is zero. -/
theorem product_distribution :
    letI : Resolution ℝ := ⟨fun _ _ => 0⟩
    let g : PlaneGenerator ℝ := standard .linear
    let init : ℝ → List ℝ := fun _ => [0, 1, 3]
    let f : ℝ → ℝ → ℝ := fun x y => x * y
    (∃ events grid, g.generate init f [1, 2, 4] = ⟨events, .ok grid⟩ ∧
      ∃ d, (g.generateDistribution init f [1, 2, 4] .correlated .standard).outcome = .ok d ∧
        d.grid.values = [1, 2, 4] ∧ d.evaluate 2 3 = .ok 6 ∧ d.evaluate 4 1 = .ok 4) ∧
    ∃ events grid, g.generate init f [0, 1] = ⟨events, .ok grid⟩ ∧
      ∃ cause, (g.generateDistribution init f [0, 1] .correlated .standard).outcome =
        .error (.table cause) := by
  let _ : Resolution ℝ := ⟨fun _ _ => 0⟩
  intro g init f
  have hends : seedEnds Scale.linear [(1 : ℝ), 2, 4] = .ok (1, 4) := by
    norm_num [seedEnds, Scale.admits, firstDescent?]
  have hends' : seedEnds Scale.linear [(0 : ℝ), 1] = .ok (0, 1) := by
    norm_num [seedEnds, Scale.admits, firstDescent?]
  constructor
  · have ascending : [(1 : ℝ), 2, 4].Pairwise (· < ·) := by norm_num
    obtain ⟨events, grid, hgenerate, primary, slices⟩ := generate_product ascending hends
    have accepted : ¬((EvaluationSettings.standard : EvaluationSettings ℝ).check ≠ .ok () ∨
        ∃ c ∈ grid.columns, c.slice.NoDensity) := by
      rw [not_or, not_not]
      refine ⟨EvaluationSettings.check_standard, ?_⟩
      rintro ⟨c, hc, hdensity⟩
      have hx : c.x ∈ grid.primary := List.mem_map_of_mem hc
      have hzero := (noDensity_product_iff (slices c hc).2).mp hdensity
      rw [primary] at hx
      norm_num at hx
      rcases hx with hx | hx | hx <;> linarith
    obtain ⟨_, _, built⟩ := generated_distribution hgenerate .correlated .standard
    obtain ⟨d, houtcome, hvalues, hevaluate⟩ := built accepted
    have evaluates {x y : ℝ} (hx : x ∈ [(1 : ℝ), 2, 4]) (hy : y ∈ [(0 : ℝ), 1, 3]) :
        d.evaluate x y = .ok (x * y) := by
      rw [← primary] at hx
      obtain ⟨c, hc, rfl⟩ := List.mem_map.mp hx
      exact hevaluate c hc y ((slices c hc).1 ▸ hy)
    have inner := evaluates (x := 2) (y := 3) (by simp) (by simp)
    have outer := evaluates (x := 4) (y := 1) (by simp) (by simp)
    norm_num at inner outer
    exact ⟨events, grid, hgenerate, d, houtcome, hvalues.trans primary, inner, outer⟩
  · have ascending : [(0 : ℝ), 1].Pairwise (· < ·) := by norm_num
    obtain ⟨events, grid, hgenerate, primary, slices⟩ := generate_product ascending hends'
    obtain ⟨_, refused, _⟩ := generated_distribution hgenerate .correlated .standard
    have hx : (0 : ℝ) ∈ grid.primary := primary ▸ List.mem_cons_self
    obtain ⟨c, hc, hzero⟩ := List.mem_map.mp hx
    have hdensity : c.slice.NoDensity := (noDensity_product_iff (slices c hc).2).mpr hzero.le
    obtain ⟨cause, houtcome, _⟩ := refused (Or.inr ⟨c, hc, hdensity⟩)
    exact ⟨events, grid, hgenerate, cause, houtcome⟩

end PlaneGenerator
end AdaptiveTables
