import AdaptiveTables.Proofs.ExactScales
import AdaptiveTables.Proofs.Quantile
import AdaptiveTables.Proofs.Searches
import AdaptiveTables.Bivariate.Distribution

/-!
Bins in exact arithmetic. A query strictly between two primary values of a distribution that was
built over built tables sees a proper bin: sound tables, a fraction strictly between zero and one,
and bounds on the secondary scale. Its unit bases run from the lower to the upper bound of each
side, and from the lower to the upper limit of the bin.
-/

namespace AdaptiveTables

/-- A walk that starts at a satisfying element ends at one, before an element that is not. -/
theorem advance_spec {β : Type} {p : β → Bool} {here found : β} {later after : List β}
    (h : advance p here later = (found, after)) (start : p here = true) :
    p found = true ∧ found ∈ here :: later ∧
      ∀ next rest, after = next :: rest → p next = false ∧ next ∈ later := by
  induction later generalizing here with
  | nil =>
      rw [advance] at h
      obtain ⟨rfl, rfl⟩ := Prod.mk.inj h
      refine ⟨start, List.mem_cons_self, fun next rest hafter => ?_⟩
      exact absurd hafter.symm (List.cons_ne_nil next rest)
  | cons next rest ih =>
      rw [advance] at h
      split at h
      next hnext =>
        obtain ⟨hfound, hmem, hafter⟩ := ih h hnext
        refine ⟨hfound, List.mem_cons_of_mem _ hmem, fun n r hr => ?_⟩
        obtain ⟨hfalse, hn⟩ := hafter n r hr
        exact ⟨hfalse, List.mem_cons_of_mem _ hn⟩
      next hnext =>
        obtain ⟨rfl, rfl⟩ := Prod.mk.inj h
        refine ⟨start, List.mem_cons_self, fun n r hr => ?_⟩
        obtain ⟨rfl, _⟩ := List.cons.inj hr
        exact ⟨Bool.eq_false_of_not_eq_true hnext, List.mem_cons_self⟩

namespace PrimaryGrid

theorem beyond_ne_bin {α δ : Type} [Scalar α] {g : PrimaryGrid α δ} {x : α} {index i : Nat}
    {nearest lower upper : PrimaryEntry α δ} :
    g.beyond x index nearest ≠ .ok (.bin i lower upper) := by
  rw [beyond]
  split <;> simp

/-- A query that falls into a bin lies strictly between the two primary values there. -/
theorem between_of_locate {α δ : Type} [Scalar α] [Scalar.Ordered α] {g : PrimaryGrid α δ} {x : α}
    {i : Nat} {lower upper : PrimaryEntry α δ} (h : g.locate x = .ok (.bin i lower upper)) :
    lower ∈ g.entries ∧ upper ∈ g.entries ∧ lower.value < x ∧ x < upper.value := by
  rw [locate] at h
  split at h
  next => cases h
  next hnumber =>
    split at h
    next => exact absurd h beyond_ne_bin
    next hfirst =>
      have hstart : decide (g.first.value ≤ x) = true := by
        simpa using hfirst
      obtain ⟨⟨found, after⟩, hwalk⟩ :
          ∃ walked, advance (fun e => decide (e.value ≤ x)) g.first (g.second :: g.rest) = walked :=
        ⟨_, rfl⟩
      simp only [hwalk] at h
      obtain ⟨hfound, hmem, hafter⟩ := advance_spec hwalk hstart
      split at h
      next => cases h
      next hne =>
        cases after with
        | nil => exact absurd h beyond_ne_bin
        | cons next rest =>
            simp only [Except.ok.injEq, Location.bin.injEq] at h
            obtain ⟨_, rfl, rfl⟩ := h
            obtain ⟨hfalse, hnext⟩ := hafter next rest rfl
            have hle : found.value ≤ x := of_decide_eq_true hfound
            have hlater : Scalar.isNumber next.value = true :=
              Scalar.Ordered.number_of_finite (g.finite next (List.mem_cons_of_mem _ hnext))
            refine ⟨hmem, List.mem_cons_of_mem _ hnext, Scalar.lt_of_le_of_not_beq hle hne, ?_⟩
            exact Scalar.lt_of_not_le (Scalar.number_of_le hle).2 hlater
              (of_decide_eq_false hfalse)

end PrimaryGrid

theorem Side.forall_sides {P : Side → Prop} (lower : P .lower) (upper : P .upper) (side : Side) :
    P side := by
  cases side with
  | lower => exact lower
  | upper => exact upper

namespace Bin

theorem mix_eq (b : Bin ℝ) (l u : ℝ) : b.mix l u = (1 - b.fraction) * l + b.fraction * u := by
  change l + (u - l) * b.fraction = _
  ring

theorem mix_self (b : Bin ℝ) (a : ℝ) : b.mix a a = a := Scale.blend_self b.fraction trivial

theorem blendSigned_self (b : Bin ℝ) (a : ℝ) : b.blendSigned a a = a := by
  rw [blendSigned]
  split
  next => exact Scale.blendOrLinear_self _ _ _
  next => exact b.mix_self a

/-- If its length is that between the limits, the unit base of a bin is the one over them. -/
theorem middleBase_eq_ofEnds {b : Bin ℝ}
    (h : b.scale.length b.lowerLimit b.upperLimit = b.middleBase.length) :
    b.middleBase = .ofEnds b.scale b.lowerLimit b.upperLimit b.settings.fuzzyBoundary := by
  rw [UnitBase.ofEnds, h]
  rfl

/-- A bin strictly between two primary values, over sound tables with bounds on the scale. -/
structure Proper (b : Bin ℝ) : Prop where
  sound : ∀ side, (b.table side).Sound
  fraction_mem : b.fraction ∈ Set.Ioo (0 : ℝ) 1
  covers_lower : ∀ side, b.scale.Covers (b.table side).lowerBound
  covers_upper : ∀ side, b.scale.Covers (b.table side).upperBound
  settings : b.settings.check = .ok ()

namespace Proper

variable {b : Bin ℝ}

theorem covers_sample (proper : b.Proper) (side : Side) (p : ℝ) :
    b.scale.Covers ((b.table side).sample p) := by
  obtain ⟨hlower, hupper⟩ := (proper.sound side).sample_mem p
  exact Scale.covers_between (proper.covers_lower side) (proper.covers_upper side) hlower hupper

theorem unitBase (proper : b.Proper) (side : Side) : (b.unitBase side).Proper :=
  UnitBase.proper_ofEnds (proper.covers_lower side) (proper.covers_upper side)
    (proper.sound side).lower_lt_upper

theorem unitBase_value_one (proper : b.Proper) (side : Side) :
    (b.unitBase side).value 1 = (b.table side).upperBound :=
  UnitBase.value_one_ofEnds (proper.covers_lower side) (proper.covers_upper side)
    (proper.sound side).lower_lt_upper

theorem covers_lowerLimit (proper : b.Proper) : b.scale.Covers b.lowerLimit :=
  Scale.covers_blend _ (proper.covers_lower .lower) (proper.covers_lower .upper)

theorem covers_upperLimit (proper : b.Proper) : b.scale.Covers b.upperLimit :=
  Scale.covers_blend _ (proper.covers_upper .lower) (proper.covers_upper .upper)

theorem covers_between_limits (proper : b.Proper) {y : ℝ}
    (hy : y ∈ Set.Icc b.lowerLimit b.upperLimit) : b.scale.Covers y :=
  Scale.covers_between proper.covers_lowerLimit proper.covers_upperLimit hy.1 hy.2

/-- The length of the middle grid, blended linearly, is that between the blended limits. -/
theorem length_limits (proper : b.Proper) :
    b.scale.length b.lowerLimit b.upperLimit = b.middleBase.length :=
  Scale.length_blend b.fraction (proper.covers_lower .lower) (proper.covers_lower .upper)
    (proper.covers_upper .lower) (proper.covers_upper .upper)

theorem lowerLimit_lt_upperLimit (proper : b.Proper) : b.lowerLimit < b.upperLimit :=
  Scale.blend_lt_blend proper.fraction_mem (proper.covers_lower .lower)
    (proper.covers_lower .upper) (proper.covers_upper .lower) (proper.covers_upper .upper)
    (proper.sound .lower).lower_lt_upper (proper.sound .upper).lower_lt_upper

theorem middleBase (proper : b.Proper) : b.middleBase.Proper := by
  rw [middleBase_eq_ofEnds proper.length_limits]
  exact UnitBase.proper_ofEnds proper.covers_lowerLimit proper.covers_upperLimit
    proper.lowerLimit_lt_upperLimit

theorem middleBase_value_one (proper : b.Proper) : b.middleBase.value 1 = b.upperLimit := by
  rw [middleBase_eq_ofEnds proper.length_limits]
  exact UnitBase.value_one_ofEnds proper.covers_lowerLimit proper.covers_upperLimit
    proper.lowerLimit_lt_upperLimit

/-- A value between the limits is not outside, whatever the tolerance. -/
theorem isOutside_eq_false (proper : b.Proper) {y : ℝ}
    (hy : y ∈ Set.Icc b.lowerLimit b.upperLimit) : b.isOutside y = false := by
  have htolerance : 0 ≤ b.settings.fuzzyBoundary :=
    (EvaluationSettings.tolerance_mem proper.settings .fuzzyBoundary).1
  rw [isOutside, Bool.or_eq_false_iff, decide_eq_false_iff_not, decide_eq_false_iff_not, not_lt,
    not_lt]
  exact ⟨(fuzzyLower_le htolerance _).trans hy.1, hy.2.trans (le_fuzzyUpper htolerance _)⟩

/-- A sample of a side is carried to a unit coordinate and back. -/
theorem side_coordinate (proper : b.Proper) (side : Side) {v : ℝ}
    (hv : v ∈ Set.Icc (b.table side).lowerBound (b.table side).upperBound) :
    (b.unitBase side).coordinate v ∈ Set.Icc (0 : ℝ) 1 ∧
      (b.unitBase side).value ((b.unitBase side).coordinate v) = v := by
  rw [← proper.unitBase_value_one] at hv
  exact ⟨(proper.unitBase side).coordinate_mem hv, (proper.unitBase side).value_coordinate hv⟩

/-- A value strictly between the limits has a coordinate strictly inside the unit interval. -/
theorem middle_coordinate (proper : b.Proper) {y : ℝ}
    (hy : y ∈ Set.Ioo b.lowerLimit b.upperLimit) :
    b.middleBase.coordinate y ∈ Set.Ioo (0 : ℝ) 1 ∧
      b.middleBase.value (b.middleBase.coordinate y) = y := by
  have hmem : y ∈ Set.Icc b.middleBase.lower (b.middleBase.value 1) := by
    rw [proper.middleBase_value_one]
    exact Set.Ioo_subset_Icc_self hy
  obtain ⟨hzero, hone⟩ := proper.middleBase.coordinate_mem hmem
  have hvalue := proper.middleBase.value_coordinate hmem
  refine ⟨⟨lt_of_le_of_ne hzero fun heq => ?_, lt_of_le_of_ne hone fun heq => ?_⟩, hvalue⟩
  · rw [← heq, proper.middleBase.value_zero] at hvalue
    exact absurd hvalue (ne_of_lt hy.1)
  · rw [heq, proper.middleBase_value_one] at hvalue
    exact absurd hvalue (ne_of_gt hy.2)

end Proper
end Bin

/-- The bounds of every policy but the direct one are the limits of the bin. -/
theorem Policy.bounds_of_bounded {p : Policy} {b : Bin ℝ} (bounded : p ≠ .direct) :
    p.lowerBound b = b.lowerLimit ∧ p.upperBound b = b.upperLimit := by
  cases p with
  | direct => exact absurd rfl bounded
  | unitBase | correlated | unitBaseCorrelated | cumulativePoints => exact ⟨rfl, rfl⟩

namespace BivariateDistribution

theorem eq_of_build {α : Type} [Scalar α] {grid : PrimaryGrid α (Table α)} {policy : Policy}
    {rule : PlaneRule} {settings : EvaluationSettings α} {d : BivariateDistribution α}
    (built : build grid policy rule settings = .ok d) : d = ⟨grid, policy, rule, settings⟩ := by
  rw [build] at built
  repeat' split at built
  all_goals first | exact (Except.ok.inj built).symm | cases built

variable {grid : PrimaryGrid ℝ (Table ℝ)} {policy : Policy} {rule : PlaneRule}
  {settings : EvaluationSettings ℝ} {d : BivariateDistribution ℝ} {x : ℝ} {i : Nat}
  {lower upper : PrimaryEntry ℝ (Table ℝ)}

theorem checks_of_build (built : build grid policy rule settings = .ok d) :
    settings.check = .ok () ∧ (∀ e ∈ grid.entries, rule.primary.admits e.value = true) ∧
      (policy ≠ .direct → ∀ e ∈ grid.entries, boundsAdmitted rule e = true) := by
  rw [build] at built
  split at built
  next => cases built
  next hsettings =>
    split at built
    next => cases built
    next hvalues =>
      split at built
      next => cases built
      next hbounds =>
        refine ⟨hsettings, fun e he => ?_, fun bounded e he => ?_⟩
        · have hvalue := List.find?_eq_none.mp hvalues e.value (List.mem_map_of_mem he)
          simpa using hvalue
        · have hentry := List.find?_eq_none.mp hbounds e he
          simpa [bounded] using hentry

theorem sound_of_locate
    (tables : ∀ e ∈ d.grid.entries, ∃ xs ys, Table.ofColumns xs ys = .ok e.item)
    (interior : d.grid.locate x = .ok (.bin i lower upper)) (side : Side) :
    ((d.bin x i lower upper).table side).Sound := by
  obtain ⟨hlower, hupper, _, _⟩ := PrimaryGrid.between_of_locate interior
  obtain ⟨_, _, hcolumns₀⟩ := tables lower hlower
  obtain ⟨_, _, hcolumns₁⟩ := tables upper hupper
  cases side with
  | lower => exact Table.sound_of_ofColumns hcolumns₀
  | upper => exact Table.sound_of_ofColumns hcolumns₁

theorem fraction_mem_of_locate (built : build grid policy rule settings = .ok d)
    (interior : d.grid.locate x = .ok (.bin i lower upper)) :
    (d.bin x i lower upper).fraction ∈ Set.Ioo (0 : ℝ) 1 := by
  obtain ⟨_, hadmits, _⟩ := checks_of_build built
  obtain rfl := eq_of_build built
  obtain ⟨hlower, hupper, hlx, hxu⟩ := PrimaryGrid.between_of_locate interior
  exact Scale.fraction_mem (Scale.covers_of_admits (hadmits lower hlower))
    (Scale.covers_of_admits (hadmits upper hupper)) hlx hxu

/-- What a build checks is what its bins rely on. -/
theorem proper_of_locate (built : build grid policy rule settings = .ok d)
    (bounded : policy ≠ .direct)
    (tables : ∀ e ∈ grid.entries, ∃ xs ys, Table.ofColumns xs ys = .ok e.item)
    (interior : d.grid.locate x = .ok (.bin i lower upper)) : (d.bin x i lower upper).Proper := by
  have hfraction := fraction_mem_of_locate built interior
  obtain ⟨hsettings, _, hbounds⟩ := checks_of_build built
  obtain rfl := eq_of_build built
  obtain ⟨hlower, hupper, _, _⟩ := PrimaryGrid.between_of_locate interior
  have hcovers : ∀ e ∈ grid.entries,
      rule.secondary.Covers e.item.lowerBound ∧ rule.secondary.Covers e.item.upperBound := by
    intro e he
    have hentry := hbounds bounded e he
    rw [boundsAdmitted, Bool.and_eq_true] at hentry
    exact ⟨Scale.covers_of_admits hentry.1, Scale.covers_of_admits hentry.2⟩
  exact ⟨sound_of_locate tables interior, hfraction,
    Side.forall_sides (hcovers lower hlower).1 (hcovers upper hupper).1,
    Side.forall_sides (hcovers lower hlower).2 (hcovers upper hupper).2, hsettings⟩

section Queries

variable (interior : d.grid.locate x = .ok (.bin i lower upper))

include interior

theorem quantity_eq (q : Quantity) (y : ℝ) :
    d.quantity q x y = d.policy.evaluate (d.bin x i lower upper) q y := by
  rw [quantity, dispatch, interior]

theorem conditionalCdf_eq (y : ℝ) :
    d.conditionalCdf x y = d.policy.cdf (d.bin x i lower upper) y := by
  rw [conditionalCdf, dispatch, interior]

theorem conditionalLowerBound_eq :
    d.conditionalLowerBound x = .ok (d.policy.lowerBound (d.bin x i lower upper)) := by
  rw [conditionalLowerBound, dispatch, interior]

theorem conditionalUpperBound_eq :
    d.conditionalUpperBound x = .ok (d.policy.upperBound (d.bin x i lower upper)) := by
  rw [conditionalUpperBound, dispatch, interior]

theorem limits_of_bounds (bounded : d.policy ≠ .direct) {low high : ℝ}
    (hlow : d.conditionalLowerBound x = .ok low) (hhigh : d.conditionalUpperBound x = .ok high) :
    low = (d.bin x i lower upper).lowerLimit ∧ high = (d.bin x i lower upper).upperLimit := by
  rw [conditionalLowerBound_eq interior] at hlow
  rw [conditionalUpperBound_eq interior] at hhigh
  obtain rfl := Except.ok.inj hlow
  obtain rfl := Except.ok.inj hhigh
  exact Policy.bounds_of_bounded bounded

theorem sample_eq {u p : ℝ} (hu : u ∈ Set.Icc (0 : ℝ) 1) (hp : p ∈ Set.Icc (0 : ℝ) 1) :
    d.sample x u p = (d.policy.sample (d.bin x i lower upper) u p).map (·.sample) := by
  have hbin : checkRandomNumber u = .ok () := by
    simp [checkRandomNumber, Scalar.inUnit, hu.1, hu.2]
  have hunit : checkRandomNumber p = .ok () := by
    simp [checkRandomNumber, Scalar.inUnit, hp.1, hp.2]
  rw [sample, sampleDetailed, hbin, hunit, dispatch, interior]
  rfl

/-- A policy that takes one random number samples the bin with it. -/
theorem sampleSingle_eq (deterministic : d.policy.isStochastic = false) {p : ℝ}
    (hp : p ∈ Set.Icc (0 : ℝ) 1) :
    d.sampleSingle x p = (d.policy.sample (d.bin x i lower upper) 0 p).map (·.sample) := by
  rw [sampleSingle, requireDeterministic, deterministic]
  exact sample_eq interior ⟨le_refl 0, zero_le_one⟩ hp

end Queries

end BivariateDistribution

namespace Table

variable {width p y : ℝ}

/-- The table of constant density from zero to a width. -/
noncomputable def uniform (width : ℝ) : Table ℝ := ⟨⟨0, width, 1, 0, 0⟩, [], ⟨width, 1⟩, width⟩

theorem ofColumns_uniform (positive : 0 < width) :
    ofColumns [0, width] [1, 1] = .ok (uniform width) := by
  have hascending : ([⟨0, 1⟩, ⟨width, 1⟩] : List (Knot ℝ)).Pairwise
      (fun k k' => k.abscissa < k'.abscissa) := by
    simp [positive]
  have hbuilt := ofColumns_of_ascending hascending (by norm_num)
  simp only [List.map] at hbuilt
  rw [hbuilt]
  have htotal : 1 / 2 * width * 2 = width := by ring
  norm_num [ofKnots, Segment.chain, Segment.area, Segment.between, uniform, positive, htotal]

theorem cdf_uniform (hy : y ∈ Set.Icc 0 width) (positive : 0 < width) :
    (uniform width).cdf y = y / width := by
  rw [(sound_of_ofColumns (ofColumns_uniform positive)).cdf_eq hy.1 hy.2]
  norm_num [uniform, Segment.integralOver, Segment.holding, advance, Segment.cumulativeAt]

theorem evaluate_uniform (hy : y ∈ Set.Icc 0 width) (positive : 0 < width) :
    (uniform width).evaluate y = 1 := by
  rw [(sound_of_ofColumns (ofColumns_uniform positive)).evaluate_eq hy.1 hy.2]
  norm_num [uniform, Segment.densityOver, Segment.holding, advance, Segment.densityAt]

theorem pdf_uniform (hy : y ∈ Set.Icc 0 width) (positive : 0 < width) :
    (uniform width).pdf y = 1 / width := by
  rw [pdf, evaluate_uniform hy positive, one_mul]
  rfl

theorem sample_uniform (hp : p ∈ Set.Ioo (0 : ℝ) 1) (positive : 0 < width) :
    (uniform width).sample p = p * width := by
  have sound := sound_of_ofColumns (ofColumns_uniform positive)
  have hcdf := sound.cdf_sample (le_of_lt hp.1) (le_of_lt hp.2)
  have hmem : (uniform width).sample p ∈ Set.Icc 0 width := sound.sample_mem p
  rw [cdf_uniform hmem positive] at hcdf
  exact (div_eq_iff (ne_of_gt positive)).mp hcdf

end Table

noncomputable def narrowEntry : PrimaryEntry ℝ (Table ℝ) := ⟨0, .uniform 0.5⟩

noncomputable def wideEntry : PrimaryEntry ℝ (Table ℝ) := ⟨1, .uniform 1⟩

noncomputable def uniformGrid : PrimaryGrid ℝ (Table ℝ) where
  first := narrowEntry
  second := wideEntry
  rest := []
  finite _ _ := rfl
  ascending := by norm_num [firstDescent?, narrowEntry, wideEntry]

/-- The rule with a logarithmic dependent axis and linear independent ones. -/
def logRule : PlaneRule :=
  { PlaneRule.linear with dependent := .logarithmic, dependentStraight := rfl }

/-- Settings that accept an estimate within half of the target. -/
noncomputable def looseSettings : EvaluationSettings ℝ := ⟨0, 0.5, 0, 1⟩

theorem EvaluationSettings.check_looseSettings : looseSettings.check = .ok () := by
  norm_num [looseSettings, check, EvaluationTolerance.all, tolerance, Scalar.inHalfOpenUnit]

theorem EvaluationSettings.check_standard : (standard : EvaluationSettings ℝ).check = .ok () := by
  norm_num [standard, check, EvaluationTolerance.all, tolerance, Scalar.inHalfOpenUnit]

namespace PrimaryGrid

/-- In a grid of two entries each table has to be known on its own. -/
theorem columns_of_pair {g : PrimaryGrid ℝ (Table ℝ)} (pair : g.rest = [])
    (first : ∃ xs ys, Table.ofColumns xs ys = .ok g.first.item)
    (second : ∃ xs ys, Table.ofColumns xs ys = .ok g.second.item) :
    ∀ e ∈ g.entries, ∃ xs ys, Table.ofColumns xs ys = .ok e.item := by
  intro e he
  simp only [entries, pair, List.mem_cons, List.not_mem_nil, or_false] at he
  cases he with
  | inl h => exact h ▸ first
  | inr h => exact h ▸ second

theorem columns_of_uniformGrid (e : PrimaryEntry ℝ (Table ℝ)) (he : e ∈ uniformGrid.entries) :
    ∃ xs ys, Table.ofColumns xs ys = .ok e.item :=
  columns_of_pair rfl ⟨_, _, Table.ofColumns_uniform (by norm_num)⟩
    ⟨_, _, Table.ofColumns_uniform one_pos⟩ e he

theorem locate_uniformGrid : uniformGrid.locate 0.5 = .ok (.bin 0 narrowEntry wideEntry) := by
  norm_num [locate, uniformGrid, narrowEntry, wideEntry, advance, Exact.isNumber_eq]

end PrimaryGrid

theorem build_uniformGrid (policy : Policy) :
    BivariateDistribution.build uniformGrid policy .linear looseSettings =
      .ok ⟨uniformGrid, policy, .linear, looseSettings⟩ := by
  rw [BivariateDistribution.build, EvaluationSettings.check_looseSettings]
  norm_num [uniformGrid, PrimaryGrid.values, PrimaryGrid.entries, PlaneRule.linear,
    BivariateDistribution.boundsAdmitted, Scale.admits]

/-- The bin halfway between the two uniform tables. -/
noncomputable def uniformBin : Bin ℝ :=
  ⟨.uniform 0.5, .uniform 1, 0, 0.5, .linear, looseSettings⟩

theorem bin_uniformGrid (policy : Policy) :
    BivariateDistribution.bin ⟨uniformGrid, policy, .linear, looseSettings⟩ 0.5 0 narrowEntry
      wideEntry = uniformBin := by
  norm_num [BivariateDistribution.bin, uniformBin, PlaneRule.linear, Scale.fraction,
    Scale.transform, narrowEntry, wideEntry]

namespace Bin

theorem proper_uniformBin : uniformBin.Proper := by
  have proper := BivariateDistribution.proper_of_locate (build_uniformGrid .correlated) (by decide)
    PrimaryGrid.columns_of_uniformGrid PrimaryGrid.locate_uniformGrid
  rwa [bin_uniformGrid] at proper

theorem limits_uniformBin : uniformBin.lowerLimit = 0 ∧ uniformBin.upperLimit = 3 / 4 := by
  norm_num [lowerLimit, upperLimit, uniformBin, blendSecondary, scale, PlaneRule.linear,
    Scale.blend, Table.uniform, Table.lowerBound, Table.upperBound]

end Bin
end AdaptiveTables
