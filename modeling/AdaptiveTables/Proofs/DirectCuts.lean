import AdaptiveTables.Proofs.SampleRanges
import AdaptiveTables.Proofs.DoubleOrder

/-!
Direct samples below a limit, in any ordered arithmetic. The sample comes from one of the two tables
of a bin, and is cut off at the limit wherever that table begins below it. A limit at or below the
start of the table leaves nothing to draw from, and the answer is the start itself. The conditional
lower bound is the lesser of the two starts, so a limit may lie above it and yet below the start of
the table that is picked. Nothing cuts the answer off again, and there it lies above the limit.
-/

namespace AdaptiveTables

theorem Scalar.min_le_right {α : Type} [Scalar α] [Scalar.Ordered α] {a b : α}
    (hb : Scalar.isNumber b = true) : Scalar.min a b ≤ b := by
  cases ha : Scalar.isNumber a with
  | true => exact (Scalar.min_spec ha hb).2.1
  | false =>
      rw [Scalar.min, ha]
      exact Scalar.le_refl hb

section Tables

variable {α : Type} [Scalar α]

theorem Segment.last_of_chain {cumulative total : α} {a last : Knot α} {rest : List (Knot α)}
    {segments : List (Segment α)} (h : chain cumulative a rest = (segments, last, total)) :
    last = rest.getLastD a := by
  induction rest generalizing cumulative a segments with
  | nil =>
      obtain ⟨_, rfl, _⟩ := h
      rfl
  | cons b rest ih =>
      rw [chain] at h
      cases hchain : chain (cumulative + area a b) b rest with
      | mk later found =>
          simp only [hchain, Prod.mk.injEq] at h
          obtain ⟨_, rfl, rfl⟩ := h
          rw [List.getLastD_cons]
          exact ih hchain

namespace Table

variable {t : Table α} {u limit : α}

theorem starts_of_ofKnots {a b : Knot α} {rest : List (Knot α)} (h : ofKnots a b rest = .ok t) :
    t.lowerBound = a.abscissa ∧ t.upperBound = (rest.getLastD b).abscissa := by
  obtain ⟨hfirst, hchain, _⟩ := chain_of_ofKnots h
  exact ⟨congrArg Segment.left hfirst, congrArg Knot.abscissa (Segment.last_of_chain hchain)⟩

/-- A limit at or below the start of a table leaves nothing to draw from. -/
theorem sampleBelow_of_le (h : limit ≤ t.lowerBound) : t.sampleBelow u limit = t.lowerBound :=
  if_pos h

variable [Scalar.Ordered α]

/-- A table begins below its end, whatever the arithmetic. -/
theorem starts_below_end {xs ys : List α} (built : ofColumns xs ys = .ok t) :
    t.lowerBound < t.upperBound := by
  obtain ⟨a, b, rest, _, _, ascending, _, hknots⟩ := exists_knots_of_ofColumns built
  obtain ⟨hstart, hend⟩ := starts_of_ofKnots hknots
  rw [hstart, hend]
  exact (List.pairwise_cons.mp ascending).1 _ List.getLastD_mem_cons

/-- A sample of a table that begins below a limit is cut off at the limit. -/
theorem sampleBelow_le (h : t.lowerBound < limit) (ends : Scalar.isNumber t.upperBound = true) :
    t.sampleBelow u limit ≤ limit := by
  obtain ⟨_, hlimit⟩ := Scalar.Ordered.number_of_lt h
  obtain ⟨hle, _, _⟩ := Scalar.min_spec hlimit ends
  rw [sampleBelow, if_neg fun hle => Scalar.not_lt_of_le hle h]
  exact Scalar.le_trans (Scalar.min_le_right (Scalar.number_of_le hle).1) hle

end Table
end Tables

section Bins

variable {α : Type} [Scalar α] [Scalar.Ordered α] {b : Bin α} {u p limit : α}

/-- A direct sample is the start of the picked table, if the limit is not above that, and is not
above the limit otherwise. -/
theorem Direct.sampleBelow_cases
    (ends : (b.table (b.pick u)).lowerBound < (b.table (b.pick u)).upperBound)
    (hlimit : Scalar.isNumber limit = true) :
    (limit ≤ (b.table (b.pick u)).lowerBound ∧
        sampleBelow b u p limit = (b.table (b.pick u)).lowerBound) ∨
      ((b.table (b.pick u)).lowerBound < limit ∧ sampleBelow b u p limit ≤ limit) := by
  generalize htable : b.table (b.pick u) = t at ends
  obtain ⟨hlower, hupper⟩ := Scalar.Ordered.number_of_lt ends
  obtain ⟨hle, _, hmin⟩ := Scalar.min_spec hlimit hupper
  have hsample : sampleBelow b u p limit = t.sampleBelow p (Scalar.min limit t.upperBound) := by
    rw [sampleBelow, htable]
  rw [hsample]
  by_cases habove : t.lowerBound < limit
  · have hstart : t.lowerBound < Scalar.min limit t.upperBound := by
      cases hmin with
      | inl h | inr h => rwa [h]
    exact Or.inr ⟨habove, Scalar.le_trans (Table.sampleBelow_le hstart hupper) hle⟩
  · have hbelow : limit ≤ t.lowerBound := Scalar.Ordered.le_iff.mpr ⟨hlimit, hlower, habove⟩
    exact Or.inl ⟨hbelow, Table.sampleBelow_of_le (Scalar.le_trans hle hbelow)⟩

end Bins

namespace BivariateDistribution

variable {α : Type} [Scalar α] [Scalar.Ordered α] {grid : PrimaryGrid α (Table α)}
  {rule : PlaneRule} {settings : EvaluationSettings α} {d : BivariateDistribution α} {x : α}
  {i : Nat} {lower upper : PrimaryEntry α (Table α)}

omit [Scalar.Ordered α] in
theorem sampleBelow_eq (interior : d.grid.locate x = .ok (.bin i lower upper)) {u p limit : α}
    (hu : Scalar.inUnit u = true) (hp : Scalar.inUnit p = true) :
    d.sampleBelow x u p limit = d.policy.sampleBelow (d.bin x i lower upper) u p limit := by
  have hdispatch : d.sampleBelow x u p limit =
      d.dispatch x (fun _ t => t.sampleBelow p limit) fun b =>
        d.policy.sampleBelow b u p limit := by
    rw [sampleBelow, checkRandomNumber, checkRandomNumber, if_pos hu, if_pos hp]
    rfl
  rw [hdispatch, dispatch, interior]

/-- A direct sample respects its limit exactly if the table that was picked does not begin above it.
Otherwise the start of that table is returned in spite of the limit. -/
theorem direct_samples_below (built : build grid .direct rule settings = .ok d)
    (tables : ∀ e ∈ grid.entries, ∃ xs ys, Table.ofColumns xs ys = .ok e.item)
    (interior : d.grid.locate x = .ok (.bin i lower upper)) {u p limit : α}
    (hu : Scalar.inUnit u = true) (hp : Scalar.inUnit p = true)
    (hlimit : Scalar.isNumber limit = true) :
    let bin := d.bin x i lower upper
    let picked := bin.table (bin.pick u)
    ∃ low y, d.conditionalLowerBound x = .ok low ∧
      d.sampleBelow x u p limit = .ok y ∧
      low ≤ lower.item.lowerBound ∧ low ≤ upper.item.lowerBound ∧
      (y ≤ limit ↔ picked.lowerBound ≤ limit) ∧
      (limit ≤ picked.lowerBound → y = picked.lowerBound) := by
  intro bin picked
  obtain rfl := eq_of_build built
  obtain ⟨hlower, hupper, _, _⟩ := PrimaryGrid.between_of_locate interior
  obtain ⟨_, _, builtLower⟩ := tables lower hlower
  obtain ⟨_, _, builtUpper⟩ := tables upper hupper
  have startsLower := Table.starts_below_end builtLower
  have startsUpper := Table.starts_below_end builtUpper
  have starts : picked.lowerBound < picked.upperBound := by
    change (bin.table (bin.pick u)).lowerBound < (bin.table (bin.pick u)).upperBound
    cases bin.pick u with
    | lower => exact startsLower
    | upper => exact startsUpper
  obtain ⟨hlow₀, hlow₁, _⟩ := Scalar.min_spec (Scalar.Ordered.number_of_lt startsLower).1
    (Scalar.Ordered.number_of_lt startsUpper).1
  have hcases := Direct.sampleBelow_cases (p := p) starts hlimit
  refine ⟨_, Direct.sampleBelow bin u p limit, ?_, ?_, hlow₀, hlow₁, ?_⟩
  · rw [conditionalLowerBound, dispatch, interior]
    rfl
  · rw [sampleBelow_eq interior hu hp]
    rfl
  · cases hcases with
    | inl h =>
        obtain ⟨_, hsample⟩ := h
        rw [hsample]
        exact ⟨Iff.rfl, fun _ => rfl⟩
    | inr h =>
        obtain ⟨habove, hsample⟩ := h
        refine ⟨⟨fun _ => Scalar.le_of_lt habove, fun _ => hsample⟩, fun hle => ?_⟩
        exact absurd habove (Scalar.not_lt_of_le hle)

/-- A table of constant density one over an interval of length one. -/
def block (start : Float) : Table Float :=
  ⟨⟨start, start + 1.0, 1.0, 0.0, 0.0⟩, [], ⟨start + 1.0, 1.0⟩, 1.0⟩

def apartGrid : PrimaryGrid Float (Table Float) where
  first := ⟨0.0, block 0.0⟩
  second := ⟨1.0, block 2.0⟩
  rest := []
  finite := by decide +kernel
  ascending := rfl

def apart : BivariateDistribution Float := ⟨apartGrid, .direct, .linear, .standard⟩

theorem build_apart : build apartGrid .direct .linear .standard = .ok apart := rfl

theorem columns_of_apartGrid :
    ∀ e ∈ apartGrid.entries, ∃ xs ys, Table.ofColumns xs ys = .ok e.item := by
  intro e he
  simp only [PrimaryGrid.entries, apartGrid, List.mem_cons, List.not_mem_nil, or_false] at he
  cases he with
  | inl h => exact h ▸ ⟨[0.0, 1.0], [1.0, 1.0], rfl⟩
  | inr h => exact h ▸ ⟨[2.0, 3.0], [1.0, 1.0], rfl⟩

theorem locate_apartGrid :
    apartGrid.locate 0.5 = .ok (.bin 0 ⟨0.0, block 0.0⟩ ⟨1.0, block 2.0⟩) := rfl

/-- The table that was picked begins at two. A limit above that cuts its sample off. -/
theorem apart_samples_below :
    build apartGrid .direct .linear .standard = .ok apart ∧
      apart.grid.locate 0.5 = .ok (.bin 0 ⟨0.0, block 0.0⟩ ⟨1.0, block 2.0⟩) ∧
      ∃ y, apart.sampleBelow 0.5 0.25 0.5 2.5 = .ok y ∧ y ≤ 2.5 := by
  have hpick : ((apart.bin 0.5 0 ⟨0.0, block 0.0⟩ ⟨1.0, block 2.0⟩).pick 0.25) = .upper := rfl
  obtain ⟨low, y, _, hsample, _, _, hlimit, _⟩ := direct_samples_below (u := 0.25) (p := 0.5)
    build_apart columns_of_apartGrid locate_apartGrid rfl rfl
    (rfl : Scalar.isNumber (2.5 : Float) = true)
  have below : (block 2.0).lowerBound ≤ 2.5 := by decide +kernel
  rw [hpick] at hlimit
  exact ⟨build_apart, locate_apartGrid, y, hsample, hlimit.mpr below⟩

set_option maxRecDepth 20000 in
/-- A limit at the conditional lower bound is not respected, if the upper table is picked and begins
above it. -/
theorem direct_sample_exceeds_limit :
    build apartGrid .direct .linear .standard = .ok apart ∧
      (∀ e ∈ apartGrid.entries, ∃ xs ys, Table.ofColumns xs ys = .ok e.item) ∧
      apart.grid.locate 0.5 = .ok (.bin 0 ⟨0.0, block 0.0⟩ ⟨1.0, block 2.0⟩) ∧
      apart.conditionalLowerBound 0.5 = .ok 0.0 ∧ (0.0 : Float) ≤ 0.0 ∧
      apart.sampleBelow 0.5 0.25 0.5 0.0 = .ok 2.0 ∧ ¬(2.0 : Float) ≤ 0.0 :=
  ⟨build_apart, columns_of_apartGrid, locate_apartGrid, rfl, by decide, rfl, by decide⟩

end BivariateDistribution
end AdaptiveTables
