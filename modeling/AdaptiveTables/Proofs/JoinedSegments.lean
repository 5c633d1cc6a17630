import AdaptiveTables.Proofs.Segments

/-!
Segments that continue each other. The look-up by point and the look-up by integral walk over the
same run of segments, so the density and the integral that they give are single functions: the
integral rises from the first left end, grows as fast as the density, and has the density as its
derivative, also where two segments meet.
-/

namespace AdaptiveTables
namespace Segment

/-- A regular segment with the point, the density and the integral at its right end. -/
structure Reaches (s : Segment ℝ) (abscissa density cumulative : ℝ) : Prop
    extends s.Regular where
  right_eq : s.right = abscissa
  densityAt_right : s.densityAt s.right = density
  cumulativeAt_right : s.cumulativeAt s.right = cumulative

/-- A run of segments up to the last knot, each beginning where the one before it ends. -/
inductive Joined (last : Knot ℝ) (total : ℝ) : Segment ℝ → List (Segment ℝ) → Prop
  | single {s} (ends : s.Reaches last.abscissa last.density total) : Joined last total s []
  | cons {s next rest} (ends : s.Reaches next.left next.density next.cumulative)
      (others : Joined last total next rest) : Joined last total s (next :: rest)

/-- The segment that a look-up of a point finds. -/
noncomputable def holding (s : Segment ℝ) (later : List (Segment ℝ)) (x : ℝ) : Segment ℝ :=
  (advance (fun σ => σ.left ≤ x) s later).1

/-- The segment that a look-up of an integral finds. -/
noncomputable def reaching (s : Segment ℝ) (later : List (Segment ℝ)) (target : ℝ) : Segment ℝ :=
  (advance (fun σ => σ.cumulative < target) s later).1

noncomputable def densityOver (s : Segment ℝ) (later : List (Segment ℝ)) (x : ℝ) : ℝ :=
  (holding s later x).densityAt x

noncomputable def integralOver (s : Segment ℝ) (later : List (Segment ℝ)) (x : ℝ) : ℝ :=
  (holding s later x).cumulativeAt x

section LookUp

variable {s next : Segment ℝ} {rest : List (Segment ℝ)} {x target : ℝ}

theorem holding_of_lt (h : x < next.left) : holding s (next :: rest) x = s := by
  simp [holding, advance, not_le.mpr h]

theorem holding_of_le (h : next.left ≤ x) :
    holding s (next :: rest) x = holding next rest x := by
  simp [holding, advance, h]

theorem reaching_of_lt (h : next.cumulative < target) :
    reaching s (next :: rest) target = reaching next rest target := by
  simp [reaching, advance, h]

theorem reaching_of_le (h : target ≤ next.cumulative) :
    reaching s (next :: rest) target = s := by
  simp [reaching, advance, not_lt.mpr h]

theorem densityOver_of_lt (h : x < next.left) :
    densityOver s (next :: rest) x = s.densityAt x := by
  rw [densityOver, holding_of_lt h]

theorem densityOver_of_le (h : next.left ≤ x) :
    densityOver s (next :: rest) x = densityOver next rest x := by
  rw [densityOver, holding_of_le h, densityOver]

theorem integralOver_of_lt (h : x < next.left) :
    integralOver s (next :: rest) x = s.cumulativeAt x := by
  rw [integralOver, holding_of_lt h]

theorem integralOver_of_le (h : next.left ≤ x) :
    integralOver s (next :: rest) x = integralOver next rest x := by
  rw [integralOver, holding_of_le h, integralOver]

end LookUp

namespace Joined

variable {last : Knot ℝ} {total : ℝ} {s : Segment ℝ} {later : List (Segment ℝ)} {x y target : ℝ}

theorem left_lt_last (joined : Joined last total s later) : s.left < last.abscissa := by
  induction joined with
  | single ends => exact lt_of_lt_of_eq ends.proper ends.right_eq
  | cons ends _ ih => exact lt_trans (lt_of_lt_of_eq ends.proper ends.right_eq) ih

/-- The first left end belongs to the first segment. -/
theorem holding_left (joined : Joined last total s later) : holding s later s.left = s := by
  cases joined with
  | single _ => rfl
  | cons ends _ => exact holding_of_lt (lt_of_lt_of_eq ends.proper ends.right_eq)

theorem densityOver_left (joined : Joined last total s later) :
    densityOver s later s.left = s.density := by
  rw [densityOver, joined.holding_left, densityAt_eq, sub_self, mul_zero, add_zero]

theorem integralOver_left (joined : Joined last total s later) :
    integralOver s later s.left = s.cumulative := by
  rw [integralOver, joined.holding_left, cumulativeAt_left]

theorem densityOver_last (joined : Joined last total s later) :
    densityOver s later last.abscissa = last.density := by
  induction joined with
  | single ends => exact ends.right_eq ▸ ends.densityAt_right
  | cons _ others ih => rw [densityOver_of_le (le_of_lt others.left_lt_last), ih]

theorem integralOver_last (joined : Joined last total s later) :
    integralOver s later last.abscissa = total := by
  induction joined with
  | single ends => exact ends.right_eq ▸ ends.cumulativeAt_right
  | cons _ others ih => rw [integralOver_of_le (le_of_lt others.left_lt_last), ih]

theorem densityOver_nonneg (joined : Joined last total s later) (hx : s.left ≤ x)
    (hx' : x ≤ last.abscissa) : 0 ≤ densityOver s later x := by
  induction joined with
  | single ends => exact ends.densityAt_nonneg hx (le_of_le_of_eq hx' ends.right_eq.symm)
  | @cons s next rest ends _ ih =>
      rcases lt_or_ge x next.left with hlt | hge
      · rw [densityOver_of_lt hlt]
        exact ends.densityAt_nonneg hx (le_of_lt (lt_of_lt_of_eq hlt ends.right_eq.symm))
      · rw [densityOver_of_le hge]
        exact ih hge

/-- The density has a greatest value, at one of the ends of the segments. -/
theorem exists_peak (joined : Joined last total s later) :
    ∃ z, s.left ≤ z ∧ z ≤ last.abscissa ∧ ∀ x, s.left ≤ x → x ≤ last.abscissa →
      densityOver s later x ≤ densityOver s later z := by
  induction joined with
  | @single s ends =>
      rcases le_total s.density last.density with hle | hle
      · refine ⟨last.abscissa, le_of_lt (lt_of_lt_of_eq ends.proper ends.right_eq), le_refl _, ?_⟩
        intro x hx hx'
        have hlast : densityOver s [] last.abscissa = last.density :=
          densityOver_last (.single ends)
        rw [hlast]
        exact ends.densityAt_mem (convex_Iic last.density) hle
          (le_of_eq ends.densityAt_right) hx (le_of_le_of_eq hx' ends.right_eq.symm)
      · refine ⟨s.left, le_refl _, le_of_lt (lt_of_lt_of_eq ends.proper ends.right_eq), ?_⟩
        intro x hx hx'
        have hleft : densityOver s [] s.left = s.density := densityOver_left (.single ends)
        rw [hleft]
        exact ends.densityAt_mem (convex_Iic s.density) Set.self_mem_Iic
          (le_of_eq_of_le ends.densityAt_right hle) hx (le_of_le_of_eq hx' ends.right_eq.symm)
  | @cons s next rest ends others ih =>
      obtain ⟨z, hz, hz', hpeak⟩ := ih
      have hmeet : s.left < next.left := lt_of_lt_of_eq ends.proper ends.right_eq
      have hnext : next.density ≤ densityOver next rest z :=
        others.densityOver_left ▸ hpeak next.left (le_refl _) (le_of_lt others.left_lt_last)
      -- Up to the joint the density stays below the larger of its values at both ends.
      have hbelow : ∀ {bound x : ℝ}, s.density ≤ bound → densityOver next rest z ≤ bound →
          s.left ≤ x → x ≤ last.abscissa → densityOver s (next :: rest) x ≤ bound := by
        intro bound x hs hrest hx hx'
        rcases lt_or_ge x next.left with hlt | hge
        · rw [densityOver_of_lt hlt]
          exact ends.densityAt_mem (convex_Iic bound) hs
            (le_trans (le_of_eq_of_le ends.densityAt_right hnext) hrest) hx
            (le_of_lt (lt_of_lt_of_eq hlt ends.right_eq.symm))
        · rw [densityOver_of_le hge]
          exact le_trans (hpeak x hge hx') hrest
      rcases le_total s.density (densityOver next rest z) with hle | hle
      · refine ⟨z, le_trans (le_of_lt hmeet) hz, hz', fun x hx hx' => ?_⟩
        rw [densityOver_of_le hz]
        exact hbelow hle (le_refl _) hx hx'
      · refine ⟨s.left, le_refl _, le_of_lt (lt_trans hmeet others.left_lt_last),
          fun x hx hx' => ?_⟩
        rw [densityOver_left (.cons ends others)]
        exact hbelow (le_refl _) hle hx hx'

/-- Over any stretch the integral grows at least and at most as fast as bounds of the density. -/
theorem integralOver_sub_mem (joined : Joined last total s later) {lo hi : ℝ}
    (bounds : ∀ z, s.left ≤ z → z ≤ last.abscissa → densityOver s later z ∈ Set.Icc lo hi)
    (hx : s.left ≤ x) (hxy : x ≤ y) (hy : y ≤ last.abscissa) :
    integralOver s later y - integralOver s later x ∈
      Set.Icc (lo * (y - x)) (hi * (y - x)) := by
  induction joined generalizing x with
  | single _ =>
      exact cumulativeAt_sub_mem (bounds x hx (le_trans hxy hy))
        (bounds y (le_trans hx hxy) hy) hxy
  | @cons s next rest ends others ih =>
      have hmeet : s.left < next.left := lt_of_lt_of_eq ends.proper ends.right_eq
      have hlater : ∀ z, next.left ≤ z → z ≤ last.abscissa →
          densityOver next rest z ∈ Set.Icc lo hi := fun z hz hz' =>
        densityOver_of_le hz ▸ bounds z (le_trans (le_of_lt hmeet) hz) hz'
      have hhead : ∀ z, s.left ≤ z → z ≤ next.left → s.densityAt z ∈ Set.Icc lo hi := by
        intro z hz hz'
        rcases lt_or_eq_of_le hz' with hlt | rfl
        · exact densityOver_of_lt hlt ▸ bounds z hz (le_trans hz' (le_of_lt others.left_lt_last))
        · rw [← ends.right_eq, ends.densityAt_right, ← others.densityOver_left]
          exact hlater _ (le_refl _) (le_of_lt others.left_lt_last)
      rcases lt_or_ge x next.left with hxlt | hxge
      · rcases lt_or_ge y next.left with hylt | hyge
        · rw [integralOver_of_lt hxlt, integralOver_of_lt hylt]
          exact cumulativeAt_sub_mem (hhead x hx (le_of_lt hxlt))
            (hhead y (le_trans hx hxy) (le_of_lt hylt)) hxy
        · -- The stretch crosses the joint, where both parts have the same integral.
          have hfirst := cumulativeAt_sub_mem (hhead x hx (le_of_lt hxlt))
            (hhead next.left (le_of_lt hmeet) (le_refl _)) (le_of_lt hxlt)
          have hrest := ih hlater (le_refl _) hyge
          have hjoint : s.cumulativeAt next.left = integralOver next rest next.left := by
            rw [others.integralOver_left, ← ends.right_eq, ends.cumulativeAt_right]
          rw [integralOver_of_lt hxlt, integralOver_of_le hyge]
          constructor
          · linarith [hfirst.1, hrest.1]
          · linarith [hfirst.2, hrest.2]
      · rw [integralOver_of_le hxge, integralOver_of_le (le_trans hxge hxy)]
        exact ih hlater hxge hxy

/-- Where no joint lies strictly between two points the integral is the area of a trapezoid. -/
theorem integralOver_sub (joined : Joined last total s later) (hxy : x ≤ y)
    (free : ∀ σ ∈ later, σ.left ∉ Set.Ioo x y) :
    integralOver s later y - integralOver s later x =
      (y - x) * (densityOver s later x + densityOver s later y) / 2 := by
  induction joined with
  | single _ => exact cumulativeAt_sub _ x y
  | @cons s next rest ends others ih =>
      obtain ⟨hnext, hrest⟩ := List.forall_mem_cons.mp free
      rcases le_or_gt next.left x with hle | hgt
      · rw [integralOver_of_le hle, integralOver_of_le (hle.trans hxy), densityOver_of_le hle,
          densityOver_of_le (hle.trans hxy)]
        exact ih hrest
      rw [integralOver_of_lt hgt, densityOver_of_lt hgt]
      rcases lt_or_ge y next.left with hlt | hge
      · rw [integralOver_of_lt hlt, densityOver_of_lt hlt]
        exact s.cumulativeAt_sub x y
      · -- The stretch ends at the joint, which both parts share.
        obtain rfl : y = next.left := le_antisymm (not_lt.mp fun h => hnext ⟨hgt, h⟩) hge
        rw [integralOver_of_le hge, densityOver_of_le hge, others.integralOver_left,
          others.densityOver_left, ← ends.densityAt_right, ← ends.cumulativeAt_right, ends.right_eq]
        exact s.cumulativeAt_sub x next.left

theorem integralOver_mono (joined : Joined last total s later) (hx : s.left ≤ x) (hxy : x ≤ y)
    (hy : y ≤ last.abscissa) : integralOver s later x ≤ integralOver s later y := by
  obtain ⟨z, _, _, hpeak⟩ := joined.exists_peak
  have hgrowth := joined.integralOver_sub_mem
    (fun w hw hw' => ⟨joined.densityOver_nonneg hw hw', hpeak w hw hw'⟩) hx hxy hy
  rw [zero_mul] at hgrowth
  exact sub_nonneg.mp hgrowth.1

/-- The point found for a target has the target as its integral, and every point before it has
less. -/
theorem abscissaAt_reaching (joined : Joined last total s later) (above : s.cumulative < target)
    (reached : target ≤ total) :
    s.left < (reaching s later target).abscissaAt target ∧
      (reaching s later target).abscissaAt target ≤ last.abscissa ∧
      integralOver s later ((reaching s later target).abscissaAt target) = target ∧
      ∀ x, s.left ≤ x → x < (reaching s later target).abscissaAt target →
        integralOver s later x < target := by
  induction joined with
  | single ends =>
      have hreached := le_of_le_of_eq reached ends.cumulativeAt_right.symm
      obtain ⟨hleft, hright, hfound⟩ := ends.abscissaAt_spec above hreached
      exact ⟨hleft, le_of_le_of_eq hright ends.right_eq, hfound,
        fun x hx before => ends.cumulativeAt_lt above hreached hx before⟩
  | @cons s next rest ends others ih =>
      have hmeet : s.left < next.left := lt_of_lt_of_eq ends.proper ends.right_eq
      rcases lt_or_ge next.cumulative target with hlt | hge
      · obtain ⟨hleft, hright, hfound, hbefore⟩ := ih hlt
        rw [reaching_of_lt hlt]
        refine ⟨lt_trans hmeet hleft, hright, ?_, fun x hx before => ?_⟩
        · rw [integralOver_of_le (le_of_lt hleft), hfound]
        · rcases lt_or_ge x next.left with hxlt | hxge
          · rw [integralOver_of_lt hxlt]
            refine lt_of_le_of_lt ?_ hlt
            rw [← ends.cumulativeAt_right]
            exact ends.cumulativeAt_mono hx (le_of_lt (lt_of_lt_of_eq hxlt ends.right_eq.symm))
              (le_refl _)
          · rw [integralOver_of_le hxge]
            exact hbefore x hxge before
      · have hreached := le_of_le_of_eq hge ends.cumulativeAt_right.symm
        obtain ⟨hleft, hright, hfound⟩ := ends.abscissaAt_spec above hreached
        rw [ends.right_eq] at hright
        rw [reaching_of_le hge]
        refine ⟨hleft, le_trans hright (le_of_lt others.left_lt_last), ?_, fun x hx before => ?_⟩
        · rcases lt_or_eq_of_le hright with hin | hend
          · rw [integralOver_of_lt hin, hfound]
          · rw [integralOver_of_le (ge_of_eq hend), hend, others.integralOver_left,
              ← ends.cumulativeAt_right, ends.right_eq, ← hend, hfound]
        · rw [integralOver_of_lt (lt_of_lt_of_le before hright)]
          exact ends.cumulativeAt_lt above hreached hx before

end Joined
end Segment
end AdaptiveTables
