import AdaptiveTables.Proofs.Searches

/-!
Searches that succeed. For an estimate that never falls, halving finds every stretch of the
bracket where the estimate is within the tolerance, as soon as the halvings make the bracket
narrower than the stretch. Widening ends at the same bracket whenever enough steps are allowed. An
estimate that is approached from below has such a stretch near every target that it comes
arbitrarily close to, so a search for the target succeeds from some limit of iterations on.
-/

namespace AdaptiveTables

/-- A function that never falls and, inside the unit interval, is the limit of its values from
below. -/
structure Rising (S : ℝ → ℝ) : Prop where
  mono : Monotone S
  approached : ∀ q ∈ Set.Ioo (0 : ℝ) 1, ∀ v < S q, ∃ a < q, ∀ c ∈ Set.Ioo a q, v < S c

namespace Rising

variable {S : ℝ → ℝ} {lo hi y ε : ℝ}

/-- A bracket of a value that is a limit of values of the function has a stretch near the value. -/
theorem exists_near (rising : Rising S) (hlo : 0 ≤ lo) (below : S lo < y) (above : y ≤ S hi)
    (reached : y ∈ closure (S '' Set.Ioo 0 1)) (hε : 0 < ε) :
    ∃ p q, lo ≤ p ∧ p < q ∧ q ≤ hi ∧ ∀ c ∈ Set.Ioo p q, |y - S c| ≤ ε := by
  obtain ⟨_, ⟨p, hp, rfl⟩, hdist⟩ :=
    Metric.mem_closure_iff.mp reached _ (lt_min hε (sub_pos.mpr below))
  rw [Real.dist_eq, lt_min_iff] at hdist
  have hlop : lo < p := by
    refine not_le.mp fun hle => absurd (lt_of_le_of_lt (le_abs_self _) hdist.2) (not_lt.mpr ?_)
    exact sub_le_sub_left (rising.mono hle) y
  have hlohi : lo < hi := rising.mono.reflect_lt (lt_of_lt_of_le below above)
  -- Values beyond the upper end are no closer than the value there.
  have hnear : |y - S (min p hi)| < ε := by
    cases le_total p hi with
    | inl hle =>
        rw [min_eq_left hle]
        exact hdist.1
    | inr hge =>
        rw [min_eq_right hge, abs_sub_comm, abs_of_nonneg (sub_nonneg.mpr above)]
        have hclose := lt_of_le_of_lt (neg_le_abs _) hdist.1
        linarith [rising.mono hge]
  obtain ⟨hlower, hupper⟩ := abs_lt.mp hnear
  have hq : min p hi ∈ Set.Ioo (0 : ℝ) 1 :=
    ⟨lt_of_le_of_lt hlo (lt_min hlop hlohi), lt_of_le_of_lt (min_le_left _ _) hp.2⟩
  obtain ⟨a, ha, hclose⟩ := rising.approached _ hq (y - ε) (by linarith)
  refine ⟨max lo a, min p hi, le_max_left _ _, max_lt (lt_min hlop hlohi) ha, min_le_right _ _,
    fun c hc => ?_⟩
  have habove := hclose c ⟨lt_of_le_of_lt (le_max_right _ _) hc.1, hc.2⟩
  have hbelow := rising.mono hc.2.le
  rw [abs_le]
  constructor <;> linarith

/-- Mixtures of rising functions rise. -/
theorem mix {S₀ S₁ : ℝ → ℝ} {fraction : ℝ} (rising₀ : Rising S₀) (rising₁ : Rising S₁)
    (hfraction : fraction ∈ Set.Ioo (0 : ℝ) 1) :
    Rising fun p => S₀ p + (S₁ p - S₀ p) * fraction := by
  have hweights : ∀ p, S₀ p + (S₁ p - S₀ p) * fraction =
      (1 - fraction) * S₀ p + fraction * S₁ p := fun p => by ring
  have hrest : 0 < 1 - fraction := sub_pos.mpr hfraction.2
  simp only [hweights]
  constructor
  · intro p q hpq
    exact add_le_add (mul_le_mul_of_nonneg_left (rising₀.mono hpq) hrest.le)
      (mul_le_mul_of_nonneg_left (rising₁.mono hpq) hfraction.1.le)
  · -- Both parts may fall short by the same distance.
    intro q hq v hv
    obtain ⟨δ, hδ⟩ : ∃ δ, δ = (1 - fraction) * S₀ q + fraction * S₁ q - v := ⟨_, rfl⟩
    have hpos : 0 < δ := hδ ▸ sub_pos.mpr hv
    obtain ⟨a₀, ha₀, h₀⟩ := rising₀.approached q hq (S₀ q - δ) (sub_lt_self _ hpos)
    obtain ⟨a₁, ha₁, h₁⟩ := rising₁.approached q hq (S₁ q - δ) (sub_lt_self _ hpos)
    refine ⟨max a₀ a₁, max_lt ha₀ ha₁, fun c hc => ?_⟩
    have hc₀ := mul_lt_mul_of_pos_left (h₀ c ⟨lt_of_le_of_lt (le_max_left _ _) hc.1, hc.2⟩) hrest
    have hc₁ := mul_lt_mul_of_pos_left
      (h₁ c ⟨lt_of_le_of_lt (le_max_right _ _) hc.1, hc.2⟩) hfraction.1
    linarith

end Rising

namespace Bisection

variable {b : Bisection ℝ} {target norm tolerance ε lo hi p q : ℝ} {f : ℝ → MatchedPoints ℝ}
  {left taken : Nat}

/-- The stretch decides on which side of the target a rejected estimate lies. -/
theorem side_of_rejected {t : Outcome ℝ} (mono : Monotone fun c => (f c).estimate) (hpq : p < q)
    (near : ∀ c ∈ Set.Ioo p q, |target - (f c).estimate| ≤ ε)
    (points : t.points = f t.probability) (rejected : ¬|target - t.points.estimate| ≤ ε) :
    (t.probability ≤ p ∧ t.points.estimate < target) ∨
      (q ≤ t.probability ∧ ¬t.points.estimate < target) := by
  rw [points] at rejected ⊢
  obtain ⟨m, hpm, hmq⟩ := exists_between hpq
  obtain ⟨hlower, hupper⟩ := abs_le.mp (near m ⟨hpm, hmq⟩)
  cases le_or_gt t.probability p with
  | inl hle =>
      have hbelow : (f t.probability).estimate ≤ (f m).estimate := mono (hle.trans hpm.le)
      refine Or.inl ⟨hle, not_le.mp fun hge => rejected ?_⟩
      rw [abs_le]
      constructor <;> linarith
  | inr hgt =>
      have hge : q ≤ t.probability := not_lt.mp fun hlt => rejected (near _ ⟨hgt, hlt⟩)
      have habove : (f m).estimate ≤ (f t.probability).estimate := mono (hmq.le.trans hge)
      refine Or.inr ⟨hge, fun hlt => rejected ?_⟩
      rw [abs_le]
      constructor <;> linarith

theorem halve_of_accepted
    (h : accepts target norm tolerance (attempt f taken lo hi).points.estimate = true) :
    b.halve target norm tolerance f left taken lo hi = .ok (attempt f taken lo hi) := by
  cases left with
  | zero => simp only [halve, h, Bool.true_or, if_true]
  | succ left => simp only [halve, h, if_true]

/-- Halving finds a stretch of estimates within the tolerance. -/
theorem exists_halve (mono : Monotone fun c => (f c).estimate) (hpq : p < q)
    (tolerant : ∀ e, accepts target norm tolerance e = true ↔ |target - e| ≤ ε)
    (near : ∀ c ∈ Set.Ioo p q, |target - (f c).estimate| ≤ ε) (hlo : lo ≤ p) (hhi : q ≤ hi)
    (narrow : hi - lo < (q - p) * 2 ^ (left + 1)) :
    ∃ outcome, b.halve target norm tolerance f left taken lo hi = .ok outcome := by
  have hmiddle : ∀ taken lo hi, (attempt f taken lo hi).probability = (lo + hi) / 2 := by
    intro taken lo hi
    simp only [attempt]
    ring
  induction left generalizing taken lo hi with
  | zero =>
      by_cases haccepted :
          accepts target norm tolerance (attempt f taken lo hi).points.estimate = true
      · exact ⟨_, halve_of_accepted haccepted⟩
      · -- A middle beside the stretch leaves more than half of the bracket on its other side.
        rw [zero_add, pow_one] at narrow
        cases side_of_rejected mono hpq near rfl (mt (tolerant _).mpr haccepted) with
        | inl h => linarith [hmiddle taken lo hi, h.1]
        | inr h => linarith [hmiddle taken lo hi, h.1]
  | succ left ih =>
      by_cases haccepted :
          accepts target norm tolerance (attempt f taken lo hi).points.estimate = true
      · exact ⟨_, halve_of_accepted haccepted⟩
      · rw [pow_succ] at narrow
        simp only [halve, if_neg haccepted]
        cases side_of_rejected mono hpq near rfl (mt (tolerant _).mpr haccepted) with
        | inl h =>
            rw [if_pos h.2]
            exact ih h.1 hhi (by linarith [hmiddle taken lo hi])
        | inr h =>
            rw [if_neg h.2]
            exact ih hlo h.1 (by linarith [hmiddle taken lo hi])

/-- A phase of widening that carries the ends of a bracket from one pair to another, whatever the
settings, when enough steps are allowed. -/
def Carries (phase : Bisection ℝ → Nat → Bracket ℝ → Bracket ℝ) (widening : ℝ)
    (ends moved : ℝ × ℝ) : Prop :=
  ∃ enough, ∀ b : Bisection ℝ, b.widening = widening → ∀ steps ≥ enough, ∀ k : Bracket ℝ,
    (k.lower, k.upper) = ends → ((phase b steps k).lower, (phase b steps k).upper) = moved

section Widening

variable {estimate : ℝ → ℝ} {w l u : ℝ}

theorem carries_lowerEnd_of_le (h : estimate l ≤ target) :
    Carries (fun b => b.lowerEnd target estimate) w (l, u) (l, u) := by
  refine ⟨0, fun b _ steps _ k hends => ?_⟩
  obtain ⟨rfl, rfl⟩ := Prod.mk.inj hends
  obtain ⟨hlower, hupper⟩ := @lowerEnd_of_le b target estimate steps k h
  rw [hlower, hupper]

theorem carries_upperEnd_of_le (h : target ≤ estimate u) :
    Carries (fun b => b.upperEnd target estimate) w (l, u) (l, u) := by
  refine ⟨0, fun b _ steps _ k hends => ?_⟩
  obtain ⟨rfl, rfl⟩ := Prod.mk.inj hends
  obtain ⟨hlower, hupper⟩ := @upperEnd_of_le b target estimate steps k h
  rw [hlower, hupper]

theorem lowerEnd_of_lt {b : Bisection ℝ} {steps : Nat} {k : Bracket ℝ} (positive : 0 < k.lower)
    (high : target < estimate k.lower) :
    b.lowerEnd target estimate (steps + 2) k =
      b.lowerEnd target estimate (steps + 1)
        ⟨k.lower * (1 - b.widening), k.lower, k.probes + 1⟩ := by
  rw [lowerEnd, if_pos positive]
  simp only [if_pos high, Nat.add_one_ne_zero, if_false]

theorem upperEnd_of_lt {b : Bisection ℝ} {steps : Nat} {k : Bracket ℝ} (inside : k.upper < 1)
    (low : estimate k.upper < target) :
    b.upperEnd target estimate (steps + 2) k =
      b.upperEnd target estimate (steps + 1)
        ⟨k.upper, if min (k.upper * (1 + b.widening)) 1 = 0 then min b.widening 1
          else min (k.upper * (1 + b.widening)) 1, k.probes + 1⟩ := by
  rw [upperEnd, if_pos inside]
  simp only [if_pos low, Nat.add_one_ne_zero, if_false, Exact.min_eq, beq_iff_eq]

/-- One step down, and then no other. -/
theorem carries_lowerEnd_of_lt (positive : 0 < l) (high : target < estimate l)
    (low : estimate (l * (1 - w)) ≤ target) :
    Carries (fun b => b.lowerEnd target estimate) w (l, u) (l * (1 - w), l) := by
  obtain ⟨enough, carries⟩ := carries_lowerEnd_of_le (w := w) (u := l) low
  refine ⟨enough + 2, fun b hw steps hsteps k hends => ?_⟩
  obtain ⟨rfl, rfl⟩ := Prod.mk.inj hends
  obtain ⟨left, rfl⟩ := Nat.exists_eq_add_of_le' (le_of_add_le_right hsteps)
  simp only [lowerEnd_of_lt positive high]
  exact carries b hw (left + 1) (by omega) _ (by rw [hw])

/-- One step up, after which the phase goes on from the moved end. -/
theorem carries_upperEnd_of_lt {moved : ℝ × ℝ} (inside : u < 1) (low : estimate u < target)
    (rest : Carries (fun b => b.upperEnd target estimate) w
      (u, if min (u * (1 + w)) 1 = 0 then min w 1 else min (u * (1 + w)) 1) moved) :
    Carries (fun b => b.upperEnd target estimate) w (l, u) moved := by
  obtain ⟨enough, carries⟩ := rest
  refine ⟨enough + 2, fun b hw steps hsteps k hends => ?_⟩
  obtain ⟨rfl, rfl⟩ := Prod.mk.inj hends
  obtain ⟨left, rfl⟩ := Nat.exists_eq_add_of_le' (le_of_add_le_right hsteps)
  simp only [upperEnd_of_lt inside low]
  exact carries b hw (left + 1) (by omega) _ (by rw [hw])

/-- The ends of a bracket inside the unit interval that holds the target. -/
structure Holds (estimate : ℝ → ℝ) (target : ℝ) (ends : ℝ × ℝ) : Prop where
  nonneg : 0 ≤ ends.1
  le_one : ends.2 ≤ 1
  below : estimate ends.1 < target
  above : target ≤ estimate ends.2

/-- Every step multiplies the upper end by the same factor, so it reaches one or the target. -/
theorem exists_carries_of_pos (hw : 0 < w) (top : target ≤ estimate 1) (nonneg : 0 ≤ l)
    (positive : 0 < u) (le_one : u ≤ 1) (below : estimate l < target) :
    ∃ moved, Holds estimate target moved ∧
      Carries (fun b => b.upperEnd target estimate) w (l, u) moved := by
  have hfactor : 1 < 1 + w := lt_add_of_pos_right 1 hw
  obtain ⟨m, growth⟩ : ∃ m : ℕ, 1 ≤ u * (1 + w) ^ m := by
    obtain ⟨m, hm⟩ := pow_unbounded_of_one_lt u⁻¹ hfactor
    exact ⟨m, ((inv_lt_iff_one_lt_mul₀' positive).mp hm).le⟩
  induction m generalizing l u with
  | zero =>
      have hone : u = 1 := le_antisymm le_one (by simpa using growth)
      have hheld : target ≤ estimate u := hone ▸ top
      exact ⟨(l, u), ⟨nonneg, le_one, below, hheld⟩, carries_upperEnd_of_le hheld⟩
  | succ m ih =>
      by_cases hheld : target ≤ estimate u
      · exact ⟨(l, u), ⟨nonneg, le_one, below, hheld⟩, carries_upperEnd_of_le hheld⟩
      · have hbelow := not_le.mp hheld
        have hinside : u < 1 := lt_of_le_of_ne le_one fun hone => hheld (hone ▸ top)
        have hgrown : 0 < min (u * (1 + w)) 1 :=
          lt_min (mul_pos positive (one_pos.trans hfactor)) one_pos
        have hgrowth : 1 ≤ min (u * (1 + w)) 1 * (1 + w) ^ m := by
          rw [min_mul_of_nonneg _ _ (pow_nonneg (one_pos.trans hfactor).le m), one_mul]
          refine le_min ?_ (one_le_pow₀ hfactor.le)
          rwa [mul_assoc, ← pow_succ']
        obtain ⟨moved, holds, carries⟩ :=
          ih positive.le hgrown (min_le_right _ _) hbelow hgrowth
        refine ⟨moved, holds, carries_upperEnd_of_lt hinside hbelow ?_⟩
        rwa [if_neg hgrown.ne']

/-- An upper end at zero first moves to the widening factor. -/
theorem exists_carries_upperEnd (hw : w ∈ Set.Ioo (0 : ℝ) 1) (top : target ≤ estimate 1)
    (nonneg : 0 ≤ l) (hu : u ∈ Set.Icc (0 : ℝ) 1) (below : estimate l < target) :
    ∃ moved, Holds estimate target moved ∧
      Carries (fun b => b.upperEnd target estimate) w (l, u) moved := by
  by_cases hheld : target ≤ estimate u
  · exact ⟨(l, u), ⟨nonneg, hu.2, below, hheld⟩, carries_upperEnd_of_le hheld⟩
  · cases eq_or_lt_of_le hu.1 with
    | inr positive => exact exists_carries_of_pos hw.1 top nonneg positive hu.2 below
    | inl hzero =>
        subst hzero
        obtain ⟨moved, holds, carries⟩ :=
          exists_carries_of_pos hw.1 top (le_refl 0) hw.1 hw.2.le (not_le.mp hheld)
        refine ⟨moved, holds, carries_upperEnd_of_lt one_pos (not_le.mp hheld) ?_⟩
        rwa [zero_mul, min_eq_left zero_le_one, if_pos rfl, min_eq_left hw.2.le]

theorem Carries.andThen {first second : Bisection ℝ → Nat → Bracket ℝ → Bracket ℝ}
    {ends middle moved : ℝ × ℝ} (h : Carries first w ends middle)
    (h' : Carries second w middle moved) :
    Carries (fun b steps k => second b steps (first b steps k)) w ends moved := by
  obtain ⟨enough, carries⟩ := h
  obtain ⟨enough', carries'⟩ := h'
  refine ⟨max enough enough', fun b hw steps hsteps k hends => ?_⟩
  exact carries' b hw steps (le_of_max_le_right hsteps) _
    (carries b hw steps (le_of_max_le_left hsteps) k hends)

/-- Whatever the limit of steps beyond some number, widening ends at one bracket of the target. -/
theorem exists_carries_widen (hw : w ∈ Set.Ioo (0 : ℝ) 1) (hlo : 0 ≤ lo) (hlohi : lo ≤ hi)
    (hhi : hi ≤ 1) (zero : estimate 0 < target) (top : target ≤ estimate 1)
    (start : ∀ c, 0 ≤ c → c ≤ lo → c < hi → estimate c < target)
    (missed : ¬(lo = hi ∧ estimate lo = target)) :
    ∃ moved, Holds estimate target moved ∧ Carries (fun b steps k =>
      b.upperEnd target estimate steps (b.lowerEnd target estimate steps k)) w (lo, hi) moved := by
  by_cases hbelow : estimate lo < target
  · obtain ⟨moved, holds, carries⟩ :=
      exists_carries_upperEnd hw top hlo ⟨hlo.trans hlohi, hhi⟩ hbelow
    exact ⟨moved, holds, (carries_lowerEnd_of_le hbelow.le).andThen carries⟩
  · -- Such a bracket is one point beyond the target, and one step down brings it back.
    have heq : lo = hi := not_lt.mp (fun hlt => hbelow (start lo hlo (le_refl _) hlt))
      |>.antisymm' hlohi
    have hhigh : target < estimate lo :=
      lt_of_le_of_ne (not_lt.mp hbelow) fun h => missed ⟨heq, h.symm⟩
    have hpositive : 0 < lo := by
      refine lt_of_le_of_ne hlo fun hzero => ?_
      rw [← hzero] at hhigh
      exact lt_asymm hhigh zero
    have hdown : lo * (1 - w) < lo := mul_lt_of_lt_one_right hpositive (sub_lt_self 1 hw.1)
    have hnonneg : 0 ≤ lo * (1 - w) := mul_nonneg hlo (sub_pos.mpr hw.2).le
    have hlow : estimate (lo * (1 - w)) < target :=
      start _ hnonneg hdown.le (lt_of_lt_of_le hdown hlohi)
    obtain ⟨moved, holds, carries⟩ :=
      exists_carries_upperEnd hw top hnonneg ⟨hlo, hlohi.trans hhi⟩ hlow
    exact ⟨moved, holds, (carries_lowerEnd_of_lt hpositive hhigh hlow.le).andThen carries⟩

end Widening

/-- From some limit of iterations on, a search for a limit of estimates succeeds. -/
theorem exists_solve {w : ℝ} (rising : Rising fun c => (f c).estimate)
    (hw : w ∈ Set.Ioo (0 : ℝ) 1) (htolerance : 0 < tolerance) (nonzero : target ≠ 0)
    (hlo : 0 ≤ lo) (hlohi : lo ≤ hi) (hhi : hi ≤ 1) (zero : (f 0).estimate < target)
    (top : target ≤ (f 1).estimate)
    (start : ∀ c, 0 ≤ c → c ≤ lo → c < hi → (f c).estimate < target)
    (reached : target ∈ closure ((fun c => (f c).estimate) '' Set.Ioo 0 1)) :
    ∃ enough, ∀ b : Bisection ℝ, b.widening = w → b.settings.relativeError = tolerance →
      enough ≤ b.settings.maxIterations → ∃ outcome, b.solve target lo hi f = .ok outcome := by
  by_cases hit : lo = hi ∧ (f lo).estimate = target
  · obtain ⟨rfl, hmet⟩ := hit
    exact ⟨0, fun b _ _ _ => ⟨_, solve_of_hit ⟨hlo, hhi⟩ hmet⟩⟩
  · obtain ⟨moved, holds, enough, carries⟩ :=
      exists_carries_widen hw hlo hlohi hhi zero top start hit
    obtain ⟨p, q, hp, hpq, hq, near⟩ := rising.exists_near holds.nonneg holds.below holds.above
      reached (mul_pos htolerance (abs_pos.mpr nonzero))
    obtain ⟨m, hm⟩ := pow_unbounded_of_one_lt (q - p)⁻¹ one_lt_two
    refine ⟨max enough m, fun b hwidening hsettings hlimit => ?_⟩
    have hsteps : max enough m ≤ b.stepLimit := hlimit.trans (le_max_right _ _)
    have hends := carries b hwidening b.stepLimit (le_of_max_le_left hsteps)
      ⟨Scalar.clamp 0 1 lo, Scalar.clamp 0 1 hi, 0⟩
      (by rw [Exact.clamp_of_mem ⟨hlo, hlohi.trans hhi⟩,
        Exact.clamp_of_mem ⟨hlo.trans hlohi, hhi⟩])
    obtain ⟨hlower, hupper⟩ := Prod.mk.inj (hends.trans moved.eta.symm)
    have hnarrow : moved.2 - moved.1 < (q - p) * 2 ^ (b.stepLimit - 1 + 1) := by
      have hpow : (2 : ℝ) ^ m ≤ 2 ^ (b.stepLimit - 1 + 1) :=
        pow_le_pow_right₀ one_le_two (by omega)
      have hwide : 1 < (q - p) * 2 ^ (b.stepLimit - 1 + 1) :=
        (inv_lt_iff_one_lt_mul₀' (sub_pos.mpr hpq)).mp (lt_of_lt_of_le hm hpow)
      linarith [holds.nonneg, holds.le_one]
    have hzero : ¬(target == 0) = true := fun heq => nonzero (beq_iff_eq.mp heq)
    simp only [solve, if_neg hzero, widen]
    rw [hlower, hupper]
    refine exists_halve rising.mono hpq (accepts_iff_close nonzero ?_) ?_ hp hq hnarrow
    · exact hsettings ▸ htolerance.le
    · exact hsettings ▸ near

end Bisection
end AdaptiveTables
