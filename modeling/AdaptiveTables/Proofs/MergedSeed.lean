import AdaptiveTables.Grid.Plane
import AdaptiveTables.Proofs.LineStructure

/-!
Seeds with critical values. Sorting puts equal values next to each other, so what is left once
the repeats are dropped ascends, and it lacks no value up to the sign of zeros. The ends of the
seed stay, because a critical value is merged only if it lies strictly between them.
-/

namespace AdaptiveTables

variable {α : Type} [Scalar α]

theorem dropRepeats_sublist (xs : List α) : (dropRepeats xs).Sublist xs := by
  fun_induction dropRepeats xs with
  | case1 a b rest heq ih => exact ih.trans ((List.sublist_cons_self b rest).cons_cons a)
  | case2 a b rest hne ih => exact ih.cons_cons a
  | case3 xs hshort => exact List.Sublist.refl xs

variable [Scalar.Ordered α]

theorem contains_dropRepeats {xs : List α} (numbers : ∀ x ∈ xs, Scalar.isNumber x = true) :
    ∀ x ∈ xs, (dropRepeats xs).contains x = true := by
  fun_induction dropRepeats xs with
  | case1 a b rest heq ih =>
      have kept := ih fun x hx => numbers x (by
        cases List.mem_cons.mp hx with
        | inl h => exact h ▸ List.mem_cons_self
        | inr h => exact List.mem_cons_of_mem _ (List.mem_cons_of_mem _ h))
      intro x hx
      cases List.mem_cons.mp hx with
      | inl h => exact h ▸ kept a List.mem_cons_self
      | inr hx =>
          cases List.mem_cons.mp hx with
          | inl h =>
              -- What stands for `a` stands for the repeat as well.
              obtain ⟨y, hy, hay⟩ := List.contains_iff_exists_mem_beq.mp
                (kept a List.mem_cons_self)
              rw [h]
              exact List.contains_iff_exists_mem_beq.mpr
                ⟨y, hy, Scalar.beq_trans (Scalar.beq_symm heq) hay⟩
          | inr hx => exact kept x (List.mem_cons_of_mem _ hx)
  | case2 a b rest hne ih =>
      have kept := ih fun x hx => numbers x (List.mem_cons_of_mem _ hx)
      intro x hx
      cases List.mem_cons.mp hx with
      | inl h =>
          exact List.contains_iff_exists_mem_beq.mpr ⟨a, List.mem_cons_self, h ▸ numbers x hx⟩
      | inr hx =>
          obtain ⟨y, hy, hxy⟩ := List.contains_iff_exists_mem_beq.mp (kept x hx)
          exact List.contains_iff_exists_mem_beq.mpr ⟨y, List.mem_cons_of_mem _ hy, hxy⟩
  | case3 xs hshort =>
      intro x hx
      exact List.contains_iff_exists_mem_beq.mpr ⟨x, hx, numbers x hx⟩

theorem ascending_dropRepeats {xs : List α} (numbers : ∀ x ∈ xs, Scalar.isNumber x = true)
    (sorted : xs.Pairwise fun a b => ¬b < a) : (dropRepeats xs).Pairwise (· < ·) := by
  fun_induction dropRepeats xs with
  | case1 a b rest heq ih =>
      have hsub : (a :: rest).Sublist (a :: b :: rest) :=
        (List.sublist_cons_self b rest).cons_cons a
      exact ih (fun x hx => numbers x (hsub.subset hx)) (sorted.sublist hsub)
  | case2 a b rest hne ih =>
      obtain ⟨ha, hrest⟩ := List.pairwise_cons.mp sorted
      have hb : ∀ x ∈ b :: rest, Scalar.isNumber x = true := fun x hx =>
        numbers x (List.mem_cons_of_mem _ hx)
      have hab : a < b := by
        refine Scalar.lt_of_le_of_not_beq (Scalar.Ordered.le_iff.mpr ?_) hne
        exact ⟨numbers a List.mem_cons_self, hb b List.mem_cons_self, ha b List.mem_cons_self⟩
      refine List.pairwise_cons.mpr ⟨fun y hy => ?_, ih hb hrest⟩
      cases List.mem_cons.mp ((dropRepeats_sublist (b :: rest)).subset hy) with
      | inl h => exact h ▸ hab
      | inr hy =>
          have hby := (List.pairwise_cons.mp hrest).1 y hy
          exact Scalar.lt_of_lt_of_le hab (Scalar.Ordered.le_iff.mpr
            ⟨hb b List.mem_cons_self, hb y (List.mem_cons_of_mem _ hy), hby⟩)
  | case3 xs hshort =>
      match xs, hshort with
      | [], _ => exact .nil
      | [a], _ => exact List.pairwise_singleton _ a
      | a :: b :: rest, hshort => exact absurd rfl (hshort a b rest)

theorem dropRepeats_of_ascending {xs : List α} (ascending : xs.Pairwise (· < ·)) :
    dropRepeats xs = xs := by
  fun_induction dropRepeats xs with
  | case1 a b rest heq ih =>
      have hab := (List.pairwise_cons.mp ascending).1 b List.mem_cons_self
      exact absurd hab (Scalar.not_lt_of_le (Scalar.beq_iff_le.mp heq).2)
  | case2 a b rest hne ih => rw [ih (List.pairwise_cons.mp ascending).2]
  | case3 xs hshort => rfl

/-- Of the values that equal each other, the least for sorting is kept. -/
theorem least_of_mem_dropRepeats {xs : List α} (numbers : ∀ x ∈ xs, Scalar.isNumber x = true)
    (sorted : xs.Pairwise fun a b => Scalar.totalLe a b = true) :
    ∀ x ∈ dropRepeats xs, ∀ z ∈ xs, (z == x) = true → Scalar.totalLe x z = true := by
  have reflexive (a : α) : Scalar.totalLe a a = true := by
    simpa using Scalar.Ordered.totalLe_total a a
  fun_induction dropRepeats xs with
  | case1 a b rest heq ih =>
      have hsub : (a :: rest).Sublist (a :: b :: rest) :=
        (List.sublist_cons_self b rest).cons_cons a
      have least := ih (fun x hx => numbers x (hsub.subset hx)) (sorted.sublist hsub)
      intro x hx z hz hzx
      cases List.mem_cons.mp hz with
      | inl hza => exact least x hx z (hza ▸ List.mem_cons_self) hzx
      | inr hz =>
          cases List.mem_cons.mp hz with
          | inl hzb =>
              -- The repeat equals the value before it, which comes first.
              have hax : (a == x) = true := Scalar.beq_trans heq (hzb ▸ hzx)
              have hxa := least x hx a List.mem_cons_self hax
              have hab := (List.pairwise_cons.mp sorted).1 b List.mem_cons_self
              exact hzb ▸ Scalar.Ordered.totalLe_trans hxa hab
          | inr hz => exact least x hx z (List.mem_cons_of_mem _ hz) hzx
  | case2 a b rest hne ih =>
      obtain ⟨ha, hrest⟩ := List.pairwise_cons.mp sorted
      have ascending := ascending_dropRepeats numbers (sorted.imp Scalar.Ordered.not_lt_of_totalLe)
      rw [dropRepeats, if_neg hne] at ascending
      have habove := (List.pairwise_cons.mp ascending).1
      have least := ih (fun x hx => numbers x (List.mem_cons_of_mem _ hx)) hrest
      intro x hx z hz hzx
      cases List.mem_cons.mp hx with
      | inl hxa =>
          rw [hxa]
          cases List.mem_cons.mp hz with
          | inl hza => exact hza ▸ reflexive a
          | inr hz => exact ha z hz
      | inr hx =>
          cases List.mem_cons.mp hz with
          | inl hza =>
              have hle := (Scalar.beq_iff_le.mp (hza ▸ hzx)).2
              exact absurd (habove x hx) (Scalar.not_lt_of_le hle)
          | inr hz => exact least x hx z hz hzx
  | case3 xs hshort =>
      intro x hx z hz _
      match xs, hshort with
      | [], _ => cases hx
      | [a], _ =>
          rw [List.mem_singleton.mp hx, List.mem_singleton.mp hz]
          exact reflexive a
      | a :: b :: rest, hshort => exact absurd rfl (hshort a b rest)

theorem pairwise_sorted (xs : List α) :
    (xs.mergeSort Scalar.totalLe).Pairwise fun a b => Scalar.totalLe a b = true := by
  have transitive (a b c : α) (hab : Scalar.totalLe a b = true) (hbc : Scalar.totalLe b c = true) :
      Scalar.totalLe a c = true := Scalar.Ordered.totalLe_trans hab hbc
  exact List.pairwise_mergeSort transitive Scalar.Ordered.totalLe_total xs

/-- The order for sorting agrees with the strict one. -/
theorem pairwise_of_ascending {xs : List α} (ascending : xs.Pairwise (· < ·)) :
    xs.Pairwise fun a b => Scalar.totalLe a b = true := by
  refine ascending.imp fun {a b} hlt => ?_
  have hnot : ¬Scalar.totalLe b a = true := fun hle => Scalar.Ordered.not_lt_of_totalLe hle hlt
  simpa [hnot] using Scalar.Ordered.totalLe_total a b

/-- Sorting has one answer: a sorted list of the same values. -/
theorem mergeSort_of_perm [Scalar.Separated α] {xs ys : List α} (perm : xs.Perm ys)
    (sorted : ys.Pairwise fun a b => Scalar.totalLe a b = true) :
    xs.mergeSort Scalar.totalLe = ys :=
  List.Perm.eq_of_pairwise (fun _ _ _ _ hab hba => Scalar.Separated.eq_of_totalLe hab hba)
    (pairwise_sorted xs) sorted ((List.mergeSort_perm xs _).trans perm)

section Sorted

variable {xs : List α} (numbers : ∀ x ∈ xs, Scalar.isNumber x = true)
include numbers

theorem ascending_sorted : (dropRepeats (xs.mergeSort Scalar.totalLe)).Pairwise (· < ·) :=
  ascending_dropRepeats (fun x hx => numbers x (List.mem_mergeSort.mp hx))
    ((pairwise_sorted xs).imp Scalar.Ordered.not_lt_of_totalLe)

theorem contains_sorted :
    ∀ x ∈ xs, (dropRepeats (xs.mergeSort Scalar.totalLe)).contains x = true := fun x hx =>
  contains_dropRepeats (fun y hy => numbers y (List.mem_mergeSort.mp hy)) x
    (List.mem_mergeSort.mpr hx)

theorem least_sorted : ∀ x ∈ dropRepeats (xs.mergeSort Scalar.totalLe), ∀ z ∈ xs,
    (z == x) = true → Scalar.totalLe x z = true := fun x hx z hz =>
  least_of_mem_dropRepeats (fun y hy => numbers y (List.mem_mergeSort.mp hy)) (pairwise_sorted xs)
    x hx z (List.mem_mergeSort.mpr hz)

end Sorted

omit [Scalar.Ordered α] in
theorem mem_of_mem_sorted {xs : List α} {x : α}
    (h : x ∈ dropRepeats (xs.mergeSort Scalar.totalLe)) : x ∈ xs :=
  List.mem_mergeSort.mp ((dropRepeats_sublist _).subset h)

/-- An ascending list is determined by its members. -/
theorem eq_of_ascending {xs ys : List α} (hxs : xs.Pairwise (· < ·)) (hys : ys.Pairwise (· < ·))
    (h : ∀ x, x ∈ xs ↔ x ∈ ys) : xs = ys := by
  have nodup {zs : List α} (hzs : zs.Pairwise (· < ·)) : zs.Nodup := by
    refine hzs.imp fun hlt heq => ?_
    exact Scalar.Ordered.lt_irrefl _ (heq ▸ hlt)
  have perm : xs.Perm ys := (List.perm_ext_iff_of_nodup (nodup hxs) (nodup hys)).mpr h
  exact List.Perm.eq_of_pairwise
    (fun _ _ _ _ hab hba => absurd hba (Scalar.lt_asymm hab)) hxs hys perm

/-- Points that hold what is left of a merge do not change when the same values are merged with
them. A value that was merged equals one of the points, and for sorting each of the two is at most
as great as the other. -/
theorem sorted_again [Scalar.Separated α] {seed points added : List α}
    (hseed : ∀ x ∈ seed ++ added, Scalar.isNumber x = true)
    (hpoints : ∀ x ∈ points ++ added, Scalar.isNumber x = true)
    (ascending : points.Pairwise (· < ·))
    (merged : ∀ x ∈ dropRepeats ((seed ++ added).mergeSort Scalar.totalLe), x ∈ points) :
    dropRepeats ((points ++ added).mergeSort Scalar.totalLe) = points := by
  have source : ∀ z ∈ dropRepeats ((points ++ added).mergeSort Scalar.totalLe), z ∈ points := by
    intro z hz
    cases List.mem_append.mp (mem_of_mem_sorted hz) with
    | inl hz => exact hz
    | inr hadded =>
        have hall := List.mem_append_right seed hadded
        obtain ⟨x, hx, hzx⟩ := List.contains_iff_exists_mem_beq.mp (contains_sorted hseed z hall)
        have hmem := merged x hx
        have hxz := least_sorted hseed x hx z hall hzx
        have hzx := least_sorted hpoints z hz x (List.mem_append_left _ hmem) (Scalar.beq_symm hzx)
        exact Scalar.Separated.eq_of_totalLe hxz hzx ▸ hmem
  refine eq_of_ascending (ascending_sorted hpoints) ascending fun x => ⟨source x, fun hx => ?_⟩
  obtain ⟨z, hz, hxz⟩ := List.contains_iff_exists_mem_beq.mp
    (contains_sorted hpoints x (List.mem_append_left _ hx))
  exact eq_of_beq_of_mem ascending hx (source z hz) hxz ▸ hz

/-- A value that is found up to `==` is found as it is, if the others lie apart from it. -/
theorem eq_some_of_beq {found : Option α} {x : α} (h : (found == some x) = true)
    (apart : ∀ z, found = some z → z = x ∨ z < x ∨ x < z) : found = some x := by
  cases found with
  | none => cases h
  | some z =>
      obtain ⟨hle, hge⟩ := Scalar.beq_iff_le.mp (show (z == x) = true from h)
      cases apart z rfl with
      | inl heq => rw [heq]
      | inr hlt =>
          cases hlt with
          | inl hlt => exact absurd hlt (Scalar.not_lt_of_le hge)
          | inr hlt => exact absurd hlt (Scalar.not_lt_of_le hle)

namespace PlaneGenerator

/-- A seed merged with the critical values inside it. -/
structure Merged (critical seed : List α) (first last : α) (merged : List α) : Prop where
  ascending : merged.Pairwise (· < ·)
  head : merged.head? = some first
  getLast : merged.getLast? = some last
  seeded : ∀ x ∈ seed, merged.contains x = true
  critical : ∀ x ∈ critical, first < x → x < last → merged.contains x = true

theorem number_of_mem_merge {g : PlaneGenerator α} {scale : Scale} {seed : List α}
    {first last : α} (h : SeedAccepted scale seed first last) :
    ∀ x ∈ seed ++ g.critical.filter (fun x => first < x && x < last),
      Scalar.isNumber x = true := by
  intro x hx
  cases List.mem_append.mp hx with
  | inl hx => exact scale.number_of_admits (h.admitted x hx)
  | inr hx =>
      have hinside : first < x ∧ x < last := by simpa using (List.mem_filter.mp hx).2
      exact (Scalar.Ordered.number_of_lt hinside.1).2

theorem merged_mergedSeed {g : PlaneGenerator α} {scale : Scale} {seed : List α} {first last : α}
    (h : SeedAccepted scale seed first last) :
    Merged g.critical seed first last (g.mergedSeed seed first last) := by
  rw [mergedSeed]
  generalize hall : seed ++ g.critical.filter (fun x => first < x && x < last) = all
  have hwithin : ∀ x ∈ all, (x = first ∨ first < x) ∧ (x = last ∨ x < last) := by
    intro x hx
    rw [← hall] at hx
    cases List.mem_append.mp hx with
    | inl hx => exact h.eq_or_lt x hx
    | inr hx =>
        have hinside : first < x ∧ x < last := by simpa using (List.mem_filter.mp hx).2
        exact ⟨Or.inr hinside.1, Or.inr hinside.2⟩
  have hseed : ∀ x ∈ seed, x ∈ all := fun x hx => hall ▸ List.mem_append_left _ hx
  have numbers : ∀ x ∈ all, Scalar.isNumber x = true := hall ▸ number_of_mem_merge h
  have ascending := ascending_sorted numbers
  have kept := contains_sorted numbers
  have source : ∀ x ∈ dropRepeats (all.mergeSort Scalar.totalLe), x ∈ all := fun _ =>
    mem_of_mem_sorted
  refine ⟨ascending, ?_, ?_, fun x hx => kept x (hseed x hx), fun x hx hgt hlt => kept x ?_⟩
  · have hfirst := hseed first (List.mem_of_head? h.head)
    refine eq_some_of_beq (head_of_least ascending (fun x hx => ?_) (kept first hfirst))
      fun z hz => ?_
    · cases (hwithin x (source x hx)).1 with
      | inl heq => exact heq.symm ▸ Scalar.le_refl (numbers first hfirst)
      | inr hlt => exact Scalar.le_of_lt hlt
    · exact (hwithin z (source z (List.mem_of_head? hz))).1.imp_right Or.inr
  · have hlast := hseed last (List.mem_of_getLast? h.getLast)
    refine eq_some_of_beq (getLast_of_greatest ascending (fun x hx => ?_) (kept last hlast))
      fun z hz => ?_
    · cases (hwithin x (source x hx)).2 with
      | inl heq => exact heq.symm ▸ Scalar.le_refl (numbers last hlast)
      | inr hlt => exact Scalar.le_of_lt hlt
    · exact (hwithin z (source z (List.mem_of_getLast? hz))).2.imp_right Or.inl
  · rw [← hall]
    exact List.mem_append_right _ (List.mem_filter.mpr ⟨hx, by simp [hgt, hlt]⟩)

/-- Without critical values a seed that ascends is taken as it is. -/
theorem mergedSeed_of_ascending {g : PlaneGenerator α} {seed : List α} (plain : g.critical = [])
    (ascending : seed.Pairwise (· < ·)) (first last : α) :
    g.mergedSeed seed first last = seed := by
  rw [mergedSeed, plain, List.filter_nil, List.append_nil,
    List.mergeSort_of_pairwise (pairwise_of_ascending ascending),
    dropRepeats_of_ascending ascending]

/-- The values of a seed and the critical ones inside it, if they ascend in some order. -/
theorem mergedSeed_of_perm [Scalar.Separated α] {g : PlaneGenerator α} {seed merged : List α}
    {first last : α}
    (perm : (seed ++ g.critical.filter fun x => first < x && x < last).Perm merged)
    (ascending : merged.Pairwise (· < ·)) : g.mergedSeed seed first last = merged := by
  rw [mergedSeed, mergeSort_of_perm perm (pairwise_of_ascending ascending),
    dropRepeats_of_ascending ascending]

theorem mergedSeed_again [Scalar.Separated α] {g : PlaneGenerator α} {scale : Scale}
    {seed points : List α} {first last : α} (h : SeedAccepted scale seed first last)
    (hpoints : SeedAccepted scale points first last)
    (merged : ∀ x ∈ g.mergedSeed seed first last, x ∈ points) :
    g.mergedSeed points first last = points :=
  sorted_again (number_of_mem_merge h) (number_of_mem_merge hpoints) hpoints.ascending merged

end PlaneGenerator
end AdaptiveTables
