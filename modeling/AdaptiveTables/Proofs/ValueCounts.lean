import AdaptiveTables.Proofs.MergedSeed

/-!
How many values a range holds. The values of a finite arithmetic that lie in a range are listed in
ascending order, those that equal each other once, and fewer of them lie above a greater value. The
count that bounds the insertions of a refinement falls in the same way.
-/

namespace AdaptiveTables

/-- A count of values that is less for a part of an interval than for the interval. -/
class Resolution.Lawful (α : Type) [Scalar α] [Resolution α] : Prop where
  above_lt {a b c : α} : a < b → b ≤ c → valuesAbove b c < valuesAbove a c
  below_lt {a b c : α} : a < b → b < c → valuesAbove a b < valuesAbove a c

variable {α : Type} [Scalar α]

/-- The values above `lo` and not above `hi`, in ascending order. -/
structure Enumerates (lo hi : α) (values : List α) : Prop where
  ascending : values.Pairwise (· < ·)
  inside : ∀ v ∈ values, lo < v ∧ v ≤ hi
  complete : ∀ x, lo < x → x ≤ hi → values.contains x = true

/-- A measure of the values of a range that falls from each value to every greater one. -/
def FallsWithin (lo hi : α) (room : α → Nat) : Prop :=
  ∀ ⦃a b⦄, lo ≤ a → a < b → b ≤ hi → room b < room a

theorem fallsWithin_valuesAbove [Resolution α] [Resolution.Lawful α] (lo hi : α) :
    FallsWithin lo hi (Resolution.valuesAbove · hi) :=
  fun _ _ _ hab hb => Resolution.Lawful.above_lt hab hb

variable [Scalar.Ordered α] {lo hi : α} {values : List α}

theorem Enumerates.fallsWithin (h : Enumerates lo hi values) :
    FallsWithin lo hi fun a => (values.filter (a < ·)).length := by
  intro a b ha hab hb
  have sublist : (values.filter (b < ·)).Sublist (values.filter (a < ·)) := by
    refine List.monotone_filter_right values fun x hx => ?_
    exact decide_eq_true (Scalar.Ordered.lt_trans hab (of_decide_eq_true hx))
  -- The greater value is one of those above the other, and is not above itself.
  obtain ⟨v, hv, hbv⟩ := List.contains_iff_exists_mem_beq.mp
    (h.complete b (Scalar.lt_of_le_of_lt ha hab) hb)
  obtain ⟨hle, hge⟩ := Scalar.beq_iff_le.mp hbv
  have habove : v ∈ values.filter (a < ·) :=
    List.mem_filter.mpr ⟨hv, decide_eq_true (Scalar.lt_of_lt_of_le hab hle)⟩
  refine Nat.lt_of_le_of_ne sublist.length_le fun heq => ?_
  rw [← sublist.eq_of_length heq] at habove
  exact Scalar.not_lt_of_le hge (of_decide_eq_true (List.mem_filter.mp habove).2)

/-- Finitely many values can be listed: sorted, and without repeats. -/
theorem exists_enumerates [Finite α] (lo hi : α) : ∃ values, Enumerates lo hi values := by
  have := Fintype.ofFinite α
  generalize hinside :
    (Finset.univ : Finset α).toList.filter (fun x => lo < x && x ≤ hi) = inside
  have hmem (x : α) : x ∈ inside ↔ lo < x ∧ x ≤ hi := by
    rw [← hinside]
    simp
  have numbers : ∀ x ∈ inside, Scalar.isNumber x = true := fun x hx =>
    (Scalar.Ordered.number_of_lt ((hmem x).mp hx).1).2
  exact ⟨_, ascending_sorted numbers, fun v hv => (hmem v).mp (mem_of_mem_sorted hv),
    fun x hlo hhi => contains_sorted numbers x ((hmem x).mpr ⟨hlo, hhi⟩)⟩

namespace Double

instance instFinite : Finite Float :=
  Finite.of_injective (fun x : Float => x.toBits.toBitVec.toFin) fun _ _ h =>
    Float.toBits_inj.mp (UInt64.toBitVec_inj.mp (BitVec.toFin_inj.mp h))

instance instLawful : Resolution.Lawful Float where
  above_lt {a b c} hab hbc := by
    have hkey := orderKey_lt hab
    have hkey' := orderKey_lt (Scalar.lt_of_lt_of_le hab hbc)
    change orderKey c - orderKey b < orderKey c - orderKey a
    omega
  below_lt {a b c} hab hbc := by
    have hkey := orderKey_lt hab
    have hkey' := orderKey_lt hbc
    change orderKey b - orderKey a < orderKey c - orderKey a
    omega

end Double
end AdaptiveTables
