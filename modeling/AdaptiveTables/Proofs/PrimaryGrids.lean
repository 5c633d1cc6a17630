import AdaptiveTables.Proofs.MergedSeed
import AdaptiveTables.Proofs.SingleEntries

/-!
Primary grids and the entries that they are built from. Entries in order are refused for a fault
of their values alone, and a grid holds the very entries that it was built from. Sorting settles
the values, because the order for sorting tells all values apart, and where no two values are
equal it settles the entries. So the order in which entries are given has no influence, on the grid
or on the error.
-/

namespace AdaptiveTables

namespace PrimaryEntry

variable {α δ : Type}

theorem map_value {values : List α} {items : List δ} (lengths : values.length = items.length) :
    (List.zipWith PrimaryEntry.mk values items).map (·.value) = values := by
  rw [← List.map_uncurry_zip_eq_zipWith, List.map_map]
  exact List.map_fst_zip lengths.le

/-- Entries are put together again from their columns. -/
theorem zipWith_columns (entries : List (PrimaryEntry α δ)) :
    List.zipWith PrimaryEntry.mk (entries.map (·.value)) (entries.map (·.item)) = entries := by
  rw [List.zipWith_map, List.zipWith_self]
  exact List.map_id entries

end PrimaryEntry

namespace PrimaryGrid

variable {α δ : Type} [Scalar α]

/-- Why values in order are not the values of a grid. -/
def orderFault? (values : List α) : Option (TableError α) :=
  if values.length < 2 then some (.insufficientData values.length 2)
  else
    match values.find? (!Scalar.isFinite ·) with
    | some v => some (.invalidArgument (.primaryNotFinite v))
    | none => (firstDescent? values).map fun (a, b) => .invalidArgument (.primaryDescent a b)

variable {g g' : PrimaryGrid α δ} {entries entries' : List (PrimaryEntry α δ)}

theorem eq_of_entries (entries : g.entries = g'.entries) (extended : g.extended = g'.extended) :
    g = g' := by
  obtain ⟨first, second, rest, _, _, _⟩ := g
  obtain ⟨first', second', rest', _, _, _⟩ := g'
  obtain ⟨rfl, hlater⟩ := List.cons.inj entries
  obtain ⟨rfl, rfl⟩ := List.cons.inj hlater
  obtain rfl := extended
  rfl

/-- Entries in order make a grid of these entries, unless their values have a fault. -/
theorem ofSorted_cases (entries : List (PrimaryEntry α δ)) :
    (∃ e, orderFault? (entries.map (·.value)) = some e ∧ ofSorted entries = .error e) ∨
      orderFault? (entries.map (·.value)) = none ∧
        ∃ g, ofSorted entries = .ok g ∧ g.entries = entries ∧ g.extended = false := by
  match entries with
  | [] | [_] => exact Or.inl ⟨_, rfl, rfl⟩
  | first :: second :: rest =>
      have hfind : ((first :: second :: rest).map (·.value)).find? (!Scalar.isFinite ·) =
          ((first :: second :: rest).find? (!Scalar.isFinite ·.value)).map (·.value) :=
        List.find?_map
      have hlength : ¬((first :: second :: rest).map (·.value)).length < 2 := by simp
      obtain ⟨result, hresult⟩ : ∃ result, ofSorted (first :: second :: rest) = result := ⟨_, rfl⟩
      rw [orderFault?, if_neg hlength, hfind, hresult]
      rw [ofSorted] at hresult
      split at hresult
      next e he =>
        rw [he]
        exact Or.inl ⟨_, rfl, hresult.symm⟩
      next hnone =>
        rw [hnone]
        split at hresult
        next a b hdescent =>
          rw [hdescent]
          exact Or.inl ⟨_, rfl, hresult.symm⟩
        next hascending =>
          rw [hascending]
          exact Or.inr ⟨rfl, _, hresult.symm, rfl, rfl⟩

theorem orderFault?_eq_none {values : List α} (two : 2 ≤ values.length)
    (finite : ∀ v ∈ values, Scalar.isFinite v = true) (ascending : firstDescent? values = none) :
    orderFault? values = none := by
  have hfind : values.find? (!Scalar.isFinite ·) = none :=
    List.find?_eq_none.mpr fun v hv => by simp [finite v hv]
  rw [orderFault?, if_neg (Nat.not_lt.mpr two), hfind, ascending]
  rfl

theorem orderFault?_values (g : PrimaryGrid α δ) : orderFault? g.values = none :=
  orderFault?_eq_none (by simp [values, entries]) g.finite_values g.ascending

/-- Entries in order make exactly the grid that holds them and keeps to its limits. -/
theorem ofSorted_eq_ok_iff :
    ofSorted entries = .ok g ↔ g.entries = entries ∧ g.extended = false := by
  constructor
  · intro h
    rcases ofSorted_cases entries with ⟨e, _, herror⟩ | ⟨_, g', hg', stored⟩
    · cases h.symm.trans herror
    · obtain rfl := Except.ok.inj (h.symm.trans hg')
      exact stored
  · rintro ⟨rfl, hextended⟩
    rcases ofSorted_cases g.entries with ⟨e, hfault, _⟩ | ⟨_, g', hg', hentries, hlimited⟩
    · cases hfault.symm.trans g.orderFault?_values
    · rw [hg', eq_of_entries hentries (hlimited.trans hextended.symm)]

section Ascending

variable [Scalar.Ordered α]

theorem ofSorted_of_ascending {entries : List (PrimaryEntry α δ)} (two : 2 ≤ entries.length)
    (finite : ∀ e ∈ entries, Scalar.isFinite e.value = true)
    (ascending : entries.Pairwise fun a b => a.value < b.value) :
    ∃ g, ofSorted entries = .ok g ∧ g.entries = entries := by
  have hfinite : ∀ v ∈ entries.map (·.value), Scalar.isFinite v = true := by
    intro v hv
    obtain ⟨e, he, rfl⟩ := List.mem_map.mp hv
    exact finite e he
  have hfault : orderFault? (entries.map (·.value)) = none :=
    orderFault?_eq_none (by rwa [List.length_map]) hfinite
      (Scalar.firstDescent?_of_ascending (List.pairwise_map.mpr ascending))
  rcases ofSorted_cases entries with ⟨e, he, _⟩ | ⟨_, g, hg, hentries, _⟩
  · cases he.symm.trans hfault
  · exact ⟨g, hg, hentries⟩

theorem ofColumns_of_ascending {values : List α} {items : List δ} (two : 2 ≤ values.length)
    (lengths : values.length = items.length)
    (finite : ∀ x ∈ values, Scalar.isFinite x = true) (ascending : values.Pairwise (· < ·)) :
    ∃ g, ofColumns values items = .ok g ∧
      g.entries = List.zipWith PrimaryEntry.mk values items := by
  have hvalues := PrimaryEntry.map_value lengths
  rw [ofColumns, if_neg (not_not.mpr lengths)]
  refine ofSorted_of_ascending ?_ (fun e he => ?_) ?_
  · rwa [← hvalues, List.length_map] at two
  · exact finite e.value (hvalues ▸ List.mem_map_of_mem he)
  · rwa [← hvalues, List.pairwise_map] at ascending

end Ascending

/-- The columns of a grid make the grid again. -/
theorem ofColumns_columns (limited : g.extended = false) :
    ofColumns (g.entries.map (·.value)) (g.entries.map (·.item)) = .ok g := by
  have lengths : (g.entries.map (·.value)).length = (g.entries.map (·.item)).length := by
    rw [List.length_map, List.length_map]
  rw [ofColumns, if_neg (not_not.mpr lengths), PrimaryEntry.zipWith_columns]
  exact ofSorted_eq_ok_iff.mpr ⟨rfl, limited⟩

theorem extended_of_ofColumns {values : List α} {items : List δ}
    (h : ofColumns values items = .ok g) : g.extended = false := by
  rw [ofColumns] at h
  split at h
  next => cases h
  next => exact (ofSorted_eq_ok_iff.mp h).2

/-- The order in which the entries of a grid are kept. -/
def byValue (entries : List (PrimaryEntry α δ)) : List (PrimaryEntry α δ) :=
  entries.mergeSort fun a b => Scalar.totalLe a.value b.value

theorem byValue_perm (entries : List (PrimaryEntry α δ)) : (byValue entries).Perm entries :=
  List.mergeSort_perm _ _

theorem ofEntries_eq_ok_iff :
    ofEntries entries = .ok g ↔
      (∀ e ∈ entries, Scalar.isNumber e.value = true) ∧ g.entries = byValue entries ∧
        g.extended = false := by
  rw [← ofSorted_eq_ok_iff, ofEntries]
  split
  next hany =>
    obtain ⟨e, he, hnot⟩ := List.any_eq_true.mp hany
    constructor
    · intro h
      cases h
    · rintro ⟨numbers, _⟩
      rw [numbers e he] at hnot
      cases hnot
  next hnone =>
    have numbers : ∀ e ∈ entries, Scalar.isNumber e.value = true := by simpa using hnone
    exact ⟨fun h => ⟨numbers, h⟩, And.right⟩

theorem values_byValue (entries : List (PrimaryEntry α δ)) :
    (byValue entries).map (·.value) = (entries.map (·.value)).mergeSort Scalar.totalLe :=
  List.map_mergeSort fun _ _ _ _ => rfl

variable [Scalar.Ordered α]

/-- Sorted entries without equal values ascend strictly. -/
theorem ascending_byValue (numbers : ∀ e ∈ entries, Scalar.isNumber e.value = true)
    (distinct : entries.Pairwise fun a b => ¬(a.value == b.value) = true) :
    (byValue entries).Pairwise fun a b => a.value < b.value := by
  have hsorted := pairwise_sorted (entries.map (·.value))
  rw [← values_byValue, List.pairwise_map] at hsorted
  have hdistinct := (byValue_perm entries).symm.pairwise distinct fun hne heq =>
    hne (Scalar.beq_symm heq)
  refine (hsorted.and hdistinct).imp_of_mem fun {a b} ha hb h => ?_
  have hnumber := fun e (he : e ∈ byValue entries) =>
    numbers e ((byValue_perm entries).subset he)
  rcases Scalar.lt_or_beq_or_lt (hnumber a ha) (hnumber b hb) with hlt | heq | hgt
  · exact hlt
  · exact absurd heq h.2
  · exact absurd hgt (Scalar.Ordered.not_lt_of_totalLe h.1)

theorem exists_ofEntries_iff :
    (∃ g, ofEntries entries = .ok g) ↔
      2 ≤ entries.length ∧ (∀ e ∈ entries, Scalar.isFinite e.value = true) ∧
        entries.Pairwise fun a b => ¬(a.value == b.value) = true := by
  constructor
  · rintro ⟨g, h⟩
    obtain ⟨_, hentries, _⟩ := ofEntries_eq_ok_iff.mp h
    have perm : g.entries.Perm entries := hentries ▸ byValue_perm entries
    refine ⟨?_, fun e he => g.finite e (perm.symm.subset he), ?_⟩
    · rw [← perm.length_eq, PrimaryGrid.entries]
      simp
    · have hdistinct : g.entries.Pairwise fun a b => ¬(a.value == b.value) = true :=
        g.entries_ascending.imp fun hlt heq =>
          Scalar.not_lt_of_le (Scalar.beq_iff_le.mp heq).2 hlt
      exact perm.pairwise hdistinct fun hne heq => hne (Scalar.beq_symm heq)
  · rintro ⟨two, finite, distinct⟩
    have numbers : ∀ e ∈ entries, Scalar.isNumber e.value = true := fun e he =>
      Scalar.Ordered.number_of_finite (finite e he)
    have perm := byValue_perm entries
    obtain ⟨g, hg, hentries⟩ := ofSorted_of_ascending (perm.length_eq.symm ▸ two)
      (fun e he => finite e (perm.subset he)) (ascending_byValue numbers distinct)
    have limited := (ofSorted_eq_ok_iff.mp hg).2
    exact ⟨g, ofEntries_eq_ok_iff.mpr ⟨numbers, hentries, limited⟩⟩

variable [Scalar.Separated α]

theorem values_congr (perm : entries.Perm entries') :
    (byValue entries).map (·.value) = (byValue entries').map (·.value) := by
  rw [values_byValue, values_byValue]
  exact mergeSort_of_perm
    ((perm.map (·.value)).trans (List.mergeSort_perm _ _).symm) (pairwise_sorted _)

/-- Entries that ascend strictly are settled by which they are. -/
theorem byValue_congr (perm : entries.Perm entries')
    (ascending : (byValue entries).Pairwise fun a b => a.value < b.value) :
    byValue entries = byValue entries' := by
  have ascending' : (byValue entries').Pairwise fun a b => a.value < b.value := by
    have hvalues := List.pairwise_map.mpr ascending
    rw [values_congr perm] at hvalues
    exact List.pairwise_map.mp hvalues
  exact List.Perm.eq_of_pairwise (fun _ _ _ _ hab hba => absurd hba (Scalar.lt_asymm hab))
    ascending ascending' ((byValue_perm entries).trans (perm.trans (byValue_perm entries').symm))

theorem ofEntries_congr (perm : entries.Perm entries') :
    ofEntries entries = ofEntries entries' := by
  rw [ofEntries, ofEntries, perm.any_eq]
  split
  next => rfl
  next =>
    change ofSorted (byValue entries) = ofSorted (byValue entries')
    rcases ofSorted_cases (byValue entries) with ⟨e, hfault, herror⟩ | ⟨_, g, _, hentries, _⟩
    · rcases ofSorted_cases (byValue entries') with ⟨e', hfault', herror'⟩ | ⟨hnone, _⟩
      · rw [values_congr perm, hfault'] at hfault
        obtain rfl := Option.some.inj hfault
        rw [herror, herror']
      · rw [values_congr perm, hnone] at hfault
        cases hfault
    · rw [byValue_congr perm (hentries ▸ g.entries_ascending)]

/-- Entries give one grid or one error in whatever order they come. They give a grid exactly if
there are two of them or more, all at finite values and no two at equal ones. The grid holds them
all in ascending order, and its columns make the same grid again. -/
theorem ofEntries_orders_entries (entries : List (PrimaryEntry α δ)) :
    (∀ entries', entries'.Perm entries → ofEntries entries' = ofEntries entries) ∧
    ((∃ g, ofEntries entries = .ok g) ↔
      2 ≤ entries.length ∧ (∀ e ∈ entries, Scalar.isFinite e.value = true) ∧
        entries.Pairwise fun a b => ¬(a.value == b.value) = true) ∧
    ∀ g, ofEntries entries = .ok g →
      g.entries.Perm entries ∧ (g.entries.Pairwise fun a b => a.value < b.value) ∧
        ofColumns (g.entries.map (·.value)) (g.entries.map (·.item)) = .ok g := by
  refine ⟨fun _ perm => ofEntries_congr perm, exists_ofEntries_iff, fun g h => ?_⟩
  obtain ⟨_, hentries, limited⟩ := ofEntries_eq_ok_iff.mp h
  exact ⟨hentries ▸ byValue_perm entries, g.entries_ascending, ofColumns_columns limited⟩

theorem ofEntries_orders_pair :
    let entries : List (PrimaryEntry Float Bool) := [⟨2.0, true⟩, ⟨1.0, false⟩]
    let zeros : List (PrimaryEntry Float Bool) := [⟨0.0, true⟩, ⟨-0.0, false⟩]
    ofEntries [⟨1.0, false⟩, ⟨2.0, true⟩] = ofEntries entries ∧
      (∃ g, ofEntries entries = .ok g ∧ g.entries.Perm entries) ∧
      ¬∃ g, ofEntries zeros = .ok g := by
  intro entries zeros
  obtain ⟨order, success, stored⟩ := ofEntries_orders_entries entries
  obtain ⟨_, refusal, _⟩ := ofEntries_orders_entries zeros
  obtain ⟨g, hg⟩ := success.mpr ⟨by decide, by decide +kernel, by decide +kernel⟩
  refine ⟨order _ (List.Perm.swap _ _ _), ⟨g, hg, (stored g hg).1⟩, fun h => ?_⟩
  exact absurd (refusal.mp h).2.2 (by decide +kernel)

end PrimaryGrid
end AdaptiveTables
