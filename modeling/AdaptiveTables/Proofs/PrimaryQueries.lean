import AdaptiveTables.Proofs.PrimaryGrids

/-!
Where a primary query stands. Against the primary values of a grid a query is no number, below the
first of them, on one, strictly between two neighbours, or above the last. It is in exactly one of
these places, since the values ascend and no two numbers escape comparison, and the place alone
settles what the grid answers.
-/

namespace AdaptiveTables

/-- Where a query stands among ascending values. -/
inductive Place where
  | noNumber
  | below
  | on (index : Nat)
  | between (lowerIndex : Nat)
  | above
deriving DecidableEq, Repr

variable {α δ : Type}

/-- The indices of the entries around a query, which agree where one entry answers it. -/
def Location.indices (l : Location α δ) : Nat × Nat := (l.lowerIndex, l.upperIndex)

variable [Scalar α]

/-- The entries of a location are those that the grid keeps at its indices. -/
def Location.StoredIn (g : PrimaryGrid α δ) : Location α δ → Prop
  | entry i e => g.entries[i]? = some e
  | bin i lower upper => g.entries[i]? = some lower ∧ g.entries[i + 1]? = some upper

namespace PrimaryGrid

def Stands (g : PrimaryGrid α δ) (x : α) : Place → Prop
  | .noNumber => Scalar.isNumber x = false
  | .below => x < g.lowerLimit
  | .on i => ∃ v, g.values[i]? = some v ∧ (v == x) = true
  | .between i => ∃ v w, g.values[i]? = some v ∧ g.values[i + 1]? = some w ∧ v < x ∧ x < w
  | .above => g.upperLimit < x

/-- The indices that a query in a place is answered with. -/
def answer (g : PrimaryGrid α δ) (extended : Bool) (x : α) :
    Place → Except (TableError α) (Nat × Nat)
  | .noNumber => .error (.invalidArgument .queryNotNumber)
  | .on i => .ok (i, i)
  | .between i => .ok (i, i + 1)
  | .below =>
    if extended then .ok (0, 0) else .error (.outOfRange x g.lowerLimit g.upperLimit)
  | .above =>
    if extended then .ok (g.size - 1, g.size - 1)
    else .error (.outOfRange x g.lowerLimit g.upperLimit)

variable {g : PrimaryGrid α δ} {x : α} {place : Place}

theorem head?_values (g : PrimaryGrid α δ) : g.values.head? = some g.lowerLimit := rfl

theorem getLast?_values (g : PrimaryGrid α δ) : g.values.getLast? = some g.upperLimit := by
  rw [values, List.getLast?_map, last_eq_getLast]
  rfl

theorem exists_entry_of_value {i : Nat} {v : α} (h : g.values[i]? = some v) :
    ∃ e, g.entries[i]? = some e ∧ e.value = v := by
  rw [values, List.getElem?_map, Option.map_eq_some_iff] at h
  exact h

theorem answers_of_stored {l : Location α δ} (stored : l.StoredIn g) :
    (Except.ok l : Except (TableError α) (Location α δ)).map Location.indices = .ok l.indices ∧
      ∀ l', (Except.ok l : Except (TableError α) (Location α δ)) = .ok l' → l'.StoredIn g :=
  ⟨rfl, fun _ h => Except.ok.inj h ▸ stored⟩

/-- A query beyond an end is answered with that end, if the limits are extended. -/
theorem beyond_spec {i : Nat} {e : PrimaryEntry α δ} (stored : g.entries[i]? = some e) :
    ((g.beyond x i e).map Location.indices =
      if g.extended then .ok (i, i) else .error (.outOfRange x g.lowerLimit g.upperLimit)) ∧
    ∀ l, g.beyond x i e = .ok l → l.StoredIn g := by
  rw [beyond]
  split
  next => exact answers_of_stored stored
  next => exact ⟨rfl, fun l hl => by cases hl⟩

variable [Scalar.Ordered α]

/-- A query that has reached the first of some values is on one, between two or above the last. -/
theorem on_or_between_or_above {a : α} {rest : List α}
    (numbers : ∀ v ∈ a :: rest, Scalar.isNumber v = true) (reached : a ≤ x) :
    (∃ i : Nat, ∃ v, (a :: rest)[i]? = some v ∧ (v == x) = true) ∨
      (∃ i : Nat, ∃ v w, (a :: rest)[i]? = some v ∧ (a :: rest)[i + 1]? = some w ∧ v < x ∧ x < w) ∨
      rest.getLastD a < x := by
  induction rest generalizing a with
  | nil =>
      by_cases heq : (a == x) = true
      · exact Or.inl ⟨0, a, rfl, heq⟩
      · exact Or.inr (Or.inr (Scalar.lt_of_le_of_not_beq reached heq))
  | cons b rest ih =>
      by_cases hnext : b ≤ x
      · rcases ih (fun v hv => numbers v (List.mem_cons_of_mem a hv)) hnext with
          ⟨i, v, hv, heq⟩ | ⟨i, v, w, hv, hw, hlt⟩ | habove
        · exact Or.inl ⟨i + 1, v, hv, heq⟩
        · exact Or.inr (Or.inl ⟨i + 1, v, w, hv, hw, hlt⟩)
        · rw [List.getLastD_cons]
          exact Or.inr (Or.inr habove)
      · by_cases heq : (a == x) = true
        · exact Or.inl ⟨0, a, rfl, heq⟩
        · have hb := numbers b (List.mem_cons_of_mem a List.mem_cons_self)
          have hlow := Scalar.lt_of_le_of_not_beq reached heq
          have hhigh := Scalar.lt_of_not_le (Scalar.number_of_le reached).2 hb hnext
          exact Or.inr (Or.inl ⟨0, a, b, rfl, rfl, hlow, hhigh⟩)

theorem exists_stands (g : PrimaryGrid α δ) (x : α) : ∃ place, g.Stands x place := by
  cases hnumber : Scalar.isNumber x with
  | false => exact ⟨.noNumber, hnumber⟩
  | true =>
      have numbers : ∀ v ∈ g.values, Scalar.isNumber v = true := fun v hv =>
        Scalar.Ordered.number_of_finite (g.finite_values v hv)
      by_cases hfirst : g.lowerLimit ≤ x
      · rcases on_or_between_or_above numbers hfirst with ⟨i, h⟩ | ⟨i, h⟩ | habove
        · exact ⟨.on i, h⟩
        · exact ⟨.between i, h⟩
        · refine ⟨.above, ?_⟩
          have hlast := g.getLast?_values
          rw [values, entries, List.map_cons, List.getLast?_cons, ← List.getLastD_eq_getLast?,
            Option.some.injEq] at hlast
          change g.upperLimit < x
          rwa [← hlast]
      · have hlower := numbers g.lowerLimit List.mem_cons_self
        exact ⟨.below, Scalar.lt_of_not_le hnumber hlower hfirst⟩

/-- A query is answered as its place says, with entries of the grid. -/
theorem locate_of_stands (h : g.Stands x place) :
    (g.locate x).map Location.indices = g.answer g.extended x place ∧
      ∀ l, g.locate x = .ok l → l.StoredIn g := by
  cases place with
  | noNumber =>
      have hnumber : Scalar.isNumber x = false := h
      have hlocate : g.locate x = .error (.invalidArgument .queryNotNumber) := by
        simp only [locate, hnumber, Bool.not_false, if_true]
      rw [hlocate]
      exact ⟨rfl, fun l hl => by cases hl⟩
  | below =>
      rw [g.locate_of_lt h]
      exact beyond_spec rfl
  | above =>
      rw [g.locate_of_gt h]
      refine beyond_spec ?_
      rw [size, ← List.getLast?_eq_getElem?]
      exact g.last_eq_getLast
  | on i =>
      obtain ⟨v, hv, heq⟩ := h
      obtain ⟨e, stored, rfl⟩ := exists_entry_of_value hv
      rw [g.locate_of_beq stored heq]
      exact answers_of_stored stored
  | between i =>
      obtain ⟨v, w, hv, hw, hlow, hhigh⟩ := h
      obtain ⟨lower, stored, rfl⟩ := exists_entry_of_value hv
      obtain ⟨upper, stored', rfl⟩ := exists_entry_of_value hw
      rw [g.locate_of_between stored stored' hlow hhigh]
      exact answers_of_stored ⟨stored, stored'⟩

/-- While the limits hold, the answer tells all places apart but the two outer ones. -/
theorem eq_of_stands {place' : Place} (h : g.Stands x place) (h' : g.Stands x place') :
    place = place' := by
  have hsame : g.limit.answer false x place = g.limit.answer false x place' :=
    (locate_of_stands (g := g.limit) h).1.symm.trans (locate_of_stands (g := g.limit) h').1
  have hends : ¬(x < g.lowerLimit ∧ g.upperLimit < x) := by
    rintro ⟨hlow, hhigh⟩
    have hle : g.lowerLimit ≤ g.upperLimit :=
      g.first_le (List.mem_of_getLast? g.last_eq_getLast)
    exact Scalar.not_lt_of_le hle (Scalar.Ordered.lt_trans hhigh hlow)
  cases place <;> cases place' <;> grind [answer, Stands]

/-- Every query stands in exactly one place, and after any calls it is answered as its place
says. -/
theorem locate_is_exact {g : PrimaryGrid α δ}
    (built : (∃ values items, ofColumns values items = .ok g) ∨
      ∃ entries, ofEntries entries = .ok g) (calls : List LimitCall) (x : α) :
    let extended := (calls.getLast?.map LimitCall.extended).getD false
    let located := (g.afterCalls calls).locate x
    (g.values.head? = some g.lowerLimit ∧ g.values.getLast? = some g.upperLimit) ∧
    (∃! place, g.Stands x place) ∧
    (∀ place, g.Stands x place → located.map Location.indices = g.answer extended x place) ∧
    ∀ l, located = .ok l → l.StoredIn g := by
  intro extended located
  have limited : g.extended = false := by
    rcases built with ⟨values, items, h⟩ | ⟨entries, h⟩
    · exact extended_of_ofColumns h
    · exact (ofEntries_eq_ok_iff.mp h).2.2
  have hlocated : located = ({ g with extended } : PrimaryGrid α δ).locate x := by
    change (g.afterCalls calls).locate x = _
    rw [afterCalls_eq, limited]
  have hanswer (place : Place) (h : ({ g with extended } : PrimaryGrid α δ).Stands x place) :=
    locate_of_stands h
  obtain ⟨place, hplace⟩ := g.exists_stands x
  rw [hlocated]
  exact ⟨⟨g.head?_values, g.getLast?_values⟩,
    ⟨place, hplace, fun _ h => eq_of_stands h hplace⟩,
    fun place h => (hanswer place h).1, (hanswer place hplace).2⟩

/-- A grid over one, two and four. -/
def doublings : PrimaryGrid Float Nat where
  first := ⟨1.0, 0⟩
  second := ⟨2.0, 1⟩
  rest := [⟨4.0, 2⟩]
  finite := by decide +kernel
  ascending := by decide +kernel

theorem doublings_located :
    let infinity : Float := 1.0 / 0.0
    let located := fun calls x => ((doublings.afterCalls calls).locate x).map Location.indices
    located [.extend, .limit] 3.0 = .ok (1, 2) ∧ located [] 4.0 = .ok (2, 2) ∧
      located [.extend] infinity = .ok (2, 2) ∧
      located [] (-infinity) = .error (.outOfRange (-infinity) 1.0 4.0) ∧
      located [.extend] (0.0 / 0.0) = .error (.invalidArgument .queryNotNumber) := by
  intro infinity located
  have built : (∃ values items, ofColumns values items = .ok doublings) ∨
      ∃ entries, ofEntries entries = .ok doublings :=
    Or.inl ⟨_, _, ofColumns_columns rfl⟩
  obtain ⟨_, _, inner, _⟩ := locate_is_exact built [.extend, .limit] 3.0
  obtain ⟨_, _, last, _⟩ := locate_is_exact built [] 4.0
  obtain ⟨_, _, above, _⟩ := locate_is_exact built [.extend] infinity
  obtain ⟨_, _, below, _⟩ := locate_is_exact built [] (-infinity)
  obtain ⟨_, _, refused, _⟩ := locate_is_exact built [.extend] (0.0 / 0.0)
  have hinner : (2.0 : Float) < 3.0 ∧ (3.0 : Float) < 4.0 := by decide +kernel
  have hlast : ((4.0 : Float) == 4.0) = true := by decide +kernel
  have habove : (4.0 : Float) < infinity := by decide +kernel
  have hbelow : -infinity < (1.0 : Float) := by decide +kernel
  have hrefused : Scalar.isNumber (0.0 / 0.0 : Float) = false := by decide +kernel
  exact ⟨inner (.between 1) ⟨2.0, 4.0, rfl, rfl, hinner⟩, last (.on 2) ⟨4.0, rfl, hlast⟩,
    above .above habove, below .below hbelow, refused .noNumber hrefused⟩

end PrimaryGrid
end AdaptiveTables
