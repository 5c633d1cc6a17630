import AdaptiveTables.Grid.Trace

/-!
Runs that succeed. A composed run succeeds exactly when its parts do, and its events are those
of the parts in order.
-/

namespace AdaptiveTables
namespace Trace

variable {α β γ : Type}

@[simp]
theorem bind_eq_andThen (t : Trace α β) (f : β → Trace α γ) : (t >>= f) = t.andThen f := rfl

@[simp]
theorem pure_eq_succeed (v : β) : (pure v : Trace α β) = succeed v := rfl

@[simp]
theorem succeed_andThen (v : β) (f : β → Trace α γ) : (succeed v).andThen f = f v := rfl

theorem andThen_assoc {δ : Type} (t : Trace α β) (f : β → Trace α γ) (g : γ → Trace α δ) :
    (t.andThen f).andThen g = t.andThen fun v => (f v).andThen g := by
  obtain ⟨events, outcome⟩ := t
  cases outcome with
  | error e => rfl
  | ok v =>
      simp only [andThen]
      cases (f v).outcome with
      | error e => rfl
      | ok w => simp only [List.append_assoc]

/-- The log of a run begins with that of its first part. -/
theorem exists_events_andThen (t : Trace α β) (f : β → Trace α γ) :
    ∃ later, (t.andThen f).events = t.events ++ later := by
  rw [andThen]
  split
  next => exact ⟨[], (List.append_nil _).symm⟩
  next => exact ⟨_, rfl⟩

theorem succeed_eq_ok {v w : β} {events : List (Event α)} :
    succeed v = ⟨events, .ok w⟩ ↔ events = [] ∧ v = w := by
  simp [succeed, eq_comm]

theorem fail_ne_ok {e : GridError α} {w : β} {events : List (Event α)} :
    fail e ≠ (⟨events, .ok w⟩ : Trace α β) := by
  simp [fail]

theorem andThen_eq_ok {t : Trace α β} {f : β → Trace α γ} {events : List (Event α)} {w : γ} :
    t.andThen f = ⟨events, .ok w⟩ ↔
      ∃ before v after, t = ⟨before, .ok v⟩ ∧ f v = ⟨after, .ok w⟩ ∧
        events = before ++ after := by
  obtain ⟨before, outcome⟩ := t
  cases outcome with
  | error e => simp [andThen]
  | ok v =>
      simp only [andThen]
      constructor
      · intro h
        obtain ⟨rfl, hout⟩ := Trace.mk.inj h
        exact ⟨before, v, (f v).events, rfl, by rw [← hout], rfl⟩
      · rintro ⟨before', v', after, ht, hf, rfl⟩
        obtain ⟨rfl, hv⟩ := Trace.mk.inj ht
        cases hv
        rw [hf]

theorem ofExcept_eq_ok {r : Except (GridError α) β} {events : List (Event α)} {v : β} :
    ofExcept r = ⟨events, .ok v⟩ ↔ events = [] ∧ r = .ok v := by
  cases r <;> simp [ofExcept, succeed, fail, eq_comm]

theorem ofTable_eq_ok {r : Except (TableError α) β} {events : List (Event α)} {v : β} :
    ofTable r = ⟨events, .ok v⟩ ↔ events = [] ∧ r = .ok v := by
  cases r <;> simp [ofTable, succeed, fail, eq_comm]

/-- Steps that succeed on every element of a list, with all their events in order. -/
inductive EachOk (f : β → Trace α γ) : List β → List γ → List (Event α) → Prop
  | nil : EachOk f [] [] []
  | cons {b c bs cs events later} (head : f b = ⟨events, .ok c⟩) (tail : EachOk f bs cs later) :
      EachOk f (b :: bs) (c :: cs) (events ++ later)

theorem each_eq_ok {f : β → Trace α γ} {bs : List β} {cs : List γ} {events : List (Event α)}
    (h : each f bs = ⟨events, .ok cs⟩) : EachOk f bs cs events := by
  induction bs generalizing cs events with
  | nil =>
      obtain ⟨rfl, rfl⟩ := succeed_eq_ok.mp h
      exact .nil
  | cons b bs ih =>
      obtain ⟨first, c, rest, hb, hrest, rfl⟩ := andThen_eq_ok.mp h
      obtain ⟨later, cs', last, hbs, hlast, rfl⟩ := andThen_eq_ok.mp hrest
      obtain ⟨rfl, rfl⟩ := succeed_eq_ok.mp hlast
      rw [List.append_nil]
      exact .cons hb (ih hbs)

theorem each_of_forall {ι : Type} {f : β → Trace α γ} {k : ι → β} {v : ι → γ} {is : List ι}
    (h : ∀ i ∈ is, ∃ events, f (k i) = ⟨events, .ok (v i)⟩) :
    ∃ events, each f (is.map k) = ⟨events, .ok (is.map v)⟩ := by
  induction is with
  | nil => exact ⟨[], rfl⟩
  | cons i is ih =>
      obtain ⟨first, hfirst⟩ := h i List.mem_cons_self
      obtain ⟨later, hlater⟩ := ih fun j hj => h j (List.mem_cons_of_mem _ hj)
      refine ⟨first ++ (later ++ []), ?_⟩
      simp [each, hfirst, hlater, andThen, succeed]

end Trace
end AdaptiveTables
