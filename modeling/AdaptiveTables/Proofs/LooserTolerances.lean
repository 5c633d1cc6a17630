import AdaptiveTables.Proofs.RecursiveBisection

/-!
Two runs with different tolerances. A looser test accepts every interval that a tighter one accepts
and splits no other, so the looser run tests a part of the intervals of the tighter one. It cannot
fail where the tighter run succeeds, and its grid lacks points of the other but has no more.
-/

namespace AdaptiveTables

section Tests

variable {α β : Type} {test coarse : β → β → Trace α (Option β)} {a b : β} {pending xs : List β}
  {events : List (Event α)}

/-- A test accepts what another one accepts. What the other one splits it accepts too, or it splits
it at the same point. -/
structure Coarsens (coarse test : β → β → Trace α (Option β)) : Prop where
  accepts {a b : β} {events : List (Event α)} (h : test a b = ⟨events, .ok none⟩) :
    ∃ events, coarse a b = ⟨events, .ok none⟩
  splits {a b m : β} {events : List (Event α)} (h : test a b = ⟨events, .ok (some m)⟩) :
    ∃ events, coarse a b = ⟨events, .ok none⟩ ∨ coarse a b = ⟨events, .ok (some m)⟩

theorem Refines.coarsen (c : Coarsens coarse test) (h : Refines test a b xs events) :
    ∃ ys events', Refines coarse a b ys events' ∧ ys.Sublist xs := by
  induction h with
  | accept accepted =>
      obtain ⟨_, accepted'⟩ := c.accepts accepted
      exact ⟨_, _, .accept accepted', .refl _⟩
  | split inserted lower upper ihl ihu =>
      obtain ⟨_, accepted | inserted'⟩ := c.splits inserted
      · -- The whole interval is accepted, and the left end is all that is left of it.
        obtain ⟨xs, rfl⟩ := lower.exists_cons
        exact ⟨_, _, .accept accepted, .cons_cons _ (List.nil_sublist _)⟩
      · obtain ⟨_, _, left, hleft⟩ := ihl
        obtain ⟨_, _, right, hright⟩ := ihu
        exact ⟨_, _, .split inserted' left right, hleft.append hright⟩

theorem Sweeps.coarsen (c : Coarsens coarse test) (h : Sweeps test a pending xs events) :
    ∃ ys events', Sweeps coarse a pending ys events' ∧ ys.Sublist xs := by
  induction h with
  | done => exact ⟨_, _, .done, .refl _⟩
  | interval first _ ih =>
      obtain ⟨_, _, first', hfirst⟩ := first.coarsen c
      obtain ⟨_, _, others', hothers⟩ := ih
      exact ⟨_, _, .interval first' others', hfirst.append hothers⟩

/-- With the allowance of a run that succeeds, a run with a coarser test succeeds too. -/
theorem bisect_of_coarsens (c : Coarsens coarse test) {allowed : Nat}
    (h : bisect test allowed a pending = ⟨events, .ok xs⟩) :
    ∃ ys events', bisect coarse allowed a pending = ⟨events', .ok ys⟩ ∧ ys.Sublist xs := by
  obtain ⟨ys, events', sweeps, sublist⟩ := (bisect_eq_ok h).coarsen c
  have fewer := sublist.length_le
  have bound := length_of_bisect h
  rw [List.length_append, List.length_singleton] at fewer
  refine ⟨_, events', bisect_of_sweeps sweeps (by omega), ?_⟩
  have hlast : ys = ys.dropLast ++ [pending.getLastD a] := by
    have getLast := sweeps.getLast?
    rw [List.getLast?_cons, ← List.getLastD_eq_getLast?] at getLast
    exact (List.dropLast_append_getLast? _ getLast).symm
  rw [hlast] at sublist
  exact (List.append_sublist_append_right _).mp sublist

end Tests

variable {α : Type} [Scalar α]

/-- Each of the three tolerances is at least that of the other. -/
structure Tolerances.Looser (loose tight : Tolerances α) : Prop where
  convergence : tight.convergence ≤ loose.convergence
  absolute : tight.absolute ≤ loose.absolute
  distance : tight.distance ≤ loose.distance

theorem Tolerances.Looser.accepts {loose tight : Tolerances α} (looser : loose.Looser tight)
    (trans : ∀ {a b c : α}, a ≤ b → b ≤ c → a ≤ c) {lower midpoint upper exact estimate : α}
    (h : tight.Accepts lower midpoint upper exact estimate) :
    loose.Accepts lower midpoint upper exact estimate := by
  rcases h with h | h | h | h
  · exact Or.inl (trans h looser.convergence)
  · exact Or.inr (Or.inl (trans h looser.distance))
  · exact Or.inr (Or.inr (Or.inl h))
  · exact Or.inr (Or.inr (Or.inr (trans h looser.absolute)))

namespace LineGenerator

variable {g tight loose : LineGenerator α} {f : α → α} {events : List (Event α)}

theorem isAccepted_verdict {a b : Node α} :
    (g.verdict f a b).isAccepted = true ↔ g.Accepts f a b :=
  g.settings.tolerances.isAccepted_checkInterval

/-- An accepted interval with an admitted midpoint is accepted by a generator that warns, whatever
it reports. -/
theorem exists_step_of_accepts (warns : g.settings.reaction = .warn) {a b : Node α}
    (admitted : g.rule.dependent.admits (f (g.rule.midpoint a.x b.x)) = true)
    (accepts : g.Accepts f a b) : ∃ events, g.step f a b = ⟨events, .ok none⟩ := by
  cases hverdict : g.verdict f a b with
  | converged => exact ⟨_, Steps.step_eq (.converged admitted hverdict)⟩
  | dirty cause => exact ⟨_, Steps.step_eq (.dirty admitted hverdict warns)⟩
  | split =>
      have haccepted := isAccepted_verdict.mpr accepts
      rw [hverdict] at haccepted
      cases haccepted

theorem coarsens_step (trans : ∀ {a b c : α}, a ≤ b → b ≤ c → a ≤ c)
    (rule : loose.rule = tight.rule)
    (looser : loose.settings.tolerances.Looser tight.settings.tolerances)
    (warns : loose.settings.reaction = .warn) : Coarsens (loose.step f) (tight.step f) := by
  have accepts {a b : Node α} (h : tight.Accepts f a b) : loose.Accepts f a b := by
    rw [Accepts, estimateAt, rule]
    exact looser.accepts trans h
  constructor
  · intro a b events h
    refine exists_step_of_accepts warns ?_ (accepts (step_accepts h).1)
    rw [rule]
    exact (steps_of_step h).admitted
  · intro a b m events h
    have admitted := (steps_of_step h).admitted
    rw [← rule] at admitted
    obtain ⟨_, rfl, _⟩ := step_inserts h
    by_cases haccepts : loose.Accepts f a b
    · obtain ⟨events, accepted⟩ := exists_step_of_accepts warns admitted haccepts
      exact ⟨events, Or.inl accepted⟩
    · have hverdict : loose.verdict f a b = .split := by
        cases hverdict : loose.verdict f a b with
        | split => rfl
        | converged | dirty _ =>
            refine absurd (isAccepted_verdict.mp ?_) haccepts
            rw [hverdict]
            rfl
      rw [← rule]
      exact ⟨[], Or.inr (Steps.step_eq (.split admitted hverdict))⟩

variable [Resolution α] {points seed : List α} {lo hi : α} {grid : LineGrid α}

theorem valued_of_refineBetween (h : g.refineBetween f points lo hi = ⟨events, .ok grid⟩) :
    ∀ n ∈ grid.nodes, n = nodeOf f n.x := by
  obtain ⟨inner, refined⟩ := g.refined_of_refineBetween f h
  rw [refined.nodes]
  intro n hn
  rcases List.mem_append.mp hn with hn | hn
  · exact eq_nodeOf_of_mem hn
  · rcases List.mem_append.mp hn with hn | hn
    · exact valued_of_sweeps refined.sweeps n hn
    · exact eq_nodeOf_of_mem hn

omit [Resolution α] in
theorem exists_sweep_of_coarsens (c : Coarsens (loose.step f) (tight.step f)) {allowed : Nat}
    {a : Node α} {pending : List (Node α)}
    (h : tight.sweep f allowed a pending = ⟨events, .ok grid⟩) :
    ∃ events' grid', loose.sweep f allowed a pending = ⟨events', .ok grid'⟩ ∧
      grid'.nodes.Sublist grid.nodes := by
  rw [sweep_eq_bisect] at h ⊢
  obtain ⟨_, nodes, _, hnodes, hgrid, rfl⟩ := Trace.andThen_eq_ok.mp h
  obtain ⟨rfl, rfl⟩ := Trace.succeed_eq_ok.mp hgrid
  obtain ⟨nodes', events', hnodes', sublist⟩ := bisect_of_coarsens c hnodes
  refine ⟨_, _, Trace.andThen_eq_ok.mpr ⟨events', nodes', [], hnodes', rfl, rfl⟩, ?_⟩
  rw [LineGrid.nodes_foldr_cons, LineGrid.nodes_foldr_cons]
  exact sublist.append (.refl _)

theorem exists_refineBetween_of_coarsens (c : Coarsens (loose.step f) (tight.step f))
    (rule : loose.rule = tight.rule)
    (h : tight.refineBetween f points lo hi = ⟨events, .ok grid⟩) :
    ∃ events' grid', loose.refineBetween f points lo hi = ⟨events', .ok grid'⟩ ∧
      grid'.nodes.Sublist grid.nodes := by
  obtain ⟨below, ends, above⟩ := usable_of_refineBetween h
  rw [refineBetween_of_usable below ends above] at h
  rw [← rule] at ends
  obtain ⟨_, inner, _, hinner, hgrid, rfl⟩ := Trace.andThen_eq_ok.mp h
  obtain ⟨rfl, rfl⟩ := Trace.succeed_eq_ok.mp hgrid
  obtain ⟨events', inner', hinner', sublist⟩ := exists_sweep_of_coarsens c hinner
  rw [refineBetween_of_usable below ends above, hinner']
  refine ⟨_, _, rfl, ?_⟩
  rw [LineGrid.nodes_surround, LineGrid.nodes_surround]
  exact (List.Sublist.refl _).append (sublist.append (.refl _))

/-- With looser tolerances, a run that only warns succeeds wherever the tighter run does. Its points
are some of those of the other grid, in the same order and with the same values. -/
theorem looser_run_is_coarser (trans : ∀ {a b c : α}, a ≤ b → b ≤ c → a ≤ c)
    (rule : loose.rule = tight.rule)
    (looser : loose.settings.tolerances.Looser tight.settings.tolerances)
    (warns : loose.settings.reaction = .warn)
    (h : tight.generate f seed = ⟨events, .ok grid⟩) :
    ∃ events' grid', loose.generate f seed = ⟨events', .ok grid'⟩ ∧
      grid'.nodes.Sublist grid.nodes ∧
      ∀ n ∈ grid'.nodes, ∀ m ∈ grid.nodes, n.x = m.x → n.y = m.y := by
  obtain ⟨first, last, accepted, run⟩ := generate_eq_ok.mp h
  obtain ⟨events', grid', run', sublist⟩ :=
    exists_refineBetween_of_coarsens (coarsens_step trans rule looser warns) rule run
  rw [← rule] at accepted
  refine ⟨events', grid', generate_eq_ok.mpr ⟨first, last, accepted, run'⟩, sublist, ?_⟩
  intro n hn m hm hx
  rw [valued_of_refineBetween run' n hn, valued_of_refineBetween run m hm, hx]

set_option maxRecDepth 20000 in
/-- The midpoint of a square is left out once an error of one part in four is accepted. -/
theorem looser_run_square :
    let loose : LineGenerator Float := ⟨.linear, ⟨⟨0.25, 1e-14, 1e-12⟩, .warn, false⟩⟩
    let grid : LineGrid Float := ⟨⟨1.0, 1.0⟩, [⟨1.5, 2.25⟩, ⟨2.0, 4.0⟩]⟩
    loose.settings.tolerances.Looser coarse.settings.tolerances ∧
      coarse.generate square [1.0, 2.0] = ⟨[], .ok grid⟩ ∧
      ∃ events' grid', loose.generate square [1.0, 2.0] = ⟨events', .ok grid'⟩ ∧
        grid'.nodes.Sublist grid.nodes ∧
        ∀ n ∈ grid'.nodes, ∀ m ∈ grid.nodes, n.x = m.x → n.y = m.y := by
  intro loose grid
  have looser : loose.settings.tolerances.Looser coarse.settings.tolerances := by
    constructor <;> decide
  have rule : loose.rule = coarse.rule := rfl
  have warns : loose.settings.reaction = .warn := rfl
  exact ⟨looser, generate_square,
    looser_run_is_coarser Scalar.le_trans rule looser warns generate_square⟩

end LineGenerator
end AdaptiveTables
