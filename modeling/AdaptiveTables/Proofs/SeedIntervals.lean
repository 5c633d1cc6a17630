import AdaptiveTables.Proofs.PlaneRegeneration

/-!
The intervals of a seed on a plane. A run builds the columns of the whole seed first and refines the
intervals between them afterwards, yet each interval is refined as it is in a run over its two ends
alone: the two runs succeed together, and the columns of the seed are those of the intervals with
the column that two neighbours share taken once.
-/

namespace AdaptiveTables

namespace Trace

variable {α β γ : Type}

theorem outcome_andThen_eq_ok {t : Trace α β} {f : β → Trace α γ} {w : γ} :
    (t.andThen f).outcome = .ok w ↔ ∃ v, t.outcome = .ok v ∧ (f v).outcome = .ok w := by
  obtain ⟨events, outcome⟩ := t
  cases outcome with
  | error e => simp [andThen]
  | ok v => simp [andThen]

theorem outcome_each_eq_ok {f : β → Trace α γ} {bs : List β} {cs : List γ} :
    (each f bs).outcome = .ok cs ↔ List.Forall₂ (fun b c => (f b).outcome = .ok c) bs cs := by
  induction bs generalizing cs with
  | nil =>
      rw [List.forall₂_nil_left_iff]
      exact ⟨fun h => (Except.ok.inj h).symm, fun h => h ▸ rfl⟩
  | cons b bs ih =>
      rw [each, outcome_andThen_eq_ok, List.forall₂_cons_left_iff]
      simp only [outcome_andThen_eq_ok, ih]
      constructor
      · rintro ⟨c, hc, cs', hcs, hlast⟩
        exact ⟨c, cs', hc, hcs, (Except.ok.inj hlast).symm⟩
      · rintro ⟨c, cs', hc, hcs, rfl⟩
        exact ⟨c, hc, cs', hcs, rfl⟩

end Trace

section JoinEnds

variable {β γ : Type}

theorem exists_forall₂_iff {R : β → γ → Prop} {xs : List β} :
    (∃ ys, List.Forall₂ R xs ys) ↔ ∀ x ∈ xs, ∃ y, R x y := by
  induction xs with
  | nil => simp
  | cons x xs ih =>
      simp only [List.forall₂_cons_left_iff, List.forall_mem_cons, ← ih]
      constructor
      · rintro ⟨_, y, ys, hxy, hys, -⟩
        exact ⟨⟨y, hxy⟩, ys, hys⟩
      · rintro ⟨⟨y, hxy⟩, ys, hys⟩
        exact ⟨_, y, ys, hxy, hys, rfl⟩

/-- The first list ends with the element that the second one starts with. -/
def Meets (xs ys : List β) : Prop := ∃ c, xs.getLast? = some c ∧ ys.head? = some c

/-- Joins lists that meet at their ends. The end that two neighbours share is kept once. -/
def joinEnds : List (List β) → List β
  | [] => []
  | [xs] => xs
  | xs :: ys :: rest => xs.dropLast ++ joinEnds (ys :: rest)

theorem joinEnds_map (f : β → γ) (lists : List (List β)) :
    joinEnds (lists.map fun xs => xs.map f) = (joinEnds lists).map f := by
  fun_induction joinEnds lists with
  | case1 => rfl
  | case2 xs => rfl
  | case3 xs ys rest ih =>
      simp only [List.map_cons] at ih ⊢
      rw [joinEnds, ih, List.map_append, List.map_dropLast]

theorem head?_joinEnds {xs : List β} {rest : List (List β)} (meet : (xs :: rest).IsChain Meets) :
    (joinEnds (xs :: rest)).head? = xs.head? := by
  induction rest generalizing xs with
  | nil => rfl
  | cons ys rest ih =>
      obtain ⟨⟨c, hlast, hhead⟩, hrest⟩ := List.isChain_cons_cons.mp meet
      rw [joinEnds, List.head?_append, ih hrest, hhead]
      match xs, hlast with
      | [_], hlast => exact hlast.symm
      | _ :: _ :: _, _ => rfl

/-- Every one of the lists is found again, whole, in what they are joined to. -/
theorem infix_joinEnds {lists : List (List β)} (meet : lists.IsChain Meets) :
    ∀ xs ∈ lists, xs <:+: joinEnds lists := by
  fun_induction joinEnds lists with
  | case1 => exact fun xs hxs => nomatch hxs
  | case2 ys => exact fun xs hxs => List.mem_singleton.mp hxs ▸ List.infix_rfl
  | case3 ys zs rest ih =>
      obtain ⟨⟨c, hlast, hhead⟩, hrest⟩ := List.isChain_cons_cons.mp meet
      intro xs hxs
      cases List.mem_cons.mp hxs with
      | inr hxs => exact (ih hrest xs hxs).trans (List.suffix_append _ _).isInfix
      | inl heq =>
          -- The end that is dropped here starts what follows.
          obtain ⟨before, rfl⟩ := List.getLast?_eq_some_iff.mp hlast
          obtain ⟨after, hafter⟩ :=
            List.head?_eq_some_iff.mp ((head?_joinEnds hrest).trans hhead)
          rw [heq, hafter, List.dropLast_concat]
          exact ⟨[], after, by simp⟩

end JoinEnds

variable {α : Type} [Scalar α] [Resolution α]

namespace PlaneGenerator

variable {g : PlaneGenerator α} {init : α → List α} {f : α → α → α} {grid : PlaneGrid α}

theorem outcome_grow {merged : List α} :
    (g.grow init f merged).outcome = .ok grid ↔
      ∃ ends pieces, List.Forall₂ (fun x c => (g.column init f x).outcome = .ok c) merged ends ∧
        List.Forall₂ (fun p cs => (g.refineInterval init f p).outcome = .ok cs)
          (adjacent ends) pieces ∧
        grid.columns = pieces.flatten ++ ends.getLast?.toList := by
  have logged (ends : List (Column α)) (pieces : List (List (Column α))) :
      (∃ v, (g.logVerbose ((pieces.flatten ++ ends.getLast?.toList).mapIdx
          fun i c => .addedPoint c.x i)).outcome = .ok v ∧
        (Trace.succeed ⟨pieces.flatten ++ ends.getLast?.toList⟩ :
          Trace α (PlaneGrid α)).outcome = .ok grid) ↔
      grid.columns = pieces.flatten ++ ends.getLast?.toList := by
    obtain ⟨events, hlog⟩ := g.exists_logVerbose
      ((pieces.flatten ++ ends.getLast?.toList).mapIdx fun i c => .addedPoint c.x i)
    rw [hlog]
    constructor
    · rintro ⟨_, _, h⟩
      exact (congrArg PlaneGrid.columns (Except.ok.inj h)).symm
    · intro h
      exact ⟨(), rfl, congrArg Except.ok (by rw [← h])⟩
  simp only [grow, Trace.outcome_andThen_eq_ok, Trace.outcome_each_eq_ok, logged]
  constructor
  · rintro ⟨ends, hends, pieces, hpieces, h⟩
    exact ⟨ends, pieces, hends, hpieces, h⟩
  · rintro ⟨ends, pieces, hends, hpieces, h⟩
    exact ⟨ends, hends, pieces, hpieces, h⟩

/-- The run over two points: their columns and what is inserted between them. -/
theorem outcome_grow_pair {a b : α} :
    (g.grow init f [a, b]).outcome = .ok grid ↔
      ∃ ca cb inner, (g.column init f a).outcome = .ok ca ∧ (g.column init f b).outcome = .ok cb ∧
        (g.refineInterval init f (ca, cb)).outcome = .ok inner ∧ grid.columns = inner ++ [cb] := by
  rw [outcome_grow]
  constructor
  · rintro ⟨_, _, hends, hpieces, hgrid⟩
    obtain ⟨ca, _, ha, hrest, rfl⟩ := List.forall₂_cons_left_iff.mp hends
    obtain ⟨cb, _, hb, hnone, rfl⟩ := List.forall₂_cons_left_iff.mp hrest
    cases hnone
    obtain ⟨inner, _, hinner, hnone, rfl⟩ := List.forall₂_cons_left_iff.mp hpieces
    cases hnone
    exact ⟨ca, cb, inner, ha, hb, hinner, by simpa using hgrid⟩
  · rintro ⟨ca, cb, inner, ha, hb, hinner, hgrid⟩
    exact ⟨[ca, cb], [inner], .cons ha (.cons hb .nil), .cons hinner .nil, by simpa using hgrid⟩

theorem head_of_refineInterval {p : Column α × Column α} {inner : List (Column α)}
    (h : (g.refineInterval init f p).outcome = .ok inner) : inner.head? = some p.1 := by
  have hrun : g.refineInterval init f p = ⟨(g.refineInterval init f p).events, .ok inner⟩ := by
    rw [← h]
  rw [refineInterval, sweep_eq_bisect] at hrun
  obtain ⟨later, rfl⟩ := (refines_of_bisect hrun).exists_cons
  rfl

/-- A run starts with the column of its first point. -/
theorem head_of_grow {a : α} {rest : List α} (h : (g.grow init f (a :: rest)).outcome = .ok grid) :
    ∃ ca, (g.column init f a).outcome = .ok ca ∧ grid.columns.head? = some ca := by
  obtain ⟨_, _, hends, hpieces, hgrid⟩ := outcome_grow.mp h
  obtain ⟨ca, ends, ha, _, rfl⟩ := List.forall₂_cons_left_iff.mp hends
  refine ⟨ca, ha, ?_⟩
  cases ends with
  | nil =>
      cases hpieces
      rw [hgrid]
      rfl
  | cons cb ends =>
      obtain ⟨inner, pieces, hinner, _, rfl⟩ := List.forall₂_cons_left_iff.mp hpieces
      rw [hgrid, List.flatten_cons, List.append_assoc, List.head?_append,
        head_of_refineInterval hinner]
      rfl

/-- A run over two points ends with the column of the second one. -/
theorem getLast_of_grow_pair {a b : α} (h : (g.grow init f [a, b]).outcome = .ok grid) :
    ∃ cb, (g.column init f b).outcome = .ok cb ∧ grid.columns.getLast? = some cb := by
  obtain ⟨_, cb, inner, _, hb, _, hgrid⟩ := outcome_grow_pair.mp h
  exact ⟨cb, hb, by rw [hgrid, List.getLast?_concat]⟩

/-- Critical values matter for the seed alone, not for what is grown from it. -/
theorem grow_critical (init : α → List α) (f : α → α → α) (values : List α) :
    ({ g with critical := values } : PlaneGenerator α).grow init f = g.grow init f := by
  let g' : PlaneGenerator α := { g with critical := values }
  have probes (a b : Column α) (x : α) (estimate : α → Except (TableError α) α)
      (probes : List (Node α)) :
      g'.checkProbes a b x estimate probes = g.checkProbes a b x estimate probes := by
    induction probes with
    | nil => rfl
    | cons probe rest ih =>
        rw [checkProbes, checkProbes, ih]
        rfl
  have tests : g'.test init f = g.test init f := by
    funext a b
    simp only [test, testAt, probes]
    rfl
  have refined : g'.refineInterval init f = g.refineInterval init f := by
    funext p
    rw [refineInterval, refineInterval, sweep_eq_bisect, sweep_eq_bisect, tests]
  change g'.grow init f = g.grow init f
  funext merged
  rw [grow, grow, refined]
  rfl

/-- The first interval of a seed is refined as in a run over its ends, and the later ones as in a
run over the rest of the seed. -/
theorem outcome_grow_cons {a b : α} {rest : List α} :
    (g.grow init f (a :: b :: rest)).outcome = .ok grid ↔
      ∃ piece later, (g.grow init f [a, b]).outcome = .ok piece ∧
        (g.grow init f (b :: rest)).outcome = .ok later ∧
        grid.columns = piece.columns.dropLast ++ later.columns := by
  constructor
  · intro h
    obtain ⟨_, _, hends, hpieces, hgrid⟩ := outcome_grow.mp h
    obtain ⟨ca, _, ha, hrest, rfl⟩ := List.forall₂_cons_left_iff.mp hends
    obtain ⟨cb, ends, hb, _, rfl⟩ := List.forall₂_cons_left_iff.mp hrest
    obtain ⟨inner, pieces, hinner, hothers, rfl⟩ := List.forall₂_cons_left_iff.mp hpieces
    refine ⟨⟨inner ++ [cb]⟩, ⟨pieces.flatten ++ (cb :: ends).getLast?.toList⟩,
      outcome_grow_pair.mpr ⟨ca, cb, inner, ha, hb, hinner, rfl⟩,
      outcome_grow.mpr ⟨cb :: ends, pieces, hrest, hothers, rfl⟩, ?_⟩
    rw [hgrid, List.flatten_cons, List.append_assoc, List.getLast?_cons_cons, List.dropLast_concat]
  · rintro ⟨piece, later, hpiece, hlater, hgrid⟩
    obtain ⟨ca, cb, inner, ha, hb, hinner, hcolumns⟩ := outcome_grow_pair.mp hpiece
    obtain ⟨_, pieces, hends, hpieces, hothers⟩ := outcome_grow.mp hlater
    obtain ⟨cb', ends, hb', hrest, rfl⟩ := List.forall₂_cons_left_iff.mp hends
    -- Both runs build the column of the shared end, and they build the same one.
    obtain rfl : cb = cb' := Except.ok.inj (hb.symm.trans hb')
    refine outcome_grow.mpr ⟨ca :: cb :: ends, inner :: pieces, .cons ha hends,
      .cons hinner hpieces, ?_⟩
    rw [hgrid, hcolumns, hothers, List.dropLast_concat, List.flatten_cons, List.append_assoc,
      List.getLast?_cons_cons]

/-- The grids of runs over the intervals of a seed. -/
def Pieces (run : List α → Trace α (PlaneGrid α)) (seed : List α) (pieces : List (PlaneGrid α)) :
    Prop :=
  List.Forall₂ (fun p piece => (run [p.1, p.2]).outcome = .ok piece) (adjacent seed) pieces

omit [Scalar α] [Resolution α] in
theorem pieces_cons_cons {run : List α → Trace α (PlaneGrid α)} {a b : α} {rest : List α}
    {pieces : List (PlaneGrid α)} :
    Pieces run (a :: b :: rest) pieces ↔ ∃ piece later, (run [a, b]).outcome = .ok piece ∧
      Pieces run (b :: rest) later ∧ pieces = piece :: later :=
  List.forall₂_cons_left_iff

/-- A run over a seed succeeds when those over its intervals do, with their columns. -/
theorem outcome_grow_iff_pieces {a b : α} {rest : List α} :
    (g.grow init f (a :: b :: rest)).outcome = .ok grid ↔
      ∃ pieces, Pieces (g.grow init f) (a :: b :: rest) pieces ∧
        grid.columns = joinEnds (pieces.map (·.columns)) := by
  induction rest generalizing a b grid with
  | nil =>
      constructor
      · exact fun h => ⟨[grid], .cons h .nil, rfl⟩
      · rintro ⟨_, hpieces, hgrid⟩
        obtain ⟨piece, _, hpiece, hnone, rfl⟩ := pieces_cons_cons.mp hpieces
        cases hnone
        obtain rfl : grid = piece := congrArg PlaneGrid.mk hgrid
        exact hpiece
  | cons c rest ih =>
      rw [outcome_grow_cons]
      constructor
      · rintro ⟨piece, later, hpiece, hlater, hgrid⟩
        obtain ⟨pieces, hpieces, hjoined⟩ := ih.mp hlater
        refine ⟨piece :: pieces, pieces_cons_cons.mpr ⟨piece, pieces, hpiece, hpieces, rfl⟩, ?_⟩
        obtain ⟨_, _, _, _, rfl⟩ := pieces_cons_cons.mp hpieces
        rw [hgrid, hjoined]
        rfl
      · rintro ⟨_, hpieces, hgrid⟩
        obtain ⟨piece, pieces, hpiece, hothers, rfl⟩ := pieces_cons_cons.mp hpieces
        refine ⟨piece, ⟨joinEnds (pieces.map (·.columns))⟩, hpiece,
          ih.mpr ⟨pieces, hothers, rfl⟩, ?_⟩
        obtain ⟨_, _, _, _, rfl⟩ := pieces_cons_cons.mp hothers
        exact hgrid

/-- Neighbouring intervals share the column of the point where they meet. -/
theorem Pieces.meets {a b : α} {rest : List α} {pieces : List (PlaneGrid α)}
    (h : Pieces (g.grow init f) (a :: b :: rest) pieces) :
    (pieces.map (·.columns)).IsChain Meets := by
  induction rest generalizing a b pieces with
  | nil =>
      obtain ⟨left, _, _, hnone, rfl⟩ := pieces_cons_cons.mp h
      cases hnone
      exact .singleton _
  | cons c rest ih =>
      obtain ⟨left, _, hleft, hothers, rfl⟩ := pieces_cons_cons.mp h
      obtain ⟨right, later, hright, _, rfl⟩ := pieces_cons_cons.mp hothers
      obtain ⟨cb, hb, hlast⟩ := getLast_of_grow_pair hleft
      obtain ⟨cb', hb', hhead⟩ := head_of_grow hright
      obtain rfl : cb = cb' := Except.ok.inj (hb.symm.trans hb')
      exact .cons_cons ⟨cb, hlast, hhead⟩ (ih hothers)

/-- What the grid of a seed is, given the grids of its intervals. -/
structure MadeOf (g : PlaneGenerator α) (init : α → List α) (f : α → α → α) (seed : List α)
    (pieces : List (PlaneGrid α)) (grid : PlaneGrid α) : Prop where
  runs : Pieces (g.generate init f) seed pieces
  meets : (pieces.map (·.columns)).IsChain Meets
  columns : grid.columns = joinEnds (pieces.map (·.columns))
  primary : grid.primary = joinEnds (pieces.map (·.primary))
  points : grid.columns.map (·.slice.points) =
    joinEnds (pieces.map fun piece => piece.columns.map (·.slice.points))
  values : grid.columns.map (·.slice.values) =
    joinEnds (pieces.map fun piece => piece.columns.map (·.slice.values))
  stretches : ∀ piece ∈ pieces, piece.columns <:+: grid.columns

variable [Scalar.Ordered α]

omit [Resolution α] [Scalar.Ordered α] in
theorem exists_cons_cons_of_seedEnds {scale : Scale} {seed : List α} {ends : α × α}
    (accepted : seedEnds scale seed = .ok ends) : ∃ a b rest, seed = a :: b :: rest := by
  match seed, accepted with
  | a :: b :: rest, _ => exact ⟨a, b, rest, rfl⟩

variable (init f)

/-- Without critical values a seed is grown as it is. -/
theorem generate_of_plain {seed : List α} {first last : α} (plain : g.critical = [])
    (accepted : seedEnds g.rule.primary seed = .ok (first, last)) :
    g.generate init f seed = g.grow init f seed := by
  have merged := mergedSeed_of_ascending plain (seedAccepted_of_seedEnds accepted).ascending
    first last
  rw [generate_eq_grow, accepted]
  simp only [Trace.ofExcept, Trace.succeed_andThen, merged, Nat.lt_irrefl, if_false]

theorem outcome_generate {seed : List α} {first last : α} (plain : g.critical = [])
    (accepted : seedEnds g.rule.primary seed = .ok (first, last)) :
    (g.generate init f seed).outcome = (g.grow init f seed).outcome := by
  rw [generate_of_plain init f plain accepted]

theorem outcome_generate_interval {seed : List α} {first last : α} (plain : g.critical = [])
    (accepted : seedEnds g.rule.primary seed = .ok (first, last)) :
    ∀ p ∈ adjacent seed,
      (g.generate init f [p.1, p.2]).outcome = (g.grow init f [p.1, p.2]).outcome := by
  have seedAccepted := seedAccepted_of_seedEnds accepted
  intro p hp
  have range := adjacent_of_pairwise seedAccepted.ascending p hp
  obtain ⟨hp₁, hp₂⟩ := mem_of_adjacent hp
  have ends : SeedAccepted g.rule.primary [p.1, p.2] p.1 p.2 :=
    { admitted := by simp [seedAccepted.admitted _ hp₁, seedAccepted.admitted _ hp₂]
      ascending := by simpa using range
      head := rfl
      getLast := rfl
      range }
  exact outcome_generate init f plain (seedEnds_of_seedAccepted ends)

/-- The intervals of a seed refine independently. A run over the seed succeeds exactly when the
run over the two ends of each interval does, and its grid is made of theirs. -/
theorem generate_on_intervals {seed : List α} {first last : α} (plain : g.critical = [])
    (accepted : seedEnds g.rule.primary seed = .ok (first, last)) :
    ((∃ grid, (g.generate init f seed).outcome = .ok grid) ↔
      ∀ p ∈ adjacent seed, ∃ piece, (g.generate init f [p.1, p.2]).outcome = .ok piece) ∧
    ∀ grid, (g.generate init f seed).outcome = .ok grid →
      ∃ pieces, MadeOf g init f seed pieces grid := by
  have interval := outcome_generate_interval init f plain accepted
  have grows := outcome_generate init f plain accepted
  obtain ⟨a, b, rest, rfl⟩ := exists_cons_cons_of_seedEnds accepted
  simp only [grows, outcome_grow_iff_pieces]
  refine ⟨?_, fun grid hgrid => ?_⟩
  · constructor
    · rintro ⟨grid, hgrid⟩ p hp
      obtain ⟨pieces, hpieces, _⟩ := hgrid
      rw [interval p hp]
      exact exists_forall₂_iff.mp ⟨pieces, hpieces⟩ p hp
    · intro h
      obtain ⟨pieces, hpieces⟩ := exists_forall₂_iff.mpr fun p hp => interval p hp ▸ h p hp
      exact ⟨⟨_⟩, pieces, hpieces, rfl⟩
  · obtain ⟨pieces, hpieces, hjoined⟩ := hgrid
    have joined {β : Type} (h : Column α → β) :
        grid.columns.map h = joinEnds (pieces.map fun piece => piece.columns.map h) := by
      rw [hjoined, ← joinEnds_map, List.map_map]
      rfl
    have meets := hpieces.meets
    refine ⟨pieces, ⟨?_, meets, hjoined, joined (·.x), joined _, joined _, fun piece hpiece => ?_⟩⟩
    · refine ((List.forall₂_and_left _ _).mpr ⟨interval, hpieces⟩).imp fun p piece h => ?_
      exact h.1.trans h.2
    · rw [hjoined]
      exact infix_joinEnds meets _ (List.mem_map_of_mem hpiece)

theorem halves_generate :
    ((standard .linear : PlaneGenerator Float).generate (fun _ => [1.0, 2.0]) (fun _ y => y)
      [1.0, 1.5, 2.0]).outcome =
        .ok ⟨[identityColumn 1.0, identityColumn 1.5, identityColumn 2.0]⟩ := by
  obtain ⟨_, hgenerate⟩ := halved_generate
  obtain ⟨first, last, _, _, accepted, hgrow, _⟩ := halved.grow_of_generate _ _ hgenerate
  have hends : seedEnds halved.rule.primary [(1.0 : Float), 2.0] = .ok (1.0, 2.0) := rfl
  obtain ⟨rfl, rfl⟩ := Prod.mk.inj (Except.ok.inj (hends.symm.trans accepted))
  rw [halved_mergedSeed] at hgrow
  have hseed : seedEnds .linear [(1.0 : Float), 1.5, 2.0] = .ok (1.0, 2.0) := rfl
  rw [outcome_generate _ _ rfl hseed, ← grow_critical _ _ [1.5]]
  exact congrArg Trace.outcome hgrow

theorem halves_on_intervals :
    let g : PlaneGenerator Float := standard .linear
    let grid : PlaneGrid Float := ⟨[identityColumn 1.0, identityColumn 1.5, identityColumn 2.0]⟩
    g.critical = [] ∧ seedEnds g.rule.primary [(1.0 : Float), 1.5, 2.0] = .ok (1.0, 2.0) ∧
      (∀ p ∈ adjacent [(1.0 : Float), 1.5, 2.0], ∃ piece,
        (g.generate (fun _ => [1.0, 2.0]) (fun _ y => y) [p.1, p.2]).outcome = .ok piece) ∧
      ∃ pieces, MadeOf g (fun _ => [1.0, 2.0]) (fun _ y => y) [1.0, 1.5, 2.0] pieces grid := by
  intro g grid
  have accepted : seedEnds g.rule.primary [(1.0 : Float), 1.5, 2.0] = .ok (1.0, 2.0) := rfl
  obtain ⟨succeeds, made⟩ := generate_on_intervals (g := g) (fun _ => [1.0, 2.0])
    (fun _ y => y) rfl accepted
  exact ⟨rfl, accepted, succeeds.mp ⟨grid, halves_generate⟩, made grid halves_generate⟩

end PlaneGenerator
end AdaptiveTables
