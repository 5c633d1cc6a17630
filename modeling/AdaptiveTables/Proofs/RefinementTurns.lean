import AdaptiveTables.Proofs.Bisect
import AdaptiveTables.Proofs.SearchLoops
import AdaptiveTables.Proofs.ValueCounts

/-!
Refinement turn by turn. The loop over the pending right ends has no bound of its own: a turn either
accepts the nearest interval or inserts a point into it. It ends all the same where points are
inserted strictly inside intervals only. Twice the number of values above the left end, less the
number of right ends, falls at every turn of either kind.
-/

namespace AdaptiveTables

/-- A refinement between two turns of its loop. -/
structure Worklist (β : Type) where
  accepted : List β
  left : β
  pending : List β

namespace Worklist

variable {α β : Type}

/-- One turn of the loop. It is over when nothing is pending, or after an error. -/
def turn (test : β → β → Trace α (Option β)) (s : Trace α (Worklist β)) :
    Option (Trace α (Worklist β)) :=
  match s.outcome with
  | .error _ => none
  | .ok ⟨_, _, []⟩ => none
  | .ok ⟨accepted, a, b :: rest⟩ =>
    some <| s.andThen fun _ => (test a b).andThen fun
      | none => .succeed ⟨accepted ++ [a], b, rest⟩
      | some m => .succeed ⟨accepted, a, m :: b :: rest⟩

variable {test : β → β → Trace α (Option β)} {accepted rest : List β} {a b m : β}
  {events tested : List (Event α)}

theorem turn_of_error {e : GridError α} (h : test a b = ⟨tested, .error e⟩) :
    turn test ⟨events, .ok ⟨accepted, a, b :: rest⟩⟩ = some ⟨events ++ tested, .error e⟩ := by
  simp [turn, h, Trace.andThen]

theorem turn_of_accepted (h : test a b = ⟨tested, .ok none⟩) :
    turn test ⟨events, .ok ⟨accepted, a, b :: rest⟩⟩ =
      some ⟨events ++ tested, .ok ⟨accepted ++ [a], b, rest⟩⟩ := by
  simp [turn, h, Trace.andThen, Trace.succeed]

theorem turn_of_split (h : test a b = ⟨tested, .ok (some m)⟩) :
    turn test ⟨events, .ok ⟨accepted, a, b :: rest⟩⟩ =
      some ⟨events ++ tested, .ok ⟨accepted, a, m :: b :: rest⟩⟩ := by
  simp [turn, h, Trace.andThen, Trace.succeed]

variable {R : β → β → Prop} {room : β → Nat}

theorem length_le_room (falls : ∀ {a b}, R a b → room b < room a) {a : β} {pending : List β}
    (chain : ∀ p ∈ adjacent (a :: pending), R p.1 p.2) : pending.length ≤ room a := by
  induction pending generalizing a with
  | nil => exact Nat.zero_le _
  | cons b rest ih =>
      rw [adjacent_cons_cons] at chain
      have hab := falls (chain (a, b) List.mem_cons_self)
      have hrest := ih fun p hp => chain p (List.mem_cons_of_mem _ hp)
      simp only [List.length_cons] at hab ⊢
      omega

/-- The loop ends, and its answer is that of the recursion with as many insertions allowed as there
is room for. -/
theorem halts_of_falls
    (halves : ∀ {a m b events}, test a b = ⟨events, .ok (some m)⟩ → R a b → R a m ∧ R m b)
    (falls : ∀ {a b}, R a b → room b < room a) {allowed : Nat} {a : β} {pending : List β}
    (chain : ∀ p ∈ adjacent (a :: pending), R p.1 p.2)
    (enough : room a ≤ allowed + pending.length) (accepted : List β) (events : List (Event α)) :
    ∃ turns last, turns + pending.length ≤ 2 * room a ∧
      Halts (turn test) ⟨events, .ok ⟨accepted, a, pending⟩⟩ turns last ∧
      (last.andThen fun w => .succeed w.accepted) =
        ⟨events ++ (bisect test allowed a pending).events,
          (bisect test allowed a pending).outcome.map (accepted ++ ·)⟩ := by
  induction allowed, a, pending using bisect.induct generalizing accepted events with
  | case1 allowed a =>
      refine ⟨0, _, Nat.zero_le _, .done rfl, ?_⟩
      simp [bisect, Trace.andThen, Trace.succeed, Except.map]
  | case2 allowed a b rest ihAccepted ihInserted =>
      have fits := length_le_room (R := R) falls chain
      rw [adjacent_cons_cons] at chain
      have hab : R a b := chain (a, b) List.mem_cons_self
      have hrest : ∀ p ∈ adjacent (b :: rest), R p.1 p.2 := fun p hp =>
        chain p (List.mem_cons_of_mem _ hp)
      have hroom := falls hab
      simp only [List.length_cons] at fits enough ⊢
      cases htest : test a b with
      | mk tested outcome =>
          cases outcome with
          | error e =>
              refine ⟨1, _, by omega, .turn (turn_of_error htest) (.done rfl), ?_⟩
              rw [bisect_of_error htest]
              rfl
          | ok verdict =>
              cases verdict with
              | none =>
                  -- The left end moves up, which makes up for the right end that is gone.
                  obtain ⟨turns, last, bound, halts, answer⟩ := ihAccepted hrest (by omega)
                    (accepted ++ [a]) (events ++ tested)
                  refine ⟨turns + 1, last, by omega, .turn (turn_of_accepted htest) halts, ?_⟩
                  rw [answer, bisect_of_accepted_first htest, List.append_assoc]
                  cases (bisect test allowed b rest).outcome <;> simp [Except.map]
              | some m =>
                  -- The inserted point is one more right end, and there was room for it.
                  obtain ⟨ham, hmb⟩ := halves htest hab
                  have hchain : ∀ p ∈ adjacent (a :: m :: b :: rest), R p.1 p.2 := by
                    simpa [adjacent_cons_cons, ham, hmb] using hrest
                  have fits' := length_le_room (R := R) falls hchain
                  simp only [List.length_cons] at fits'
                  cases allowed with
                  | zero => omega
                  | succ left =>
                      have enough' : room a ≤ left + (m :: b :: rest).length := by
                        simp only [List.length_cons]
                        omega
                      obtain ⟨turns, last, bound, halts, answer⟩ := ihInserted m hchain enough'
                        accepted (events ++ tested)
                      simp only [List.length_cons] at bound
                      refine ⟨turns + 1, last, by omega, .turn (turn_of_split htest) halts, ?_⟩
                      rw [answer, bisect_of_split_first htest, List.append_assoc]

end Worklist

end AdaptiveTables
