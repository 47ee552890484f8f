import Mathlib.Data.Nat.Init
import Mathlib.Order.Nat

/-!
# Progress along fair runs

A run is a sequence of states; at some times an agent has its turn. If every turn of an agent that comes
again and again brings a measure down, and nothing else brings it up, the goal is reached.
-/

namespace BiProject.Lib.Fairness
set_option autoImplicit false

section
variable {S : Type*} {run : Nat → S} {turn : Nat → Prop} (P Q : S → Prop) (rank : S → Nat)

/-- What holds until the goal is reached lasts to the next turn. -/
theorem until_turn
    (keeps : ∀ k, P (run k) → Q (run (k + 1)) ∨ (P (run (k + 1)) ∧ rank (run (k + 1)) ≤ rank (run k)))
    {k : Nat} (start : P (run k)) (d : Nat) :
    (∃ j ≥ k, Q (run j)) ∨ (P (run (k + d)) ∧ rank (run (k + d)) ≤ rank (run k)) := by
  induction d with
  | zero => exact Or.inr ⟨start, le_rfl⟩
  | succ d ih =>
    rcases ih with reached | ⟨here, low⟩
    · exact Or.inl reached
    · rcases keeps (k + d) here with reached | ⟨next, lower⟩
      · exact Or.inl ⟨k + d + 1, by omega, reached⟩
      · exact Or.inr ⟨next, lower.trans low⟩

/-- **The goal is reached**: the measure comes down at every turn and never goes up. -/
theorem eventually (fair : ∀ k, ∃ j ≥ k, turn j)
    (keeps : ∀ k, P (run k) → Q (run (k + 1)) ∨
      (P (run (k + 1)) ∧ rank (run (k + 1)) ≤ rank (run k) ∧ (turn k → rank (run (k + 1)) < rank (run k))))
    {k : Nat} (start : P (run k)) : ∃ j ≥ k, Q (run j) := by
  have slow : ∀ k, P (run k) → Q (run (k + 1)) ∨ (P (run (k + 1)) ∧ rank (run (k + 1)) ≤ rank (run k)) := by
    intro k here
    rcases keeps k here with reached | ⟨next, lower, _⟩
    · exact Or.inl reached
    · exact Or.inr ⟨next, lower⟩
  generalize measure : rank (run k) = n
  induction n using Nat.strong_induction_on generalizing k with
  | _ n ih =>
    obtain ⟨t, later, turnNow⟩ := fair k
    obtain ⟨d, rfl⟩ := Nat.exists_eq_add_of_le later
    rcases until_turn P Q rank slow start d with reached | ⟨here, low⟩
    · exact reached
    · rcases keeps (k + d) here with reached | ⟨next, _, lower⟩
      · exact ⟨k + d + 1, by omega, reached⟩
      · obtain ⟨j, after, reached⟩ := ih _ (by have := lower turnNow; omega) next rfl
        exact ⟨j, by omega, reached⟩

end

end BiProject.Lib.Fairness
