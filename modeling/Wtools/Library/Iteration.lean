import Mathlib.Order.Basic

/-!
# Counted iterations of a step relation

A step that moves a measure forward and is taken only below a bound is taken only so many times in
a row.
-/

namespace Iteration

universe u
variable {α : Type u} {Step : α → α → Prop}

/-- `n` steps one after the other. -/
inductive Iterates (Step : α → α → Prop) : Nat → α → α → Prop
  | refl (a : α) : Iterates Step 0 a a
  | step {n : Nat} {a b c : α} (h : Iterates Step n a b) (hs : Step b c) : Iterates Step (n + 1) a c

theorem Iterates.head {n : Nat} {a b c : α} (hs : Step a b) (h : Iterates Step n b c) :
    Iterates Step (n + 1) a c := by
  induction h with
  | refl b => exact .step (.refl a) hs
  | step _ hs' ih => exact .step (ih hs) hs'

section Measure
variable {μ : α → Nat} {bound : Nat}
variable (hmove : ∀ a b, Step a b → μ a < μ b)
include hmove

theorem Iterates.moves {n : Nat} {a b : α} (h : Iterates Step n a b) : μ a + n ≤ μ b := by
  induction h with
  | refl a => exact Nat.le_refl _
  | step _ hs ih =>
    have hlt := hmove _ _ hs
    omega

/-- The steps come to an end. -/
theorem Iterates.exists_last (hbelow : ∀ a b, Step a b → μ a < bound) (a : α) :
    ∃ n b, n ≤ bound - μ a ∧ Iterates Step n a b ∧ ∀ c, ¬Step b c := by
  induction hn : bound - μ a using Nat.strongRecOn generalizing a with
  | ind d ih =>
    by_cases hstuck : ∃ b, Step a b
    · obtain ⟨b, hs⟩ := hstuck
      have hlt := hmove a b hs
      have hin := hbelow a b hs
      obtain ⟨n, c, hle, hrun, hlast⟩ := ih (bound - μ b) (by omega) b rfl
      exact ⟨n + 1, c, by omega, hrun.head hs, hlast⟩
    · exact ⟨0, a, Nat.zero_le _, .refl a, not_exists.mp hstuck⟩

end Measure

end Iteration
