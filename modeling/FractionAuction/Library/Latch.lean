import Mathlib

/-!
# A flag that is raised and lowered one way at a time

A quantity is changed by steps. A step that does not lower the quantity can only raise the flag, and does so if the
new quantity is high; a step that lowers the quantity can only lower the flag, and does so unless the new quantity
is still high.
-/

namespace Latch

variable {G : Type*} [AddCommGroup G] [LinearOrder G] {high : G → Prop} {n a b : G} {flag : Prop}

/-- The flag after the step `d` from the quantity `n`. -/
def next (high : G → Prop) (n : G) (flag : Prop) (d : G) : Prop :=
  (0 ≤ d ∧ (flag ∨ high (n + d))) ∨ (d < 0 ∧ flag ∧ high (n + d))

theorem next_up (h : 0 ≤ a) : next high n flag a ↔ flag ∨ high (n + a) := by
  simp [next, h, not_lt.mpr h]

theorem next_down (h : a < 0) : next high n flag a ↔ flag ∧ high (n + a) := by
  simp [next, h, not_le.mpr h]

theorem next_comm [IsOrderedAddMonoid G] (hmono : Monotone high) :
    next high (n + a) (next high n flag a) b ↔ next high (n + b) (next high n flag b) a := by
  have hend : n + b + a = n + a + b := add_right_comm n b a
  rcases le_or_gt 0 a with ha | ha <;> rcases le_or_gt 0 b with hb | hb
  · -- both only raise it, and the last quantity is the highest
    have h₁ : high (n + a) → high (n + a + b) := hmono (le_add_of_nonneg_right hb)
    have h₂ : high (n + b) → high (n + a + b) := fun h => hend ▸ hmono (le_add_of_nonneg_right ha) h
    rw [next_up hb, next_up ha, next_up ha, next_up hb, hend]
    tauto
  · -- between a rise and a fall the flag is as the last quantity says
    have h₁ : high (n + a + b) → high (n + a) := hmono (add_le_of_nonpos_right hb.le)
    have h₂ : high (n + b) → high (n + a + b) := fun h => hend ▸ hmono (le_add_of_nonneg_right ha) h
    rw [next_down hb, next_up ha, next_up ha, next_down hb, hend]
    tauto
  · have h₁ : high (n + a) → high (n + a + b) := hmono (le_add_of_nonneg_right hb)
    have h₂ : high (n + a + b) → high (n + b) := fun h =>
      hmono (add_le_of_nonpos_right ha.le) (hend.symm ▸ h)
    rw [next_up hb, next_down ha, next_down ha, next_up hb, hend]
    tauto
  · -- both only lower it, and the last quantity is the lowest
    have h₁ : high (n + a + b) → high (n + a) := hmono (add_le_of_nonpos_right hb.le)
    have h₂ : high (n + a + b) → high (n + b) := fun h =>
      hmono (add_le_of_nonpos_right ha.le) (hend.symm ▸ h)
    rw [next_down hb, next_down ha, next_down ha, next_down hb, hend]
    tauto

end Latch
