import Mathlib.Algebra.GroupWithZero.Nat
import Mathlib.Data.Fin.Basic

/-!
# Three slots in rotation

A sequence in which each item is computed from the two before it needs three slots, numbered modulo
three: one for the item being computed and one for each of the two that are read.
-/

namespace Slot

/-- Numerals denote slots by an instance with a name of its own. -/
scoped instance neZero_three : NeZero 3 := ⟨Nat.succ_ne_zero 2⟩

end Slot

/-- The slot of an item of the sequence. -/
def slotOf (number : ℕ) : Fin 3 := ⟨number % 3, Nat.mod_lt _ (by decide)⟩

/-- The slot after this one, counted modulo three. -/
def nextSlot (slot : Fin 3) : Fin 3 := slot + 1

theorem slotOf_eq_one_iff {number : ℕ} : slotOf number = 1 ↔ number % 3 = 1 := Fin.ext_iff

theorem nextSlot_val (slot : Fin 3) : (nextSlot slot).val = (slot.val + 1) % 3 := by
  rw [nextSlot, Fin.val_add]
  rfl

theorem slotOf_add_one (number : ℕ) : slotOf (number + 1) = nextSlot (slotOf number) := by
  apply Fin.ext
  simp only [slotOf, nextSlot_val]
  omega

theorem slotOf_add_two (number : ℕ) :
    slotOf (number + 2) = nextSlot (nextSlot (slotOf number)) := by
  rw [← slotOf_add_one, ← slotOf_add_one]

theorem nextSlot_ne (slot : Fin 3) : nextSlot slot ≠ slot := by
  intro equality
  have value := congrArg Fin.val equality
  rw [nextSlot_val] at value
  omega

theorem nextSlot_nextSlot_ne (slot : Fin 3) : nextSlot (nextSlot slot) ≠ slot := by
  intro equality
  have value := congrArg Fin.val equality
  rw [nextSlot_val, nextSlot_val] at value
  omega

theorem nextSlot_nextSlot_nextSlot (slot : Fin 3) :
    nextSlot (nextSlot (nextSlot slot)) = slot := by
  apply Fin.ext
  simp only [nextSlot_val]
  omega

theorem slotOf_ne_slotOf_add_two (number : ℕ) : slotOf number ≠ slotOf (number + 2) := by
  rw [slotOf_add_two]
  exact (nextSlot_nextSlot_ne _).symm

theorem slotOf_add_one_ne_slotOf_add_two (number : ℕ) :
    slotOf (number + 1) ≠ slotOf (number + 2) := by
  rw [slotOf_add_one (number + 1)]
  exact (nextSlot_ne _).symm
