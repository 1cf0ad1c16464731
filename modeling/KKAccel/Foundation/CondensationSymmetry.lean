import KKAccel.Foundation.Condensation

/-!
# Symmetries of condensation

A rearrangement of the positions of a matrix which respects cross differences commutes with every
step of the condensation. Rotations of the rows and columns always do, and the transposition does
when the product is commutative; no other law is needed.
-/

namespace Arith

variable {n : ℕ} {α : Type*} {arith : Arith α}

/-- The matrix whose entry at a position is taken from another position. -/
def rearrange (position : Fin n → Fin n → Fin n × Fin n) (M : Matrix (Fin n) (Fin n) α) :
    Matrix (Fin n) (Fin n) α :=
  Matrix.of fun i j => M (position i j).1 (position i j).2

@[simp]
theorem rearrange_apply (position : Fin n → Fin n → Fin n × Fin n)
    (M : Matrix (Fin n) (Fin n) α) (i j : Fin n) :
    rearrange position M i j = M (position i j).1 (position i j).2 := rfl

/-- A rearrangement of the positions under which condensation steps are the same. -/
structure Symmetry (arith : Arith α) (n : ℕ) where
  /-- Where the entry at a position is taken from. -/
  position : Fin n → Fin n → Fin n × Fin n
  surjective : ∀ i j, ∃ row column, position row column = (i, j)
  diagonal : ∀ i j, position (i.wrapAdd 1) (j.wrapAdd 1) =
    ((position i j).1.wrapAdd 1, (position i j).2.wrapAdd 1)
  crossDifference_eq : ∀ (M : Matrix (Fin n) (Fin n) α) (i j : Fin n),
    arith.crossDifference (rearrange position M) i j =
      arith.crossDifference M (position i j).1 (position i j).2

namespace Symmetry

/-- Every matrix of the sequence is rearranged as the first one is. -/
theorem condense_rearrange (symmetry : Symmetry arith n) (A : Matrix (Fin n) (Fin n) α) (m : ℕ) :
    arith.condense (rearrange symmetry.position A) m =
      rearrange symmetry.position (arith.condense A m) := by
  induction m using Nat.strong_induction_on with
  | _ m induction =>
      match m with
      | 0 => rfl
      | 1 => rfl
      | m + 2 =>
          have divisor := induction m (by omega)
          have dividend := induction (m + 1) (by omega)
          funext i j
          rw [condense_add_two, divisor, dividend, symmetry.crossDifference_eq, rearrange_apply,
            symmetry.diagonal, rearrange_apply, condense_add_two]

theorem exists_rearrange_iff (symmetry : Symmetry arith n) (M : Matrix (Fin n) (Fin n) α)
    (property : α → Prop) :
    (∃ i j, property (rearrange symmetry.position M i j)) ↔ ∃ i j, property (M i j) := by
  constructor
  · rintro ⟨i, j, holds⟩
    exact ⟨_, _, holds⟩
  · rintro ⟨i, j, holds⟩
    obtain ⟨row, column, source⟩ := symmetry.surjective i j
    refine ⟨row, column, ?_⟩
    rw [rearrange_apply, source]
    exact holds

/-- Exchange of rows and columns. -/
def transposition (mul_comm : ∀ x y, arith.mul x y = arith.mul y x) : Symmetry arith n where
  position i j := (j, i)
  surjective i j := ⟨j, i, rfl⟩
  diagonal _ _ := rfl
  crossDifference_eq M i j := by
    simp only [crossDifference, rearrange_apply]
    rw [mul_comm (M j (i.wrapAdd 1))]

/-- Rotation of the rows and of the columns. -/
def rotation (arith : Arith α) (rows columns : ℕ) : Symmetry arith n where
  position i j := (i.wrapAdd rows, j.wrapAdd columns)
  surjective i j := by
    obtain ⟨row, rfl⟩ := Fin.wrapAdd_surjective rows i
    obtain ⟨column, rfl⟩ := Fin.wrapAdd_surjective columns j
    exact ⟨row, column, rfl⟩
  diagonal i j := by
    simp only [Fin.wrapAdd_wrapAdd, Nat.add_comm 1]
  crossDifference_eq M i j := by
    simp only [crossDifference, rearrange_apply, Fin.wrapAdd_wrapAdd, Nat.add_comm 1]

theorem rearrange_transposition (mul_comm : ∀ x y, arith.mul x y = arith.mul y x)
    (M : Matrix (Fin n) (Fin n) α) :
    rearrange (transposition mul_comm).position M = M.transpose := rfl

end Symmetry

end Arith
