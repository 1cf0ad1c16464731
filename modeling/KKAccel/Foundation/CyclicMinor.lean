import Mathlib.GroupTheory.Perm.Fin
import Mathlib.LinearAlgebra.Matrix.MvPolynomial
import Mathlib.LinearAlgebra.Matrix.Adjugate
import Mathlib.LinearAlgebra.Matrix.NonsingularInverse
import KKAccel.Foundation.DesnanotJacobi

/-!
# Cyclic contiguous minors

A cyclic contiguous minor of order `m` takes `m` consecutive rows and `m` consecutive columns,
wrapping around both edges of a square matrix. Consecutive orders satisfy the condensation
identity, the full order is the determinant up to the sign of two rotations, and the two highest
orders determine the inverse.
-/

namespace Fin

variable {n : ℕ}

/-- The index `distance` places after `i`, counted modulo the size. -/
def wrapAdd (i : Fin n) (distance : ℕ) : Fin n :=
  ⟨(i + distance) % n, Nat.mod_lt _ i.pos⟩

@[simp]
theorem wrapAdd_zero (i : Fin n) : i.wrapAdd 0 = i := by
  apply Fin.ext
  simp [wrapAdd, Nat.mod_eq_of_lt i.isLt]

@[simp]
theorem wrapAdd_wrapAdd (i : Fin n) (first second : ℕ) :
    (i.wrapAdd first).wrapAdd second = i.wrapAdd (first + second) := by
  apply Fin.ext
  simp [wrapAdd, Nat.add_assoc]

theorem wrapAdd_one (i : Fin n) : i.wrapAdd 1 = finRotate n i := by
  obtain ⟨size, rfl⟩ := Nat.exists_eq_succ_of_ne_zero i.pos.ne'
  apply Fin.ext
  simp [wrapAdd, Fin.val_add]

theorem wrapAdd_eq_pow_finRotate (i : Fin n) (distance : ℕ) :
    i.wrapAdd distance = (finRotate n ^ distance) i := by
  induction distance with
  | zero => simp
  | succ distance induction =>
      rw [← wrapAdd_wrapAdd, wrapAdd_one, induction, pow_succ', Equiv.Perm.mul_apply]

theorem wrapAdd_surjective (distance : ℕ) :
    Function.Surjective fun i : Fin n => i.wrapAdd distance := by
  intro i
  refine ⟨(finRotate n ^ distance).symm i, ?_⟩
  simp [wrapAdd_eq_pow_finRotate]

theorem wrapAdd_comm (i j : Fin n) : i.wrapAdd j = j.wrapAdd i := by
  apply Fin.ext
  simp [wrapAdd, Nat.add_comm]

end Fin

namespace Matrix

variable {n : ℕ} {R S K : Type*} [CommRing R] [CommRing S] [Field K]

/-- Rows `i, …, i + m - 1` and columns `j, …, j + m - 1`, taken modulo the size in that order. -/
def cyclicSubmatrix {α : Type*} (A : Matrix (Fin n) (Fin n) α) (m : ℕ) (i j : Fin n) :
    Matrix (Fin m) (Fin m) α :=
  A.submatrix (fun a => i.wrapAdd a) fun b => j.wrapAdd b

/-- The determinant of a cyclic contiguous submatrix. -/
def cyclicMinor (A : Matrix (Fin n) (Fin n) R) (m : ℕ) (i j : Fin n) : R :=
  (A.cyclicSubmatrix m i j).det

@[simp]
theorem cyclicMinor_zero (A : Matrix (Fin n) (Fin n) R) (i j : Fin n) :
    A.cyclicMinor 0 i j = 1 := by
  simp [cyclicMinor]

@[simp]
theorem cyclicMinor_one (A : Matrix (Fin n) (Fin n) R) (i j : Fin n) :
    A.cyclicMinor 1 i j = A i j := by
  simp [cyclicMinor, cyclicSubmatrix]

theorem map_cyclicMinor (f : R →+* S) (A : Matrix (Fin n) (Fin n) R) (m : ℕ) (i j : Fin n) :
    f (A.cyclicMinor m i j) = (A.map f).cyclicMinor m i j := by
  rw [cyclicMinor, RingHom.map_det]
  rfl

section Condensation

variable (A : Matrix (Fin n) (Fin n) R) (m : ℕ) (i j : Fin n)

private theorem northWest_cyclicSubmatrix :
    (A.cyclicSubmatrix (m + 1) i j).northWest = A.cyclicMinor m i j := rfl

private theorem northEast_cyclicSubmatrix :
    (A.cyclicSubmatrix (m + 1) i j).northEast = A.cyclicMinor m i (j.wrapAdd 1) := by
  simp [northEast, cyclicMinor, cyclicSubmatrix, Function.comp_def, Nat.add_comm]

private theorem southWest_cyclicSubmatrix :
    (A.cyclicSubmatrix (m + 1) i j).southWest = A.cyclicMinor m (i.wrapAdd 1) j := by
  simp [southWest, cyclicMinor, cyclicSubmatrix, Function.comp_def, Nat.add_comm]

private theorem southEast_cyclicSubmatrix :
    (A.cyclicSubmatrix (m + 1) i j).southEast =
      A.cyclicMinor m (i.wrapAdd 1) (j.wrapAdd 1) := by
  simp [southEast, cyclicMinor, cyclicSubmatrix, Function.comp_def, Nat.add_comm]

private theorem interior_cyclicSubmatrix :
    (A.cyclicSubmatrix (m + 2) i j).interior =
      A.cyclicMinor m (i.wrapAdd 1) (j.wrapAdd 1) := by
  simp [interior, cyclicMinor, cyclicSubmatrix, Function.comp_def, Nat.add_comm]

/-- Condensation: minors of one order are the two-by-two minors of the order below, divided by
the order below that. -/
theorem cyclicMinor_mul_cyclicMinor :
    A.cyclicMinor (m + 2) i j * A.cyclicMinor m (i.wrapAdd 1) (j.wrapAdd 1) =
      A.cyclicMinor (m + 1) i j * A.cyclicMinor (m + 1) (i.wrapAdd 1) (j.wrapAdd 1) -
        A.cyclicMinor (m + 1) (i.wrapAdd 1) j * A.cyclicMinor (m + 1) i (j.wrapAdd 1) := by
  have identity := det_mul_interior (A.cyclicSubmatrix (m + 2) i j)
  rwa [interior_cyclicSubmatrix, northWest_cyclicSubmatrix, northEast_cyclicSubmatrix,
    southWest_cyclicSubmatrix, southEast_cyclicSubmatrix] at identity

end Condensation

theorem cyclicSubmatrix_size {α : Type*} (A : Matrix (Fin n) (Fin n) α) (i j : Fin n) :
    A.cyclicSubmatrix n i j =
      A.submatrix (finRotate n ^ (i : ℕ)) (finRotate n ^ (j : ℕ)) := by
  funext a b
  rw [submatrix_apply, ← Fin.wrapAdd_eq_pow_finRotate, ← Fin.wrapAdd_eq_pow_finRotate,
    Fin.wrapAdd_comm a, Fin.wrapAdd_comm b]
  rfl

/-- Each of the two rotations contributes the sign of a full cycle. -/
theorem cyclicMinor_size (A : Matrix (Fin n) (Fin n) R) (i j : Fin n) :
    A.cyclicMinor n i j = (-1) ^ ((n - 1) * (i + j)) * A.det := by
  have rows := det_permute (finRotate n ^ (i : ℕ))
    (A.submatrix id (finRotate n ^ (j : ℕ) : Equiv.Perm (Fin n)))
  rw [det_permute', submatrix_submatrix, Function.id_comp, Function.comp_id] at rows
  rw [cyclicMinor, cyclicSubmatrix_size, rows, map_pow, map_pow, sign_finRotate]
  push_cast
  rw [← mul_assoc, ← pow_mul, ← pow_mul, ← pow_add, ← mul_add]

theorem cyclicMinor_size_comm (A : Matrix (Fin n) (Fin n) R) (i j : Fin n) :
    A.cyclicMinor n i j = A.cyclicMinor n j i := by
  rw [cyclicMinor_size, cyclicMinor_size, Nat.add_comm]

theorem cyclicMinor_size_eq_zero_iff [IsDomain R] (A : Matrix (Fin n) (Fin n) R) (i j : Fin n) :
    A.cyclicMinor n i j = 0 ↔ A.det = 0 := by
  simp [cyclicMinor_size]

/-- The inverse entry at `(i, j)` comes from the minor that leaves out row `j` and column `i`. -/
theorem inv_apply_eq_cyclicMinor_div (A : Matrix (Fin n) (Fin n) K) (i j : Fin n) :
    A⁻¹ i j = A.cyclicMinor (n - 1) (j.wrapAdd 1) (i.wrapAdd 1) / A.cyclicMinor n i j := by
  obtain ⟨size, rfl⟩ := Nat.exists_eq_succ_of_ne_zero i.pos.ne'
  -- Rotating row `j` and column `i` to the front turns the entry into the corner of an inverse.
  have corner : (A.cyclicSubmatrix (size + 1) j i)⁻¹ 0 0 = A⁻¹ i j := by
    rw [cyclicSubmatrix_size, inv_submatrix_equiv, submatrix_apply,
      ← Fin.wrapAdd_eq_pow_finRotate, ← Fin.wrapAdd_eq_pow_finRotate, Fin.wrapAdd_comm 0 i,
      Fin.wrapAdd_comm 0 j]
    simp
  rw [← corner, inv_def, smul_apply, adjugate_fin_succ_eq_det_submatrix, cyclicMinor_size_comm,
    div_eq_inv_mul, Nat.succ_sub_one, ← southEast_cyclicSubmatrix]
  simp [southEast, cyclicMinor]

end Matrix
