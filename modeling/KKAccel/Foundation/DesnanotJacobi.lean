import Mathlib.LinearAlgebra.Matrix.Adjugate
import Mathlib.LinearAlgebra.Matrix.MvPolynomial

/-!
# The Desnanot–Jacobi identity

Over any commutative ring, the determinant of a square matrix times its inner minor is the
two-by-two determinant of its four corner minors. The proof computes one two-by-two block of the
adjugate twice and cancels the determinant over the generic matrix.
-/

namespace Matrix

section Complementary

variable {ι κ R : Type*} [Fintype ι] [DecidableEq ι] [Fintype κ] [DecidableEq κ] [CommRing R]

private theorem mul_fromBlocks_of_mul_eq_smul {M N : Matrix (ι ⊕ κ) (ι ⊕ κ) R} {scale : R}
    (product : M * N = scale • 1) :
    M * fromBlocks 1 N.toBlocks₁₂ 0 N.toBlocks₂₂ =
      fromBlocks M.toBlocks₁₁ 0 M.toBlocks₂₁ (scale • 1) := by
  rw [← fromBlocks_toBlocks M, ← fromBlocks_toBlocks N, fromBlocks_multiply, ← fromBlocks_one,
    fromBlocks_smul] at product
  obtain ⟨-, upper, -, lower⟩ := fromBlocks_inj.mp product
  conv_lhs => rw [← fromBlocks_toBlocks M]
  rw [fromBlocks_multiply, upper, lower]
  simp

/-- Jacobi's complementary minor identity, multiplied through by the determinant. -/
private theorem det_mul_det_adjugate_block (M : Matrix (ι ⊕ κ) (ι ⊕ κ) R) :
    M.det * M.adjugate.toBlocks₂₂.det = M.toBlocks₁₁.det * M.det ^ Fintype.card κ := by
  have product := congrArg det (mul_fromBlocks_of_mul_eq_smul (mul_adjugate M))
  rw [det_mul, det_fromBlocks_zero₂₁, det_fromBlocks_zero₁₂, det_one, one_mul, det_smul, det_one,
    mul_one] at product
  exact product

end Complementary

section Frame

variable {R S : Type*} [CommRing R] [CommRing S] {m : ℕ}

/-- The minor without the last row and the last column. -/
def northWest (M : Matrix (Fin (m + 1)) (Fin (m + 1)) R) : R :=
  (M.submatrix Fin.castSucc Fin.castSucc).det

/-- The minor without the last row and the first column. -/
def northEast (M : Matrix (Fin (m + 1)) (Fin (m + 1)) R) : R :=
  (M.submatrix Fin.castSucc Fin.succ).det

/-- The minor without the first row and the last column. -/
def southWest (M : Matrix (Fin (m + 1)) (Fin (m + 1)) R) : R :=
  (M.submatrix Fin.succ Fin.castSucc).det

/-- The minor without the first row and the first column. -/
def southEast (M : Matrix (Fin (m + 1)) (Fin (m + 1)) R) : R :=
  (M.submatrix Fin.succ Fin.succ).det

/-- The minor without the first and the last row and column. -/
def interior (M : Matrix (Fin (m + 2)) (Fin (m + 2)) R) : R :=
  (M.submatrix (fun a : Fin m => a.castSucc.succ) fun a => a.castSucc.succ).det

/-- The inner indices on the left, the first and the last index on the right. -/
def frameEquiv (m : ℕ) : Fin m ⊕ Fin 2 ≃ Fin (m + 2) where
  toFun := Sum.elim (fun a => a.castSucc.succ) ![0, Fin.last (m + 1)]
  invFun := Fin.cases (.inr 0) (Fin.lastCases (.inr 1) .inl)
  left_inv := by
    rintro (a | a)
    · simp
    · fin_cases a
      · simp
      · simp [← Fin.succ_last]
  right_inv := by
    intro a
    refine Fin.cases ?_ (fun a => ?_) a
    · simp
    · refine Fin.lastCases ?_ (fun a => ?_) a
      · simp [← Fin.succ_last]
      · simp

omit [CommRing R] in
private theorem toBlocks₂₂_apply (M : Matrix (Fin m ⊕ Fin 2) (Fin m ⊕ Fin 2) R) (a b : Fin 2) :
    M.toBlocks₂₂ a b = M (.inr a) (.inr b) := rfl

/-- The corner entries of the adjugate are the corner minors; the two signs off the diagonal
cancel in the product. -/
private theorem det_adjugate_corners (M : Matrix (Fin (m + 2)) (Fin (m + 2)) R) :
    (M.submatrix (frameEquiv m) (frameEquiv m)).adjugate.toBlocks₂₂.det =
      M.northWest * M.southEast - M.southWest * M.northEast := by
  rw [adjugate_submatrix_equiv_self, det_fin_two]
  simp [toBlocks₂₂_apply, frameEquiv, adjugate_fin_succ_eq_det_submatrix, northWest, northEast,
    southWest, southEast]
  rw [mul_mul_mul_comm, ← mul_pow, neg_one_mul, neg_neg, one_pow]
  ring

private theorem det_mul_desnanot_jacobi (M : Matrix (Fin (m + 2)) (Fin (m + 2)) R) :
    M.det * (M.det * M.interior) =
      M.det * (M.northWest * M.southEast - M.southWest * M.northEast) := by
  have complementary := det_mul_det_adjugate_block (M.submatrix (frameEquiv m) (frameEquiv m))
  rw [det_adjugate_corners, det_submatrix_equiv_self] at complementary
  rw [complementary, Fintype.card_fin, pow_two, mul_comm _ (M.det * M.det), mul_assoc]
  rfl

private theorem map_det_submatrix {ι κ : Type*} [Fintype κ] [DecidableEq κ] (f : R →+* S)
    (M : Matrix ι ι R) (rows cols : κ → ι) :
    f (M.submatrix rows cols).det = ((M.map f).submatrix rows cols).det := by
  rw [RingHom.map_det]
  rfl

/-- The Desnanot–Jacobi identity: the determinant times the inner minor is the determinant of the
two-by-two matrix of corner minors. -/
theorem det_mul_interior (M : Matrix (Fin (m + 2)) (Fin (m + 2)) R) :
    M.det * M.interior = M.northWest * M.southEast - M.southWest * M.northEast := by
  -- Cancel the determinant of the generic matrix, then specialise its entries.
  let generic := mvPolynomialX (Fin (m + 2)) (Fin (m + 2)) ℤ
  let evaluate := MvPolynomial.eval₂Hom (Int.castRingHom R)
    fun p : Fin (m + 2) × Fin (m + 2) => M p.1 p.2
  have entries : generic.map evaluate = M := mvPolynomialX_map_eval₂ _ M
  have identity := mul_left_cancel₀ (det_mvPolynomialX_ne_zero (Fin (m + 2)) ℤ)
    (det_mul_desnanot_jacobi generic)
  have specialised := congrArg evaluate identity
  have whole : evaluate generic.det = M.det := by
    rw [RingHom.map_det, RingHom.mapMatrix_apply, entries]
  simpa only [interior, northWest, northEast, southWest, southEast, map_mul, map_sub, whole,
    map_det_submatrix, entries] using specialised

end Frame

end Matrix
