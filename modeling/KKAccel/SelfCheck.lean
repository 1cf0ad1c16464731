import KKAccel.Inversion

/-!
# The self check

The program multiplies the calculated inverse by the input matrix and prints how far the product is
from the identity: the mean of the absolute deviations. Over exact rationals the printed distance
is zero exactly on a two-sided inverse, and it bounds every single deviation.
-/

namespace KKAccel

variable {n : ℕ}

/-- How far an entry is from the identity's. -/
def deviation (M : Matrix (Fin n) (Fin n) ℚ) (i j : Fin n) : ℚ :=
  |(1 : Matrix (Fin n) (Fin n) ℚ) i j - M i j|

/-- What `calculate_error` accumulates. -/
def totalDeviation (M : Matrix (Fin n) (Fin n) ℚ) : ℚ :=
  ∑ i, ∑ j, deviation M i j

theorem calculateError_eq (M : Matrix (Fin n) (Fin n) ℚ) :
    calculateError M = totalDeviation M / (n * n) := by
  rw [calculateError, CellLoop.foldl_foldl_add, zero_add]
  rfl

theorem deviation_nonneg (M : Matrix (Fin n) (Fin n) ℚ) (i j : Fin n) : 0 ≤ deviation M i j :=
  abs_nonneg _

theorem sum_deviation_nonneg (M : Matrix (Fin n) (Fin n) ℚ) (i : Fin n) :
    0 ≤ ∑ j, deviation M i j :=
  Finset.sum_nonneg fun j _ => deviation_nonneg M i j

theorem totalDeviation_nonneg (M : Matrix (Fin n) (Fin n) ℚ) : 0 ≤ totalDeviation M :=
  Finset.sum_nonneg fun i _ => sum_deviation_nonneg M i

theorem deviation_le_totalDeviation (M : Matrix (Fin n) (Fin n) ℚ) (i j : Fin n) :
    deviation M i j ≤ totalDeviation M := by
  calc deviation M i j
      ≤ ∑ column, deviation M i column :=
        Finset.single_le_sum (fun column _ => deviation_nonneg M i column) (Finset.mem_univ j)
    _ ≤ totalDeviation M :=
        Finset.single_le_sum (fun row _ => sum_deviation_nonneg M row) (Finset.mem_univ i)

theorem totalDeviation_eq_zero_iff (M : Matrix (Fin n) (Fin n) ℚ) :
    totalDeviation M = 0 ↔ M = 1 := by
  constructor
  · intro zero
    ext i j
    have bound := deviation_le_totalDeviation M i j
    rw [zero, deviation, abs_nonpos_iff, sub_eq_zero] at bound
    exact bound.symm
  · rintro rfl
    simp [totalDeviation, deviation]

theorem totalDeviation_eq (M : Matrix (Fin n) (Fin n) ℚ) (positive : 1 ≤ n) :
    totalDeviation M = n * n * calculateError M := by
  have count : (n : ℚ) * n ≠ 0 := by positivity
  rw [calculateError_eq, mul_div_cancel₀ _ count]

/-- The error distance is zero on the identity only. -/
theorem calculateError_eq_zero_iff (M : Matrix (Fin n) (Fin n) ℚ) (positive : 1 ≤ n) :
    calculateError M = 0 ↔ M = 1 := by
  have count : (n : ℚ) * n ≠ 0 := by positivity
  rw [← totalDeviation_eq_zero_iff, totalDeviation_eq M positive, mul_eq_zero,
    or_iff_right count]

theorem theAlgorithm_error_eq_zero (scratch : Fin 3 → Matrix (Fin n) (Fin n) ℚ)
    {A : Matrix (Fin n) (Fin n) ℚ} (two_le : 2 ≤ n) {report : Report n}
    (executed : theAlgorithm scratch A = .ok report) : report.error = 0 := by
  rw [(theAlgorithm_selfCheck scratch executed).2,
    theAlgorithm_matrixIC_eq_one scratch two_le executed, calculateError_eq_zero_iff 1 (by omega)]

/-- The printed error distance is never negative, is zero exactly when the first matrix is the
two-sided inverse of the second, and bounds the deviation of every entry of the product. -/
theorem selfCheck_faithful (X A : Matrix (Fin n) (Fin n) ℚ) (positive : 1 ≤ n) :
    0 ≤ calculateError (multiplyMatrix X A) ∧
    (calculateError (multiplyMatrix X A) = 0 ↔ X * A = 1 ∧ A * X = 1) ∧
    ∀ i j, |(X * A) i j - (1 : Matrix (Fin n) (Fin n) ℚ) i j| ≤
      n * n * calculateError (multiplyMatrix X A) := by
  rw [multiplyMatrix_eq_mul]
  refine ⟨?_, ?_, fun i j => ?_⟩
  · rw [calculateError_eq]
    exact div_nonneg (totalDeviation_nonneg _) (by positivity)
  · rw [calculateError_eq_zero_iff _ positive]
    constructor
    · intro left
      exact ⟨left, mul_eq_one_comm.mp left⟩
    · exact And.left
  · rw [← totalDeviation_eq _ positive, abs_sub_comm]
    exact deviation_le_totalDeviation (X * A) i j

/-- A shear and the opposite shear. -/
theorem selfCheck_faithful_shear :
    calculateError (multiplyMatrix !![1, -1; 0, 1] !![1, 1; 0, 1]) = 0 := by
  refine (selfCheck_faithful _ _ (by omega)).2.1.mpr ⟨?_, ?_⟩
  · ext i j
    fin_cases i <;> fin_cases j <;> simp
  · ext i j
    fin_cases i <;> fin_cases j <;> simp

end KKAccel
