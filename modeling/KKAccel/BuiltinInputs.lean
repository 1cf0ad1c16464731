import KKAccel.Foundation.GeneralizedVandermonde
import KKAccel.SelfCheck

/-!
# The built-in input matrices

The programs are compiled for one of nine sizes, each with a Vandermonde matrix of its own. The
algorithm is for matrices none of whose minors vanishes; matrices of powers are such, so every
division of the run succeeds, whatever the size.
-/

namespace KKAccel

open Matrix

variable {n : ℕ}

/-- The rows of `matrix_O`, by size. -/
def matrixORows : ℕ → List (List ℕ)
  | 3 =>
      [[1, 1, 1],
       [1, 2, 4],
       [1, 3, 9]]
  | 4 =>
      [[1, 1, 1, 1],
       [1, 2, 4, 8],
       [1, 3, 9, 27],
       [1, 4, 16, 64]]
  | 5 =>
      [[1, 1, 1, 1, 1],
       [1, 2, 4, 8, 16],
       [1, 3, 9, 27, 81],
       [1, 4, 16, 64, 256],
       [1, 5, 25, 125, 625]]
  | 6 =>
      [[1, 1, 1, 1, 1, 1],
       [1, 2, 4, 8, 16, 32],
       [1, 3, 9, 27, 81, 243],
       [1, 4, 16, 64, 256, 1024],
       [1, 5, 25, 125, 625, 3125],
       [1, 6, 36, 216, 1296, 7776]]
  | 7 =>
      [[1, 1, 1, 1, 1, 1, 1],
       [1, 2, 4, 8, 16, 32, 64],
       [1, 3, 9, 27, 81, 243, 729],
       [1, 4, 16, 64, 256, 1024, 4096],
       [1, 5, 25, 125, 625, 3125, 15625],
       [1, 6, 36, 216, 1296, 7776, 46656],
       [1, 7, 49, 343, 2401, 16807, 117649]]
  | 8 =>
      [[1, 1, 1, 1, 1, 1, 1, 1],
       [1, 2, 4, 8, 16, 32, 64, 128],
       [1, 3, 9, 27, 81, 243, 729, 2187],
       [1, 4, 16, 64, 256, 1024, 4096, 16384],
       [1, 5, 25, 125, 625, 3125, 15625, 78125],
       [1, 6, 36, 216, 1296, 7776, 46656, 279936],
       [1, 7, 49, 343, 2401, 16807, 117649, 823543],
       [1, 8, 64, 512, 4096, 32768, 262144, 2097152]]
  | 9 =>
      [[1, 1, 1, 1, 1, 1, 1, 1, 1],
       [1, 2, 4, 8, 16, 32, 64, 128, 256],
       [1, 3, 9, 27, 81, 243, 729, 2187, 6561],
       [1, 4, 16, 64, 256, 1024, 4096, 16384, 65536],
       [1, 5, 25, 125, 625, 3125, 15625, 78125, 390625],
       [1, 6, 36, 216, 1296, 7776, 46656, 279936, 1679616],
       [1, 7, 49, 343, 2401, 16807, 117649, 823543, 5764801],
       [1, 8, 64, 512, 4096, 32768, 262144, 2097152, 16777216],
       [1, 9, 81, 729, 6561, 59049, 531441, 4782969, 43046721]]
  | 10 =>
      [[1, 1, 1, 1, 1, 1, 1, 1, 1, 1],
       [1, 2, 4, 8, 16, 32, 64, 128, 256, 512],
       [1, 3, 9, 27, 81, 243, 729, 2187, 6561, 19683],
       [1, 4, 16, 64, 256, 1024, 4096, 16384, 65536, 262144],
       [1, 5, 25, 125, 625, 3125, 15625, 78125, 390625, 1953125],
       [1, 6, 36, 216, 1296, 7776, 46656, 279936, 1679616, 10077696],
       [1, 7, 49, 343, 2401, 16807, 117649, 823543, 5764801, 40353607],
       [1, 8, 64, 512, 4096, 32768, 262144, 2097152, 16777216, 134217728],
       [1, 9, 81, 729, 6561, 59049, 531441, 4782969, 43046721, 387420489],
       [1, 10, 100, 1000, 10000, 100000, 1000000, 10000000, 100000000, 1000000000]]
  | 11 =>
      [[1, 1, 1, 1, 1, 1, 1, 1, 1, 1, 1],
       [1, 2, 4, 8, 16, 32, 64, 128, 256, 512, 1024],
       [1, 3, 9, 27, 81, 243, 729, 2187, 6561, 19683, 59049],
       [1, 4, 16, 64, 256, 1024, 4096, 16384, 65536, 262144, 1048576],
       [1, 5, 25, 125, 625, 3125, 15625, 78125, 390625, 1953125, 9765625],
       [1, 6, 36, 216, 1296, 7776, 46656, 279936, 1679616, 10077696, 60466176],
       [1, 7, 49, 343, 2401, 16807, 117649, 823543, 5764801, 40353607, 282475249],
       [1, 8, 64, 512, 4096, 32768, 262144, 2097152, 16777216, 134217728, 1073741824],
       [1, 9, 81, 729, 6561, 59049, 531441, 4782969, 43046721, 387420489, 3486784401],
       [1, 10, 100, 1000, 10000, 100000, 1000000, 10000000, 100000000, 1000000000, 10000000000],
       [1, 11, 121, 1331, 14641, 161051, 1771561, 19487171, 214358881, 2357947691, 25937424601]]
  | _ => []

/-- The input matrix of the program of a given size. -/
def matrixO (n : ℕ) : Matrix (Fin n) (Fin n) ℚ :=
  fun i j => (((matrixORows n).getD i []).getD j 0 : ℕ)

theorem matrixORows_eq {n : ℕ} (lower : 3 ≤ n) (upper : n ≤ 11) :
    matrixORows n = (List.range n).map fun i => (List.range n).map fun j => (i + 1) ^ j := by
  obtain rfl | rfl | rfl | rfl | rfl | rfl | rfl | rfl | rfl :
      n = 3 ∨ n = 4 ∨ n = 5 ∨ n = 6 ∨ n = 7 ∨ n = 8 ∨ n = 9 ∨ n = 10 ∨ n = 11 := by
    omega
  all_goals rfl

/-- The matrix whose rows are the powers of the line numbers. -/
def vandermonde (n : ℕ) : Matrix (Fin n) (Fin n) ℚ := powers (fun i => i + 1) Fin.val

theorem matrixO_eq_vandermonde (lower : 3 ≤ n) (upper : n ≤ 11) : matrixO n = vandermonde n := by
  funext i j
  rw [matrixO, matrixORows_eq lower upper]
  simp [vandermonde, powers]

section Powers

variable {nodes : Fin n → ℚ} {exponents : Fin n → ℕ}

theorem regularBelow_powers (positive : ∀ i, 0 < nodes i)
    (distinctNodes : Function.Injective nodes) (distinctExponents : Function.Injective exponents) :
    RegularBelow (powers nodes exponents) n :=
  fun _ _ bound => cyclicMinor_powers_ne_zero positive distinctNodes distinctExponents
    (by omega)

/-- The powers of distinct positive numbers to distinct exponents, in any order, pass through every
division of the program: it ends with the inverse, calculates the identity and prints no error. -/
theorem theAlgorithm_powers (scratch : Fin 3 → Matrix (Fin n) (Fin n) ℚ) (two_le : 2 ≤ n)
    (positive : ∀ i, 0 < nodes i) (distinctNodes : Function.Injective nodes)
    (distinctExponents : Function.Injective exponents) :
    ∃ report, theAlgorithm scratch (powers nodes exponents) = .ok report ∧
      report.inverted * powers nodes exponents = 1 ∧
      powers nodes exponents * report.inverted = 1 ∧
      report.matrixIC = 1 ∧ report.error = 0 := by
  have regular := regularBelow_powers positive distinctNodes distinctExponents
  have nonsingular := det_powers_ne_zero positive distinctNodes distinctExponents
  have unit : IsUnit (powers nodes exponents).det := isUnit_iff_ne_zero.mpr nonsingular
  obtain ⟨report, executed, inverse⟩ := theAlgorithm_ok scratch two_le regular nonsingular
  refine ⟨report, executed, ?_, ?_, theAlgorithm_matrixIC_eq_one scratch two_le executed,
    theAlgorithm_error_eq_zero scratch two_le executed⟩
  · rw [inverse, nonsing_inv_mul _ unit]
  · rw [inverse, mul_nonsing_inv _ unit]

end Powers

theorem lineNumbers_injective (n : ℕ) : Function.Injective fun i : Fin n => (i : ℚ) + 1 := by
  intro i j equal
  have values : (i : ℚ) = j := add_right_cancel equal
  exact Fin.ext (by exact_mod_cast values)

/-- The program inverts the matrix which it is compiled with. -/
theorem theAlgorithm_matrixO (scratch : Fin 3 → Matrix (Fin n) (Fin n) ℚ) (lower : 3 ≤ n)
    (upper : n ≤ 11) :
    ∃ report, theAlgorithm scratch (matrixO n) = .ok report ∧
      report.inverted = (matrixO n)⁻¹ := by
  have positive (i : Fin n) : (0 : ℚ) < i + 1 := by positivity
  have distinct := lineNumbers_injective n
  rw [matrixO_eq_vandermonde lower upper]
  exact theAlgorithm_ok scratch (by omega)
    (regularBelow_powers positive distinct Fin.val_injective)
    (det_powers_ne_zero positive distinct Fin.val_injective)

/-- The program as it is compiled by default. -/
theorem theAlgorithm_powers_matrixO :
    ∃ report, theAlgorithm (fun _ => 0) (matrixO 7) = .ok report ∧
      report.inverted * matrixO 7 = 1 ∧ report.error = 0 := by
  have positive (i : Fin 7) : (0 : ℚ) < i + 1 := by positivity
  obtain ⟨report, executed, left, -, -, error⟩ :=
    theAlgorithm_powers (fun _ => 0) (by omega) positive (lineNumbers_injective 7)
      Fin.val_injective
  rw [matrixO_eq_vandermonde (by omega) (by omega)]
  exact ⟨report, executed, left, error⟩

end KKAccel
