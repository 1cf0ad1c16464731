import KKAccel.KKIterations
import Mathlib.LinearAlgebra.Matrix.Notation
import Mathlib.Tactic.FinCases

/-!
# Inversion of rational matrices

Over exact rationals the scratchpad holds cyclic contiguous minors. The program therefore inverts
exactly the nonsingular matrices whose minors of orders `1, …, N - 2` do not vanish, and otherwise
stops at the first order that vanishes, or in the final iteration on a singular matrix.
-/

namespace KKAccel

open Arith

variable {n : ℕ} {A : Matrix (Fin n) (Fin n) ℚ}

/-- The minors which the KK iterations divide by do not vanish. -/
def RegularBelow (A : Matrix (Fin n) (Fin n) ℚ) (bound : ℕ) : Prop :=
  ∀ order, 1 ≤ order → order + 2 ≤ bound → Regular A order

theorem RegularBelow.mono {small large : ℕ} (regular : RegularBelow A large)
    (smaller : small ≤ large) : RegularBelow A small :=
  fun order positive bound => regular order positive (bound.trans smaller)

theorem soundDivisors_exact_iff {k : ℕ} (regular : RegularBelow A k) :
    SoundDivisors (exact ℚ) isZero A k ↔ Regular A k := by
  simp [SoundDivisors, Regular, isZero, condense_exact A k regular]

theorem soundDivisors_of_regularBelow {count k : ℕ} (regular : RegularBelow A (count + 1))
    (bound : k < count) : SoundDivisors (exact ℚ) isZero A k := by
  rw [soundDivisors_exact_iff (regular.mono (by omega))]
  rcases Nat.eq_zero_or_pos k with rfl | positive
  · exact regular_zero A
  · exact regular k positive (by omega)

theorem Iterated.curr_minor {k : ℕ} {pad : Pad n ℚ} (iterated : Iterated (exact ℚ) A k pad)
    (regular : RegularBelow A (k + 1)) (i j : Fin n) :
    pad.matrixK pad.curr i j = A.cyclicMinor (k + 1) i j := by
  rw [iterated.curr_eq, condense_exact A (k + 1) regular]

theorem Iterated.prev_minor {k : ℕ} {pad : Pad n ℚ} (iterated : Iterated (exact ℚ) A k pad)
    (regular : RegularBelow A (k + 1)) (positive : 0 < k) (i j : Fin n) :
    pad.matrixK pad.prev i j = A.cyclicMinor k i j := by
  rw [iterated.prev_eq positive, condense_exact A k (regular.mono (Nat.le_succ k))]

/-- After `m - 1` iterations `matrix_K[curr]` holds the cyclic contiguous minors of order `m` and
`matrix_K[prev]` those of order `m - 1`; after all of them `matrix_K[curr]` is the determinant up
to the sign of the rotations. -/
theorem kkLoop_cyclicMinor (scratch : Fin 3 → Matrix (Fin n) (Fin n) ℚ)
    (A : Matrix (Fin n) (Fin n) ℚ) (two_le : 2 ≤ n) :
    (∀ m, 1 ≤ m → m ≤ n → (∀ order, 1 ≤ order → order ≤ m - 2 → Regular A order) →
      ∃ start pad, transferMatrix A (Pad.initial scratch) = .ok start ∧
        kkLoop (exact ℚ) isZero (m - 1) start = .ok pad ∧
        (∀ i j, pad.matrixK pad.curr i j = A.cyclicMinor m i j) ∧
        (2 ≤ m → ∀ i j, pad.matrixK pad.prev i j = A.cyclicMinor (m - 1) i j)) ∧
    ((∀ order, 1 ≤ order → order ≤ n - 2 → Regular A order) →
      ∃ pad, transferAndIterate (exact ℚ) isZero scratch A = .ok pad ∧
        (∀ i j : Fin n,
          pad.matrixK pad.curr i j = (-1) ^ ((n - 1) * ((i : ℕ) + (j : ℕ))) * A.det) ∧
        pad.matrixK pad.curr ⟨0, by omega⟩ ⟨0, by omega⟩ = A.det) := by
  constructor
  · intro m positive _ nonvanishing
    obtain ⟨k, rfl⟩ := Nat.exists_eq_succ_of_ne_zero (Nat.ne_of_gt positive)
    have regular : RegularBelow A (k + 1) := fun order lower upper =>
      nonvanishing order lower (by omega)
    obtain ⟨start, transferred, initially⟩ := transferMatrix_iterated (exact ℚ) A scratch
    obtain ⟨pad, executed, holds⟩ := initially.loop k fun order bound =>
      soundDivisors_of_regularBelow regular bound
    exact ⟨start, pad, transferred, executed, holds.curr_minor regular,
      fun two_le_m => holds.prev_minor regular (by omega)⟩
  · intro nonvanishing
    have size : n - 1 + 1 = n := by omega
    have regular : RegularBelow A (n - 1 + 1) := fun order lower upper =>
      nonvanishing order lower (by omega)
    obtain ⟨pad, executed, holds⟩ := transferAndIterate_ok scratch fun order bound =>
      soundDivisors_of_regularBelow regular bound
    have determinant (i j : Fin n) :
        pad.matrixK pad.curr i j = (-1) ^ ((n - 1) * ((i : ℕ) + (j : ℕ))) * A.det := by
      rw [holds.curr_minor regular, size, Matrix.cyclicMinor_size]
    refine ⟨pad, executed, determinant, ?_⟩
    rw [determinant]
    simp

/-- The `3 x 3` input matrix of the program. -/
def vandermonde3 : Matrix (Fin 3) (Fin 3) ℚ :=
  !![1, 1, 1; 1, 2, 4; 1, 3, 9]

theorem vandermonde3_regular (order : ℕ) (positive : 1 ≤ order) (bound : order ≤ 3 - 2) :
    Regular vandermonde3 order := by
  obtain rfl : order = 1 := by omega
  intro i j
  rw [Matrix.cyclicMinor_one]
  fin_cases i <;> fin_cases j <;> simp [vandermonde3]

theorem kkLoop_cyclicMinor_vandermonde3 :
    ∃ pad, transferAndIterate (exact ℚ) isZero (fun _ => 0) vandermonde3 = .ok pad ∧
      pad.matrixK pad.curr 0 0 = vandermonde3.det := by
  obtain ⟨pad, executed, -, determinant⟩ :=
    (kkLoop_cyclicMinor (fun _ => 0) vandermonde3 (by omega)).2 vandermonde3_regular
  exact ⟨pad, executed, determinant⟩

theorem multiplyMatrix_eq_mul (A B : Matrix (Fin n) (Fin n) ℚ) : multiplyMatrix A B = A * B := by
  ext i j
  rw [multiplyMatrix, CellLoop.foldl_add, zero_add, Matrix.mul_apply]

/-- The quotients of the two highest orders of minors are the entries of the inverse. -/
theorem finalQuotient_eq_inv {prev curr : Matrix (Fin n) (Fin n) ℚ}
    (prev_eq : ∀ i j, prev i j = A.cyclicMinor (n - 1) i j)
    (curr_eq : ∀ i j, curr i j = A.cyclicMinor n i j) :
    finalQuotient (exact ℚ) prev curr = A⁻¹ := by
  funext i j
  rw [Matrix.inv_apply_eq_cyclicMinor_div, finalQuotient, prev_eq, curr_eq]
  rfl

section Outcomes

variable (scratch : Fin 3 → Matrix (Fin n) (Fin n) ℚ)

private theorem theAlgorithm_of_invertMatrix_error {fault : DivFault n}
    (stopped : invertMatrix (exact ℚ) isZero scratch A = .error fault) :
    theAlgorithm scratch A = .error fault := by
  rw [theAlgorithm, stopped]
  rfl

private theorem regularBelow_size (two_le : 2 ≤ n) (regular : RegularBelow A n) :
    RegularBelow A (n - 1 + 1) := by
  rwa [Nat.sub_add_cancel (by omega)]

/-- The loop completes when none of its divisors vanishes. -/
theorem iterations_complete (two_le : 2 ≤ n) (regular : RegularBelow A n) :
    ∃ pad, transferAndIterate (exact ℚ) isZero scratch A = .ok pad ∧ pad.Rotating ∧
      (∀ i j, pad.matrixK pad.prev i j = A.cyclicMinor (n - 1) i j) ∧
      ∀ i j, pad.matrixK pad.curr i j = A.cyclicMinor n i j := by
  have regular' := regularBelow_size two_le regular
  obtain ⟨pad, executed, holds⟩ := transferAndIterate_ok scratch fun order bound =>
    soundDivisors_of_regularBelow regular' bound
  refine ⟨pad, executed, holds.rotating, holds.prev_minor regular' (by omega), fun i j => ?_⟩
  rw [holds.curr_minor regular', Nat.sub_add_cancel (by omega)]

theorem theAlgorithm_ok (two_le : 2 ≤ n) (regular : RegularBelow A n) (nonsingular : A.det ≠ 0) :
    ∃ report, theAlgorithm scratch A = .ok report ∧ report.inverted = A⁻¹ := by
  obtain ⟨pad, executed, rotating, prev_eq, curr_eq⟩ :=
    iterations_complete scratch two_le regular
  have sound (i j : Fin n) : isZero (pad.matrixK pad.curr i j) = false := by
    simpa [isZero, curr_eq, Matrix.cyclicMinor_size_eq_zero_iff] using nonsingular
  have inverted : invertMatrix (exact ℚ) isZero scratch A =
      .ok (pad.replace pad.next A⁻¹) := by
    rw [invertMatrix, executed, ← finalQuotient_eq_inv prev_eq curr_eq]
    exact finalIteration_ok rotating sound
  refine ⟨_, by rw [theAlgorithm, inverted]; rfl, ?_⟩
  exact Pad.replace_matrixK_self pad pad.next A⁻¹

/-- The first order with a vanishing minor is the iteration in which the loop stops. -/
theorem iterations_fault {m : ℕ} (bound : m ≤ n - 2)
    (regular : ∀ order, 1 ≤ order → order < m → Regular A order)
    (positive : 1 ≤ m) (vanishing : ∃ i j, A.cyclicMinor m i j = 0) :
    ∃ i j, transferAndIterate (exact ℚ) isZero scratch A = .error (.iteration m i j) := by
  have below : RegularBelow A m := fun order lower upper => regular order lower (by omega)
  have sound (k : ℕ) (earlier : k < m) : SoundDivisors (exact ℚ) isZero A k :=
    soundDivisors_of_regularBelow (fun order lower upper => regular order lower (by omega)) earlier
  have unsound : ¬ SoundDivisors (exact ℚ) isZero A m := by
    rw [soundDivisors_exact_iff below]
    obtain ⟨i, j, zero⟩ := vanishing
    exact fun nonvanishing => nonvanishing i j zero
  exact transferAndIterate_fault scratch (by omega) sound unsound

theorem theAlgorithm_iteration_fault {m : ℕ} (positive : 1 ≤ m) (bound : m ≤ n - 2)
    (regular : ∀ order, 1 ≤ order → order < m → Regular A order)
    (vanishing : ∃ i j, A.cyclicMinor m i j = 0) :
    ∃ i j, theAlgorithm scratch A = .error (.iteration m i j) := by
  obtain ⟨i, j, stopped⟩ := iterations_fault scratch bound regular positive vanishing
  refine ⟨i, j, theAlgorithm_of_invertMatrix_error scratch ?_⟩
  rw [invertMatrix, stopped]
  rfl

/-- On a singular matrix whose loop completes, every divisor of the final iteration is zero. -/
theorem theAlgorithm_final_fault (two_le : 2 ≤ n) (regular : RegularBelow A n)
    (singular : A.det = 0) :
    ∃ pad, transferAndIterate (exact ℚ) isZero scratch A = .ok pad ∧
      (∀ i j, pad.matrixK pad.curr i j = 0) ∧
      ∃ i j, theAlgorithm scratch A = .error (.final i j) := by
  obtain ⟨pad, executed, rotating, -, curr_eq⟩ := iterations_complete scratch two_le regular
  have zero (i j : Fin n) : pad.matrixK pad.curr i j = 0 := by
    rw [curr_eq, Matrix.cyclicMinor_size_eq_zero_iff]
    exact singular
  have unsound : ∃ i j, isZero (pad.matrixK pad.curr i j) = true :=
    ⟨⟨0, by omega⟩, ⟨0, by omega⟩, by simp [isZero, zero]⟩
  obtain ⟨i, j, stopped⟩ := @finalIteration_fault _ _ (exact ℚ) isZero _ rotating unsound
  refine ⟨pad, executed, zero, i, j, theAlgorithm_of_invertMatrix_error scratch ?_⟩
  rw [invertMatrix, executed]
  exact stopped

/-- Either the loop completes, or there is a first order whose minors it cannot divide by. -/
theorem regularBelow_or_first (A : Matrix (Fin n) (Fin n) ℚ) :
    RegularBelow A n ∨
      ∃ m, 1 ≤ m ∧ m ≤ n - 2 ∧ (∀ order, 1 ≤ order → order < m → Regular A order) ∧
        ∃ i j, A.cyclicMinor m i j = 0 := by
  classical
  by_cases irregular : ∃ m, 1 ≤ m ∧ m + 2 ≤ n ∧ ¬ Regular A m
  · right
    obtain ⟨positive, bound, vanishing⟩ := Nat.find_spec irregular
    refine ⟨Nat.find irregular, positive, by omega, ?_, ?_⟩
    · intro order lower earlier
      by_contra irregularOrder
      exact Nat.find_min irregular earlier ⟨lower, by omega, irregularOrder⟩
    · simpa [Regular] using vanishing
  · left
    intro order positive bound
    by_contra irregularOrder
    exact irregular ⟨order, positive, bound, irregularOrder⟩

theorem regularBelow_of_iterations {pad : Pad n ℚ}
    (executed : transferAndIterate (exact ℚ) isZero scratch A = .ok pad) : RegularBelow A n := by
  rcases regularBelow_or_first A with regular | ⟨m, positive, bound, below, vanishing⟩
  · exact regular
  · obtain ⟨i, j, stopped⟩ := iterations_fault scratch bound below positive vanishing
    rw [executed] at stopped
    contradiction

theorem theAlgorithm_ok_iff (two_le : 2 ≤ n) :
    (∃ report, theAlgorithm scratch A = .ok report) ↔ RegularBelow A n ∧ A.det ≠ 0 := by
  constructor
  · rintro ⟨report, executed⟩
    rcases regularBelow_or_first A with regular | ⟨m, positive, bound, below, vanishing⟩
    · refine ⟨regular, fun singular => ?_⟩
      obtain ⟨-, -, -, i, j, stopped⟩ := theAlgorithm_final_fault scratch two_le regular singular
      rw [executed] at stopped
      contradiction
    · obtain ⟨i, j, stopped⟩ := theAlgorithm_iteration_fault scratch positive bound below vanishing
      rw [executed] at stopped
      contradiction
  · rintro ⟨regular, nonsingular⟩
    obtain ⟨report, executed, -⟩ := theAlgorithm_ok scratch two_le regular nonsingular
    exact ⟨report, executed⟩

theorem theAlgorithm_inverted (two_le : 2 ≤ n) {report : Report n}
    (executed : theAlgorithm scratch A = .ok report) :
    IsUnit A.det ∧ report.inverted = A⁻¹ := by
  obtain ⟨regular, nonsingular⟩ := (theAlgorithm_ok_iff scratch two_le).mp ⟨report, executed⟩
  obtain ⟨report', executed', inverse⟩ := theAlgorithm_ok scratch two_le regular nonsingular
  obtain rfl : report = report' := by
    rw [executed] at executed'
    exact Except.ok.inj executed'
  exact ⟨isUnit_iff_ne_zero.mpr nonsingular, inverse⟩

theorem theAlgorithm_selfCheck {report : Report n}
    (executed : theAlgorithm scratch A = .ok report) :
    report.matrixIC = report.inverted * A ∧ report.error = calculateError report.matrixIC := by
  rw [theAlgorithm] at executed
  cases inverted : invertMatrix (exact ℚ) isZero scratch A with
  | error fault =>
      rw [inverted] at executed
      contradiction
  | ok pad =>
      rw [inverted] at executed
      obtain rfl := Except.ok.inj executed
      exact ⟨multiplyMatrix_eq_mul _ A, rfl⟩

theorem theAlgorithm_matrixIC_eq_one (two_le : 2 ≤ n) {report : Report n}
    (executed : theAlgorithm scratch A = .ok report) : report.matrixIC = 1 := by
  obtain ⟨unit, inverse⟩ := theAlgorithm_inverted scratch two_le executed
  rw [(theAlgorithm_selfCheck scratch executed).1, inverse, Matrix.nonsing_inv_mul A unit]

end Outcomes

/-- Whenever no division meets a zero divisor, `matrix_K[next]` is the two-sided inverse. -/
theorem theAlgorithm_inverts (scratch : Fin 3 → Matrix (Fin n) (Fin n) ℚ)
    (A : Matrix (Fin n) (Fin n) ℚ) (two_le : 2 ≤ n) {report : Report n}
    (executed : theAlgorithm scratch A = .ok report) :
    report.inverted * A = 1 ∧ A * report.inverted = 1 := by
  obtain ⟨unit, inverse⟩ := theAlgorithm_inverted scratch two_le executed
  rw [inverse]
  exact ⟨Matrix.nonsing_inv_mul A unit, Matrix.mul_nonsing_inv A unit⟩

theorem theAlgorithm_inverts_vandermonde3 :
    ∃ report, theAlgorithm (fun _ => 0) vandermonde3 = .ok report ∧
      report.inverted * vandermonde3 = 1 ∧ vandermonde3 * report.inverted = 1 := by
  have regular : RegularBelow vandermonde3 3 := fun order positive bound =>
    vandermonde3_regular order positive (by omega)
  have nonsingular : vandermonde3.det ≠ 0 := by
    simp [vandermonde3, Matrix.det_fin_three]
    norm_num
  obtain ⟨report, executed, -⟩ := theAlgorithm_ok (fun _ => 0) (by omega) regular nonsingular
  exact ⟨report, executed, theAlgorithm_inverts (fun _ => 0) vandermonde3 (by omega) executed⟩

/-- The program fails exactly on singular matrices and on matrices with a vanishing minor of an
order in `1, …, N - 2`; it stops in the iteration of the first such order, and in the final
iteration, where every divisor is zero, if there is none. -/
theorem theAlgorithm_domain (scratch : Fin 3 → Matrix (Fin n) (Fin n) ℚ)
    (A : Matrix (Fin n) (Fin n) ℚ) (two_le : 2 ≤ n) :
    ((∃ fault, theAlgorithm scratch A = .error fault) ↔
      A.det = 0 ∨ ∃ order, 1 ≤ order ∧ order ≤ n - 2 ∧ ∃ i j, A.cyclicMinor order i j = 0) ∧
    (∀ m, 1 ≤ m → m ≤ n - 2 → (∃ i j, A.cyclicMinor m i j = 0) →
      (∀ order, 1 ≤ order → order < m → ∀ i j, A.cyclicMinor order i j ≠ 0) →
      ∃ i j, theAlgorithm scratch A = .error (.iteration m i j)) ∧
    ((∀ order, 1 ≤ order → order ≤ n - 2 → ∀ i j, A.cyclicMinor order i j ≠ 0) → A.det = 0 →
      ∃ pad, transferAndIterate (exact ℚ) isZero scratch A = .ok pad ∧
        (∀ i j, pad.matrixK pad.curr i j = 0) ∧
        ∃ i j, theAlgorithm scratch A = .error (.final i j)) ∧
    ((∀ order, 1 ≤ order → order ≤ n - 2 → ∀ i j, A.cyclicMinor order i j ≠ 0) → A.det ≠ 0 →
      (∃ i j, A.cyclicMinor (n - 1) i j = 0) →
      ∃ report, theAlgorithm scratch A = .ok report) := by
  have regularBelow (nonvanishing : ∀ order, 1 ≤ order → order ≤ n - 2 →
      ∀ i j, A.cyclicMinor order i j ≠ 0) : RegularBelow A n :=
    fun order lower upper => nonvanishing order lower (by omega)
  refine ⟨?_, ?_, ?_, ?_⟩
  · have failing : (∃ fault, theAlgorithm scratch A = .error fault) ↔
        ¬ ∃ report, theAlgorithm scratch A = .ok report := by
      cases theAlgorithm scratch A <;> simp
    rw [failing, theAlgorithm_ok_iff scratch two_le, not_and_or, not_not, or_comm]
    refine or_congr_right ?_
    simp only [RegularBelow, Regular, not_forall, not_not, exists_prop]
    exact exists_congr fun order => and_congr_right fun _ => and_congr_left fun _ => by omega
  · intro m positive bound vanishing regular
    exact theAlgorithm_iteration_fault scratch positive bound regular vanishing
  · intro nonvanishing singular
    exact theAlgorithm_final_fault scratch two_le (regularBelow nonvanishing) singular
  · intro nonvanishing nonsingular _
    exact (theAlgorithm_ok_iff scratch two_le).mpr ⟨regularBelow nonvanishing, nonsingular⟩

/-- A vanishing minor of order `N - 1` does not stop the program. -/
theorem theAlgorithm_domain_exchange :
    ∃ report, theAlgorithm (fun _ => 0) (!![0, 1; 1, 0] : Matrix (Fin 2) (Fin 2) ℚ) =
      .ok report := by
  obtain ⟨-, -, -, accepted⟩ := theAlgorithm_domain (fun _ => 0)
    (!![0, 1; 1, 0] : Matrix (Fin 2) (Fin 2) ℚ) le_rfl
  refine accepted (fun order positive bound => by omega) ?_ ⟨0, 0, ?_⟩
  · simp [Matrix.det_fin_two]
  · rw [Matrix.cyclicMinor_one]
    rfl

end KKAccel
