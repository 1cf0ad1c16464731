import KKAccel.FloatProgram

/-!
# The self check in floating point

The printed error distance goes through a long sum, and the calculated identity through a sum for
every entry, so both are off by as many roundings. What the program prints of a successful run is
therefore bounded by the input alone.
-/

namespace KKAccel

open CellLoop

variable {n : ℕ} {format : FloatFormat}

/-- The exact numbers of a matrix. -/
def values (M : Matrix (Fin n) (Fin n) (BinaryFloat format)) : Matrix (Fin n) (Fin n) ℚ :=
  M.map BinaryFloat.value

theorem value_unit (integers : format.minExponent ≤ 0) (i j : Fin n) :
    (.ofInt (if i = j then 1 else 0) : BinaryFloat format).value =
      (1 : Matrix (Fin n) (Fin n) ℚ) i j := by
  have one_le : (1 : ℤ) ≤ 2 ^ format.precision := one_le_pow₀ (by norm_num)
  have small : |(if i = j then 1 else 0 : ℤ)| ≤ 2 ^ format.precision := by
    split_ifs <;> simp [one_le]
  rw [BinaryFloat.value_ofInt (FloatFormat.representable_intCast small integers),
    Matrix.one_apply]
  push_cast
  rfl

/-- The deviation which is added for a position. -/
def deviationFloat (M : Matrix (Fin n) (Fin n) (BinaryFloat format)) (position : Fin n × Fin n) :
    BinaryFloat format :=
  (.ofInt (if position.1 = position.2 then 1 else 0) - M position.1 position.2).abs

theorem calculateErrorFloat_eq (M : Matrix (Fin n) (Fin n) (BinaryFloat format)) :
    calculateErrorFloat M =
      (cells n).foldl (fun val position => val + deviationFloat M position) (.ofInt 0) /
        .ofInt (n * n) := by
  rw [← foldl_foldl_eq_cells]
  rfl

theorem close_deviation (integers : format.minExponent ≤ 0)
    (M : Matrix (Fin n) (Fin n) (BinaryFloat format)) (position : Fin n × Fin n) :
    format.Close 1 (deviationFloat M position).value
      (deviation (values M) position.1 position.2) := by
  obtain ⟨i, j⟩ := position
  have rounded : format.Accurate ((1 : Matrix (Fin n) (Fin n) ℚ) i j - (M i j).value) := by
    rw [← value_unit integers]
    exact FloatFormat.accurate_sub (BinaryFloat.representable _) (M i j).representable
  rw [FloatFormat.Close, FloatFormat.growth_one, deviation, abs_abs]
  refine (abs_abs_sub_abs_le _ _).trans ?_
  have value : (.ofInt (if i = j then 1 else 0) - M i j : BinaryFloat format).value =
      format.round ((1 : Matrix (Fin n) (Fin n) ℚ) i j - (M i j).value) := by
    rw [← value_unit integers]
    rfl
  rw [value]
  exact rounded

theorem calculateError_nonneg (M : Matrix (Fin n) (Fin n) ℚ) : 0 ≤ calculateError M := by
  rw [calculateError_eq]
  exact div_nonneg (totalDeviation_nonneg _) (by positivity)

section ErrorDistance

variable (integers : format.minExponent ≤ 0) (size : (n * n : ℤ) ≤ 2 ^ format.precision)
  (M : Matrix (Fin n) (Fin n) (BinaryFloat format))

include integers size

theorem value_count : (.ofInt (n * n) : BinaryFloat format).value = n * n := by
  have bounded : |(n * n : ℤ)| ≤ 2 ^ format.precision := by rwa [abs_of_nonneg (by positivity)]
  simpa using BinaryFloat.value_ofInt (FloatFormat.representable_intCast bounded integers)

theorem calculateErrorFloat_nonneg : 0 ≤ (calculateErrorFloat M).value := by
  rw [calculateErrorFloat_eq]
  have terms (position : Fin n × Fin n) : 0 ≤ (deviationFloat M position).value := abs_nonneg _
  apply FloatFormat.round_nonneg
  apply div_nonneg (BinaryFloat.foldl_add_nonneg terms _)
  rw [value_count integers size]
  positivity

/-- The printed distance of any matrix is the mean deviation of its numbers, up to one rounding for
each addition and two more, and up to the least number. -/
theorem calculateErrorFloat_error :
    |(calculateErrorFloat M).value - calculateError (values M)| ≤
      format.growth (n * n + 2) * calculateError (values M) + 2 ^ format.minExponent := by
  have count : (.ofInt (n * n) : BinaryFloat format).value = n * n := value_count integers size
  rw [calculateErrorFloat_eq]
  set total := (cells n).foldl (fun val position => val + deviationFloat M position) (.ofInt 0)
  -- One rounding for each deviation, and one for each addition.
  have sumClose : format.Close (n * n + 1) total.value (totalDeviation (values M)) := by
    have accumulated := BinaryFloat.foldl_add_close (close_deviation integers M) (cells n)
    have magnitude (position : Fin n × Fin n) :
        |deviation (values M) position.1 position.2| =
          deviation (values M) position.1 position.2 :=
      abs_of_nonneg (deviation_nonneg _ _ _)
    simp only [magnitude, sum_cells, length_cells] at accumulated
    rw [FloatFormat.Close, abs_of_nonneg (totalDeviation_nonneg _)]
    exact accumulated
  have quotient := sumClose.mul_right (n * n : ℚ)⁻¹
  rw [← div_eq_mul_inv, ← div_eq_mul_inv, ← calculateError_eq] at quotient
  have slack : |total.value / (n * n) - calculateError (values M)| ≤
      format.growth (n * n + 1) * |calculateError (values M)| + 0 := by rwa [add_zero]
  have rounded := FloatFormat.abs_round_sub_le_growth
    (format.abs_round_sub_le_add (total.value / (n * n))) slack le_rfl
  rw [abs_of_nonneg (calculateError_nonneg _), mul_zero, zero_add, ← count] at rounded
  exact rounded

theorem deviation_le_calculateErrorFloat (i j : Fin n) :
    (1 - format.growth (n * n + 2)) * deviation (values M) i j ≤
      n * n * ((calculateErrorFloat M).value + 2 ^ format.minExponent) := by
  have printed := calculateErrorFloat_nonneg integers size M
  rcases le_or_gt 0 (1 - format.growth (n * n + 2)) with small | large
  · have lower := (abs_le.mp (calculateErrorFloat_error integers size M)).1
    calc (1 - format.growth (n * n + 2)) * deviation (values M) i j
        ≤ (1 - format.growth (n * n + 2)) * (n * n * calculateError (values M)) := by
          rw [← totalDeviation_eq _ i.pos]
          exact mul_le_mul_of_nonneg_left (deviation_le_totalDeviation _ i j) small
      _ = n * n * ((1 - format.growth (n * n + 2)) * calculateError (values M)) := by ring
      _ ≤ n * n * ((calculateErrorFloat M).value + 2 ^ format.minExponent) := by
          gcongr
          linarith
  · calc (1 - format.growth (n * n + 2)) * deviation (values M) i j
        ≤ 0 := mul_nonpos_of_nonpos_of_nonneg large.le (deviation_nonneg _ _ _)
      _ ≤ n * n * ((calculateErrorFloat M).value + 2 ^ format.minExponent) := by positivity

end ErrorDistance

theorem multiplyMatrixFloat_error (X A : Matrix (Fin n) (Fin n) (BinaryFloat format))
    (i j : Fin n) :
    |values (multiplyMatrixFloat X A) i j - (values X * values A) i j| ≤
      format.growth (n + 1) * ∑ k, |values X i k * values A k j| +
        n * (1 + format.unitRoundoff) ^ n * 2 ^ format.minExponent := by
  have product (k : Fin n) : |(X i k * A k j).value - values X i k * values A k j| ≤
      format.growth 1 * |values X i k * values A k j| + 2 ^ format.minExponent := by
    rw [FloatFormat.growth_one]
    exact format.abs_round_sub_le_add _
  have accumulated := BinaryFloat.foldl_add_error (by positivity) product (List.finRange n)
  rwa [List.length_finRange, ← Fin.sum_univ_def, ← Fin.sum_univ_def, ← Matrix.mul_apply]
    at accumulated

section Run

variable {A : Matrix (Fin n) (Fin n) ℤ}

/-- The products which are added up for an entry of the identity. -/
noncomputable def cancellation (A : Matrix (Fin n) (Fin n) ℤ) (i j : Fin n) : ℚ :=
  ∑ k, |(A.map (Int.cast : ℤ → ℚ))⁻¹ i k * A k j|

/-- Rounding the inverse once, each product and each addition: the calculated identity. -/
theorem identity_error (range : format.minExponent ≤ -2 * format.precision)
    (entries : ∀ i j, |A i j| ≤ 2 ^ format.precision)
    (determinants : ∀ i j, |A.cyclicMinor n i j| ≤ 2 ^ format.precision) (nonsingular : A.det ≠ 0)
    {X : Matrix (Fin n) (Fin n) (BinaryFloat format)}
    (rounded : ∀ i j, (X i j).value = format.round ((A.map (Int.cast : ℤ → ℚ))⁻¹ i j))
    (i j : Fin n) :
    deviation (values (multiplyMatrixFloat X (floats format A))) i j ≤
      format.growth (n + 2) * cancellation A i j := by
  have integers : format.minExponent ≤ 0 := by omega
  have product (k : Fin n) : format.Close 2 (X i k * floats format A k j).value
      ((A.map (Int.cast : ℤ → ℚ))⁻¹ i k * A k j) := by
    have entry : (floats format A k j).value = A k j :=
      BinaryFloat.value_ofInt (FloatFormat.representable_intCast (entries k j) integers)
    have close := FloatFormat.close_div_mul
      (a := A.cyclicMinor (n - 1) (k.wrapAdd 1) (i.wrapAdd 1)) range (determinants i k) (A k j)
    rw [cast_cyclicMinor, cast_cyclicMinor, ← Matrix.inv_apply_eq_cyclicMinor_div, ← rounded,
      ← entry] at close
    rw [← entry]
    exact close
  have accumulated := BinaryFloat.foldl_add_close product (List.finRange n)
  have unit : IsUnit (A.map (Int.cast : ℤ → ℚ)).det :=
    isUnit_iff_ne_zero.mpr (mt det_map_eq_zero_iff.mp nonsingular)
  have identity : ∑ k, (A.map (Int.cast : ℤ → ℚ))⁻¹ i k * A k j =
      (1 : Matrix (Fin n) (Fin n) ℚ) i j := by
    rw [← Matrix.nonsing_inv_mul _ unit, Matrix.mul_apply]
    rfl
  rw [List.length_finRange, ← Fin.sum_univ_def, ← Fin.sum_univ_def, identity] at accumulated
  rw [deviation, abs_sub_comm]
  exact accumulated

end Run

end KKAccel
