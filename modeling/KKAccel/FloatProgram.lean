import KKAccel.BuiltinInputs
import KKAccel.Foundation.FloatError
import Mathlib.LinearAlgebra.Matrix.AbsoluteValue

/-!
# The program in floating point

The program keeps its matrices in the type `double`. The condensation of an integer matrix stays
within the integers, so up to the final iteration nothing is rounded as long as the minors, their
products and the dividends have few enough digits. A run without a zero divisor then rounds every
entry of the inverse once.
-/

namespace KKAccel

open Arith CellLoop

variable {n : ℕ} {format : FloatFormat}

/-- The format of the type `double`. -/
def binary64 : FloatFormat where
  precision := 53
  minExponent := -1074
  precision_pos := by omega

/-- The operations on the numbers of a format. -/
def floatArith (format : FloatFormat) : Arith (BinaryFloat format) where
  mul := (· * ·)
  sub := (· - ·)
  div := (· / ·)
  one := .ofInt 1

/-- A divisor whose quotient is not a number or infinite. -/
def isZeroFloat (divisor : BinaryFloat format) : Bool := divisor.value == 0

/-- Multiply two matrices. -/
def multiplyMatrixFloat (A B : Matrix (Fin n) (Fin n) (BinaryFloat format)) :
    Matrix (Fin n) (Fin n) (BinaryFloat format) :=
  fun i j => (List.finRange n).foldl (fun sum k => sum + A i k * B k j) (.ofInt 0)

/-- Calculate error distance between calculated identity and true identity. -/
def calculateErrorFloat (matrix : Matrix (Fin n) (Fin n) (BinaryFloat format)) :
    BinaryFloat format :=
  (List.finRange n).foldl
      (fun val i =>
        (List.finRange n).foldl
          (fun val j => val + (.ofInt (if i = j then 1 else 0) - matrix i j).abs) val)
      (.ofInt 0) /
    .ofInt (n * n)

/-- What the program prints. -/
structure FloatReport (format : FloatFormat) (n : ℕ) where
  /-- The scratchpad after the final iteration. -/
  pad : Pad n (BinaryFloat format)
  /-- The calculated identity. -/
  matrixIC : Matrix (Fin n) (Fin n) (BinaryFloat format)
  /-- Error distance from true identity. -/
  error : BinaryFloat format

/-- The inverted matrix, in `matrix_K[next]`. -/
def FloatReport.inverted (report : FloatReport format n) :
    Matrix (Fin n) (Fin n) (BinaryFloat format) :=
  report.pad.matrixK report.pad.next

/-- The matrix of the numbers of an integer matrix. -/
def floats (format : FloatFormat) (A : Matrix (Fin n) (Fin n) ℤ) :
    Matrix (Fin n) (Fin n) (BinaryFloat format) :=
  A.map .ofInt

/-- The minors of an integer matrix, the products which are subtracted and the dividends have few
enough digits. -/
structure InPrecision (precision : ℕ) (A : Matrix (Fin n) (Fin n) ℤ) : Prop where
  minors : ∀ m, 1 ≤ m → m ≤ n → ∀ i j, |A.cyclicMinor m i j| ≤ 2 ^ precision
  products : ∀ m, 1 ≤ m → m + 1 ≤ n → ∀ i j,
    |A.cyclicMinor m i j * A.cyclicMinor m (i.wrapAdd 1) (j.wrapAdd 1)| ≤ 2 ^ precision ∧
      |A.cyclicMinor m (i.wrapAdd 1) j * A.cyclicMinor m i (j.wrapAdd 1)| ≤ 2 ^ precision
  dividends : ∀ m, m + 2 ≤ n → ∀ i j,
    |A.cyclicMinor (m + 2) i j * A.cyclicMinor m (i.wrapAdd 1) (j.wrapAdd 1)| ≤ 2 ^ precision

section Bounds

variable {A : Matrix (Fin n) (Fin n) ℤ} {size : ℤ}

/-- What a minor of an order may be, by the number and the size of its summands. -/
def minorBound (size : ℤ) (m : ℕ) : ℤ := m.factorial * size ^ m

theorem minorBound_mono (positive : 1 ≤ size) {few many : ℕ} (le : few ≤ many) :
    minorBound size few ≤ minorBound size many := by
  have nonneg : 0 ≤ size := by omega
  rw [minorBound, minorBound]
  gcongr

theorem one_le_minorBound (positive : 1 ≤ size) (m : ℕ) : 1 ≤ minorBound size m := by
  simpa [minorBound] using minorBound_mono positive (Nat.zero_le m)

theorem abs_cyclicMinor_le (entries : ∀ i j, |A i j| ≤ size) (m : ℕ) (i j : Fin n) :
    |A.cyclicMinor m i j| ≤ minorBound size m := by
  calc
    |A.cyclicMinor m i j| ≤ (Fintype.card (Fin m)).factorial • size ^ Fintype.card (Fin m) :=
      @Matrix.det_le _ _ _ _ _ _ _ _ _ _ (A.cyclicSubmatrix m i j) AbsoluteValue.abs _
        fun a b => entries (i.wrapAdd a) (j.wrapAdd b)
    _ = minorBound size m := by rw [Fintype.card_fin, nsmul_eq_mul, minorBound]

private theorem abs_cyclicMinor_mul_le (positive : 1 ≤ size) (entries : ∀ i j, |A i j| ≤ size)
    {few many : ℕ} (first : many ≤ n) (second : few ≤ n - 1) (i j row column : Fin n) :
    |A.cyclicMinor many i j * A.cyclicMinor few row column| ≤
      minorBound size n * minorBound size (n - 1) := by
  rw [abs_mul]
  apply mul_le_mul
  · exact (abs_cyclicMinor_le entries many i j).trans (minorBound_mono positive first)
  · exact (abs_cyclicMinor_le entries few row column).trans (minorBound_mono positive second)
  · exact abs_nonneg _
  · exact zero_le_one.trans (one_le_minorBound positive n)

theorem InPrecision.of_entries {precision : ℕ} (positive : 1 ≤ size)
    (entries : ∀ i j, |A i j| ≤ size)
    (small : minorBound size n * minorBound size (n - 1) ≤ 2 ^ precision) :
    InPrecision precision A := by
  have bound := @abs_cyclicMinor_mul_le n A size positive entries
  constructor
  · intro m _ upper i j
    have single := bound upper (Nat.zero_le (n - 1)) i j i j
    rw [Matrix.cyclicMinor_zero, mul_one] at single
    exact single.trans small
  · intro m _ upper i j
    exact ⟨(bound (by omega) (by omega) _ _ _ _).trans small,
      (bound (by omega) (by omega) _ _ _ _).trans small⟩
  · intro m upper i j
    exact (bound upper (by omega) _ _ _ _).trans small

end Bounds

section Exact

variable {A : Matrix (Fin n) (Fin n) ℤ}

theorem cast_cyclicMinor (A : Matrix (Fin n) (Fin n) ℤ) (m : ℕ) (i j : Fin n) :
    ((A.cyclicMinor m i j : ℤ) : ℚ) = (A.map (Int.cast : ℤ → ℚ)).cyclicMinor m i j :=
  Matrix.map_cyclicMinor (Int.castRingHom ℚ) A m i j

theorem det_map_eq_zero_iff : (A.map (Int.cast : ℤ → ℚ)).det = 0 ↔ A.det = 0 := by
  have cast : ((A.det : ℤ) : ℚ) = (A.map (Int.cast : ℤ → ℚ)).det := Int.cast_det A
  rw [← cast, Int.cast_eq_zero]

theorem cyclicMinor_ne_zero_of_regularBelow {bound : ℕ}
    (regular : RegularBelow (A.map (Int.cast : ℤ → ℚ)) bound) (order : ℕ) (positive : 1 ≤ order)
    (upper : order + 2 ≤ bound) (i j : Fin n) : A.cyclicMinor order i j ≠ 0 := by
  have nonzero := regular order positive upper i j
  rwa [← cast_cyclicMinor, Int.cast_ne_zero] at nonzero

theorem exactRing_float (integers : format.minExponent ≤ 0) :
    ExactRing (floatArith format) (fun x (a : ℤ) => x.value = a)
      fun a => |a| ≤ 2 ^ format.precision where
  one := by
    have small : |(1 : ℤ)| ≤ 2 ^ format.precision := by
      rw [abs_one]
      exact one_le_pow₀ (by norm_num)
    exact BinaryFloat.value_ofInt (FloatFormat.representable_intCast small integers)
  mul {x y a b} left right small := by
    have representable := FloatFormat.representable_intCast small integers
    rw [Int.cast_mul, ← left, ← right] at representable ⊢
    exact BinaryFloat.value_mul representable
  sub {x y a b} left right small := by
    have representable := FloatFormat.representable_intCast small integers
    rw [Int.cast_sub, ← left, ← right] at representable ⊢
    exact BinaryFloat.value_sub representable
  div {x y quotient divisor} dividend value nonzero small := by
    have representable := FloatFormat.representable_intCast small integers
    have exact : (quotient : ℚ) = x.value / y.value := by
      rw [dividend, value, Int.cast_mul, mul_div_cancel_right₀ _ (Int.cast_ne_zero.mpr nonzero)]
    rw [exact] at representable ⊢
    exact BinaryFloat.value_div representable

theorem InPrecision.smallThroughout {precision : ℕ} (precise : InPrecision precision A) :
    SmallThroughout (fun a => |a| ≤ 2 ^ precision) A n :=
  ⟨precise.minors, precise.products, precise.dividends⟩

theorem InPrecision.entries {precision : ℕ} (precise : InPrecision precision A) (i j : Fin n) :
    |A i j| ≤ 2 ^ precision :=
  precise.smallThroughout.entries i.pos i j

/-- Every quotient is a minor, so the numbers of the sequence are the minors. -/
theorem InPrecision.value_condense (precise : InPrecision format.precision A)
    (integers : format.minExponent ≤ 0) (m : ℕ) (bound : m ≤ n)
    (regular : RegularBelow (A.map (Int.cast : ℤ → ℚ)) m) (i j : Fin n) :
    ((floatArith format).condense (floats format A) m i j).value = A.cyclicMinor m i j :=
  (exactRing_float integers).holds_condense precise.smallThroughout
    (fun i j => BinaryFloat.value_ofInt
      (FloatFormat.representable_intCast (precise.entries i j) integers))
    bound (cyclicMinor_ne_zero_of_regularBelow regular) i j

theorem isZeroFloat_eq_false_iff {divisor : BinaryFloat format} :
    isZeroFloat divisor = false ↔ divisor.value ≠ 0 := by
  simp [isZeroFloat]

theorem InPrecision.soundDivisors_iff (precise : InPrecision format.precision A)
    (integers : format.minExponent ≤ 0) {k : ℕ} (bound : k ≤ n)
    (regular : RegularBelow (A.map (Int.cast : ℤ → ℚ)) k) :
    SoundDivisors (floatArith format) isZeroFloat (floats format A) k ↔
      Regular (A.map (Int.cast : ℤ → ℚ)) k := by
  simp only [SoundDivisors, Regular, isZeroFloat_eq_false_iff,
    precise.value_condense integers k bound regular, cast_cyclicMinor]

end Exact

section Outcomes

variable {A : Matrix (Fin n) (Fin n) ℤ}
  (scratch : Fin 3 → Matrix (Fin n) (Fin n) (BinaryFloat format))

theorem InPrecision.soundDivisors (precise : InPrecision format.precision A)
    (integers : format.minExponent ≤ 0) {count k : ℕ} (bound : k < count) (size : count ≤ n)
    (regular : RegularBelow (A.map (Int.cast : ℤ → ℚ)) (count + 1)) :
    SoundDivisors (floatArith format) isZeroFloat (floats format A) k := by
  rw [precise.soundDivisors_iff integers (by omega) (regular.mono (by omega))]
  rcases Nat.eq_zero_or_pos k with rfl | positive
  · exact regular_zero _
  · exact regular k positive (by omega)

/-- The loop completes with the minors of the two highest orders. -/
theorem InPrecision.iterations_complete (precise : InPrecision format.precision A)
    (integers : format.minExponent ≤ 0) (two_le : 2 ≤ n)
    (regular : RegularBelow (A.map (Int.cast : ℤ → ℚ)) n) :
    ∃ pad, transferAndIterate (floatArith format) isZeroFloat scratch (floats format A) = .ok pad ∧
      pad.Rotating ∧
      (∀ i j, (pad.matrixK pad.prev i j).value = A.cyclicMinor (n - 1) i j) ∧
      ∀ i j, (pad.matrixK pad.curr i j).value = A.cyclicMinor n i j := by
  obtain ⟨count, rfl⟩ := Nat.exists_eq_add_of_le' (show 1 ≤ n by omega)
  obtain ⟨pad, executed, holds⟩ := transferAndIterate_ok scratch fun k bound =>
    precise.soundDivisors integers bound (by omega) regular
  refine ⟨pad, executed, holds.rotating, fun i j => ?_, fun i j => ?_⟩
  · rw [holds.prev_eq (by omega)]
    exact precise.value_condense integers _ (by omega) (regular.mono (by omega)) i j
  · rw [holds.curr_eq]
    exact precise.value_condense integers _ le_rfl regular i j

end Outcomes

/-- The rows of `matrix_O` as integers. -/
def integerMatrixO (n : ℕ) : Matrix (Fin n) (Fin n) ℤ :=
  fun i j => (((matrixORows n).getD i []).getD j 0 : ℕ)

theorem integerMatrixO_map (n : ℕ) : (integerMatrixO n).map (Int.cast : ℤ → ℚ) = matrixO n := by
  funext i j
  simp [integerMatrixO, matrixO]

theorem inPrecision_integerMatrixO : InPrecision binary64.precision (integerMatrixO 4) := by
  have entries : ∀ i j : Fin 4, |integerMatrixO 4 i j| ≤ 64 := by decide
  exact .of_entries (by norm_num) entries (by norm_num [minorBound, Nat.factorial, binary64])

end KKAccel
