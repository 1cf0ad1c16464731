import KKAccel.FloatSelfCheck
import KKAccel.Foundation.ExtendedFloat

/-!
# The program with infinities

No division stops the program: it goes on with infinities and the results of invalid operations,
and prints them. On an integer matrix whose iterations are exact it prints the rounded inverse if the
exact program ends; otherwise the error distance which it prints is not finite. Whenever that is
finite, so is all that it has been computed from, and it bounds how far this is from an inverse.
-/

namespace KKAccel

open Arith CellLoop

variable {n : ℕ} {format : BoundedFormat}

/-- The type `double`. -/
def double : BoundedFormat where
  toFloatFormat := binary64
  maxExponent := 971
  minExponent_nonpos := by decide
  one_le_maxExponent := by decide

/-- The operations of a processor. -/
def extendedArith (format : BoundedFormat) : Arith (ExtendedFloat format) where
  mul := (· * ·)
  sub := (· - ·)
  div := (· / ·)
  one := .ofInt 1

/-- Multiply two matrices. -/
def multiplyMatrixExtended (A B : Matrix (Fin n) (Fin n) (ExtendedFloat format)) :
    Matrix (Fin n) (Fin n) (ExtendedFloat format) :=
  fun i j => (List.finRange n).foldl (fun sum k => sum + A i k * B k j) (.ofInt 0)

/-- Calculate error distance between calculated identity and true identity. -/
def calculateErrorExtended (matrix : Matrix (Fin n) (Fin n) (ExtendedFloat format)) :
    ExtendedFloat format :=
  (List.finRange n).foldl
      (fun val i =>
        (List.finRange n).foldl
          (fun val j => val + (.ofInt (if i = j then 1 else 0) - matrix i j).abs) val)
      (.ofInt 0) /
    .ofInt (n * n)

/-- What the program prints. -/
structure ExtendedReport (format : BoundedFormat) (n : ℕ) where
  /-- The scratchpad after the final iteration. -/
  pad : Pad n (ExtendedFloat format)
  /-- The calculated identity. -/
  matrixIC : Matrix (Fin n) (Fin n) (ExtendedFloat format)
  /-- Error distance from true identity. -/
  error : ExtendedFloat format

/-- The inverted matrix, in `matrix_K[next]`. -/
def ExtendedReport.inverted (report : ExtendedReport format n) :
    Matrix (Fin n) (Fin n) (ExtendedFloat format) :=
  report.pad.matrixK report.pad.next

/-- Run the KK algorithm on an input matrix; no divisor is faulty. -/
def theAlgorithmExtended (scratch : Fin 3 → Matrix (Fin n) (Fin n) (ExtendedFloat format))
    (matrixO : Matrix (Fin n) (Fin n) (ExtendedFloat format)) :
    Except (DivFault n) (ExtendedReport format n) := do
  let pad ← invertMatrix (extendedArith format) (fun _ => false) scratch matrixO
  let matrixIC := multiplyMatrixExtended (pad.matrixK pad.next) matrixO
  return { pad, matrixIC, error := calculateErrorExtended matrixIC }

/-- The matrix of the numbers of an integer matrix. -/
def extendedFloats (format : BoundedFormat) (A : Matrix (Fin n) (Fin n) ℤ) :
    Matrix (Fin n) (Fin n) (ExtendedFloat format) :=
  A.map .ofInt

/-- The program always ends. -/
theorem theAlgorithmExtended_ok
    (scratch : Fin 3 → Matrix (Fin n) (Fin n) (ExtendedFloat format))
    (matrixO : Matrix (Fin n) (Fin n) (ExtendedFloat format)) (two_le : 2 ≤ n) :
    ∃ computed, theAlgorithmExtended scratch matrixO = .ok computed ∧
      computed.inverted = finalQuotient (extendedArith format)
        ((extendedArith format).condense matrixO (n - 1))
        ((extendedArith format).condense matrixO n) ∧
      computed.error =
        calculateErrorExtended (multiplyMatrixExtended computed.inverted matrixO) := by
  obtain ⟨pad, executed, quotient⟩ :=
    invertMatrix_total (extendedArith format) scratch matrixO two_le
  exact ⟨⟨pad, _, _⟩, by rw [theAlgorithmExtended, executed]; rfl, quotient, rfl⟩

section SelfCheck

variable {X A M : Matrix (Fin n) (Fin n) (ExtendedFloat format)}

/-- The numbers of a matrix. -/
def numbers (M : Matrix (Fin n) (Fin n) (ExtendedFloat format)) :
    Matrix (Fin n) (Fin n) (BinaryFloat format.toFloatFormat) :=
  M.map ExtendedFloat.toBinary

theorem hasValue_ofInt {z : ℤ} (contains : format.Contains z) :
    (.ofInt z : ExtendedFloat format).HasValue z :=
  ExtendedFloat.hasValue_of_contains contains

theorem toBinary_ofInt {z : ℤ} (small : |z| ≤ 2 ^ format.precision) :
    (.ofInt z : ExtendedFloat format).toBinary = .ofInt z :=
  ExtendedFloat.toBinary_rounded
    (ExtendedFloat.isFinite_rounded_iff.mp (hasValue_ofInt (.of_abs_le small)).1)

theorem toBinary_ofInt_zero : (.ofInt 0 : ExtendedFloat format).toBinary = .ofInt 0 :=
  toBinary_ofInt (by simp)

theorem isFinite_of_multiplyMatrixExtended {i j : Fin n}
    (finite : (multiplyMatrixExtended X A i j).isFinite = true) :
    (∀ k, (X i k).isFinite = true ∧ (A k j).isFinite = true) ∧
      (multiplyMatrixExtended X A i j).toBinary =
        multiplyMatrixFloat (numbers X) (numbers A) i j := by
  obtain ⟨-, terms, sum⟩ := ExtendedFloat.isFinite_foldl_add finite
  refine ⟨fun k => ExtendedFloat.isFinite_of_mul (terms k (List.mem_finRange k)), sum.trans ?_⟩
  rw [toBinary_ofInt_zero]
  refine List.foldl_ext _ _ _ fun sum k member => ?_
  rw [ExtendedFloat.toBinary_mul (terms k member)]
  rfl

theorem calculateErrorExtended_eq (M : Matrix (Fin n) (Fin n) (ExtendedFloat format)) :
    calculateErrorExtended M =
      (cells n).foldl
          (fun val position => val +
            (.ofInt (if position.1 = position.2 then 1 else 0) - M position.1 position.2).abs)
          (.ofInt 0) /
        .ofInt (n * n) := by
  rw [← foldl_foldl_eq_cells]
  rfl

theorem isFinite_of_calculateErrorExtended
    (finite : (calculateErrorExtended M).isFinite = true) :
    (∀ i j, (M i j).isFinite = true) ∧
      ((n * n : ℤ) ≤ 2 ^ format.precision →
        (calculateErrorExtended M).toBinary = calculateErrorFloat (numbers M)) := by
  rw [calculateErrorExtended_eq] at finite ⊢
  obtain ⟨total, -⟩ := ExtendedFloat.isFinite_of_div finite
  obtain ⟨-, terms, sum⟩ := ExtendedFloat.isFinite_foldl_add total
  have differences (position : Fin n × Fin n) := by
    have term := terms position (mem_cells position)
    rwa [ExtendedFloat.isFinite_abs] at term
  refine ⟨fun i j => (ExtendedFloat.isFinite_of_sub (differences (i, j))).2, fun size => ?_⟩
  have count : |(n * n : ℤ)| ≤ 2 ^ format.precision := by
    rwa [abs_of_nonneg (by positivity)]
  rw [ExtendedFloat.toBinary_div finite (hasValue_ofInt (.of_abs_le count)).1, sum,
    toBinary_ofInt count, toBinary_ofInt_zero, calculateErrorFloat_eq]
  congr 1
  refine List.foldl_ext _ _ _ fun sum position _ => ?_
  have one_le : (1 : ℤ) ≤ 2 ^ format.precision := one_le_pow₀ (by norm_num)
  have unit : |(if position.1 = position.2 then 1 else 0 : ℤ)| ≤ 2 ^ format.precision := by
    split_ifs <;> simp [one_le]
  rw [ExtendedFloat.toBinary_abs (differences position),
    ExtendedFloat.toBinary_sub (differences position), toBinary_ofInt unit]
  rfl

/-- A finite distance vouches for all entries. -/
theorem isFinite_of_error
    (finite : (calculateErrorExtended (multiplyMatrixExtended X A)).isFinite = true) (i j : Fin n) :
    (X i j).isFinite = true ∧ (A i j).isFinite = true ∧
      (multiplyMatrixExtended X A i j).isFinite = true := by
  have entries := (isFinite_of_calculateErrorExtended finite).1
  exact ⟨((isFinite_of_multiplyMatrixExtended (entries i i)).1 j).1,
    ((isFinite_of_multiplyMatrixExtended (entries i j)).1 i).2, entries i j⟩

/-- Whatever the two matrices hold, the printed error distance is finite only if all their entries
and all those of the calculated product are; and then the calculated product is the true one up to
the roundings of its entries, the printed distance is its mean deviation up to those of the sum, and
a small distance bounds the deviation of every entry. -/
theorem selfCheckExtended_faithful (X A : Matrix (Fin n) (Fin n) (ExtendedFloat format))
    (size : (n * n : ℤ) ≤ 2 ^ format.precision)
    (finite : (calculateErrorExtended (multiplyMatrixExtended X A)).isFinite = true) :
    (∀ i j, (X i j).isFinite = true ∧ (A i j).isFinite = true ∧
      (multiplyMatrixExtended X A i j).isFinite = true) ∧
    (∀ i j, |(multiplyMatrixExtended X A i j).value - ∑ k, (X i k).value * (A k j).value| ≤
      format.growth (n + 1) * ∑ k, |(X i k).value * (A k j).value| +
        n * (1 + format.unitRoundoff) ^ n * 2 ^ format.minExponent) ∧
    0 ≤ (calculateErrorExtended (multiplyMatrixExtended X A)).value ∧
    |(calculateErrorExtended (multiplyMatrixExtended X A)).value -
        calculateError ((multiplyMatrixExtended X A).map ExtendedFloat.value)| ≤
      format.growth (n * n + 2) *
          calculateError ((multiplyMatrixExtended X A).map ExtendedFloat.value) +
        2 ^ format.minExponent ∧
    ∀ i j, (1 - format.growth (n * n + 2)) *
        |(1 : Matrix (Fin n) (Fin n) ℚ) i j - (multiplyMatrixExtended X A i j).value| ≤
      n * n * ((calculateErrorExtended (multiplyMatrixExtended X A)).value +
        2 ^ format.minExponent) := by
  have entries := isFinite_of_error finite
  have product : numbers (multiplyMatrixExtended X A) =
      multiplyMatrixFloat (numbers X) (numbers A) := by
    funext i j
    exact (isFinite_of_multiplyMatrixExtended (entries i j).2.2).2
  have printed : (calculateErrorExtended (multiplyMatrixExtended X A)).value =
      (calculateErrorFloat (numbers (multiplyMatrixExtended X A))).value :=
    congrArg BinaryFloat.value ((isFinite_of_calculateErrorExtended finite).2 size)
  have integers := format.minExponent_nonpos
  rw [printed]
  refine ⟨entries, fun i j => ?_, ?_, ?_, ?_⟩
  · have rounded := multiplyMatrixFloat_error (numbers X) (numbers A) i j
    rw [← product, Matrix.mul_apply] at rounded
    exact rounded
  · exact calculateErrorFloat_nonneg integers size _
  · exact calculateErrorFloat_error integers size (numbers (multiplyMatrixExtended X A))
  · exact deviation_le_calculateErrorFloat integers size (numbers (multiplyMatrixExtended X A))

/-- The inverse of three is rounded, and its product with three is off by the bound at most. -/
theorem selfCheckExtended_faithful_third :
    ∃ X A : Matrix (Fin 1) (Fin 1) (ExtendedFloat double),
      (X 0 0).value = binary64.round (1 / 3) ∧ (A 0 0).HasValue 3 ∧
      (1 - double.growth 3) * |1 - (multiplyMatrixExtended X A 0 0).value| ≤
        (calculateErrorExtended (multiplyMatrixExtended X A)).value + 2 ^ double.minExponent := by
  let X : Matrix (Fin 1) (Fin 1) (ExtendedFloat double) := fun _ _ => .rounded false (1 / 3)
  let A : Matrix (Fin 1) (Fin 1) (ExtendedFloat double) := fun _ _ => .ofInt 3
  have inverse : (X 0 0).HasValue (double.round (1 / 3)) :=
    ExtendedFloat.hasValue_rounded (by decide +kernel)
  have bound := (selfCheckExtended_faithful X A (by norm_num [double, binary64])
    (by decide +kernel)).2.2.2.2 0 0
  exact ⟨X, A, inverse.2, hasValue_ofInt (.of_abs_le (by decide)), by simpa using bound⟩

/-- Large entries overflow. -/
example : (calculateErrorExtended (multiplyMatrixExtended
    (fun _ _ : Fin 1 => (.ofInt (10 ^ 200) : ExtendedFloat double))
    (fun _ _ => .ofInt (10 ^ 200)))).isFinite = false := by decide +kernel

end SelfCheck

section Integers

variable {A : Matrix (Fin n) (Fin n) ℤ}

/-- The minors of an integer matrix, the products which are subtracted and the dividends are numbers
of the format. -/
def ExactIn (format : BoundedFormat) (A : Matrix (Fin n) (Fin n) ℤ) : Prop :=
  SmallThroughout (fun a : ℤ => format.Contains a) A n

theorem InPrecision.exactIn (precise : InPrecision format.precision A) : ExactIn format A :=
  precise.smallThroughout.mono fun _ small => .of_abs_le small

theorem exactRing_extended (format : BoundedFormat) :
    ExactRing (extendedArith format) (fun x (a : ℤ) => x.HasValue a)
      fun a => format.Contains a where
  one := hasValue_ofInt (.of_abs_le (by rw [abs_one]; exact one_le_pow₀ (by norm_num)))
  mul {x y a b} left right contains := by
    change (x * y).HasValue _
    rw [ExtendedFloat.mul_of_isFinite left.1 right.1, left.2, right.2, ← Int.cast_mul]
    exact ExtendedFloat.hasValue_of_contains contains
  sub {x y a b} left right contains := by
    change (x - y).HasValue _
    rw [ExtendedFloat.sub_of_isFinite left.1 right.1, left.2, right.2, ← Int.cast_sub]
    exact ExtendedFloat.hasValue_of_contains contains
  div {x y quotient divisor} dividend value nonzero contains := by
    have proper : (divisor : ℚ) ≠ 0 := Int.cast_ne_zero.mpr nonzero
    change (x / y).HasValue _
    rw [ExtendedFloat.div_of_isFinite dividend.1 value.1 (by rwa [value.2]), dividend.2, value.2,
      Int.cast_mul, mul_div_cancel_right₀ _ proper]
    exact ExtendedFloat.hasValue_of_contains contains

namespace ExactIn

variable (exact : ExactIn format A)
include exact

theorem hasValue_condense {m : ℕ} (bound : m ≤ n)
    (regular : RegularBelow (A.map (Int.cast : ℤ → ℚ)) m) (i j : Fin n) :
    ((extendedArith format).condense (extendedFloats format A) m i j).HasValue
      (A.cyclicMinor m i j) :=
  (exactRing_extended format).holds_condense exact
    (fun i j => hasValue_ofInt (exact.entries i.pos i j)) bound
    (cyclicMinor_ne_zero_of_regularBelow regular) i j

theorem hasValue_inverse (two_le : 2 ≤ n) (regular : RegularBelow (A.map (Int.cast : ℤ → ℚ)) n)
    (nonsingular : A.det ≠ 0) (i j : Fin n) :
    (finalQuotient (extendedArith format)
      ((extendedArith format).condense (extendedFloats format A) (n - 1))
      ((extendedArith format).condense (extendedFloats format A) n) i j).HasValue
        (format.round ((A.map (Int.cast : ℤ → ℚ))⁻¹ i j)) := by
  have prev := exact.hasValue_condense (Nat.sub_le n 1) (regular.mono (Nat.sub_le n 1))
  have curr := exact.hasValue_condense le_rfl regular i j
  have nonzero : A.cyclicMinor n i j ≠ 0 := by
    rwa [ne_eq, Matrix.cyclicMinor_size_eq_zero_iff]
  rw [Matrix.inv_apply_eq_cyclicMinor_div, ← cast_cyclicMinor, ← cast_cyclicMinor]
  exact (prev _ _).div curr nonzero (exact.minors (n - 1) (by omega) (Nat.sub_le n 1) _ _).2

theorem inverse_infinite (regular : RegularBelow (A.map (Int.cast : ℤ → ℚ)) n)
    (singular : A.det = 0) (i j : Fin n) :
    (finalQuotient (extendedArith format)
      ((extendedArith format).condense (extendedFloats format A) (n - 1))
      ((extendedArith format).condense (extendedFloats format A) n) i j).isFinite = false := by
  have divisor := exact.hasValue_condense le_rfl regular i j
  rw [(Matrix.cyclicMinor_size_eq_zero_iff A i j).mpr singular, Int.cast_zero] at divisor
  exact ExtendedFloat.isFinite_div_of_zero _ divisor

end ExactIn

/-- An entry which has become invalid stays so. -/
theorem condense_eq_nan {M : Matrix (Fin n) (Fin n) (ExtendedFloat format)} {m k : ℕ}
    {i j : Fin n} (positive : 1 ≤ m) (le : m ≤ k)
    (invalid : (extendedArith format).condense M m i j = .nan) :
    (extendedArith format).condense M k i j = .nan := by
  induction k, le using Nat.le_induction with
  | base => exact invalid
  | succ k le induction =>
      obtain ⟨k, rfl⟩ := Nat.exists_eq_add_of_le' (positive.trans le)
      rw [condense_add_two, crossDifference, induction]
      change (.nan * _ - _) / _ = ExtendedFloat.nan
      rw [ExtendedFloat.nan_mul, ExtendedFloat.nan_sub, ExtendedFloat.nan_div]

/-- Where the first vanishing minor is divided by, the dividend vanishes as well. -/
theorem ExactIn.exists_nan (exact : ExactIn format A) {m : ℕ}
    (positive : 1 ≤ m) (bound : m ≤ n - 2)
    (regular : ∀ order, 1 ≤ order → order < m → Regular (A.map (Int.cast : ℤ → ℚ)) order)
    (vanishing : ∃ i j, (A.map (Int.cast : ℤ → ℚ)).cyclicMinor m i j = 0) :
    ∃ i j, (extendedArith format).condense (extendedFloats format A) n i j = .nan := by
  obtain ⟨row, column, zero⟩ := vanishing
  obtain ⟨i, rfl⟩ := Fin.wrapAdd_surjective 1 row
  obtain ⟨j, rfl⟩ := Fin.wrapAdd_surjective 1 column
  have below : RegularBelow (A.map (Int.cast : ℤ → ℚ)) (m + 1) :=
    fun order lower upper => regular order lower (by omega)
  have divisor := exact.hasValue_condense (by omega) (below.mono (Nat.le_succ m))
    (i.wrapAdd 1) (j.wrapAdd 1)
  have dividend := (exactRing_extended format).holds_dividend exact
    (show m + 2 ≤ n by omega) (exact.hasValue_condense (by omega) below) i j
  rw [← cast_cyclicMinor, Int.cast_eq_zero] at zero
  rw [zero, Int.cast_zero] at divisor
  rw [zero, mul_zero, Int.cast_zero] at dividend
  refine ⟨i, j, condense_eq_nan (by omega) (show m + 2 ≤ n by omega) ?_⟩
  rw [condense_add_two]
  exact ExtendedFloat.zero_div_zero dividend.1 divisor.1 dividend.2 divisor.2

/-- What the program prints, given what the exact program does: the rounded inverse; or an inverse
with an invalid entry or without finite entries, and an error distance which is not finite. -/
inductive FollowsExtended (format : BoundedFormat) :
    Except (DivFault n) (Report n) → ExtendedReport format n → Prop
  | ok {report : Report n} {computed : ExtendedReport format n} :
      (∀ i j, (computed.inverted i j).HasValue (format.round (report.inverted i j))) →
      FollowsExtended format (.ok report) computed
  | iteration (k : ℕ) (i j row column : Fin n) {computed : ExtendedReport format n} :
      computed.inverted row column = .nan →
      computed.error.isFinite = false →
      FollowsExtended format (.error (.iteration k i j)) computed
  | final (i j : Fin n) {computed : ExtendedReport format n} :
      (∀ row column, (computed.inverted row column).isFinite = false) →
      computed.error.isFinite = false →
      FollowsExtended format (.error (.final i j)) computed

/-- On an integer matrix whose iterations are exact the program always ends: with the number nearest
to each entry of the true inverse where the exact program ends, and with an error distance which is
not finite where the exact program stops at a division. -/
theorem theAlgorithmExtended_follows
    (scratch : Fin 3 → Matrix (Fin n) (Fin n) (ExtendedFloat format))
    (exactScratch : Fin 3 → Matrix (Fin n) (Fin n) ℚ) (two_le : 2 ≤ n)
    (exact : ExactIn format A) :
    ∃ computed, theAlgorithmExtended scratch (extendedFloats format A) = .ok computed ∧
      FollowsExtended format (theAlgorithm exactScratch (A.map (Int.cast : ℤ → ℚ))) computed := by
  obtain ⟨computed, executed, quotient, printed⟩ :=
    theAlgorithmExtended_ok scratch (extendedFloats format A) two_le
  refine ⟨computed, executed, ?_⟩
  have unprinted {i j : Fin n} (infinite : (computed.inverted i j).isFinite = false) :
      computed.error.isFinite = false := by
    rw [printed]
    refine Bool.eq_false_of_not_eq_true fun finite => ?_
    exact Bool.false_ne_true (infinite.symm.trans (isFinite_of_error finite i j).1)
  rcases regularBelow_or_first (A.map (Int.cast : ℤ → ℚ)) with
    regular | ⟨m, positive, bound, below, vanishing⟩
  · by_cases singular : A.det = 0
    · obtain ⟨-, -, -, i, j, stopped⟩ :=
        theAlgorithm_final_fault exactScratch two_le regular (det_map_eq_zero_iff.mpr singular)
      have infinite (row column : Fin n) : (computed.inverted row column).isFinite = false := by
        rw [quotient]
        exact exact.inverse_infinite regular singular row column
      rw [stopped]
      exact .final i j infinite (unprinted (infinite i j))
    · obtain ⟨report, completed, inverse⟩ :=
        theAlgorithm_ok exactScratch two_le regular (mt det_map_eq_zero_iff.mp singular)
      rw [completed]
      refine .ok fun i j => ?_
      rw [inverse, quotient]
      exact exact.hasValue_inverse two_le regular singular i j
  · obtain ⟨i, j, stopped⟩ :=
      theAlgorithm_iteration_fault exactScratch positive bound below vanishing
    obtain ⟨row, column, invalid⟩ := exact.exists_nan positive bound below vanishing
    have entry : computed.inverted row column = .nan := by
      rw [quotient, finalQuotient, invalid]
      exact ExtendedFloat.div_nan _
    rw [stopped]
    exact .iteration m i j row column entry (unprinted (by rw [entry]; rfl))

/-- A matrix with a zero, by which the second iteration divides. -/
def cornerZero : Matrix (Fin 3) (Fin 3) ℤ := !![0, 1, 1; 1, 1, 2; 1, 2, 1]

/-- The `4 x 4` matrix is inverted up to the last rounding; the other one leads to an inverse with
an invalid entry. -/
theorem theAlgorithmExtended_follows_matrixO :
    (∃ computed,
      theAlgorithmExtended (fun _ _ _ => .nan) (extendedFloats double (integerMatrixO 4)) =
        .ok computed ∧
      ∀ i j, (computed.inverted i j).HasValue (binary64.round ((matrixO 4)⁻¹ i j))) ∧
    ∃ computed,
      theAlgorithmExtended (fun _ _ _ => .nan) (extendedFloats double cornerZero) = .ok computed ∧
      (∃ i j, computed.inverted i j = .nan) ∧ computed.error.isFinite = false := by
  constructor
  · have precise : InPrecision double.precision (integerMatrixO 4) := inPrecision_integerMatrixO
    obtain ⟨report, executed, inverse⟩ :=
      @theAlgorithm_matrixO 4 (fun _ => 0) (by omega) (by omega)
    obtain ⟨computed, completed, follows⟩ :=
      theAlgorithmExtended_follows (fun _ _ _ => .nan) (fun _ => 0) (by omega) precise.exactIn
    rw [integerMatrixO_map, executed] at follows
    cases follows with
    | ok entries =>
        refine ⟨computed, completed, fun i j => ?_⟩
        rw [← inverse]
        exact entries i j
  · have entries : ∀ i j : Fin 3, |cornerZero i j| ≤ 2 := by decide
    have precise : InPrecision double.precision cornerZero :=
      .of_entries (by norm_num) entries (by norm_num [minorBound, Nat.factorial, double, binary64])
    have vanishing : ∃ i j, (cornerZero.map (Int.cast : ℤ → ℚ)).cyclicMinor 1 i j = 0 :=
      ⟨0, 0, by simp [cornerZero]⟩
    obtain ⟨computed, completed, follows⟩ :=
      theAlgorithmExtended_follows (fun _ _ _ => .nan) (fun _ => 0) (by omega) precise.exactIn
    obtain ⟨i, j, stopped⟩ := theAlgorithm_iteration_fault (fun _ => 0) le_rfl (by omega)
      (fun order positive earlier => by omega) vanishing
    rw [stopped] at follows
    cases follows with
    | iteration _ _ _ row column invalid unprinted =>
        exact ⟨computed, completed, ⟨row, column, invalid⟩, unprinted⟩

end Integers

end KKAccel
