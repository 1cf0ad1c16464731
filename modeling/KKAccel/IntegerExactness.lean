import KKAccel.AcceleratedProgram
import KKAccel.Foundation.FixedPoint
import KKAccel.Inversion

/-!
# Integer matrices on the fixed-point accelerator

The condensation of an integer matrix stays within the integers, because every quotient is a minor.
The accelerator therefore computes the minors exactly as long as the minors and the dividends are in
range, provided that the products from which the dividends are formed wrap or are in range as well.
-/

namespace KKAccel

open AtomicRules FixedPoint

variable {n iw fw : ℕ}

/-- The range conditions on an integer matrix: the minors which are divided by do not vanish, and
every minor and every dividend fits in the integer part. -/
structure InRange (iw : ℕ) (A : Matrix (Fin n) (Fin n) ℤ) : Prop where
  regular : ∀ m, 1 ≤ m → m ≤ n - 2 → ∀ i j, A.cyclicMinor m i j ≠ 0
  minors : ∀ m, 1 ≤ m → m ≤ n → ∀ i j, Fits iw (A.cyclicMinor m i j)
  dividends : ∀ m, 1 ≤ m → m ≤ n - 1 → ∀ i j,
    Fits iw (A.cyclicMinor (m + 1) i j * A.cyclicMinor (m - 1) (i.wrapAdd 1) (j.wrapAdd 1))

/-- The products of minors whose difference is a dividend are in range as well. -/
structure InRangeThroughout (iw : ℕ) (A : Matrix (Fin n) (Fin n) ℤ) : Prop
    extends InRange iw A where
  products : ∀ m, 1 ≤ m → m ≤ n - 1 → ∀ i j,
    Fits iw (A.cyclicMinor m i j * A.cyclicMinor m (i.wrapAdd 1) (j.wrapAdd 1)) ∧
      Fits iw (A.cyclicMinor m (i.wrapAdd 1) j * A.cyclicMinor m i (j.wrapAdd 1))

/-- The matrix of fixed-point words of an integer matrix. -/
def words (iw fw : ℕ) (A : Matrix (Fin n) (Fin n) ℤ) :
    Matrix (Fin n) (Fin n) (FixedPoint iw fw) :=
  A.map ofInteger

/-- The iterations compute the minors of every order. -/
def ComputesMinors (arith : Arith (FixedPoint iw fw)) (A : Matrix (Fin n) (Fin n) ℤ) : Prop :=
  ∀ m ≤ n, ∀ i j, StandsFor (arith.condense (words iw fw A) m i j) (A.cyclicMinor m i j)

section Minors

variable {A : Matrix (Fin n) (Fin n) ℤ}

theorem InRange.entries (range : InRange iw A) (i j : Fin n) : Fits iw (A i j) := by
  rw [← Matrix.cyclicMinor_one A i j]
  exact range.minors 1 le_rfl i.pos i j

theorem InRange.words_standsFor (range : InRange iw A) (i j : Fin n) :
    StandsFor (words iw fw A i j) (A i j) :=
  ⟨range.entries i j, rfl⟩

theorem InRange.divisor_ne_zero (range : InRange iw A) (m : ℕ) (positive : 1 ≤ m)
    (bound : m + 2 ≤ n) (i j : Fin n) : A.cyclicMinor m i j ≠ 0 :=
  range.regular m positive (by omega) i j

theorem InRange.dividend (range : InRange iw A) (m : ℕ) (bound : m + 2 ≤ n) (i j : Fin n) :
    Fits iw (A.cyclicMinor (m + 2) i j * A.cyclicMinor m (i.wrapAdd 1) (j.wrapAdd 1)) :=
  range.dividends (m + 1) (by omega) (by omega) i j

/-- The dividend is a product of two minors, in which wrapped products cancel. -/
theorem InRange.computesMinors (range : InRange iw A) (ops : Operations iw fw) (two_le : 2 ≤ iw) :
    ComputesMinors ops.toArith A := by
  have exact := (ops.toExactOperations.exactRing two_le).toExactDivision
  refine exact.holds_condense range.words_standsFor range.minors range.divisor_ne_zero
    fun m bound curr i j => ?_
  have difference := range.dividend m bound i j
  rw [A.cyclicMinor_mul_cyclicMinor] at difference ⊢
  exact ops.crossDifference_standsFor (by omega) curr difference

/-- Without wrapping the products have to be in range, too. -/
theorem InRangeThroughout.computesMinors (range : InRangeThroughout iw A)
    (ops : ExactOperations iw fw) (two_le : 2 ≤ iw) : ComputesMinors ops.toArith A := by
  have throughout : Arith.SmallThroughout (Fits iw) A n :=
    ⟨range.minors, fun m positive bound => range.products m positive (by omega),
      range.toInRange.dividend⟩
  intro m bound
  exact (ops.exactRing two_le).holds_condense throughout range.words_standsFor bound
    fun order positive upper => range.divisor_ne_zero order positive (by omega)

end Minors

theorem lt_of_loaded {α : Type*} {A : Matrix (Fin n) (Fin n) α} {puts : List (ElementPut α)}
    (loaded : ∀ i j, lastPut puts i j = some (A i j)) (i : Fin n) : i.val < 2 ^ 32 := by
  have found := loaded i i
  rw [lastPut, Option.map_eq_some_iff] at found
  obtain ⟨put, last, -⟩ := found
  have member := List.mem_of_getLast? last
  rw [List.mem_filter, decide_eq_true_iff] at member
  rw [member.2.1]
  exact put.i.isLt

/-- The number which the program reads for position `(i, j)` from a result method. -/
def readElem (getElem : BitVec 32 → BitVec 32 → FixedPoint iw fw) (i j : Fin n) : ℚ :=
  (getElem (BitVec.ofNat 32 i) (BitVec.ofNat 32 j)).toRat

theorem readElem_eq {getElem : BitVec 32 → BitVec 32 → FixedPoint iw fw}
    {M : Fin n → Fin n → ℤ} (positive : 1 ≤ iw) (small : ∀ i : Fin n, i.val < 2 ^ 32)
    (results : ∀ (i j : BitVec 32) (row : i.toNat < n) (column : j.toNat < n),
      StandsFor (getElem i j) (M ⟨i.toNat, row⟩ ⟨j.toNat, column⟩)) (i j : Fin n) :
    readElem getElem i j = M i j := by
  have index (i : Fin n) : (BitVec.ofNat 32 i).toNat = i := by
    rw [BitVec.toNat_ofNat]
    exact Nat.mod_eq_of_lt (small i)
  have row : (BitVec.ofNat 32 i).toNat < n := by
    rw [index]
    exact i.isLt
  have column : (BitVec.ofNat 32 j).toNat < n := by
    rw [index]
    exact j.isLt
  rw [readElem, (results _ _ row column).toRat_eq positive]
  simp only [index]

/-- The final iteration on the minors of the two highest orders yields the inverse. -/
theorem invertFromElements_minors {B : Matrix (Fin n) (Fin n) ℚ}
    (scratch : Fin 3 → Matrix (Fin n) (Fin n) ℚ) {intElem detElem : Matrix (Fin n) (Fin n) ℚ}
    (intRead : ∀ i j, intElem i j = B.cyclicMinor (n - 1) i j)
    (detRead : ∀ i j, detElem i j = B.cyclicMinor n i j) (nonsingular : B.det ≠ 0) :
    ∃ pad, invertFromElements (Arith.exact ℚ) isZero scratch intElem detElem = .ok pad ∧
      pad.matrixK pad.next * B = 1 ∧ B * pad.matrixK pad.next = 1 := by
  have sound (i j : Fin n) : isZero (detElem i j) = false := by
    rw [detRead]
    simpa [isZero, Matrix.cyclicMinor_size_eq_zero_iff] using nonsingular
  obtain ⟨pad, executed, quotient⟩ :=
    invertFromElements_ok (Arith.exact ℚ) isZero scratch intElem detElem sound
  have inverse : pad.matrixK pad.next = B⁻¹ :=
    quotient.trans (finalQuotient_eq_inv intRead detRead)
  have unit : IsUnit B.det := isUnit_iff_ne_zero.mpr nonsingular
  refine ⟨pad, executed, ?_, ?_⟩
  · rw [inverse, Matrix.nonsing_inv_mul B unit]
  · rw [inverse, Matrix.mul_nonsing_inv B unit]

section Exactness

variable {kk : KKIteration n (FixedPoint iw fw)} {puts : List (ElementPut (FixedPoint iw fw))}
  {A : Matrix (Fin n) (Fin n) ℤ}
  (outside : Matrix (Fin n) (Fin n) (FixedPoint iw fw) → BitVec 32 → BitVec 32 →
    FixedPoint iw fw)

theorem ComputesMinors.getIntElem {arith : Arith (FixedPoint iw fw)}
    (computes : ComputesMinors arith A) (two_le : 2 ≤ n)
    (progress : Progress arith (words iw fw A) (n + 1) kk)
    (i j : BitVec 32) (row : i.toNat < n) (column : j.toNat < n) :
    StandsFor (kk.getIntElem outside i j)
      (A.cyclicMinor (n - 1) ⟨i.toNat, row⟩ ⟨j.toNat, column⟩) := by
  rw [progress.getIntElem_eq outside two_le, select_of_lt outside _ row column]
  exact computes (n - 1) (by omega) _ _

theorem ComputesMinors.getDetElem {arith : Arith (FixedPoint iw fw)}
    (computes : ComputesMinors arith A) (progress : Progress arith (words iw fw A) (n + 1) kk)
    (i j : BitVec 32) (row : i.toNat < n) (column : j.toNat < n) :
    StandsFor (kk.getDetElem outside i j)
      (A.cyclicMinor n ⟨i.toNat, row⟩ ⟨j.toNat, column⟩) := by
  rw [progress.getDetElem_eq outside, select_of_lt outside _ row column]
  exact computes n le_rfl _ _

/-- Whatever the registers held before and however the rules interleave, a run on an integer
matrix in range returns the minors of the two highest orders, and the accelerated program turns
them into the inverse. -/
theorem accelerator_exact_of_inRange (ops : Operations iw fw)
    (scratch : Fin 3 → Matrix (Fin n) (Fin n) ℚ) (A : Matrix (Fin n) (Fin n) ℤ)
    (two_le : 2 ≤ n) (two_le_iw : 2 ≤ iw) (range : InRange iw A) (idle : kk.isRunning = false)
    (loaded : ∀ i j, lastPut puts i j = some (words iw fw A i j)) :
    (∃ trace after, Execution (KKFires ops.toArith) (putElems puts kk).start trace after ∧
      after.isRunning = false) ∧
    ∀ trace after, Execution (KKFires ops.toArith) (putElems puts kk).start trace after →
      after.isRunning = false →
      (∀ (i j : BitVec 32) (row : i.toNat < n) (column : j.toNat < n),
        (after.getIntElem outside i j).toRat =
            A.cyclicMinor (n - 1) ⟨i.toNat, row⟩ ⟨j.toNat, column⟩ ∧
          (after.getDetElem outside i j).toRat =
            A.cyclicMinor n ⟨i.toNat, row⟩ ⟨j.toNat, column⟩) ∧
      (A.det ≠ 0 →
        ∃ pad, invertFromElements (Arith.exact ℚ) isZero scratch
            (readElem (after.getIntElem outside)) (readElem (after.getDetElem outside)) =
            .ok pad ∧
          pad.matrixK pad.next * A.map (Int.cast : ℤ → ℚ) = 1 ∧
          A.map (Int.cast : ℤ → ℚ) * pad.matrixK pad.next = 1) := by
  have started : Progress ops.toArith (words iw fw A) 0 (putElems puts kk).start :=
    progress_of_loaded idle loaded
  have positive : 1 ≤ iw := by omega
  refine ⟨started.completes (by omega), fun trace after run done => ?_⟩
  have progress := started.run_finished (by omega) run done
  have computes := range.computesMinors ops two_le_iw
  have intElem := computes.getIntElem outside two_le progress
  have detElem := computes.getDetElem outside progress
  refine ⟨fun i j row column => ⟨?_, ?_⟩, fun nonsingular => ?_⟩
  · exact (intElem i j row column).toRat_eq positive
  · exact (detElem i j row column).toRat_eq positive
  · have rational (m : ℕ) (i j : Fin n) :
        ((A.cyclicMinor m i j : ℤ) : ℚ) = (A.map (Int.cast : ℤ → ℚ)).cyclicMinor m i j :=
      Matrix.map_cyclicMinor (Int.castRingHom ℚ) A m i j
    have determinant : ((A.det : ℤ) : ℚ) = (A.map (Int.cast : ℤ → ℚ)).det :=
      (Int.castRingHom ℚ).map_det A
    have small := lt_of_loaded loaded
    apply invertFromElements_minors scratch
    · intro i j
      rw [readElem_eq positive small intElem, rational]
    · intro i j
      rw [readElem_eq positive small detElem, rational]
    · rw [← determinant]
      exact_mod_cast nonsingular

/-- A matrix whose products wrap in four integer bits, although its determinant is one. -/
def wrappingProducts : Matrix (Fin 2) (Fin 2) ℤ := !![3, 2; 4, 3]

theorem inRange_wrappingProducts : InRange 4 wrappingProducts := by
  have entries (i j : Fin 2) : Fits 4 (wrappingProducts i j) := by
    fin_cases i <;> fin_cases j <;> simp [Fits, wrappingProducts]
  have determinants (i j : Fin 2) : Fits 4 (wrappingProducts.cyclicMinor 2 i j) := by
    rw [Matrix.cyclicMinor_size]
    fin_cases i <;> fin_cases j <;> simp [Fits, wrappingProducts, Matrix.det_fin_two]
  refine ⟨fun m positive bound => by omega, fun m positive bound i j => ?_,
    fun m positive bound i j => ?_⟩
  · obtain rfl | rfl : m = 1 ∨ m = 2 := by omega
    · rw [Matrix.cyclicMinor_one]
      exact entries i j
    · exact determinants i j
  · obtain rfl : m = 1 := by omega
    rw [Matrix.cyclicMinor_zero, mul_one]
    exact determinants i j

/-- The calls of `putElem` that load it. -/
def wrappingPuts : List (ElementPut (FixedPoint 4 4)) :=
  [⟨0, 0, ofInteger 3⟩, ⟨0, 1, ofInteger 2⟩, ⟨1, 0, ofInteger 4⟩, ⟨1, 1, ofInteger 3⟩]

/-- Idle registers with contents left over from before. -/
def usedRegisters : KKIteration 2 (FixedPoint 4 4) := KKIteration.reset (fun _ _ _ => 7) 5 true

theorem accelerator_exact_of_inRange_wrappingProducts :
    ∃ trace after,
      Execution (KKFires (truncatingOperations fun _ => 0).toArith)
        (putElems wrappingPuts usedRegisters).start trace after ∧
      (after.getDetElem (fun _ _ _ => 0) 0 0).toRat = wrappingProducts.cyclicMinor 2 0 0 := by
  have idle : usedRegisters.isRunning = false := by decide
  have loaded : ∀ i j : Fin 2,
      lastPut wrappingPuts i j = some (words 4 4 wrappingProducts i j) := by decide
  obtain ⟨⟨trace, after, run, done⟩, results⟩ :=
    accelerator_exact_of_inRange (fun _ _ _ => 0) (truncatingOperations fun _ => 0) (fun _ => 0)
      wrappingProducts le_rfl (by omega) inRange_wrappingProducts idle loaded
  exact ⟨trace, after, run, ((results trace after run done).1 0 0 (by decide) (by decide)).2⟩

end Exactness

end KKAccel
