import KKAccel.DriverCodec
import KKAccel.FloatSelfCheck
import KKAccel.IntegerExactness

/-!
# The accelerated program in floating point

`the_algorithm` of the accelerated program, with its requests: it converts and puts every element,
starts the accelerator, polls until it is idle, reads both result matrices and finishes in single
precision. On integer matrices in range the words on the bus are exact, so the only error of the
inverse is that of the last division.
-/

namespace KKAccel

open AtomicRules CellLoop FixedPoint

variable {n : ℕ}

/-- Transfer matrix; an element which cannot be converted stops the model. -/
def transferElements (matrixO : Matrix (Fin n) (Fin n) Binary32) (kk : KKIteration n (BitVec 32)) :
    Except (Fin n × Fin n) (KKIteration n (BitVec 32)) :=
  forCells
    (fun kk i j =>
      match kkPutelem (matrixO i j) (BitVec.ofNat 32 i) (BitVec.ofNat 32 j) with
      | some request => .ok (processWrite request.addr request.data kk)
      | none => .error (i, j))
    kk

section Requests

variable (arith : Arith (BitVec 32))
  (outside : Matrix (Fin n) (Fin n) (BitVec 32) → BitVec 32 → BitVec 32 → BitVec 32)

/-- The loop `while(kk_isrunning());`, between whose polls the accelerator runs. -/
inductive Waits : KKIteration n (BitVec 32) → KKIteration n (BitVec 32) → Prop
  | done {kk : KKIteration n (BitVec 32)} :
      PollEnds (processRead outside (wordAddress isrunningOffset) kk) → Waits kk kk
  | again {before middle after : KKIteration n (BitVec 32)} {rules : List KKRule} :
      ¬ PollEnds (processRead outside (wordAddress isrunningOffset) before) →
      Execution (KKFires arith) before rules middle →
      Waits middle after →
      Waits before after

/-- Get intermediate matrix element. -/
def kkGetintelem (kk : KKIteration n (BitVec 32)) (i j : Fin n) : Binary32 :=
  toFloat (processRead outside
    (wordAddress (getintelemOffset (BitVec.ofNat 32 i) (BitVec.ofNat 32 j))) kk)

/-- Get determinant matrix element. -/
def kkGetdetelem (kk : KKIteration n (BitVec 32)) (i j : Fin n) : Binary32 :=
  toFloat (processRead outside
    (wordAddress (getdetelemOffset (BitVec.ofNat 32 i) (BitVec.ofNat 32 j))) kk)

/-- The assignment `val += fabs(x)`: the function works in double precision, so the sum is rounded
once more when it is assigned. -/
def addFabs (val x : Binary32) : Binary32 := .ofRat (binary64.round (val.value + x.abs.value))

/-- Calculate error distance between calculated identity and true identity. -/
def calculateErrorSingle (matrix : Matrix (Fin n) (Fin n) Binary32) : Binary32 :=
  (List.finRange n).foldl
      (fun val i =>
        (List.finRange n).foldl
          (fun val j => addFabs val (.ofInt (if i = j then 1 else 0) - matrix i j)) val)
      (.ofInt 0) /
    .ofInt (n * n)

/-- The stages from the end of the accelerator's run. -/
def finishAccelerated (scratch : Fin 3 → Matrix (Fin n) (Fin n) Binary32)
    (matrixO : Matrix (Fin n) (Fin n) Binary32) (intElem detElem : Fin n → Fin n → Binary32) :
    Except (DivFault n) (FloatReport binary32 n) := do
  let pad ← invertFromElements (floatArith binary32) isZeroFloat scratch intElem detElem
  let matrixIC := multiplyMatrixFloat (pad.matrixK pad.next) matrixO
  return { pad, matrixIC, error := calculateErrorSingle matrixIC }

/-- Run the KK algorithm on an input matrix, with the accelerator in any state. -/
def TheAlgorithmAccelerated (scratch : Fin 3 → Matrix (Fin n) (Fin n) Binary32)
    (matrixO : Matrix (Fin n) (Fin n) Binary32) (kk : KKIteration n (BitVec 32))
    (computed : FloatReport binary32 n) : Prop :=
  ∃ loaded polled finished rules,
    transferElements matrixO kk = .ok loaded ∧
    Execution (KKFires arith) (processWrite (wordAddress startOffset) 0 loaded) rules polled ∧
    Waits arith outside polled finished ∧
    finishAccelerated scratch matrixO (kkGetintelem outside finished)
      (kkGetdetelem outside finished) = .ok computed

end Requests

section Waiting

variable {arith : Arith (BitVec 32)}
  {outside : Matrix (Fin n) (Fin n) (BitVec 32) → BitVec 32 → BitVec 32 → BitVec 32}

theorem Waits.execution {before after : KKIteration n (BitVec 32)}
    (waits : Waits arith outside before after) :
    (∃ rules, Execution (KKFires arith) before rules after) ∧ after.isRunning = false := by
  induction waits with
  | done ends => exact ⟨⟨[], .nil _⟩, (pollEnds_isrunning outside).mp ends⟩
  | again _ executed _ induction =>
      obtain ⟨⟨rules, rest⟩, idle⟩ := induction
      exact ⟨⟨_, executed.append rest⟩, idle⟩

end Waiting

section Transfer

variable {A : Matrix (Fin n) (Fin n) ℤ}

theorem abs_le_of_fits {a : ℤ} (fits : Fits 16 a) : |a| ≤ 2 ^ binary32.precision := by
  obtain ⟨lower, upper⟩ := fits
  norm_num [binary32] at lower upper ⊢
  rw [abs_le]
  omega

theorem value_ofInt_of_fits {a : ℤ} (fits : Fits 16 a) :
    (BinaryFloat.ofInt a : Binary32).value = a :=
  BinaryFloat.value_ofInt
    (FloatFormat.representable_intCast (abs_le_of_fits fits) (by decide))

theorem toBit_ofInt {a : ℤ} (fits : Fits 16 a) :
    toBit (.ofInt a) = some (ofInteger a : FixedPoint 16 16) := by
  have value := value_ofInt_of_fits fits
  have lower : -2 ^ 15 ≤ (BinaryFloat.ofInt a : Binary32).value := by
    rw [value]
    exact_mod_cast fits.1
  have upper : (BinaryFloat.ofInt a : Binary32).value < 2 ^ 15 := by
    rw [value]
    exact_mod_cast fits.2
  obtain ⟨word, converted, truncated⟩ := toBit_of_bounds lower upper
  have scaled : (BinaryFloat.ofInt a : Binary32).value * 2 ^ 16 = ((a * 2 ^ 16 : ℤ) : ℚ) := by
    rw [value]
    push_cast
    rfl
  rw [scaled, Int.truncate_intCast, ← toInt_ofInteger (by omega) fits] at truncated
  rw [converted]
  exact congrArg some (BitVec.toInt_inj.mp truncated)

/-- What `kk_putelem` makes of the elements of an integer matrix. -/
def integerPuts (A : Matrix (Fin n) (Fin n) ℤ) : List (ElementPut (BitVec 32)) :=
  (cells n).map fun position =>
    ⟨BitVec.ofNat 32 position.1, BitVec.ofNat 32 position.2,
      words 16 16 A position.1 position.2⟩

theorem transferElements_ok (size : n ≤ 256) (fits : ∀ i j, Fits 16 (A i j))
    (kk : KKIteration n (BitVec 32)) :
    transferElements (floats binary32 A) kk = .ok (putElems (integerPuts A) kk) := by
  have request (i j : Fin n) : kkPutelem (floats binary32 A i j) (BitVec.ofNat 32 i)
      (BitVec.ofNat 32 j) =
        some ⟨wordAddress (putelemOffset (BitVec.ofNat 32 i) (BitVec.ofNat 32 j)),
          words 16 16 A i j, .write⟩ := by
    rw [kkPutelem, floats, Matrix.map_apply, toBit_ofInt (fits i j)]
    rfl
  rw [transferElements, forCells_eq_foldlM, putElems, integerPuts, List.foldl_map]
  simp only [request, processWrite_putelem size]
  exact List.foldlM_pure

theorem lastPut_integerPuts (size : n ≤ 256) (A : Matrix (Fin n) (Fin n) ℤ) (i j : Fin n) :
    lastPut (integerPuts A) i j = some (words 16 16 A i j) := by
  have found : ∃ put, ((integerPuts A).filter fun put =>
      decide (i.val = put.i.toNat ∧ j.val = put.j.toNat)).getLast? = some put := by
    rw [← Option.isSome_iff_exists, List.getLast?_isSome]
    apply List.ne_nil_of_mem
    rw [List.mem_filter, decide_eq_true_iff]
    exact ⟨List.mem_map.mpr ⟨(i, j), mem_cells _, rfl⟩, (toNat_index (by omega) i).symm,
      (toNat_index (by omega) j).symm⟩
  obtain ⟨put, last⟩ := found
  have member := List.mem_of_getLast? last
  rw [List.mem_filter, decide_eq_true_iff] at member
  obtain ⟨element, row, column⟩ := member
  obtain ⟨position, -, rfl⟩ := List.mem_map.mp element
  rw [toNat_index (by omega)] at row column
  rw [lastPut, last, Option.map_some, Fin.ext row, Fin.ext column]

end Transfer

section Results

variable {A : Matrix (Fin n) (Fin n) ℤ} {kk : KKIteration n (BitVec 32)}
  {arith : Arith (FixedPoint 16 16)}
  {outside : Matrix (Fin n) (Fin n) (BitVec 32) → BitVec 32 → BitVec 32 → BitVec 32}

theorem value_toFloat_of_standsFor {word : FixedPoint 16 16} {a : ℤ} (stands : StandsFor word a) :
    (toFloat word).value = a := by
  have representable : binary32.Representable word.toInt := by
    have integer := (BinaryFloat.ofInt a : Binary32).representable.mul_two_pow 16
    rw [value_ofInt_of_fits stands.1] at integer
    rw [stands.toInt_eq (by omega)]
    push_cast
    exact integer
  exact (value_toFloat representable).trans (stands.toRat_eq (by omega))

theorem value_kkGetelem (computes : ComputesMinors arith A) (two_le : 2 ≤ n) (size : n ≤ 256)
    (progress : Progress arith (words 16 16 A) (n + 1) kk) (i j : Fin n) :
    (kkGetintelem outside kk i j).value = A.cyclicMinor (n - 1) i j ∧
      (kkGetdetelem outside kk i j).value = A.cyclicMinor n i j := by
  have row := toNat_index (by omega) i
  have column := toNat_index (by omega) j
  have intElem := computes.getIntElem outside two_le progress (BitVec.ofNat 32 i)
    (BitVec.ofNat 32 j) (by omega) (by omega)
  have detElem := computes.getDetElem outside progress (BitVec.ofNat 32 i)
    (BitVec.ofNat 32 j) (by omega) (by omega)
  simp only [row, column] at intElem detElem
  constructor
  · rw [kkGetintelem, processRead_getintelem outside size]
    exact value_toFloat_of_standsFor intElem
  · rw [kkGetdetelem, processRead_getdetelem outside size]
    exact value_toFloat_of_standsFor detElem

theorem ComputesMinors.fits (computes : ComputesMinors arith A) (i j : Fin n) :
    Fits 16 (A i j) := by
  rw [← Matrix.cyclicMinor_one A i j]
  exact (computes 1 i.pos i j).1

/-- The final iteration rounds the entries of the inverse. -/
theorem finishAccelerated_ok (scratch : Fin 3 → Matrix (Fin n) (Fin n) Binary32)
    (computes : ComputesMinors arith A) (two_le : 2 ≤ n) (size : n ≤ 256)
    (nonsingular : A.det ≠ 0) (progress : Progress arith (words 16 16 A) (n + 1) kk) :
    ∃ computed, finishAccelerated scratch (floats binary32 A) (kkGetintelem outside kk)
        (kkGetdetelem outside kk) = .ok computed ∧
      (∀ i j, (computed.inverted i j).value =
        binary32.round ((A.map (Int.cast : ℤ → ℚ))⁻¹ i j)) ∧
      computed.matrixIC = multiplyMatrixFloat computed.inverted (floats binary32 A) := by
  have elements := @value_kkGetelem n A kk arith outside computes two_le size progress
  have sound (i j : Fin n) : isZeroFloat (kkGetdetelem outside kk i j) = false := by
    rw [isZeroFloat_eq_false_iff, (elements i j).2, Int.cast_ne_zero, ne_eq,
      Matrix.cyclicMinor_size_eq_zero_iff]
    exact nonsingular
  obtain ⟨pad, executed, quotient⟩ := invertFromElements_ok (floatArith binary32) isZeroFloat
    scratch (kkGetintelem outside kk) (kkGetdetelem outside kk) sound
  refine ⟨_, by rw [finishAccelerated, executed]; rfl, fun i j => ?_, rfl⟩
  rw [Matrix.inv_apply_eq_cyclicMinor_div, ← cast_cyclicMinor, ← cast_cyclicMinor,
    ← (elements _ _).1, ← (elements i j).2]
  exact congrArg BinaryFloat.value (congrFun₂ quotient i j)

/-- On a singular matrix every divisor of the final iteration is zero. -/
theorem finishAccelerated_fault (scratch : Fin 3 → Matrix (Fin n) (Fin n) Binary32)
    (computes : ComputesMinors arith A) (two_le : 2 ≤ n) (size : n ≤ 256)
    (singular : A.det = 0) (progress : Progress arith (words 16 16 A) (n + 1) kk) :
    ∃ i j, finishAccelerated scratch (floats binary32 A) (kkGetintelem outside kk)
      (kkGetdetelem outside kk) = .error (.final i j) := by
  have elements := @value_kkGetelem n A kk arith outside computes two_le size progress
  have unsound : ∃ i j, isZeroFloat (kkGetdetelem outside kk i j) = true := by
    refine ⟨⟨0, by omega⟩, ⟨0, by omega⟩, ?_⟩
    rw [isZeroFloat, (elements _ _).2, beq_iff_eq, Int.cast_eq_zero,
      Matrix.cyclicMinor_size_eq_zero_iff]
    exact singular
  obtain ⟨i, j, stopped⟩ := invertFromElements_fault (floatArith binary32) isZeroFloat scratch
    (kkGetintelem outside kk) (kkGetdetelem outside kk) unsound
  refine ⟨i, j, ?_⟩
  rw [finishAccelerated, stopped]
  rfl

theorem progress_of_transferred {loaded current : KKIteration n (BitVec 32)} {rules : List KKRule}
    (positive : 1 ≤ n) (size : n ≤ 256) (fits : ∀ i j, Fits 16 (A i j))
    (idle : kk.isRunning = false)
    (transferred : transferElements (floats binary32 A) kk = .ok loaded)
    (executed : Execution (KKFires arith) (processWrite (wordAddress startOffset) 0 loaded)
      rules current)
    (done : current.isRunning = false) : Progress arith (words 16 16 A) (n + 1) current := by
  rw [transferElements_ok size fits] at transferred
  obtain rfl := Except.ok.inj transferred
  rw [processWrite_start] at executed
  have started : Progress arith (words 16 16 A) 0 (putElems (integerPuts A) kk).start :=
    progress_of_loaded idle (lastPut_integerPuts size A)
  exact started.run_finished positive executed done

/-- A run of the program takes the accelerator through a complete run on the words of the matrix. -/
theorem TheAlgorithmAccelerated.finished {scratch : Fin 3 → Matrix (Fin n) (Fin n) Binary32}
    {computed : FloatReport binary32 n} (positive : 1 ≤ n) (size : n ≤ 256)
    (fits : ∀ i j, Fits 16 (A i j)) (idle : kk.isRunning = false)
    (run : TheAlgorithmAccelerated arith outside scratch (floats binary32 A) kk computed) :
    ∃ finished, Progress arith (words 16 16 A) (n + 1) finished ∧
      finishAccelerated scratch (floats binary32 A) (kkGetintelem outside finished)
        (kkGetdetelem outside finished) = .ok computed := by
  obtain ⟨loaded, polled, finished, rules, transferred, executed, waits, completed⟩ := run
  obtain ⟨⟨rest, executedRest⟩, done⟩ := waits.execution
  exact ⟨finished, progress_of_transferred positive size fits idle transferred
    (executed.append executedRest) done, completed⟩

/-- On every nonsingular integer matrix in range the accelerated program can be run to its end,
whatever the accelerator held before; and however its requests and the rules interleave, every entry
of the inverse is the number nearest to the true one, and the calculated identity deviates by the
roundings of its entries at most. -/
theorem theAlgorithmAccelerated_rounds (ops : ExactOperations 16 16)
    (outside : Matrix (Fin n) (Fin n) (BitVec 32) → BitVec 32 → BitVec 32 → BitVec 32)
    (scratch : Fin 3 → Matrix (Fin n) (Fin n) Binary32) (A : Matrix (Fin n) (Fin n) ℤ)
    (two_le : 2 ≤ n) (size : n ≤ 256) (range : InRangeThroughout 16 A)
    (nonsingular : A.det ≠ 0) (idle : kk.isRunning = false) :
    (∃ computed,
      TheAlgorithmAccelerated ops.toArith outside scratch (floats binary32 A) kk computed) ∧
    ∀ computed,
      TheAlgorithmAccelerated ops.toArith outside scratch (floats binary32 A) kk computed →
      (∀ i j, (computed.inverted i j).value =
        binary32.round ((A.map (Int.cast : ℤ → ℚ))⁻¹ i j)) ∧
      ∀ i j, |(computed.matrixIC i j).value - (1 : Matrix (Fin n) (Fin n) ℚ) i j| ≤
        binary32.growth (n + 2) * cancellation A i j := by
  have computes := range.computesMinors ops (by omega)
  have fits := computes.fits
  constructor
  · have started : Progress ops.toArith (words 16 16 A) 0 (putElems (integerPuts A) kk).start :=
      progress_of_loaded idle (lastPut_integerPuts size A)
    obtain ⟨rules, finished, executed, done⟩ := started.completes (by omega)
    have progress := started.run_finished (by omega) executed done
    obtain ⟨computed, completed, -⟩ :=
      finishAccelerated_ok scratch computes two_le size nonsingular progress
    refine ⟨computed, _, finished, finished, rules, transferElements_ok size fits kk, ?_,
      .done ((pollEnds_isrunning outside).mpr done), completed⟩
    rw [processWrite_start]
    exact executed
  · intro computed run
    obtain ⟨finished, progress, completed⟩ := run.finished (by omega) size fits idle
    obtain ⟨computed', completed', rounded, identity⟩ :=
      finishAccelerated_ok scratch computes two_le size nonsingular progress
    obtain rfl : computed = computed' := by
      rw [completed] at completed'
      exact Except.ok.inj completed'
    refine ⟨rounded, fun i j => ?_⟩
    rw [identity, abs_sub_comm]
    exact identity_error (by decide) (fun i j => abs_le_of_fits (fits i j))
      (fun i j => abs_le_of_fits (computes n le_rfl i j).1) nonsingular rounded i j

end Results

theorem fits_of_abs_lt {a : ℤ} (small : |a| < 2 ^ 15) : Fits 16 a := by
  obtain ⟨lower, upper⟩ := abs_lt.mp small
  exact ⟨lower.le, upper⟩

theorem inRange_integerMatrixO : InRangeThroughout 16 (integerMatrixO 3) := by
  have entries : ∀ i j : Fin 3, |integerMatrixO 3 i j| ≤ 9 := by decide
  have nonzero : ∀ i j : Fin 3, |integerMatrixO 3 i j| ≠ 0 := by decide
  have second (i j : Fin 3) : |(integerMatrixO 3).cyclicMinor 2 i j| ≤ 162 := by
    apply (abs_cyclicMinor_le entries 2 i j).trans
    norm_num [minorBound, Nat.factorial]
  have third (i j : Fin 3) : |(integerMatrixO 3).cyclicMinor 3 i j| = 2 := by
    have determinant : (integerMatrixO 3).det = 2 := by decide
    rw [Matrix.cyclicMinor_size, determinant, abs_mul, abs_pow, abs_neg, abs_one, one_pow]
    rfl
  have products {m : ℕ} {size : ℤ} (small : size * size < 2 ^ 15)
      (minors : ∀ i j, |(integerMatrixO 3).cyclicMinor m i j| ≤ size) (i j row column : Fin 3) :
      Fits 16 ((integerMatrixO 3).cyclicMinor m i j *
        (integerMatrixO 3).cyclicMinor m row column) := by
    apply fits_of_abs_lt
    rw [abs_mul]
    exact (mul_le_mul (minors i j) (minors row column) (abs_nonneg _)
      ((abs_nonneg _).trans (minors i j))).trans_lt small
  refine ⟨⟨fun m positive bound => ?_, fun m positive bound i j => ?_,
    fun m positive bound i j => ?_⟩, fun m positive bound i j => ?_⟩
  · obtain rfl : m = 1 := by omega
    intro i j
    rw [Matrix.cyclicMinor_one]
    exact abs_ne_zero.mp (nonzero i j)
  · obtain rfl | rfl | rfl : m = 1 ∨ m = 2 ∨ m = 3 := by omega
    · rw [Matrix.cyclicMinor_one]
      exact fits_of_abs_lt ((entries i j).trans_lt (by norm_num))
    · exact fits_of_abs_lt ((second i j).trans_lt (by norm_num))
    · exact fits_of_abs_lt ((third i j).le.trans_lt (by norm_num))
  · obtain rfl | rfl : m = 1 ∨ m = 2 := by omega
    · rw [Matrix.cyclicMinor_zero, mul_one]
      exact fits_of_abs_lt ((second i j).trans_lt (by norm_num))
    · apply fits_of_abs_lt
      rw [abs_mul, third, Matrix.cyclicMinor_one]
      linarith [entries (i.wrapAdd 1) (j.wrapAdd 1)]
  · obtain rfl | rfl : m = 1 ∨ m = 2 := by omega
    · have first (i j : Fin 3) : |(integerMatrixO 3).cyclicMinor 1 i j| ≤ 9 := by
        rw [Matrix.cyclicMinor_one]
        exact entries i j
      exact ⟨products (by norm_num) first _ _ _ _, products (by norm_num) first _ _ _ _⟩
    · exact ⟨products (by norm_num) second _ _ _ _, products (by norm_num) second _ _ _ _⟩

/-- The `3 x 3` matrix, on a saturating accelerator which has been used before. -/
theorem theAlgorithmAccelerated_rounds_matrixO :
    ∃ computed, TheAlgorithmAccelerated (@saturating 16 16 fun _ => 0) (fun _ _ _ => 0)
        (fun _ _ _ => .ofInt 0) (floats binary32 (integerMatrixO 3))
        (KKIteration.reset (fun _ _ _ => 7) 5 true) computed ∧
      ∀ i j, (computed.inverted i j).value = binary32.round ((matrixO 3)⁻¹ i j) := by
  have nonsingular : (integerMatrixO 3).det ≠ 0 := by decide
  obtain ⟨⟨computed, run⟩, results⟩ :=
    theAlgorithmAccelerated_rounds (saturatingOperations fun _ => 0) (fun _ _ _ => 0)
      (fun _ _ _ => .ofInt 0) (integerMatrixO 3) (by omega) (by omega) inRange_integerMatrixO
      nonsingular (show (KKIteration.reset (fun _ _ _ => 7) 5 true).isRunning = false by decide)
  have rounded := (results computed run).1
  rw [integerMatrixO_map] at rounded
  exact ⟨computed, run, rounded⟩

end KKAccel
