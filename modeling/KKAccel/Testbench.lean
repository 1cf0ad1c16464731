import KKAccel.BuiltinInputs
import KKAccel.DivZero

/-!
# The test bench

`mkTbKKIteration` of `TbKKIteration.bsv`: it puts a matrix into the accelerator, starts it, waits
and prints the results. In one clock cycle either one of its rules fires or the accelerator runs,
never both, so what it prints is determined.
-/

namespace KKAccel

open AtomicRules CellLoop FixedPoint Slot

variable {n : ℕ}

/-- What is written on the simulator's output. -/
inductive Output
  /-- A fixed-point number with so many fractional digits. -/
  | fxptWrite (digits : ℕ) (a : FixedPoint 16 16)
  | write (text : String)
  /-- A line with one number in it. -/
  | display (text : String) (number : BitVec 32)
  deriving DecidableEq

/-- The registers of the test bench, the accelerator inside it, and the simulation. -/
structure Testbench (n : ℕ) where
  /-- State register. -/
  rState : BitVec 32
  /-- The accelerator. -/
  kk : KKIteration n (FixedPoint 16 16)
  /-- What has been written so far. -/
  written : List Output
  /-- The task `$finish` has been called. -/
  finished : Bool

namespace Testbench

/-- The registers after reset, with arbitrary contents in those without an initial value. -/
def reset (rX : Fin 3 → Matrix (Fin n) (Fin n) (FixedPoint 16 16)) (rCounter : BitVec 32)
    (rDivZero : Bool) : Testbench n where
  rState := 0
  kk := KKIteration.reset rX rCounter rDivZero
  written := []
  finished := false

/-- Test input matrix, five by five. -/
def testX (i j : BitVec 32) : FixedPoint 16 16 :=
  ofInteger (((matrixORows 5).getD i.toNat []).getD j.toNat 0 : ℕ)

/-- The conversion `fromInteger(n)`. -/
def fromInteger (n : ℕ) : BitVec 32 := BitVec.ofNat 32 n

/-- Put data on DUT; the input matrix `rX` of the test bench is a parameter. -/
def putData (rX : BitVec 32 → BitVec 32 → FixedPoint 16 16) : Rule (Testbench n) where
  guard tb := decide (tb.rState < fromInteger n * fromInteger n)
  action tb :=
    let i := tb.rState / fromInteger n
    let j := tb.rState % fromInteger n
    { tb with kk := tb.kk.putElem i j (rX i j), rState := tb.rState + 1 }

/-- Start DUT. -/
def iterate : Rule (Testbench n) where
  guard tb := fromInteger n * fromInteger n == tb.rState
  action tb := { tb with kk := tb.kk.start, rState := tb.rState + 1 }

section Printing

variable (outside : Matrix (Fin n) (Fin n) (FixedPoint 16 16) → BitVec 32 → BitVec 32 →
  FixedPoint 16 16)

/-- Wait for DUT to finish and print intermediate matrix. -/
def waitAndPrintResults : Rule (Testbench n) where
  guard tb := decide (tb.rState > fromInteger n * fromInteger n) &&
    decide (tb.rState ≤ 2 * fromInteger n * fromInteger n) && !tb.kk.isRunning
  action tb :=
    let i := (tb.rState - fromInteger n * fromInteger n - 1) / fromInteger n
    let j := (tb.rState - fromInteger n * fromInteger n - 1) % fromInteger n
    { tb with
      written := tb.written ++
        [.fxptWrite 3 (tb.kk.getIntElem outside i j),
          if fromInteger n - 1 = j then .write "\n" else .write " "]
      rState := tb.rState + 1 }

/-- Print remaining information provided by the DUT. -/
def printTheRest : Rule (Testbench n) where
  guard tb := decide (tb.rState > 2 * fromInteger n * fromInteger n)
  action tb :=
    { tb with
      written := tb.written ++
        [.write "Determinant: ",
          .fxptWrite 3 (tb.kk.getDetElem outside 0 0),
          .write "\n",
          .display "Division by zero? %d" ((BitVec.ofBool tb.kk.divZero).setWidth 32),
          .display "Ticks: %d" tb.kk.getCounter]
      finished := true }

end Printing

end Testbench

/-- The rules of the test bench. -/
inductive TestbenchRule
  | putData
  | iterate
  | waitAndPrintResults
  | printTheRest
  deriving DecidableEq

/-- The rule of each name. -/
def TestbenchRule.rule (rX : BitVec 32 → BitVec 32 → FixedPoint 16 16)
    (outside : Matrix (Fin n) (Fin n) (FixedPoint 16 16) → BitVec 32 → BitVec 32 →
      FixedPoint 16 16) : TestbenchRule → Rule (Testbench n)
  | putData => Testbench.putData rX
  | iterate => Testbench.iterate
  | waitAndPrintResults => Testbench.waitAndPrintResults outside
  | printTheRest => Testbench.printTheRest outside

section Steps

variable (arith : Arith (FixedPoint 16 16)) (rX : BitVec 32 → BitVec 32 → FixedPoint 16 16)
  (outside : Matrix (Fin n) (Fin n) (FixedPoint 16 16) → BitVec 32 → BitVec 32 →
    FixedPoint 16 16)

/-- Until the simulation finishes, a rule of the test bench fires, or the accelerator runs for one
clock cycle. -/
inductive TestbenchStep : Testbench n → Option TestbenchRule → Testbench n → Prop
  | rule {before after : Testbench n} {label : TestbenchRule} :
      before.finished = false →
      Fires (TestbenchRule.rule rX outside) before label after →
      TestbenchStep before (some label) after
  | cycle {before : Testbench n} :
      before.finished = false →
      before.kk.isRunning = true →
      TestbenchStep before none { before with kk := kkCycle arith before.kk }

end Steps

/-- The matrix which is put into the accelerator. -/
def testMatrix (rX : BitVec 32 → BitVec 32 → FixedPoint 16 16) (n : ℕ) :
    Matrix (Fin n) (Fin n) (FixedPoint 16 16) :=
  fun i j => rX (BitVec.ofNat 32 i) (BitVec.ofNat 32 j)

/-- The first elements of a matrix, a line of it on each line. -/
def printedElements (M : Matrix (Fin n) (Fin n) (FixedPoint 16 16)) (count : ℕ) : List Output :=
  ((cells n).take count).flatMap fun position =>
    [.fxptWrite 3 (M position.1 position.2),
      if n - 1 = position.2 then .write "\n" else .write " "]

/-- The matrix of order `n - 1`, the corner of the matrix of order `n`, whether the former has a
zero, and the number of iterations. -/
def expectedReport (arith : Arith (FixedPoint 16 16))
    (rX : BitVec 32 → BitVec 32 → FixedPoint 16 16) (corner : Fin n) : List Output :=
  printedElements (arith.condense (testMatrix rX n) (n - 1)) (n * n) ++
    [.write "Determinant: ",
      .fxptWrite 3 (arith.condense (testMatrix rX n) n corner corner),
      .write "\n",
      .display "Division by zero? %d"
        ((BitVec.ofBool (decide (HasZero arith (testMatrix rX n) (n - 1)))).setWidth 32),
      .display "Ticks: %d" (BitVec.ofNat 32 n)]

section Guards

variable {tb : Testbench n} {t : ℕ} {rX : BitVec 32 → BitVec 32 → FixedPoint 16 16}
  {outside : Matrix (Fin n) (Fin n) (FixedPoint 16 16) → BitVec 32 → BitVec 32 →
    FixedPoint 16 16}

theorem size_lt (small : 2 * (n * n) + 1 < 2 ^ 32) : n < 2 ^ 32 := by
  have square := Nat.le_mul_self n
  omega

theorem fromInteger_toNat (small : 2 * (n * n) + 1 < 2 ^ 32) :
    (Testbench.fromInteger n).toNat = n := by
  rw [Testbench.fromInteger, BitVec.toNat_ofNat]
  exact Nat.mod_eq_of_lt (size_lt small)

theorem fromInteger_square_toNat (small : 2 * (n * n) + 1 < 2 ^ 32) :
    (Testbench.fromInteger n * Testbench.fromInteger n).toNat = n * n := by
  rw [BitVec.toNat_mul, fromInteger_toNat small]
  exact Nat.mod_eq_of_lt (by omega)

theorem two_mul_square_toNat (small : 2 * (n * n) + 1 < 2 ^ 32) :
    (2 * Testbench.fromInteger n * Testbench.fromInteger n).toNat = 2 * (n * n) := by
  have two : (2 : BitVec 32).toNat = 2 := rfl
  rw [BitVec.mul_assoc, BitVec.toNat_mul, fromInteger_square_toNat small, two]
  exact Nat.mod_eq_of_lt (by omega)

theorem putData_guard_iff (small : 2 * (n * n) + 1 < 2 ^ 32) :
    (Testbench.putData rX).guard tb = true ↔ tb.rState.toNat < n * n := by
  rw [Testbench.putData, decide_eq_true_iff, BitVec.lt_def, fromInteger_square_toNat small]

theorem iterate_testbench_guard_iff (small : 2 * (n * n) + 1 < 2 ^ 32) :
    Testbench.iterate.guard tb = true ↔ tb.rState.toNat = n * n := by
  rw [Testbench.iterate, beq_iff_eq, ← BitVec.toNat_inj, fromInteger_square_toNat small, eq_comm]

theorem waitAndPrintResults_guard_iff (small : 2 * (n * n) + 1 < 2 ^ 32) :
    (Testbench.waitAndPrintResults outside).guard tb = true ↔
      n * n < tb.rState.toNat ∧ tb.rState.toNat ≤ 2 * (n * n) ∧ tb.kk.isRunning = false := by
  simp only [Testbench.waitAndPrintResults, Bool.and_eq_true, decide_eq_true_iff,
    Bool.not_eq_true', gt_iff_lt, BitVec.lt_def, BitVec.le_def, fromInteger_square_toNat small,
    two_mul_square_toNat small, and_assoc]

theorem printTheRest_guard_iff (small : 2 * (n * n) + 1 < 2 ^ 32) :
    (Testbench.printTheRest outside).guard tb = true ↔ 2 * (n * n) < tb.rState.toNat := by
  simp only [Testbench.printTheRest, decide_eq_true_iff, gt_iff_lt, BitVec.lt_def,
    two_mul_square_toNat small]

theorem rState_succ_toNat (small : 2 * (n * n) + 1 < 2 ^ 32) (state : tb.rState.toNat = t)
    (bound : t ≤ 2 * (n * n)) : (tb.rState + 1).toNat = t + 1 := by
  have one : (1 : BitVec 32).toNat = 1 := rfl
  rw [BitVec.toNat_add, state, one]
  exact Nat.mod_eq_of_lt (by omega)

theorem printing_toNat (small : 2 * (n * n) + 1 < 2 ^ 32) {s : ℕ}
    (state : tb.rState.toNat = n * n + 1 + s) :
    (tb.rState - Testbench.fromInteger n * Testbench.fromInteger n - 1).toNat = s := by
  have square := fromInteger_square_toNat small
  have one : (1 : BitVec 32).toNat = 1 := rfl
  have difference :
      (tb.rState - Testbench.fromInteger n * Testbench.fromInteger n).toNat = 1 + s := by
    rw [BitVec.toNat_sub_of_le (by rw [BitVec.le_def]; omega)]
    omega
  rw [BitVec.toNat_sub_of_le (by rw [BitVec.le_def]; omega)]
  omega

theorem lastColumn_iff (small : 2 * (n * n) + 1 < 2 ^ 32) {j : Fin n} :
    Testbench.fromInteger n - 1 = BitVec.ofNat 32 j ↔ n - 1 = j := by
  have size := fromInteger_toNat small
  have one : (1 : BitVec 32).toNat = 1 := rfl
  have positive := j.pos
  rw [← BitVec.toNat_inj, toNat_index (size_lt small).le,
    BitVec.toNat_sub_of_le (by rw [BitVec.le_def]; omega), size, one]

theorem exists_position (bound : t < n * n) :
    ∃ i j : Fin n, i.val = t / n ∧ j.val = t % n ∧ t = i * n + j := by
  have positive : 0 < n := Nat.pos_of_ne_zero (by rintro rfl; omega)
  exact ⟨⟨t / n, Nat.div_lt_of_lt_mul bound⟩, ⟨t % n, Nat.mod_lt t positive⟩, rfl, rfl,
    (Nat.div_add_mod' t n).symm⟩

theorem position_injective {i j row column : Fin n}
    (equal : (i * n + j : ℕ) = row * n + column) : i = row ∧ j = column := by
  have quotient (i j : Fin n) : (i * n + j : ℕ) / n = i ∧ (i * n + j : ℕ) % n = j :=
    (Nat.div_mod_unique i.pos).mpr ⟨by ring, j.isLt⟩
  have first := quotient i j
  rw [equal] at first
  exact ⟨Fin.ext (first.1.symm.trans (quotient row column).1),
    Fin.ext (first.2.symm.trans (quotient row column).2)⟩

theorem index_toNat (small : 2 * (n * n) + 1 < 2 ^ 32) {value : BitVec 32}
    (toNat : value.toNat = t) {i j : Fin n} (row : i.val = t / n) (column : j.val = t % n) :
    value / Testbench.fromInteger n = BitVec.ofNat 32 i ∧
      value % Testbench.fromInteger n = BitVec.ofNat 32 j := by
  constructor
  · rw [← BitVec.toNat_inj, BitVec.toNat_udiv, toNat, fromInteger_toNat small,
      toNat_index (size_lt small).le, row]
  · rw [← BitVec.toNat_inj, BitVec.toNat_umod, toNat, fromInteger_toNat small,
      toNat_index (size_lt small).le, column]

end Guards

section Started

variable {arith : Arith (FixedPoint 16 16)} {rX : BitVec 32 → BitVec 32 → FixedPoint 16 16}
  {kk : KKIteration n (FixedPoint 16 16)}

theorem Progress.getCounter_cycles {A : Matrix (Fin n) (Fin n) (FixedPoint 16 16)}
    (progress : Progress arith A 0 kk) (positive : 1 ≤ n) {k : ℕ} (bound : k ≤ n) :
    ((kkCycle arith)^[k + 1] kk).getCounter = BitVec.ofNat 32 k := by
  have room := two_mul_add_three_le_stateMaxVal n
  induction k with
  | zero =>
      cases progress with
      | pending state =>
          rw [Function.iterate_one, kkCycle_of_pending state]
          rfl
  | succ k induction =>
      have reached := progress.cycles positive (k + 1) (by omega)
      rw [Nat.zero_add] at reached
      rw [Function.iterate_succ_apply']
      cases reached with
      | finished => omega
      | iterating _ state =>
          rw [kkCycle_of_iterating (by omega), BitVec.ofNat_add, ← induction (by omega)]
          rfl

/-- The accelerator has been started on the test matrix and has run for so many cycles. -/
def Started (arith : Arith (FixedPoint 16 16))
    (rX : BitVec 32 → BitVec 32 → FixedPoint 16 16) (k : ℕ)
    (kk : KKIteration n (FixedPoint 16 16)) : Prop :=
  ∃ before : KKIteration n (FixedPoint 16 16),
    before.isRunning = false ∧ before.rX 1 = testMatrix rX n ∧
      kk = (kkCycle arith)^[k] before.start

namespace Started

variable {k : ℕ}

theorem progress (started : Started arith rX k kk) (positive : 1 ≤ n) (bound : k ≤ n + 1) :
    Progress arith (testMatrix rX n) k kk := by
  obtain ⟨before, idle, loaded, rfl⟩ := started
  simpa using (Progress.of_start idle loaded).cycles positive k (by omega)

theorem cycle (started : Started arith rX k kk) : Started arith rX (k + 1) (kkCycle arith kk) := by
  obtain ⟨before, idle, loaded, rfl⟩ := started
  exact ⟨before, idle, loaded, (Function.iterate_succ_apply' _ _ _).symm⟩

theorem getCounter (started : Started arith rX (n + 1) kk) (positive : 1 ≤ n) :
    kk.getCounter = BitVec.ofNat 32 n := by
  obtain ⟨before, idle, loaded, rfl⟩ := started
  exact (Progress.of_start idle loaded).getCounter_cycles positive le_rfl

theorem divZero (started : Started arith rX (n + 1) kk) (two_le : 2 ≤ n) :
    kk.divZero = decide (HasZero arith (testMatrix rX n) (n - 1)) := by
  obtain ⟨before, idle, loaded, rfl⟩ := started
  have loadedStart : Progress arith (testMatrix rX n) 0 before.start := .of_start idle loaded
  have flag := loadedStart.divZero_cycles (show n - 1 < n by omega)
  rw [show n - 1 + 2 = n + 1 by omega] at flag
  rw [Bool.eq_iff_iff, flag, decide_eq_true_iff]
  exact and_iff_right (by omega)

end Started

end Started

theorem printedElements_succ (M : Matrix (Fin n) (Fin n) (FixedPoint 16 16)) {s : ℕ} {i j : Fin n}
    (position : s = i * n + j) :
    printedElements M (s + 1) = printedElements M s ++
      [.fxptWrite 3 (M i j), if n - 1 = j then .write "\n" else .write " "] := by
  rw [printedElements, List.take_add_one, position, getElem?_cells, List.flatMap_append,
    printedElements]
  rfl

/-- What holds after so many steps. -/
inductive Testbench.Stage (arith : Arith (FixedPoint 16 16))
    (rX : BitVec 32 → BitVec 32 → FixedPoint 16 16) (corner : Fin n) : ℕ → Testbench n → Prop
  /-- So many elements have been put. -/
  | loading {tb : Testbench n} {t : ℕ} :
      t ≤ n * n → tb.rState.toNat = t → tb.kk.isRunning = false →
      (∀ i j : Fin n, i * n + j < t → tb.kk.rX 1 i j = testMatrix rX n i j) →
      tb.written = [] → tb.finished = false →
      Stage arith rX corner t tb
  /-- The accelerator has run for so many cycles, and then so many elements have been printed. -/
  | running {tb : Testbench n} {k s : ℕ} :
      k ≤ n + 1 → s ≤ n * n → (0 < s → k = n + 1) → tb.rState.toNat = n * n + 1 + s →
      Started arith rX k tb.kk →
      tb.written = printedElements (arith.condense (testMatrix rX n) (n - 1)) s →
      tb.finished = false →
      Stage arith rX corner (n * n + 1 + k + s) tb
  | finished {tb : Testbench n} :
      tb.written = expectedReport arith rX corner → tb.finished = true →
      Stage arith rX corner (2 * (n * n) + n + 3) tb

namespace Testbench.Stage

variable {arith : Arith (FixedPoint 16 16)} {rX : BitVec 32 → BitVec 32 → FixedPoint 16 16}
  {corner : Fin n} {tb next : Testbench n}
  {outside : Matrix (Fin n) (Fin n) (FixedPoint 16 16) → BitVec 32 → BitVec 32 →
    FixedPoint 16 16} {count : ℕ} {label : Option TestbenchRule}

theorem reset (arith : Arith (FixedPoint 16 16))
    (rX : BitVec 32 → BitVec 32 → FixedPoint 16 16) (corner : Fin n)
    (registers : Fin 3 → Matrix (Fin n) (Fin n) (FixedPoint 16 16)) (rCounter : BitVec 32)
    (rDivZero : Bool) :
    Stage arith rX corner 0 (Testbench.reset registers rCounter rDivZero) := by
  refine .loading (Nat.zero_le _) rfl ?_ (fun i j impossible => ?_) rfl rfl
  · rw [KKIteration.isRunning_eq_false_iff]
    exact stateMax_toNat n
  · exact absurd impossible (Nat.not_lt_zero _)

theorem putData (stage : Stage arith rX corner count tb) (small : 2 * (n * n) + 1 < 2 ^ 32)
    (unfinished : tb.finished = false) (enabled : (Testbench.putData rX).guard tb = true) :
    Stage arith rX corner (count + 1) ((Testbench.putData rX).action tb) := by
  rw [putData_guard_iff small] at enabled
  cases stage with
  | running => omega
  | finished _ done =>
      rw [done] at unfinished
      contradiction
  | loading bound state idle put written =>
      rw [state] at enabled
      obtain ⟨i, j, row, column, position⟩ := exists_position enabled
      obtain ⟨lineIndex, columnIndex⟩ := index_toNat small state row column
      refine .loading enabled (rState_succ_toNat small state (by omega)) idle ?_ written unfinished
      intro i' j' earlier
      simp only [Testbench.putData, lineIndex, columnIndex, putElem_rX_one,
        toNat_index (size_lt small).le]
      by_cases target : i'.val = i ∧ j'.val = j
      · rw [if_pos target, Fin.ext target.1, Fin.ext target.2]
        rfl
      · rw [if_neg target]
        apply put
        have different : (i' * n + j' : ℕ) ≠ i * n + j := fun equal =>
          target ⟨congrArg Fin.val (position_injective equal).1,
            congrArg Fin.val (position_injective equal).2⟩
        omega

theorem iterate (stage : Stage arith rX corner count tb) (small : 2 * (n * n) + 1 < 2 ^ 32)
    (unfinished : tb.finished = false) (enabled : Testbench.iterate.guard tb = true) :
    Stage arith rX corner (count + 1) (Testbench.iterate.action tb) := by
  rw [iterate_testbench_guard_iff small] at enabled
  cases stage with
  | running => omega
  | finished _ done =>
      rw [done] at unfinished
      contradiction
  | loading bound state idle put written =>
      obtain rfl := state.symm.trans enabled
      have loaded : tb.kk.rX 1 = testMatrix rX n := by
        funext i j
        apply put
        have last : (i * n + j : ℕ) < (i + 1) * n := by
          rw [Nat.succ_mul]
          omega
        exact last.trans_le (Nat.mul_le_mul_right n i.isLt)
      have complete (some : 0 < 0) : 0 = n + 1 := absurd some (lt_irrefl 0)
      exact .running (Nat.zero_le _) (Nat.zero_le _) complete
        (rState_succ_toNat small state (by omega)) ⟨tb.kk, idle, loaded, rfl⟩ written unfinished

theorem cycle (stage : Stage arith rX corner count tb) (unfinished : tb.finished = false)
    (running : tb.kk.isRunning = true) (positive : 1 ≤ n) :
    Stage arith rX corner (count + 1) { tb with kk := kkCycle arith tb.kk } := by
  cases stage with
  | loading _ _ idle =>
      rw [idle] at running
      contradiction
  | finished _ done =>
      rw [done] at unfinished
      contradiction
  | @running _ k s bound printed complete state started written =>
      have unfinishedRun : k ≠ n + 1 := by
        rintro rfl
        rw [(started.progress positive le_rfl).idle_iff.mpr rfl] at running
        contradiction
      rw [show n * n + 1 + k + s + 1 = n * n + 1 + (k + 1) + s by omega]
      exact .running (by omega) printed (fun some => absurd (complete some) unfinishedRun) state
        started.cycle written unfinished

theorem waitAndPrintResults (stage : Stage arith rX corner count tb) (two_le : 2 ≤ n)
    (small : 2 * (n * n) + 1 < 2 ^ 32) (unfinished : tb.finished = false)
    (enabled : (Testbench.waitAndPrintResults outside).guard tb = true) :
    Stage arith rX corner (count + 1) ((Testbench.waitAndPrintResults outside).action tb) := by
  rw [waitAndPrintResults_guard_iff small] at enabled
  obtain ⟨lower, upper, idle⟩ := enabled
  cases stage with
  | loading bound state => omega
  | finished _ done =>
      rw [done] at unfinished
      contradiction
  | @running _ k s bound printed complete state started written =>
      obtain rfl : k = n + 1 := (started.progress (by omega) bound).idle_iff.mp idle
      have progress := started.progress (by omega) le_rfl
      obtain ⟨i, j, row, column, position⟩ := exists_position (show s < n * n by omega)
      have turn := printing_toNat small state
      obtain ⟨lineIndex, columnIndex⟩ := index_toNat small turn row column
      have index := toNat_index (size_lt small).le
      have element : tb.kk.getIntElem outside (BitVec.ofNat 32 i) (BitVec.ofNat 32 j) =
          arith.condense (testMatrix rX n) (n - 1) i j := by
        rw [progress.getIntElem_eq outside two_le,
          select_of_lt outside _ (by rw [index]; exact i.isLt) (by rw [index]; exact j.isLt)]
        simp only [index]
      have next := rState_succ_toNat (t := n * n + 1 + s) small state (by omega)
      rw [show n * n + 1 + (n + 1) + s + 1 = n * n + 1 + (n + 1) + (s + 1) by omega]
      refine .running le_rfl (by omega) (fun _ => rfl) next started ?_ unfinished
      rw [printedElements_succ _ position, ← written, ← element]
      simp only [Testbench.waitAndPrintResults, lineIndex, columnIndex, lastColumn_iff small]

theorem printTheRest (stage : Stage arith rX corner count tb) (two_le : 2 ≤ n)
    (small : 2 * (n * n) + 1 < 2 ^ 32) (first : corner.val = 0) (unfinished : tb.finished = false)
    (enabled : (Testbench.printTheRest outside).guard tb = true) :
    Stage arith rX corner (count + 1) ((Testbench.printTheRest outside).action tb) := by
  rw [printTheRest_guard_iff small] at enabled
  cases stage with
  | loading bound state => omega
  | finished _ done =>
      rw [done] at unfinished
      contradiction
  | @running _ k s bound printed complete state started written =>
      obtain rfl : s = n * n := by omega
      obtain rfl := complete (Nat.mul_pos (by omega) (by omega))
      have progress := started.progress (by omega) le_rfl
      have determinant : tb.kk.getDetElem outside 0 0 =
          arith.condense (testMatrix rX n) n corner corner := by
        have zero : (0 : BitVec 32).toNat = corner := first.symm
        rw [progress.getDetElem_eq outside,
          select_of_lt outside _ (by rw [zero]; exact corner.isLt)
            (by rw [zero]; exact corner.isLt)]
        simp only [zero]
      rw [show n * n + 1 + (n + 1) + n * n + 1 = 2 * (n * n) + n + 3 by omega]
      refine .finished ?_ rfl
      rw [expectedReport, ← written, ← determinant, ← started.divZero two_le,
        ← started.getCounter (by omega)]
      rfl

theorem step (stage : Stage arith rX corner count tb) (two_le : 2 ≤ n)
    (small : 2 * (n * n) + 1 < 2 ^ 32) (first : corner.val = 0)
    (step : TestbenchStep arith rX outside tb label next) :
    Stage arith rX corner (count + 1) next := by
  cases step with
  | cycle unfinished running => exact stage.cycle unfinished running (by omega)
  | @rule _ label unfinished fired =>
      obtain ⟨enabled, rfl⟩ := fired
      cases label with
      | putData => exact stage.putData small unfinished enabled
      | iterate => exact stage.iterate small unfinished enabled
      | waitAndPrintResults =>
          exact stage.waitAndPrintResults two_le small unfinished enabled
      | printTheRest => exact stage.printTheRest two_le small first unfinished enabled

theorem run (stage : Stage arith rX corner count tb) (two_le : 2 ≤ n)
    (small : 2 * (n * n) + 1 < 2 ^ 32) (first : corner.val = 0)
    {trace : List (Option TestbenchRule)}
    (run : Execution (TestbenchStep arith rX outside) tb trace next) :
    Stage arith rX corner (count + trace.length) next := by
  simpa using run.weighted (fun _ => 1) (fun stage step => stage.step two_le small first step) stage

/-- Until the last step there is a next one. -/
theorem exists_step (stage : Stage arith rX corner count tb) (small : 2 * (n * n) + 1 < 2 ^ 32)
    (unfinished : tb.finished = false) :
    ∃ label next, TestbenchStep arith rX outside tb label next := by
  have fires (label : TestbenchRule) (enabled : (label.rule rX outside).guard tb = true) :
      ∃ label next, TestbenchStep arith rX outside tb label next :=
    ⟨some label, _, .rule unfinished (fires_action enabled)⟩
  cases stage with
  | finished _ done =>
      rw [done] at unfinished
      contradiction
  | loading bound state =>
      rcases Nat.lt_or_eq_of_le bound with more | rfl
      · exact fires .putData ((putData_guard_iff small).mpr (by omega))
      · exact fires .iterate ((iterate_testbench_guard_iff small).mpr state)
  | @running _ k s bound printed complete state started =>
      cases busy : tb.kk.isRunning with
      | true => exact ⟨none, _, .cycle unfinished busy⟩
      | false =>
          rcases Nat.lt_or_eq_of_le printed with more | rfl
          · exact fires .waitAndPrintResults
              ((waitAndPrintResults_guard_iff small).mpr ⟨by omega, by omega, busy⟩)
          · obtain rfl : k = n + 1 :=
              (started.progress corner.pos bound).idle_iff.mp busy
            exact fires .printTheRest ((printTheRest_guard_iff small).mpr (by omega))

/-- While the accelerator runs, the test bench waits. -/
theorem waits (stage : Stage arith rX corner count tb) (small : 2 * (n * n) + 1 < 2 ^ 32)
    (unfinished : tb.finished = false) (busy : tb.kk.isRunning = true) (label : TestbenchRule) :
    (label.rule rX outside).guard tb = false := by
  cases stage with
  | finished _ done =>
      rw [done] at unfinished
      contradiction
  | loading _ _ idle =>
      rw [idle] at busy
      contradiction
  | @running _ k s bound printed complete state started =>
      have square := Nat.mul_pos corner.pos corner.pos
      have none : s = 0 := by
        by_contra some
        obtain rfl := complete (by omega)
        rw [(started.progress corner.pos le_rfl).idle_iff.mpr rfl] at busy
        contradiction
      rw [← Bool.not_eq_true]
      cases label with
      | putData =>
          refine (putData_guard_iff small).not.mpr ?_
          omega
      | iterate =>
          refine (iterate_testbench_guard_iff small).not.mpr ?_
          omega
      | waitAndPrintResults =>
          refine (waitAndPrintResults_guard_iff small).not.mpr ?_
          rintro ⟨-, -, idle⟩
          rw [idle] at busy
          contradiction
      | printTheRest =>
          refine (printTheRest_guard_iff small).not.mpr ?_
          omega

theorem finished_iff (stage : Stage arith rX corner count tb) :
    count ≤ 2 * (n * n) + n + 3 ∧ (tb.finished = true ↔ count = 2 * (n * n) + n + 3) := by
  cases stage with
  | finished _ done => exact ⟨le_rfl, iff_of_true done rfl⟩
  | loading bound _ _ _ _ unfinished =>
      refine ⟨by omega, iff_of_false (by simp [unfinished]) (by omega)⟩
  | running bound printed _ _ _ _ unfinished =>
      refine ⟨by omega, iff_of_false (by simp [unfinished]) (by omega)⟩

/-- What has been written is the beginning of the report. -/
theorem written_prefix (stage : Stage arith rX corner count tb) :
    tb.written <+: expectedReport arith rX corner := by
  cases stage with
  | finished written => rw [written]
  | loading _ _ _ _ written =>
      rw [written]
      exact List.nil_prefix
  | running _ printed _ _ _ written =>
      rw [written]
      refine List.IsPrefix.trans ?_ (List.prefix_append _ _)
      exact (List.take_prefix_take_left printed).flatMap _

theorem written_eq (stage : Stage arith rX corner count tb) (finished : tb.finished = true) :
    tb.written = expectedReport arith rX corner := by
  cases stage with
  | finished written => exact written
  | loading _ _ _ _ _ unfinished =>
      rw [finished] at unfinished
      contradiction
  | running _ _ _ _ _ _ unfinished =>
      rw [finished] at unfinished
      contradiction

end Testbench.Stage

/-- In every run the test bench waits while the accelerator runs, never gets stuck before it has
finished, finishes with step `2 n² + n + 3`, and prints the matrix of order `n - 1` line by line,
the corner of the matrix of order `n`, whether there was a zero among the former, and `n` ticks. -/
theorem testbench_prints (arith : Arith (FixedPoint 16 16))
    (rX : BitVec 32 → BitVec 32 → FixedPoint 16 16)
    (outside : Matrix (Fin n) (Fin n) (FixedPoint 16 16) → BitVec 32 → BitVec 32 →
      FixedPoint 16 16)
    (registers : Fin 3 → Matrix (Fin n) (Fin n) (FixedPoint 16 16)) (rCounter : BitVec 32)
    (rDivZero : Bool) (two_le : 2 ≤ n) (small : 2 * (n * n) + 1 < 2 ^ 32)
    {trace : List (Option TestbenchRule)} {tb : Testbench n}
    (run : Execution (TestbenchStep arith rX outside)
      (Testbench.reset registers rCounter rDivZero) trace tb) :
    trace.length ≤ 2 * (n * n) + n + 3 ∧
    (tb.finished = true ↔ trace.length = 2 * (n * n) + n + 3) ∧
    tb.written <+: expectedReport arith rX (⟨0, Nat.zero_lt_of_lt two_le⟩ : Fin n) ∧
    (tb.finished = true →
      tb.written = expectedReport arith rX (⟨0, Nat.zero_lt_of_lt two_le⟩ : Fin n)) ∧
    (tb.finished = false → (∃ label next, TestbenchStep arith rX outside tb label next) ∧
      (tb.kk.isRunning = true →
        ∀ label : TestbenchRule, (label.rule rX outside).guard tb = false)) := by
  have stage : Testbench.Stage arith rX ⟨0, Nat.zero_lt_of_lt two_le⟩ trace.length tb := by
    have initially :=
      Testbench.Stage.reset arith rX (⟨0, Nat.zero_lt_of_lt two_le⟩ : Fin n) registers rCounter
        rDivZero
    simpa using initially.run two_le small rfl run
  exact ⟨stage.finished_iff.1, stage.finished_iff.2, stage.written_prefix, stage.written_eq,
    fun unfinished => ⟨stage.exists_step small unfinished, stage.waits small unfinished⟩⟩

theorem exists_finished_run {arith : Arith (FixedPoint 16 16)}
    {rX : BitVec 32 → BitVec 32 → FixedPoint 16 16} {corner : Fin n}
    {outside : Matrix (Fin n) (Fin n) (FixedPoint 16 16) → BitVec 32 → BitVec 32 →
      FixedPoint 16 16} {count : ℕ} {tb : Testbench n}
    (stage : Testbench.Stage arith rX corner count tb) (two_le : 2 ≤ n)
    (small : 2 * (n * n) + 1 < 2 ^ 32) (first : corner.val = 0) :
    ∃ trace final, Execution (TestbenchStep arith rX outside) tb trace final ∧
      final.finished = true := by
  obtain ⟨left, total⟩ := Nat.exists_eq_add_of_le stage.finished_iff.1
  induction left generalizing count tb with
  | zero => exact ⟨[], tb, .nil tb, stage.finished_iff.2.mpr (by omega)⟩
  | succ left induction =>
      have unfinished : tb.finished = false := by
        rw [← Bool.not_eq_true, stage.finished_iff.2]
        omega
      obtain ⟨label, next, step⟩ :=
        @Testbench.Stage.exists_step _ _ _ _ _ outside _ stage small unfinished
      obtain ⟨trace, final, executed, finished⟩ :=
        induction (stage.step two_le small first step) (by omega)
      exact ⟨label :: trace, final, .cons step executed, finished⟩

theorem condense_testX :
    (truncating fun _ => 0).condense (testMatrix Testbench.testX 4) 4 0 0 = ofInteger 12 := by
  decide

/-- The matrix and the size of the test bench: the determinant is twelve. -/
theorem testbench_prints_testX :
    ∃ trace tb, Execution (TestbenchStep (truncating fun _ => 0) Testbench.testX fun _ _ _ => 0)
        (Testbench.reset (fun _ _ _ => 7) 5 true : Testbench 4) trace tb ∧
      trace.length = 39 ∧ .fxptWrite 3 (ofInteger 12) ∈ tb.written := by
  have stage := Testbench.Stage.reset (truncating fun _ => 0) Testbench.testX (0 : Fin 4)
    (fun _ _ _ => 7) 5 true
  obtain ⟨trace, tb, run, finished⟩ := @exists_finished_run _ _ _ _ (fun _ _ _ => 0) _ _ stage
    (by omega) (by omega) rfl
  obtain ⟨-, length, -, written, -⟩ := testbench_prints (truncating fun _ => 0) Testbench.testX
    (fun _ _ _ => 0) (fun _ _ _ => 7) 5 true (by omega) (by omega) run
  refine ⟨trace, tb, run, length.mp finished, ?_⟩
  rw [written finished, expectedReport, ← condense_testX]
  simp

end KKAccel
