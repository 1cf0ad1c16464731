import KKAccel.KKIterations
import KKAccel.KKRun

/-!
# The accelerator refines the program

For any element type and any total operations, a run of the accelerator on a loaded matrix ends
with the two matrices which the program's loop leaves in `matrix_K[prev]` and `matrix_K[curr]`. The
accelerator's last iteration overwrites only the slot that neither result occupies.
-/

namespace KKAccel

open AtomicRules

universe u

variable {n : ℕ} {α : Type u}

theorem select_of_lt (outside : Matrix (Fin n) (Fin n) α → BitVec 32 → BitVec 32 → α)
    (matrix : Matrix (Fin n) (Fin n) α) {i j : BitVec 32} (row : i.toNat < n)
    (column : j.toNat < n) :
    KKIteration.select outside matrix i j = matrix ⟨i.toNat, row⟩ ⟨j.toNat, column⟩ := by
  rw [KKIteration.select, dif_pos ⟨row, column⟩]

theorem toNat_index (size : n ≤ 2 ^ 32) (i : Fin n) : (BitVec.ofNat 32 i).toNat = i := by
  rw [BitVec.toNat_ofNat]
  exact Nat.mod_eq_of_lt (i.isLt.trans_le size)

namespace Progress

variable {arith : Arith α} {A : Matrix (Fin n) (Fin n) α} {kk other : KKIteration n α}
  (outside : Matrix (Fin n) (Fin n) α → BitVec 32 → BitVec 32 → α) {i j : BitVec 32}

theorem getIntElem_eq (progress : Progress arith A (n + 1) kk) (two_le : 2 ≤ n) :
    kk.getIntElem outside i j =
      KKIteration.select outside (arith.condense A (n - 1)) i j := by
  rw [KKIteration.getIntElem, progress.finished_prev two_le]

theorem getDetElem_eq (progress : Progress arith A (n + 1) kk) :
    kk.getDetElem outside i j = KKIteration.select outside (arith.condense A n) i j := by
  rw [KKIteration.getDetElem, progress.finished_curr]

/-- Two finished runs on one matrix return the same results. -/
theorem results_eq (progress : Progress arith A (n + 1) kk) (two_le : 2 ≤ n)
    (finished : Progress arith A (n + 1) other) (i j : BitVec 32) :
    kk.getIntElem outside i j = other.getIntElem outside i j ∧
      kk.getDetElem outside i j = other.getDetElem outside i j := by
  constructor
  · rw [progress.getIntElem_eq outside two_le, finished.getIntElem_eq outside two_le]
  · rw [progress.getDetElem_eq outside, finished.getDetElem_eq outside]

end Progress

/-- Calling `putElem` for every position and then `start` begins a run on the values put last. -/
theorem progress_of_loaded {arith : Arith α} {A : Matrix (Fin n) (Fin n) α}
    {kk : KKIteration n α} {puts : List (ElementPut α)} (idle : kk.isRunning = false)
    (loaded : ∀ i j, lastPut puts i j = some (A i j)) :
    Progress arith A 0 (putElems puts kk).start := by
  apply Progress.of_start
  · rw [putElems_isRunning, idle]
  · exact putElems_loaded puts kk loaded

section Refinement

variable [Zero α] [DecidableEq α] {kk : KKIteration n α} {puts : List (ElementPut α)}

/-- After loading a matrix in any order and starting, every complete run returns the matrices of
the program's loop, whatever the registers held before. -/
theorem accelerator_refines_program (arith : Arith α)
    (outside : Matrix (Fin n) (Fin n) α → BitVec 32 → BitVec 32 → α)
    (scratch : Fin 3 → Matrix (Fin n) (Fin n) α) (A : Matrix (Fin n) (Fin n) α)
    (two_le : 2 ≤ n) (idle : kk.isRunning = false)
    (loaded : ∀ i j, lastPut puts i j = some (A i j)) :
    ∃ pad, transferAndIterate arith (fun _ => false) scratch A = .ok pad ∧
      (∃ trace after, Execution (KKFires arith) (putElems puts kk).start trace after ∧
        after.isRunning = false) ∧
      ∀ trace after, Execution (KKFires arith) (putElems puts kk).start trace after →
        after.isRunning = false →
        (trace.map KKRule.advance).sum = n + 1 ∧
          ∀ (i j : BitVec 32) (row : i.toNat < n) (column : j.toNat < n),
            after.getIntElem outside i j =
                pad.matrixK pad.prev ⟨i.toNat, row⟩ ⟨j.toNat, column⟩ ∧
              after.getDetElem outside i j =
                pad.matrixK pad.curr ⟨i.toNat, row⟩ ⟨j.toNat, column⟩ := by
  have started : Progress arith A 0 (putElems puts kk).start := progress_of_loaded idle loaded
  obtain ⟨pad, executed, iterated⟩ :=
    transferAndIterate_ok scratch fun k _ => soundDivisors_total arith A k
  refine ⟨pad, executed, started.completes (by omega), fun trace after run done => ?_⟩
  have progress := started.run (by omega) run
  have count := progress.idle_iff.mp done
  rw [count] at progress
  refine ⟨by omega, fun i j row column => ⟨?_, ?_⟩⟩
  · rw [progress.getIntElem_eq outside two_le, select_of_lt outside _ row column,
      iterated.prev_eq (by omega)]
  · rw [progress.getDetElem_eq outside, select_of_lt outside _ row column, iterated.curr_eq,
      Nat.sub_add_cancel (by omega)]

/-- Integer operations with truncating division, as one instance of the parameters. -/
def integerArith : Arith ℤ where
  mul := (· * ·)
  sub := (· - ·)
  div := Int.tdiv
  one := 1

/-- Four positions put out of order, one of them twice. -/
def scatteredPuts : List (ElementPut ℤ) :=
  [⟨1, 1, 9⟩, ⟨0, 1, 2⟩, ⟨1, 0, 3⟩, ⟨1, 1, 4⟩, ⟨0, 0, 1⟩]

/-- Idle registers with contents left over from before. -/
def staleRegisters : KKIteration 2 ℤ := KKIteration.reset (fun _ _ _ => 7) 5 true

theorem accelerator_refines_program_scattered :
    ∃ pad, transferAndIterate integerArith (fun _ => false) (fun _ => 0) !![1, 2; 3, 4] =
        .ok pad ∧
      ∃ trace after, Execution (KKFires integerArith) (putElems scatteredPuts staleRegisters).start
          trace after ∧
        after.isRunning = false ∧
        after.getDetElem (fun _ _ _ => 0) 0 0 = pad.matrixK pad.curr 0 0 := by
  have idle : staleRegisters.isRunning = false := by decide
  have loaded : ∀ i j : Fin 2, lastPut scatteredPuts i j =
      some ((!![1, 2; 3, 4] : Matrix (Fin 2) (Fin 2) ℤ) i j) := by decide
  obtain ⟨pad, executed, ⟨trace, after, run, done⟩, results⟩ :=
    accelerator_refines_program integerArith (fun _ _ _ => 0) (fun _ => 0) !![1, 2; 3, 4] le_rfl
      idle loaded
  exact ⟨pad, executed, trace, after, run, done,
    ((results trace after run done).2 0 0 (by decide) (by decide)).2⟩

end Refinement

end KKAccel
