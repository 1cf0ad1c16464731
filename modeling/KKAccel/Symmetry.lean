import KKAccel.DivZero
import KKAccel.Foundation.CondensationSymmetry
import KKAccel.KKAvalonSlave

/-!
# Symmetries of the runs

What the program and the accelerator compute from a transposed or a rotated matrix is the
transposed or rotated matrix of what they compute from the matrix itself, in any arithmetic and
whatever the uninitialised matrices hold.
-/

namespace KKAccel

open Arith AtomicRules FixedPoint

universe u

variable {n : ℕ} {α : Type u}

/-- The stages up to the end of iteration `count - 1`, with a division that never faults. -/
def transferAndLoop (arith : Arith α) (scratch : Fin 3 → Matrix (Fin n) (Fin n) α)
    (matrixO : Matrix (Fin n) (Fin n) α) (count : ℕ) : Except (DivFault n) (Pad n α) := do
  let pad ← transferMatrix matrixO (Pad.initial scratch)
  kkLoop arith (fun _ => false) count pad

theorem transferAndLoop_ok (arith : Arith α) (scratch : Fin 3 → Matrix (Fin n) (Fin n) α)
    (A : Matrix (Fin n) (Fin n) α) (count : ℕ) :
    ∃ pad, transferAndLoop arith scratch A count = .ok pad ∧ Iterated arith A count pad := by
  obtain ⟨start, transferred, initially⟩ := transferMatrix_iterated arith A scratch
  obtain ⟨pad, executed, holds⟩ :=
    initially.loop count fun k _ => soundDivisors_total arith A k
  refine ⟨pad, ?_, holds⟩
  rw [transferAndLoop, transferred]
  exact executed

theorem finalQuotient_transpose (arith : Arith α) (prev curr : Matrix (Fin n) (Fin n) α) :
    finalQuotient arith prev.transpose curr.transpose =
      (finalQuotient arith prev curr).transpose := rfl

/-- A run together with the latest matrix, which is there also after the last iteration. -/
structure Latest (arith : Arith α) (A : Matrix (Fin n) (Fin n) α) (count : ℕ)
    (kk : KKIteration n α) : Prop where
  progress : Progress arith A count kk
  latest : 1 ≤ count → kk.rX (slotOf count) = arith.condense A count

namespace Latest

variable {arith : Arith α} {A : Matrix (Fin n) (Fin n) α} {kk after : KKIteration n α} {count : ℕ}
  [Zero α] [DecidableEq α]

theorem fires {label : KKRule} (holds : Latest arith A count kk) (positive : 1 ≤ n)
    (fired : KKFires arith kk label after) : Latest arith A (count + label.advance) after := by
  have advanced := holds.progress.fires positive fired
  refine ⟨advanced, fun _ => ?_⟩
  obtain ⟨enabled, rfl⟩ := fired
  cases label with
  | countCycles => exact holds.latest ‹_›
  | checkDivZero => exact holds.latest ‹_›
  | init =>
      have first : count = 0 := by
        have room := two_mul_add_three_le_stateMaxVal n
        have state := KKIteration.init_guard_iff.mp enabled
        cases holds.progress with
        | pending => rfl
        | iterating => omega
        | finished => omega
      exact advanced.curr_of_lt (by omega)
  | iterate =>
      rcases Nat.eq_zero_or_pos count with rfl | started
      · exact advanced.curr_of_lt positive
      · obtain ⟨k, rfl⟩ := Nat.exists_eq_add_of_le' started
        exact holds.progress.iterate_next enabled

theorem run {trace : List KKRule} (idle : kk.isRunning = false) (positive : 1 ≤ n)
    (executed : Execution (KKFires arith) kk.start trace after) :
    Latest arith (kk.rX 1) (trace.map KKRule.advance).sum after := by
  have initially : Latest arith (kk.rX 1) 0 kk.start :=
    ⟨.of_start idle rfl, fun impossible => absurd impossible (by omega)⟩
  rw [← Nat.zero_add (trace.map KKRule.advance).sum]
  exact executed.weighted KKRule.advance (fun holds fired => holds.fires positive fired) initially

end Latest

/-- The runs of the program and of the accelerator on a matrix and on its image stay in step. -/
structure RunsCommute [Zero α] [DecidableEq α] (arith : Arith α)
    (image : Matrix (Fin n) (Fin n) α → Matrix (Fin n) (Fin n) α) : Prop where
  /-- After every number of iterations of the program. -/
  program : ∀ (A : Matrix (Fin n) (Fin n) α) (scratch scratch' : Fin 3 → Matrix (Fin n) (Fin n) α)
    (count : ℕ), ∃ pad pad', transferAndLoop arith scratch A count = .ok pad ∧
      transferAndLoop arith scratch' (image A) count = .ok pad' ∧
      pad'.matrixK pad'.curr = image (pad.matrixK pad.curr) ∧
      (1 ≤ count → pad'.matrixK pad'.prev = image (pad.matrixK pad.prev))
  /-- After `init` and every number `k` of iterations of the accelerator. -/
  accelerator : ∀ {kk kk' after after' : KKIteration n α} {trace trace' : List KKRule} (k : ℕ),
    kk.isRunning = false → kk'.isRunning = false → kk'.rX 1 = image (kk.rX 1) →
    Execution (KKFires arith) kk.start trace after →
    Execution (KKFires arith) kk'.start trace' after' →
    (trace.map KKRule.advance).sum = k + 1 → (trace'.map KKRule.advance).sum = k + 1 →
      after'.rX (slotOf (k + 1)) = image (after.rX (slotOf (k + 1))) ∧
      (1 ≤ k → after'.rX (slotOf k) = image (after.rX (slotOf k)))
  /-- After the clock cycle of `init` and those of the first iterations. -/
  divZero : ∀ {kk kk' : KKIteration n α} (k : ℕ), k < n →
    kk.isRunning = false → kk'.isRunning = false → kk'.rX 1 = image (kk.rX 1) →
      ((kkCycle arith)^[k + 2] kk'.start).divZero = ((kkCycle arith)^[k + 2] kk.start).divZero
  /-- After a complete run. -/
  verdict : ∀ {kk kk' after after' : KKIteration n α} {visited visited' : List (KKIteration n α)},
    kk.isRunning = false → kk'.isRunning = false → kk'.rX 1 = image (kk.rX 1) →
    CompleteRun arith kk.start visited after → CompleteRun arith kk'.start visited' after' →
      after'.divZero = after.divZero

section Symmetries

variable [Zero α] [DecidableEq α] {arith : Arith α}

omit [DecidableEq α] in
theorem hasZero_rearrange_iff (symmetry : Symmetry arith n) (A : Matrix (Fin n) (Fin n) α)
    (k : ℕ) : HasZero arith (rearrange symmetry.position A) k ↔ HasZero arith A k := by
  rw [HasZero, symmetry.condense_rearrange]
  exact symmetry.exists_rearrange_iff _ (· = 0)

/-- A symmetry of condensation keeps the runs in step. -/
theorem runsCommute (symmetry : Symmetry arith n) (two_le : 2 ≤ n) :
    RunsCommute arith (rearrange symmetry.position : Matrix (Fin n) (Fin n) α → _) where
  program A scratch scratch' count := by
    obtain ⟨pad, executed, holds⟩ := transferAndLoop_ok arith scratch A count
    obtain ⟨pad', executed', holds'⟩ :=
      transferAndLoop_ok arith scratch' (rearrange symmetry.position A) count
    refine ⟨pad, pad', executed, executed', ?_, fun positive => ?_⟩
    · rw [holds'.curr_eq, symmetry.condense_rearrange, holds.curr_eq]
    · rw [holds'.prev_eq positive, symmetry.condense_rearrange, holds.prev_eq positive]
  accelerator k idle idle' related run run' count count' := by
    have holds := Latest.run idle (by omega) run
    have holds' := Latest.run idle' (by omega) run'
    rw [count] at holds
    rw [count', related] at holds'
    constructor
    · rw [holds'.latest (by omega), symmetry.condense_rearrange, holds.latest (by omega)]
    · intro positive
      rw [holds'.progress.prev_of_pos positive, symmetry.condense_rearrange,
        holds.progress.prev_of_pos positive]
  divZero {kk kk'} k bound idle idle' related := by
    have progress : Progress arith (kk.rX 1) 0 kk.start := .of_start idle rfl
    have progress' : Progress arith (kk'.rX 1) 0 kk'.start := .of_start idle' rfl
    rw [Bool.eq_iff_iff, progress.divZero_cycles bound, progress'.divZero_cycles bound, related,
      hasZero_rearrange_iff symmetry]
  verdict {kk kk'} _ _ _ _ idle idle' related complete complete' := by
    have progress : Progress arith (kk.rX 1) 0 kk.start := .of_start idle rfl
    have progress' : Progress arith (kk'.rX 1) 0 kk'.start := .of_start idle' rfl
    rw [Bool.eq_iff_iff, progress.divZero_completeRun two_le (Nat.zero_le n) complete,
      progress'.divZero_completeRun two_le (Nat.zero_le n) complete', related,
      hasZero_rearrange_iff symmetry]

/-- Whatever the arithmetic, the runs on the transposed matrix, if the product is commutative, and
on every rotation of the matrix stay in step with the runs on the matrix; the program then inverts
the transposed matrix into the transposed inverse. -/
theorem iteration_symmetries (arith : Arith α) (two_le : 2 ≤ n) :
    ((∀ x y, arith.mul x y = arith.mul y x) →
      RunsCommute arith (fun A : Matrix (Fin n) (Fin n) α => A.transpose) ∧
      ∀ (A : Matrix (Fin n) (Fin n) α) (scratch scratch' : Fin 3 → Matrix (Fin n) (Fin n) α),
        ∃ pad pad', invertMatrix arith (fun _ => false) scratch A = .ok pad ∧
          invertMatrix arith (fun _ => false) scratch' A.transpose = .ok pad' ∧
          pad'.matrixK pad'.next = (pad.matrixK pad.next).transpose) ∧
    ∀ rows columns : ℕ, RunsCommute arith fun A : Matrix (Fin n) (Fin n) α =>
      Matrix.of fun i j => A (i.wrapAdd rows) (j.wrapAdd columns) := by
  constructor
  · intro mul_comm
    have transposed (A : Matrix (Fin n) (Fin n) α) (m : ℕ) :
        arith.condense A.transpose m = (arith.condense A m).transpose := by
      rw [← Symmetry.rearrange_transposition mul_comm A, Symmetry.condense_rearrange,
        Symmetry.rearrange_transposition]
    refine ⟨runsCommute (.transposition mul_comm) two_le, fun A scratch scratch' => ?_⟩
    obtain ⟨pad, executed, inverse⟩ := invertMatrix_total arith scratch A two_le
    obtain ⟨pad', executed', inverse'⟩ := invertMatrix_total arith scratch' A.transpose two_le
    refine ⟨pad, pad', executed, executed', ?_⟩
    rw [inverse', inverse, transposed, transposed, finalQuotient_transpose]
  · intro rows columns
    exact runsCommute (.rotation arith rows columns) two_le

/-- In the arithmetic of the accelerator, on a matrix that is not symmetric. -/
theorem iteration_symmetries_fixed16 :
    ∃ pad pad',
      invertMatrix fixed16 (fun _ => false) (fun _ => 0) !![0x10000, 0x20000; 0x30000, 0x40000] =
        .ok pad ∧
      invertMatrix fixed16 (fun _ => false) (fun _ => 0) !![0x10000, 0x30000; 0x20000, 0x40000] =
        .ok pad' ∧
      pad'.matrixK pad'.next = (pad.matrixK pad.next).transpose := by
  have commutes (x y : BitVec 32) : fixed16.mul x y = fixed16.mul y x :=
    truncating_mul_comm (fun _ : FixedPoint 16 16 => 0) x y
  obtain ⟨pad, pad', executed, executed', inverse⟩ :=
    ((iteration_symmetries fixed16 le_rfl).1 commutes).2
      !![0x10000, 0x20000; 0x30000, 0x40000] (fun _ => 0) (fun _ => 0)
  refine ⟨pad, pad', executed, ?_, inverse⟩
  rw [← executed']
  congr
  ext i j
  fin_cases i <;> fin_cases j <;> rfl

end Symmetries

end KKAccel
