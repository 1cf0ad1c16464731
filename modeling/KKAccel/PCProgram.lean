import KKAccel.Foundation.CellLoop
import KKAccel.Foundation.Condensation
import KKAccel.Foundation.Slots

/-!
# The inversion program

`the_algorithm` of `PC/main.c`: the KK iterations over a scratchpad of three matrices whose
indexes rotate, the final iteration which divides into the inverse, and the self check. The
element arithmetic is a parameter of the iterations, together with the divisors on which a
division faults; the initial contents of the scratchpad are arbitrary.
-/

namespace KKAccel

open CellLoop Slot

universe u

variable {n : ℕ} {α : Type u}

/-- The scratchpad `matrix_K[3][N][N]` with the indexes `next`, `prev` and `curr`. -/
structure Pad (n : ℕ) (α : Type u) where
  /-- Three matrices, uninitialised at first. -/
  matrixK : Fin 3 → Matrix (Fin n) (Fin n) α
  /-- Index of the matrix being computed. -/
  next : Fin 3
  /-- Index of the matrix whose entries are divided by. -/
  prev : Fin 3
  /-- Index of the matrix whose cross differences are taken. -/
  curr : Fin 3

namespace Pad

/-- The declarations `next = 0, prev = 1, curr = 2` over an uninitialised scratchpad. -/
def initial (scratch : Fin 3 → Matrix (Fin n) (Fin n) α) : Pad n α where
  matrixK := scratch
  next := 0
  prev := 1
  curr := 2

/-- The assignment `matrix_K[slot][i][j] = entry`. -/
def store (pad : Pad n α) (slot : Fin 3) (i j : Fin n) (entry : α) : Pad n α :=
  { pad with matrixK := storeCell pad.matrixK slot i j entry }

/-- Refresh the three indexes: each becomes `(index + 1) % 3`. -/
def refresh (pad : Pad n α) : Pad n α :=
  { pad with
    next := nextSlot pad.next
    prev := nextSlot pad.prev
    curr := nextSlot pad.curr }

/-- The pad with one whole matrix replaced. -/
def replace (pad : Pad n α) (slot : Fin 3) (entries : Matrix (Fin n) (Fin n) α) : Pad n α :=
  { pad with matrixK := Function.update pad.matrixK slot entries }

end Pad

/-- The place of a division by a faulty divisor. -/
inductive DivFault (n : ℕ)
  /-- In KK iteration `k`, at position `(i, j)`. -/
  | iteration (k : ℕ) (i j : Fin n)
  /-- In the final iteration, at position `(i, j)`. -/
  | final (i j : Fin n)
  deriving DecidableEq

section Stages

variable (arith : Arith α) (faulty : α → Bool)

/-- A division which faults on a faulty divisor. -/
def divide (place : DivFault n) (dividend divisor : α) : Except (DivFault n) α :=
  if faulty divisor then .error place else .ok (arith.div dividend divisor)

/-- Transfer the input matrix to `matrix_K[curr]`. -/
def transferMatrix (matrixO : Matrix (Fin n) (Fin n) α) (pad : Pad n α) :
    Except (DivFault n) (Pad n α) :=
  forCells (fun pad i j => return pad.store pad.curr i j (matrixO i j)) pad

/-- The divisor of iteration `k`: `k? (matrix_K[prev][(i + 1) % N][(j + 1) % N]) : 1.0`. -/
def kkDivisor (k : ℕ) (pad : Pad n α) (i j : Fin n) : α :=
  if k ≠ 0 then pad.matrixK pad.prev (i.wrapAdd 1) (j.wrapAdd 1) else arith.one

/-- The body of the loops over `i` and `j` in iteration `k`. -/
def kkCell (k : ℕ) (pad : Pad n α) (i j : Fin n) : Except (DivFault n) (Pad n α) := do
  let entry ← divide arith faulty (.iteration k i j)
    (arith.crossDifference (pad.matrixK pad.curr) i j) (kkDivisor arith k pad i j)
  return pad.store pad.next i j entry

/-- Iteration `k` of the outer loop. -/
def kkIteration (k : ℕ) (pad : Pad n α) : Except (DivFault n) (Pad n α) := do
  let pad ← forCells (kkCell arith faulty k) pad
  return pad.refresh

/-- The outer loop for `k = 0, …, count - 1`. -/
def kkLoop (count : ℕ) (pad : Pad n α) : Except (DivFault n) (Pad n α) :=
  (List.range count).foldlM (fun pad k => kkIteration arith faulty k pad) pad

/-- All KK iterations: `for(k = 0; k < N-1; k++)`. -/
def kkIterations (pad : Pad n α) : Except (DivFault n) (Pad n α) :=
  kkLoop arith faulty (n - 1) pad

/-- Final iteration: calculate the inverse into `matrix_K[next]`. -/
def finalIteration (pad : Pad n α) : Except (DivFault n) (Pad n α) :=
  forCells
    (fun pad i j => do
      let entry ← divide arith faulty (.final i j)
        (pad.matrixK pad.prev (j.wrapAdd 1) (i.wrapAdd 1)) (pad.matrixK pad.curr i j)
      return pad.store pad.next i j entry)
    pad

/-- The stages up to the end of the KK iterations. -/
def transferAndIterate (scratch : Fin 3 → Matrix (Fin n) (Fin n) α)
    (matrixO : Matrix (Fin n) (Fin n) α) : Except (DivFault n) (Pad n α) := do
  let pad ← transferMatrix matrixO (Pad.initial scratch)
  kkIterations arith faulty pad

/-- The stages up to the inverted matrix. -/
def invertMatrix (scratch : Fin 3 → Matrix (Fin n) (Fin n) α)
    (matrixO : Matrix (Fin n) (Fin n) α) : Except (DivFault n) (Pad n α) := do
  let pad ← transferAndIterate arith faulty scratch matrixO
  finalIteration arith faulty pad

end Stages

/-- Multiply two matrices, accumulating each entry from zero. -/
def multiplyMatrix (A B : Matrix (Fin n) (Fin n) ℚ) : Matrix (Fin n) (Fin n) ℚ :=
  fun i j => (List.finRange n).foldl (fun sum k => sum + A i k * B k j) 0

/-- Mean absolute deviation of a matrix from the identity. -/
def calculateError (matrix : Matrix (Fin n) (Fin n) ℚ) : ℚ :=
  (List.finRange n).foldl
      (fun val i =>
        (List.finRange n).foldl (fun val j => val + |(if i = j then 1 else 0) - matrix i j|) val)
      0 /
    (n * n)

/-- What the program prints: the scratchpad, the calculated identity and the error distance. -/
structure Report (n : ℕ) where
  /-- The scratchpad after the final iteration. -/
  pad : Pad n ℚ
  /-- The calculated inverse times the input matrix. -/
  matrixIC : Matrix (Fin n) (Fin n) ℚ
  /-- Error distance of that product from the identity. -/
  error : ℚ

/-- The inverted matrix, in `matrix_K[next]`. -/
def Report.inverted (report : Report n) : Matrix (Fin n) (Fin n) ℚ :=
  report.pad.matrixK report.pad.next

/-- A divisor on which exact division fails. -/
def isZero (divisor : ℚ) : Bool := divisor == 0

/-- Run the KK algorithm on an input matrix. -/
def theAlgorithm (scratch : Fin 3 → Matrix (Fin n) (Fin n) ℚ)
    (matrixO : Matrix (Fin n) (Fin n) ℚ) : Except (DivFault n) (Report n) := do
  let pad ← invertMatrix (Arith.exact ℚ) isZero scratch matrixO
  let matrixIC := multiplyMatrix (pad.matrixK pad.next) matrixO
  return { pad, matrixIC, error := calculateError matrixIC }

end KKAccel
