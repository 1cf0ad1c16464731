import KKAccel.Foundation.AtomicRules
import KKAccel.Foundation.Condensation
import KKAccel.Foundation.Slots
import Mathlib.Data.Nat.Log

/-!
# The accelerator

`mkFixedPointKKIteration` of `KKIteration.bsv`: its registers, its four rules and its methods. The
element type and its operations are parameters, and so is the value of a dynamic selection outside
the matrix, which the language leaves undefined.
-/

namespace KKAccel

open AtomicRules Slot

variable {n : ℕ} {α : Type*}

/-- Size in bits of the state register: `TAdd#(TLog#(TAdd#(nt, 2)), 1)`. -/
def stateRegSz (nt : ℕ) : ℕ := Nat.clog 2 (nt + 2) + 1

/-- Maximum value of the state register: `TSub#(TExp#(TAdd#(TLog#(TAdd#(nt, 2)), 1)), 1)`. -/
def stateMaxVal (nt : ℕ) : ℕ := 2 ^ (Nat.clog 2 (nt + 2) + 1) - 1

/-- The registers of the accelerator. -/
structure KKIteration (n : ℕ) (α : Type*) where
  /-- Matrix registers. -/
  rX : Fin 3 → Matrix (Fin n) (Fin n) α
  /-- State register. -/
  rState : BitVec (stateRegSz n)
  /-- Cycles counter. -/
  rCounter : BitVec 32
  /-- Division by zero flag. -/
  rDivZero : Bool

/-- The idle code `MAX`, as a value of the state register. -/
def stateMax (n : ℕ) : BitVec (stateRegSz n) := BitVec.ofNat _ (stateMaxVal n)

namespace KKIteration

/-- The registers after reset: only the state register has an initial value. -/
def reset (rX : Fin 3 → Matrix (Fin n) (Fin n) α) (rCounter : BitVec 32) (rDivZero : Bool) :
    KKIteration n α where
  rX := rX
  rState := stateMax n
  rCounter := rCounter
  rDivZero := rDivZero

/-- State `MAX - 1`: initialise variables. -/
def init : Rule (KKIteration n α) where
  guard kk := stateMax n - 1 == kk.rState
  action kk := { kk with rCounter := 0, rDivZero := false, rState := 0 }

/-- States `0..(MAX - 2)`: calculate one iteration, all elements at once. -/
def iterate (arith : Arith α) : Rule (KKIteration n α) where
  guard kk := decide (kk.rState < stateMax n - 1)
  action kk :=
    let iPrev := slotOf kk.rState.toNat
    let iCurr := slotOf (kk.rState + 1).toNat
    let iNext := slotOf (kk.rState + 2).toNat
    { kk with
      rX := Function.update kk.rX iNext <| Matrix.of fun i j =>
        arith.div (arith.crossDifference (kk.rX iCurr) i j)
          (if 0 = kk.rState then arith.one else kk.rX iPrev (i.wrapAdd 1) (j.wrapAdd 1))
      rState := if BitVec.ofNat _ n - 1 = kk.rState then stateMax n else kk.rState + 1 }

/-- Count how many cycles took to process. -/
def countCycles : Rule (KKIteration n α) where
  guard kk := decide (kk.rState < stateMax n - 1)
  action kk := { kk with rCounter := kk.rCounter + 1 }

/-- Check if division by zero would occur in any processing element. -/
def checkDivZero [Zero α] [DecidableEq α] : Rule (KKIteration n α) where
  guard kk := decide (kk.rState < stateMax n - 1)
  action kk :=
    let divZero (i j : Fin n) : Bool :=
      kk.rState != 0 && 0 == kk.rX (slotOf kk.rState.toNat) (i.wrapAdd 1) (j.wrapAdd 1)
    { kk with
      rDivZero := (List.finRange n).any fun i => (List.finRange n).any fun j => divZero i j }

/-- Put a matrix element. A position outside the matrix selects no register. -/
def putElem (i j : BitVec 32) (a : α) (kk : KKIteration n α) : KKIteration n α :=
  { kk with
    rX := Function.update kk.rX 1 <| Matrix.of fun row column =>
      if row.val = i.toNat ∧ column.val = j.toNat then a else kk.rX 1 row column }

/-- Dynamic selection of a matrix element; `outside` is its value outside the matrix. -/
def select (outside : Matrix (Fin n) (Fin n) α → BitVec 32 → BitVec 32 → α)
    (matrix : Matrix (Fin n) (Fin n) α) (i j : BitVec 32) : α :=
  if inside : i.toNat < n ∧ j.toNat < n then
    matrix ⟨i.toNat, inside.1⟩ ⟨j.toNat, inside.2⟩
  else
    outside matrix i j

/-- Get intermediate matrix element. -/
def getIntElem (outside : Matrix (Fin n) (Fin n) α → BitVec 32 → BitVec 32 → α)
    (kk : KKIteration n α) (i j : BitVec 32) : α :=
  select outside (kk.rX (slotOf (n - 1))) i j

/-- Get determinant matrix element. -/
def getDetElem (outside : Matrix (Fin n) (Fin n) α → BitVec 32 → BitVec 32 → α)
    (kk : KKIteration n α) (i j : BitVec 32) : α :=
  select outside (kk.rX (slotOf n)) i j

/-- Start process, in the idle state only. -/
def start (kk : KKIteration n α) : KKIteration n α :=
  if stateMax n = kk.rState then { kk with rState := stateMax n - 1 } else kk

/-- Check if system is still running. -/
def isRunning (kk : KKIteration n α) : Bool := kk.rState != stateMax n

/-- Get cycles counter. -/
def getCounter (kk : KKIteration n α) : BitVec 32 := kk.rCounter

/-- Get division by zero flag. -/
def divZero (kk : KKIteration n α) : Bool := kk.rDivZero

end KKIteration

/-- The rules of the accelerator. -/
inductive KKRule
  | init
  | iterate
  | countCycles
  | checkDivZero
  deriving DecidableEq

namespace KKRule

/-- The rule of each name. -/
def rule [Zero α] [DecidableEq α] (arith : Arith α) : KKRule → Rule (KKIteration n α)
  | init => KKIteration.init
  | iterate => KKIteration.iterate arith
  | countCycles => KKIteration.countCycles
  | checkDivZero => KKIteration.checkDivZero

/-- The rules that move the state register. -/
def advance : KKRule → ℕ
  | init | iterate => 1
  | countCycles | checkDivZero => 0

/-- Within a cycle the rules that read the matrix and state registers precede `iterate`, which
writes them. -/
def schedule : List KKRule := [init, checkDivZero, countCycles, iterate]

end KKRule

/-- One rule of the accelerator fires. -/
abbrev KKFires [Zero α] [DecidableEq α] (arith : Arith α) :
    KKIteration n α → KKRule → KKIteration n α → Prop :=
  Fires (KKRule.rule arith)

/-- One clock cycle in which all enabled rules fire. -/
def kkCycle [Zero α] [DecidableEq α] (arith : Arith α) (kk : KKIteration n α) :
    KKIteration n α :=
  clockCycle (KKRule.rule arith) KKRule.schedule kk

end KKAccel
