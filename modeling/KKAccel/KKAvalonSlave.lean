import KKAccel.Foundation.FixedPoint
import KKAccel.KKIteration

/-!
# The register map

What the rules `processWrite` and `processRead` of `KKAvalonSlave.bsv` do to the accelerator with
one request, and the map from addresses to registers which their decoding amounts to. The words on
the bus are the elements themselves, since packing does not change the bits.
-/

namespace KKAccel

variable {n : ℕ}

/-- The command of a request. -/
inductive MapperCommand
  | read
  | write
  deriving DecidableEq

/-- One request on the bus. The data of a read request is unspecified. -/
structure AvalonRequest (addressWidth dataWidth : ℕ) where
  addr : BitVec addressWidth
  data : BitVec dataWidth
  command : MapperCommand
  deriving DecidableEq

/-- The operations of `FixedPoint#(IW, FW)`, both of them sixteen, on the words on the bus. -/
def fixed16 : Arith (BitVec 32) :=
  (FixedPoint.truncating fun _ => 0 : Arith (FixedPoint 16 16))

/-- The matrix whose elements are all one, in fixed point. -/
def ones (n : ℕ) : Matrix (Fin n) (Fin n) (BitVec 32) := fun _ _ => 0x10000

/-- The first eight of the lower sixteen bits indicate index `i`. -/
def lineIndex (addr : BitVec 18) : BitVec 32 := ((addr >>> 8) &&& (0xff : BitVec 18)).setWidth 32

/-- The last eight bits indicate index `j`. -/
def columnIndex (addr : BitVec 18) : BitVec 32 := (addr &&& (0xff : BitVec 18)).setWidth 32

/-- What `processWrite` does to the accelerator. -/
def processWrite (addr : BitVec 18) (data : BitVec 32) (kk : KKIteration n (BitVec 32)) :
    KKIteration n (BitVec 32) :=
  if (0b00 : BitVec 2) = (addr >>> 16).setWidth 2 then
    kk.putElem (lineIndex addr) (columnIndex addr) data
  else if (0b01 : BitVec 2) = (addr >>> 16).setWidth 2 ∧ (0x0 : BitVec 16) = addr.setWidth 16 then
    kk.start
  else
    kk

/-- The response of `processRead`. -/
def processRead (outside : Matrix (Fin n) (Fin n) (BitVec 32) → BitVec 32 → BitVec 32 → BitVec 32)
    (addr : BitVec 18) (kk : KKIteration n (BitVec 32)) : BitVec 32 :=
  if (0b01 : BitVec 2) = (addr >>> 16).setWidth 2 ∧ (0x1 : BitVec 16) = addr.setWidth 16 then
    (BitVec.ofBool kk.isRunning).setWidth 32
  else if (0b01 : BitVec 2) = (addr >>> 16).setWidth 2 ∧ (0x2 : BitVec 16) = addr.setWidth 16 then
    kk.getCounter
  else if (0b01 : BitVec 2) = (addr >>> 16).setWidth 2 ∧ (0x3 : BitVec 16) = addr.setWidth 16 then
    (BitVec.ofBool kk.divZero).setWidth 32
  else if (0b10 : BitVec 2) = (addr >>> 16).setWidth 2 then
    kk.getIntElem outside (lineIndex addr) (columnIndex addr)
  else if (0b11 : BitVec 2) = (addr >>> 16).setWidth 2 then
    kk.getDetElem outside (lineIndex addr) (columnIndex addr)
  else
    0

/-- What an address stands for. -/
inductive Register
  /-- An element of the input matrix. -/
  | element (i j : Fin 256)
  /-- The start command. -/
  | start
  /-- The running status. -/
  | isRunning
  /-- The cycles counter. -/
  | counter
  /-- The division by zero flag. -/
  | divZero
  /-- An element of the intermediate matrix. -/
  | intElem (i j : Fin 256)
  /-- An element of the determinant matrix. -/
  | detElem (i j : Fin 256)
  /-- Nothing. -/
  | unmapped
  deriving DecidableEq

namespace Register

/-- The register at an address: two bits of window, then two indexes of eight bits or a number. -/
def ofAddr (addr : BitVec 18) : Register :=
  let i := Fin.ofNat 256 (addr.toNat / 2 ^ 8)
  let j := Fin.ofNat 256 addr.toNat
  match addr.toNat / 2 ^ 16 with
  | 0 => element i j
  | 1 =>
      match addr.toNat % 2 ^ 16 with
      | 0 => start
      | 1 => isRunning
      | 2 => counter
      | 3 => divZero
      | _ => unmapped
  | 2 => intElem i j
  | _ => detElem i j

/-- The effect of writing a register. -/
def write (register : Register) (data : BitVec 32) (kk : KKIteration n (BitVec 32)) :
    KKIteration n (BitVec 32) :=
  match register with
  | element i j => kk.putElem (BitVec.ofNat 32 i) (BitVec.ofNat 32 j) data
  | start => kk.start
  | _ => kk

/-- The value read from a register, zero where there is nothing to read. -/
def read (outside : Matrix (Fin n) (Fin n) (BitVec 32) → BitVec 32 → BitVec 32 → BitVec 32)
    (register : Register) (kk : KKIteration n (BitVec 32)) : BitVec 32 :=
  match register with
  | isRunning => if kk.isRunning then 1 else 0
  | counter => kk.getCounter
  | divZero => if kk.divZero then 1 else 0
  | intElem i j => kk.getIntElem outside (BitVec.ofNat 32 i) (BitVec.ofNat 32 j)
  | detElem i j => kk.getDetElem outside (BitVec.ofNat 32 i) (BitVec.ofNat 32 j)
  | _ => 0

end Register

section Decoding

variable (addr : BitVec 18)

theorem window_iff (window : BitVec 2) :
    window = (addr >>> 16).setWidth 2 ↔ addr.toNat / 2 ^ 16 = window.toNat := by
  have bound := addr.isLt
  rw [← BitVec.toNat_inj, BitVec.toNat_setWidth, BitVec.toNat_ushiftRight,
    Nat.shiftRight_eq_div_pow]
  omega

theorem number_iff (number : BitVec 16) :
    number = addr.setWidth 16 ↔ addr.toNat % 2 ^ 16 = number.toNat := by
  rw [← BitVec.toNat_inj, BitVec.toNat_setWidth, eq_comm]

theorem lineIndex_eq : lineIndex addr = BitVec.ofNat 32 (Fin.ofNat 256 (addr.toNat / 2 ^ 8)) := by
  have mask : (0xff : BitVec 18).toNat = 2 ^ 8 - 1 := rfl
  rw [← BitVec.toNat_inj, lineIndex, BitVec.toNat_setWidth, BitVec.toNat_and, mask,
    Nat.and_two_pow_sub_one_eq_mod, BitVec.toNat_ushiftRight, Nat.shiftRight_eq_div_pow,
    BitVec.toNat_ofNat]
  rfl

theorem columnIndex_eq : columnIndex addr = BitVec.ofNat 32 (Fin.ofNat 256 addr.toNat) := by
  have mask : (0xff : BitVec 18).toNat = 2 ^ 8 - 1 := rfl
  rw [← BitVec.toNat_inj, columnIndex, BitVec.toNat_setWidth, BitVec.toNat_and, mask,
    Nat.and_two_pow_sub_one_eq_mod, BitVec.toNat_ofNat]
  rfl

theorem window_cases :
    addr.toNat / 2 ^ 16 = 0 ∨ addr.toNat / 2 ^ 16 = 1 ∨ addr.toNat / 2 ^ 16 = 2 ∨
      addr.toNat / 2 ^ 16 = 3 := by
  have bound := addr.isLt
  omega

theorem processWrite_eq_write (data : BitVec 32) (kk : KKIteration n (BitVec 32)) :
    processWrite addr data kk = (Register.ofAddr addr).write data kk := by
  simp only [processWrite, window_iff, number_iff, lineIndex_eq, columnIndex_eq, Register.ofAddr]
  rcases window_cases addr with window | window | window | window
  · simp only [window]
    rfl
  · simp only [window]
    rcases number : addr.toNat % 2 ^ 16 with _ | _ | _ | _ | number <;> rfl
  · simp only [window]
    rfl
  · simp only [window]
    rfl

theorem processRead_eq_read
    (outside : Matrix (Fin n) (Fin n) (BitVec 32) → BitVec 32 → BitVec 32 → BitVec 32)
    (kk : KKIteration n (BitVec 32)) :
    processRead outside addr kk = (Register.ofAddr addr).read outside kk := by
  have status (flag : Bool) : (BitVec.ofBool flag).setWidth 32 = if flag then 1 else 0 := by
    cases flag <;> rfl
  simp only [processRead, window_iff, number_iff, lineIndex_eq, columnIndex_eq, Register.ofAddr,
    status]
  rcases window_cases addr with window | window | window | window
  · simp only [window]
    rfl
  · simp only [window]
    rcases number : addr.toNat % 2 ^ 16 with _ | _ | _ | _ | number <;> rfl
  · simp only [window]
    rfl
  · simp only [window]
    rfl

end Decoding

end KKAccel
