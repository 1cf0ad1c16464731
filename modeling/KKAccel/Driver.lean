import KKAccel.KKAvalonSlave

/-!
# The driver's requests

The byte addresses which the functions `kk_…` of the accelerated program compute, and the requests
they become on the bus. The accelerator is mapped at base zero and addressed in words of four
bytes. Every request of the driver decodes to the register it is meant for.
-/

namespace KKAccel

/-- The word address of a byte offset from the base, on the wires of the slave. -/
def wordAddress (offset : BitVec 32) : BitVec 18 := (offset >>> 2).setWidth 18

/-- Offset of `kk_putelem`. -/
def putelemOffset (i j : BitVec 32) : BitVec 32 :=
  (((i <<< 8) &&& 0xff00#32) ||| (j &&& 0xff#32)) <<< 2

/-- Offset of `kk_start`. -/
def startOffset : BitVec 32 := 0x10000#32 <<< 2

/-- Offset of `kk_isrunning`. -/
def isrunningOffset : BitVec 32 := 0x10001#32 <<< 2

/-- Offset of `kk_getcounter`. -/
def getcounterOffset : BitVec 32 := 0x10002#32 <<< 2

/-- Offset of `kk_divzero`. -/
def divzeroOffset : BitVec 32 := 0x10003#32 <<< 2

/-- Offset of `kk_getintelem`. -/
def getintelemOffset (i j : BitVec 32) : BitVec 32 :=
  (0x20000#32 ||| ((i <<< 8) &&& 0xff00#32) ||| (j &&& 0xff#32)) <<< 2

/-- Offset of `kk_getdetelem`. -/
def getdetelemOffset (i j : BitVec 32) : BitVec 32 :=
  (0x30000#32 ||| ((i <<< 8) &&& 0xff00#32) ||| (j &&& 0xff#32)) <<< 2

section Decoding

variable {i j : ℕ}

/-- The two indexes occupy separate bytes. -/
theorem indexes_toNat (row : i < 2 ^ 8) (column : j < 2 ^ 8) :
    (((BitVec.ofNat 32 i <<< 8) &&& 0xff00#32) |||
      (BitVec.ofNat 32 j &&& 0xff#32)).toNat =
      i * 2 ^ 8 + j := by
  have upper : ((BitVec.ofNat 32 i <<< 8) &&& 0xff00#32).toNat = i <<< 8 := by
    have mask : (0xff00#32).toNat = (2 ^ 8 - 1) <<< 8 := rfl
    have small : i <<< 8 < 2 ^ 32 := by
      rw [Nat.shiftLeft_eq]
      omega
    have index : i < 2 ^ 32 := by omega
    rw [BitVec.toNat_and, BitVec.toNat_shiftLeft, BitVec.toNat_ofNat, mask,
      Nat.mod_eq_of_lt index, Nat.mod_eq_of_lt small, ← Nat.shiftLeft_and_distrib,
      Nat.and_two_pow_sub_one_of_lt_two_pow row]
  have lower : (BitVec.ofNat 32 j &&& 0xff#32).toNat = j := by
    have mask : (0xff#32).toNat = 2 ^ 8 - 1 := rfl
    have index : j < 2 ^ 32 := by omega
    rw [BitVec.toNat_and, BitVec.toNat_ofNat, mask, Nat.mod_eq_of_lt index,
      Nat.and_two_pow_sub_one_of_lt_two_pow column]
  rw [BitVec.toNat_or, upper, lower, ← Nat.shiftLeft_add_eq_or_of_lt column, Nat.shiftLeft_eq]

theorem window_toNat {window : ℕ} (bound : window < 4) (row : i < 2 ^ 8) (column : j < 2 ^ 8) :
    (BitVec.ofNat 32 (window * 2 ^ 16) ||| ((BitVec.ofNat 32 i <<< 8) &&& 0xff00#32) |||
      (BitVec.ofNat 32 j &&& 0xff#32)).toNat = window * 2 ^ 16 + i * 2 ^ 8 + j := by
  have small : i * 2 ^ 8 + j < 2 ^ 16 := by omega
  have wide : window * 2 ^ 16 < 2 ^ 32 :=
    (Nat.mul_lt_mul_of_pos_right bound (Nat.two_pow_pos 16)).trans_le (by norm_num)
  have disjoint := Nat.shiftLeft_add_eq_or_of_lt small window
  rw [Nat.shiftLeft_eq] at disjoint
  have upper : (BitVec.ofNat 32 (window * 2 ^ 16)).toNat = window * 2 ^ 16 := by
    rw [BitVec.toNat_ofNat, Nat.mod_eq_of_lt wide]
  rw [BitVec.or_assoc, BitVec.toNat_or, upper, indexes_toNat row column, ← disjoint,
    Nat.add_assoc]

/-- The fabric undoes the shift to bytes. -/
theorem wordAddress_toNat {word : BitVec 32} {value : ℕ} (toNat : word.toNat = value)
    (small : value < 2 ^ 18) : (wordAddress (word <<< 2)).toNat = value := by
  rw [wordAddress, BitVec.toNat_setWidth, BitVec.toNat_ushiftRight, BitVec.toNat_shiftLeft, toNat,
    Nat.shiftLeft_eq, Nat.shiftRight_eq_div_pow]
  omega

theorem ofAddr_of_toNat {addr : BitVec 18} {window : ℕ} {i j : Fin 256}
    (toNat : addr.toNat = window * 2 ^ 16 + i * 2 ^ 8 + j) :
    (window = 0 → Register.ofAddr addr = .element i j) ∧
      (window = 2 → Register.ofAddr addr = .intElem i j) ∧
      (window = 3 → Register.ofAddr addr = .detElem i j) := by
  have top : addr.toNat / 2 ^ 16 = window := by omega
  have row : Fin.ofNat 256 (addr.toNat / 2 ^ 8) = i := by
    apply Fin.ext
    simp only [Fin.ofNat]
    omega
  have column : Fin.ofNat 256 addr.toNat = j := by
    apply Fin.ext
    simp only [Fin.ofNat]
    omega
  refine ⟨?_, ?_, ?_⟩
  · rintro rfl
    simp only [Register.ofAddr, top, row, column]
  · rintro rfl
    simp only [Register.ofAddr, top, row, column]
  · rintro rfl
    simp only [Register.ofAddr, top, row, column]

variable (i j : Fin 256)

theorem ofAddr_putelem :
    Register.ofAddr (wordAddress (putelemOffset (BitVec.ofNat 32 i) (BitVec.ofNat 32 j))) =
      .element i j := by
  have toNat := wordAddress_toNat (indexes_toNat i.isLt j.isLt) (by omega)
  rw [← Nat.zero_add (i.val * 2 ^ 8), ← Nat.zero_mul (2 ^ 16)] at toNat
  exact (ofAddr_of_toNat toNat).1 rfl

theorem ofAddr_getintelem :
    Register.ofAddr (wordAddress (getintelemOffset (BitVec.ofNat 32 i) (BitVec.ofNat 32 j))) =
      .intElem i j :=
  (ofAddr_of_toNat (wordAddress_toNat (window_toNat (show 2 < 4 by omega) i.isLt j.isLt)
    (by omega))).2.1 rfl

theorem ofAddr_getdetelem :
    Register.ofAddr (wordAddress (getdetelemOffset (BitVec.ofNat 32 i) (BitVec.ofNat 32 j))) =
      .detElem i j :=
  (ofAddr_of_toNat (wordAddress_toNat (window_toNat (show 3 < 4 by omega) i.isLt j.isLt)
    (by omega))).2.2 rfl

theorem ofAddr_start : Register.ofAddr (wordAddress startOffset) = .start := by decide

theorem ofAddr_isrunning : Register.ofAddr (wordAddress isrunningOffset) = .isRunning := by decide

theorem ofAddr_getcounter : Register.ofAddr (wordAddress getcounterOffset) = .counter := by decide

theorem ofAddr_divzero : Register.ofAddr (wordAddress divzeroOffset) = .divZero := by decide

end Decoding

end KKAccel
