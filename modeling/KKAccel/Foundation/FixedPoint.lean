import KKAccel.Foundation.Condensation
import Mathlib.Algebra.Order.Ring.Int
import Mathlib.Data.BitVec
import Mathlib.Data.Int.Cast.Basic
import Mathlib.Tactic.Linarith

/-!
# Two's complement fixed point

A fixed-point number with `iw` integer bits and `fw` fractional bits is an `iw + fw` bit word in
two's complement, scaled by `2 ^ fw`. The operations are described by what they return when the
exact result is a word; whether they wrap, round or saturate otherwise is left open, unless a
product or a difference is assumed to wrap.
-/

/-- Words of fixed-point numbers with `iw` integer and `fw` fractional bits. -/
abbrev FixedPoint (iw fw : ℕ) := BitVec (iw + fw)

namespace FixedPoint

variable {iw fw : ℕ}

/-- The integer fits in the integer part. -/
def Fits (iw : ℕ) (a : ℤ) : Prop :=
  -2 ^ (iw - 1) ≤ a ∧ a < 2 ^ (iw - 1)

/-- The word of an integer; an integer that does not fit wraps. -/
def ofInteger (a : ℤ) : FixedPoint iw fw := BitVec.ofInt (iw + fw) (a * 2 ^ fw)

/-- The number which a word stands for. -/
def toRat (word : FixedPoint iw fw) : ℚ := word.toInt / 2 ^ fw

theorem toRat_mul (word : FixedPoint iw fw) : word.toRat * 2 ^ fw = word.toInt :=
  div_mul_cancel₀ _ (by positivity)

theorem toRat_bounds (positive : 1 ≤ iw) (word : FixedPoint iw fw) :
    -2 ^ (iw - 1) ≤ word.toRat ∧ word.toRat < 2 ^ (iw - 1) := by
  have scale : (0 : ℚ) < 2 ^ fw := by positivity
  have width : (2 : ℚ) ^ (iw + fw - 1) = 2 ^ (iw - 1) * 2 ^ fw := by
    rw [← pow_add]
    congr 1
    omega
  have lower : -2 ^ (iw + fw - 1) ≤ (word.toInt : ℚ) := by exact_mod_cast BitVec.le_toInt word
  have upper : (word.toInt : ℚ) < 2 ^ (iw + fw - 1) := by exact_mod_cast BitVec.toInt_lt
  rw [toRat, le_div_iff₀ scale, div_lt_iff₀ scale, neg_mul, ← width]
  exact ⟨lower, upper⟩

theorem toInt_ofInteger {a : ℤ} (positive : 1 ≤ iw) (fits : Fits iw a) :
    (ofInteger a : FixedPoint iw fw).toInt = a * 2 ^ fw := by
  have scale : (0 : ℤ) < 2 ^ fw := by positivity
  have width : (2 : ℤ) ^ (iw + fw - 1) = 2 ^ (iw - 1) * 2 ^ fw := by
    rw [← pow_add]
    congr 1
    omega
  apply BitVec.toInt_ofInt_eq_self (by omega)
  · rw [width, ← neg_mul]
    exact mul_le_mul_of_nonneg_right fits.1 scale.le
  · rw [width]
    exact mul_lt_mul_of_pos_right fits.2 scale

/-- The word of an integer that fits. -/
def StandsFor (word : FixedPoint iw fw) (a : ℤ) : Prop := Fits iw a ∧ word = ofInteger a

theorem StandsFor.toInt_eq {word : FixedPoint iw fw} {a : ℤ} (stands : StandsFor word a)
    (positive : 1 ≤ iw) : word.toInt = a * 2 ^ fw := by
  obtain ⟨fits, rfl⟩ := stands
  exact toInt_ofInteger positive fits

theorem StandsFor.toRat_eq {word : FixedPoint iw fw} {a : ℤ} (stands : StandsFor word a)
    (positive : 1 ≤ iw) : word.toRat = a := by
  have scale : (2 : ℚ) ^ fw ≠ 0 := by positivity
  rw [toRat, stands.toInt_eq positive]
  push_cast
  rw [mul_div_cancel_right₀ _ scale]

theorem fits_one (two_le : 2 ≤ iw) : Fits iw 1 := by
  have growth : (2 : ℤ) ^ 1 ≤ 2 ^ (iw - 1) := pow_le_pow_right₀ (by decide) (by omega)
  constructor <;> linarith

theorem StandsFor.ne_zero {word : FixedPoint iw fw} {a : ℤ} (stands : StandsFor word a)
    (positive : 1 ≤ iw) (nonzero : a ≠ 0) : word ≠ 0 := by
  have scale : (2 : ℤ) ^ fw ≠ 0 := by positivity
  rintro rfl
  have value : 0 = a * 2 ^ fw := by simpa using stands.toInt_eq positive
  exact (mul_ne_zero nonzero scale) value.symm

theorem ofInteger_sub (a b : ℤ) :
    (ofInteger a - ofInteger b : FixedPoint iw fw) = ofInteger (a - b) := by
  rw [ofInteger, ofInteger, ofInteger, BitVec.sub_eq_add_neg, ← BitVec.ofInt_neg,
    ← BitVec.ofInt_add, sub_mul, sub_eq_add_neg]

private theorem toInt_ne_zero {word : FixedPoint iw fw} (nonzero : word ≠ 0) : word.toInt ≠ 0 := by
  intro zero
  exact nonzero (BitVec.toInt_inj.mp (by simpa using zero))

/-- Fixed-point operations which return the exact result whenever it is a word. -/
structure ExactOperations (iw fw : ℕ) extends Arith (FixedPoint iw fw) where
  mul_eq : ∀ x y product : FixedPoint iw fw, x.toInt * y.toInt = product.toInt * 2 ^ fw →
    mul x y = product
  sub_eq : ∀ x y difference : FixedPoint iw fw, x.toInt - y.toInt = difference.toInt →
    sub x y = difference
  div_eq : ∀ x y quotient : FixedPoint iw fw, y ≠ 0 →
    x.toInt * 2 ^ fw = quotient.toInt * y.toInt → div x y = quotient
  one_eq : one = ofInteger 1

/-- Fixed-point operations which return the exact quotient whenever it is a word, and whose
products and differences are assumed to lose the bits that do not fit. -/
structure Operations (iw fw : ℕ) extends Arith (FixedPoint iw fw) where
  mul_eq : ∀ (x y : FixedPoint iw fw) (product : ℤ), x.toInt * y.toInt = product * 2 ^ fw →
    mul x y = BitVec.ofInt (iw + fw) product
  sub_eq : ∀ x y : FixedPoint iw fw, sub x y = x - y
  div_eq : ∀ x y quotient : FixedPoint iw fw, y ≠ 0 →
    x.toInt * 2 ^ fw = quotient.toInt * y.toInt → div x y = quotient
  one_eq : one = ofInteger 1

theorem ExactOperations.exactRing (ops : ExactOperations iw fw) (two_le : 2 ≤ iw) :
    Arith.ExactRing ops.toArith StandsFor (Fits iw) where
  one := ⟨fits_one two_le, ops.one_eq⟩
  div {x y quotient divisor} dividend stands nonzero fits := by
    refine ⟨fits, ops.div_eq _ _ _ (stands.ne_zero (by omega) nonzero) ?_⟩
    rw [dividend.toInt_eq (by omega), stands.toInt_eq (by omega),
      toInt_ofInteger (by omega) fits]
    ring
  mul left right fits := by
    refine ⟨fits, ops.mul_eq _ _ _ ?_⟩
    rw [left.toInt_eq (by omega), right.toInt_eq (by omega), toInt_ofInteger (by omega) fits]
    ring
  sub left right fits := by
    refine ⟨fits, ops.sub_eq _ _ _ ?_⟩
    rw [left.toInt_eq (by omega), right.toInt_eq (by omega), toInt_ofInteger (by omega) fits,
      sub_mul]

namespace Operations

variable (ops : Operations iw fw)

/-- Nothing is lost of a result which is a word. -/
def toExactOperations : ExactOperations iw fw where
  toArith := ops.toArith
  mul_eq x y product exact := by
    rw [ops.mul_eq x y product.toInt exact, BitVec.ofInt_toInt]
  sub_eq x y difference exact := by
    have wrapped : difference = BitVec.ofInt (iw + fw) (x.toInt - y.toInt) := by
      rw [exact, BitVec.ofInt_toInt]
    rw [ops.sub_eq, wrapped, Int.sub_eq_add_neg, BitVec.ofInt_add, BitVec.ofInt_neg,
      BitVec.ofInt_toInt, BitVec.ofInt_toInt, BitVec.sub_eq_add_neg]
  div_eq := ops.div_eq
  one_eq := ops.one_eq

theorem mul_eq_ofInteger {x y : FixedPoint iw fw} {a b : ℤ} (positive : 1 ≤ iw)
    (left : StandsFor x a) (right : StandsFor y b) : ops.mul x y = ofInteger (a * b) := by
  apply ops.mul_eq
  rw [left.toInt_eq positive, right.toInt_eq positive]
  ring

/-- The cross difference of integers that fit is exact whenever the difference itself fits, even
if the two products wrap. -/
theorem crossDifference_standsFor {n : ℕ} {words : Matrix (Fin n) (Fin n) (FixedPoint iw fw)}
    {M : Fin n → Fin n → ℤ} (positive : 1 ≤ iw) (agree : ∀ i j, StandsFor (words i j) (M i j))
    {i j : Fin n} (difference : Fits iw (M i j * M (i.wrapAdd 1) (j.wrapAdd 1) -
      M (i.wrapAdd 1) j * M i (j.wrapAdd 1))) :
    StandsFor (ops.crossDifference words i j) (M i j * M (i.wrapAdd 1) (j.wrapAdd 1) -
      M (i.wrapAdd 1) j * M i (j.wrapAdd 1)) := by
  refine ⟨difference, ?_⟩
  rw [Arith.crossDifference, ops.mul_eq_ofInteger positive (agree _ _) (agree _ _),
    ops.mul_eq_ofInteger positive (agree _ _) (agree _ _), ops.sub_eq, ofInteger_sub]

end Operations

/-- Operations which drop the low bits of the product and of the quotient; `atZero` is what the
divider returns for a zero divisor. -/
def truncating (atZero : FixedPoint iw fw → FixedPoint iw fw) : Arith (FixedPoint iw fw) where
  mul x y := BitVec.ofInt (iw + fw) (x.toInt * y.toInt / 2 ^ fw)
  sub x y := x - y
  div x y := if y = 0 then atZero x else BitVec.ofInt (iw + fw) (x.toInt * 2 ^ fw / y.toInt)
  one := ofInteger 1

theorem truncating_mul_comm (atZero : FixedPoint iw fw → FixedPoint iw fw)
    (x y : FixedPoint iw fw) : (truncating atZero).mul x y = (truncating atZero).mul y x := by
  simp only [truncating, mul_comm]

/-- Truncating operations are fixed-point operations. -/
def truncatingOperations (atZero : FixedPoint iw fw → FixedPoint iw fw) : Operations iw fw where
  toArith := truncating atZero
  mul_eq x y product scaled := by
    have scale : (2 : ℤ) ^ fw ≠ 0 := by positivity
    simp only [truncating, scaled]
    rw [Int.mul_ediv_cancel _ scale]
  sub_eq _ _ := rfl
  div_eq x y quotient nonzero scaled := by
    have divisor := toInt_ne_zero nonzero
    simp only [truncating, if_neg nonzero, scaled]
    rw [Int.mul_ediv_cancel _ divisor, BitVec.ofInt_toInt]
  one_eq := rfl

/-- The word of a scaled result, or the last one in its direction. -/
def saturate (z : ℤ) : FixedPoint iw fw :=
  BitVec.ofInt (iw + fw) (max (-2 ^ (iw + fw - 1)) (min z (2 ^ (iw + fw - 1) - 1)))

theorem saturate_toInt (word : FixedPoint iw fw) : saturate word.toInt = word := by
  have lower : -2 ^ (iw + fw - 1) ≤ word.toInt := BitVec.le_toInt word
  have upper : word.toInt < 2 ^ (iw + fw - 1) := BitVec.toInt_lt
  rw [saturate, min_eq_left (by omega), max_eq_right lower, BitVec.ofInt_toInt]

/-- Operations which round the product to the nearest word and stay in the range. -/
def saturating (atZero : FixedPoint iw fw → FixedPoint iw fw) : Arith (FixedPoint iw fw) where
  mul x y := saturate ((2 * (x.toInt * y.toInt) + 2 ^ fw) / (2 * 2 ^ fw))
  sub x y := saturate (x.toInt - y.toInt)
  div x y := if y = 0 then atZero x else saturate (x.toInt * 2 ^ fw / y.toInt)
  one := ofInteger 1

/-- Saturating operations are exact on words, too. -/
def saturatingOperations (atZero : FixedPoint iw fw → FixedPoint iw fw) :
    ExactOperations iw fw where
  toArith := saturating atZero
  mul_eq x y product exact := by
    have scale : (0 : ℤ) < 2 ^ fw := by positivity
    have doubled : 2 * (product.toInt * 2 ^ fw) + 2 ^ fw = (2 * product.toInt + 1) * 2 ^ fw := by
      ring
    have half : (2 * product.toInt + 1) / 2 = product.toInt := by omega
    simp only [saturating, exact]
    rw [doubled, Int.mul_ediv_mul_of_pos_left _ _ scale, half, saturate_toInt]
  sub_eq x y difference exact := by
    simp only [saturating, exact, saturate_toInt]
  div_eq x y quotient nonzero exact := by
    have divisor := toInt_ne_zero nonzero
    simp only [saturating, if_neg nonzero, exact]
    rw [Int.mul_ediv_cancel _ divisor, saturate_toInt]
  one_eq := rfl

end FixedPoint
