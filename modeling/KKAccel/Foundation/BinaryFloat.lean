import Mathlib.Algebra.Order.Field.Power
import Mathlib.Algebra.Order.Round
import Mathlib.Data.Int.Log
import Mathlib.Data.Rat.Floor
import Mathlib.Tactic.Linarith

/-!
# Binary floating point

The finite numbers of a binary floating-point format are the rationals with boundedly many
significant bits above a smallest power of two. Every operation rounds its exact result to the
nearest number, and to the even one between two. There is no largest number: whoever needs overflow
has to bound the results.
-/

namespace Int

variable {K : Type*} [Field K] [LinearOrder K] [FloorRing K] {x y : K}

/-- The integer part, toward zero. -/
def truncate (x : K) : ℤ := if 0 ≤ x then ⌊x⌋ else ⌈x⌉

theorem truncate_of_nonneg (nonneg : 0 ≤ x) : truncate x = ⌊x⌋ := if_pos nonneg

theorem truncate_of_neg (negative : x < 0) : truncate x = ⌈x⌉ := if_neg (not_le.mpr negative)

theorem truncate_mono (le : x ≤ y) : truncate x ≤ truncate y := by
  rcases le_or_gt 0 x with nonneg | negative
  · rw [truncate_of_nonneg nonneg, truncate_of_nonneg (nonneg.trans le)]
    exact Int.floor_le_floor le
  rw [truncate_of_neg negative]
  rcases le_or_gt 0 y with nonneg | negative'
  · rw [truncate_of_nonneg nonneg]
    calc ⌈x⌉ ≤ 0 := Int.ceil_le.mpr (by simpa using negative.le)
      _ ≤ ⌊y⌋ := Int.floor_nonneg.mpr nonneg
  · rw [truncate_of_neg negative']
    exact Int.ceil_le_ceil le

theorem truncate_lt {z : ℤ} (positive : 0 < z) (lt : x < z) : truncate x < z := by
  rcases le_or_gt 0 x with nonneg | negative
  · rw [truncate_of_nonneg nonneg]
    exact Int.floor_lt.mpr lt
  · rw [truncate_of_neg negative]
    have nonpos : ⌈x⌉ ≤ 0 := Int.ceil_le.mpr (by simpa using negative.le)
    omega

variable [IsStrictOrderedRing K]

@[simp]
theorem truncate_intCast (z : ℤ) : truncate (z : K) = z := by
  simp [truncate]

theorem le_truncate {z : ℤ} (le : (z : K) ≤ x) : z ≤ truncate x := by
  simpa using truncate_mono le

theorem abs_truncate_le (x : K) : |(truncate x : K)| ≤ |x| := by
  rcases le_or_gt 0 x with nonneg | negative
  · have floor : (0 : K) ≤ ⌊x⌋ := by exact_mod_cast Int.floor_nonneg.mpr nonneg
    rw [truncate_of_nonneg nonneg, abs_of_nonneg floor, abs_of_nonneg nonneg]
    exact Int.floor_le x
  · have ceil : (⌈x⌉ : K) ≤ 0 := by exact_mod_cast Int.ceil_le.mpr (by simpa using negative.le)
    rw [truncate_of_neg negative, abs_of_nonpos ceil, abs_of_neg negative, neg_le_neg_iff]
    exact Int.le_ceil x

theorem abs_truncate_sub_lt_one (x : K) : |(truncate x : K) - x| < 1 := by
  rw [abs_lt]
  rcases le_or_gt 0 x with nonneg | negative
  · rw [truncate_of_nonneg nonneg]
    constructor <;> linarith [Int.floor_le x, Int.lt_floor_add_one x]
  · rw [truncate_of_neg negative]
    constructor <;> linarith [Int.le_ceil x, Int.ceil_lt_add_one x]

/-- The nearest integer, and the even one between two. -/
def roundEven (x : K) : ℤ :=
  if Int.fract x < 1 / 2 then ⌊x⌋
  else if 1 / 2 < Int.fract x then ⌊x⌋ + 1
  else if Even ⌊x⌋ then ⌊x⌋
  else ⌊x⌋ + 1

@[simp]
theorem roundEven_intCast (z : ℤ) : roundEven (z : K) = z := by
  simp [roundEven]

@[simp]
theorem roundEven_zero : roundEven (0 : K) = 0 := by
  simp [roundEven]

omit [IsStrictOrderedRing K] in
theorem roundEven_eq_or (x : K) : roundEven x = ⌊x⌋ ∨ roundEven x = ⌊x⌋ + 1 := by
  rw [roundEven]
  split_ifs <;> simp

theorem abs_roundEven_le {bound : ℤ} (le : |x| ≤ bound) : |roundEven x| ≤ bound := by
  obtain ⟨lower, upper⟩ := abs_le.mp le
  rcases upper.lt_or_eq with inner | rfl
  · have floor_lt : ⌊x⌋ < bound := Int.floor_lt.mpr inner
    have le_floor : -bound ≤ ⌊x⌋ := Int.le_floor.mpr (by push_cast; exact lower)
    rw [abs_le]
    rcases roundEven_eq_or x with rounded | rounded <;> omega
  · rw [roundEven_intCast]
    exact_mod_cast le

end Int

/-- How many significant bits the numbers of a format have, and the least power of two they are
multiples of. -/
structure FloatFormat where
  precision : ℕ
  minExponent : ℤ
  precision_pos : 1 ≤ precision

namespace FloatFormat

variable {format : FloatFormat} {x : ℚ}

/-- The numbers of a format. -/
def Representable (format : FloatFormat) (x : ℚ) : Prop :=
  ∃ m e : ℤ, |m| < 2 ^ format.precision ∧ format.minExponent ≤ e ∧ x = m * 2 ^ e

theorem representable_of_abs_le {m e : ℤ} (bound : |m| ≤ 2 ^ format.precision)
    (exponent : format.minExponent ≤ e) : format.Representable (m * 2 ^ e) := by
  rcases bound.lt_or_eq with small | full
  · exact ⟨m, e, small, exponent, rfl⟩
  obtain ⟨p, precision⟩ := Nat.exists_eq_add_of_le' format.precision_pos
  have half : (2 : ℤ) ^ p < 2 ^ format.precision := by
    rw [precision]
    exact pow_lt_pow_right₀ (by norm_num) (Nat.lt_succ_self p)
  have carry : (2 : ℚ) ^ (e + 1) = 2 * 2 ^ e := by
    rw [zpow_add_one₀ (by norm_num), mul_comm]
  rcases eq_or_eq_neg_of_abs_eq full with rfl | rfl
  · refine ⟨2 ^ p, e + 1, by rwa [abs_of_pos (by positivity)], by omega, ?_⟩
    push_cast
    rw [precision, carry, pow_succ, mul_assoc]
  · refine ⟨-2 ^ p, e + 1, by rwa [abs_neg, abs_of_pos (by positivity)], by omega, ?_⟩
    push_cast
    rw [precision, carry, pow_succ, neg_mul, neg_mul, mul_assoc]

theorem abs_scaled_lt {m : ℤ} (small : |m| < 2 ^ format.precision) (e : ℤ) :
    |(m : ℚ) * 2 ^ e| < 2 ^ format.precision * 2 ^ e := by
  have scale : (0 : ℚ) < 2 ^ e := by positivity
  rw [abs_mul, abs_of_pos scale]
  exact mul_lt_mul_of_pos_right (by exact_mod_cast small) scale

theorem abs_lt_of_neg {m e : ℤ} (small : |m| < 2 ^ format.precision) (negative : e < 0) :
    |(m : ℚ) * 2 ^ e| < 2 ^ format.precision := by
  have fraction : (2 : ℚ) ^ e ≤ 1 := zpow_le_one_of_nonpos₀ (by norm_num) negative.le
  calc |(m : ℚ) * 2 ^ e| < 2 ^ format.precision * 2 ^ e := abs_scaled_lt small e
    _ ≤ 2 ^ format.precision * 1 := by gcongr
    _ = 2 ^ format.precision := mul_one _

theorem scaled_eq_intCast {m e : ℤ} (nonneg : 0 ≤ e) :
    (m : ℚ) * 2 ^ e = ((m * 2 ^ e.toNat : ℤ) : ℚ) := by
  obtain ⟨k, rfl⟩ := Int.eq_ofNat_of_zero_le nonneg
  simp

namespace Representable

theorem mul_two_pow (representable : format.Representable x) (k : ℕ) :
    format.Representable (x * 2 ^ k) := by
  obtain ⟨m, e, small, exponent, rfl⟩ := representable
  refine ⟨m, e + k, small, by omega, ?_⟩
  rw [zpow_add₀ (by norm_num), zpow_natCast, mul_assoc]

theorem truncate (representable : format.Representable x) (fractions : format.minExponent ≤ 0) :
    format.Representable (Int.truncate x) := by
  obtain ⟨m, e, small, exponent, rfl⟩ := representable
  rcases le_or_gt 0 e with nonneg | negative
  · refine ⟨m, e, small, exponent, ?_⟩
    rw [scaled_eq_intCast nonneg, Int.truncate_intCast]
  · refine ⟨_, 0, ?_, fractions, by rw [zpow_zero, mul_one]⟩
    have bound := (Int.abs_truncate_le _).trans_lt (abs_lt_of_neg small negative)
    exact_mod_cast bound

theorem exists_nat {z : ℤ} (representable : format.Representable z) :
    ∃ (m : ℤ) (k : ℕ), |m| < 2 ^ format.precision ∧ (z : ℚ) = m * 2 ^ k := by
  obtain ⟨m, e, small, -, value⟩ := representable
  rcases le_or_gt 0 e with nonneg | negative
  · obtain ⟨k, rfl⟩ := Int.eq_ofNat_of_zero_le nonneg
    exact ⟨m, k, small, value⟩
  · refine ⟨z, 0, ?_, by simp⟩
    have bound := abs_lt_of_neg small negative
    rw [← value] at bound
    exact_mod_cast bound

theorem div_two_pow {z : ℤ} (representable : format.Representable z) (k : ℕ)
    (fractions : format.minExponent ≤ -k) : format.Representable (z / 2 ^ k) := by
  obtain ⟨m, j, small, value⟩ := representable.exists_nat
  refine ⟨m, j - k, small, by omega, ?_⟩
  rw [value, zpow_sub₀ (by norm_num), zpow_natCast, zpow_natCast, mul_div_assoc]

end Representable

/-- The exponent of the last significant bit of a number of this size. -/
def quantumExponent (format : FloatFormat) (x : ℚ) : ℤ :=
  max (Int.log 2 |x| + 1 - format.precision) format.minExponent

/-- The nearest number of the format. -/
def round (format : FloatFormat) (x : ℚ) : ℚ :=
  Int.roundEven (x / 2 ^ format.quantumExponent x) * 2 ^ format.quantumExponent x

theorem round_representable (format : FloatFormat) (x : ℚ) :
    format.Representable (format.round x) := by
  refine representable_of_abs_le (Int.abs_roundEven_le (le_of_lt ?_)) (le_max_right _ _)
  have quantum : (0 : ℚ) < 2 ^ format.quantumExponent x := by positivity
  have significant : Int.log 2 |x| + 1 ≤ format.precision + format.quantumExponent x := by
    have least : Int.log 2 |x| + 1 - format.precision ≤ format.quantumExponent x := le_max_left _ _
    omega
  rw [abs_div, abs_of_pos quantum, div_lt_iff₀ quantum]
  calc |x| < 2 ^ (Int.log 2 |x| + 1) := by exact_mod_cast Int.lt_zpow_succ_log_self one_lt_two |x|
    _ ≤ 2 ^ (format.precision + format.quantumExponent x) :=
        zpow_le_zpow_right₀ (by norm_num) significant
    _ = ((2 ^ format.precision : ℤ) : ℚ) * 2 ^ format.quantumExponent x := by
        rw [zpow_add₀ (by norm_num), zpow_natCast]
        push_cast
        rfl

theorem quantumExponent_le {e : ℤ} (small : |x| < 2 ^ format.precision * 2 ^ e)
    (exponent : format.minExponent ≤ e) (nonzero : x ≠ 0) : format.quantumExponent x ≤ e := by
  have size : |x| < ((2 : ℕ) : ℚ) ^ (format.precision + e) := by
    push_cast
    rwa [zpow_add₀ (by norm_num), zpow_natCast]
  have significant := (Int.lt_zpow_iff_log_lt one_lt_two (abs_pos.mpr nonzero)).mp size
  exact max_le (by omega) exponent

/-- A number of the format is not rounded. -/
theorem round_of_representable (representable : format.Representable x) : format.round x = x := by
  obtain ⟨m, e, small, exponent, rfl⟩ := representable
  rcases eq_or_ne m 0 with rfl | nonzero
  · simp [round]
  have quantum := quantumExponent_le (abs_scaled_lt small e) exponent (by positivity)
  have multiple : (m : ℚ) * 2 ^ e / 2 ^ format.quantumExponent (m * 2 ^ e) =
      ((m * 2 ^ (e - format.quantumExponent (m * 2 ^ e)).toNat : ℤ) : ℚ) := by
    rw [← scaled_eq_intCast (by omega), zpow_sub₀ (by norm_num), mul_div_assoc]
  rw [round, multiple, Int.roundEven_intCast, ← multiple, div_mul_cancel₀ _ (by positivity)]

end FloatFormat

/-- A number of a format. -/
structure BinaryFloat (format : FloatFormat) where
  value : ℚ
  representable : format.Representable value

namespace BinaryFloat

variable {format : FloatFormat}

/-- The number of the format which an exact result becomes. -/
def ofRat (x : ℚ) : BinaryFloat format := ⟨format.round x, format.round_representable x⟩

/-- Conversion of an integer. -/
def ofInt (z : ℤ) : BinaryFloat format := ofRat z

instance : Mul (BinaryFloat format) := ⟨fun x y => ofRat (x.value * y.value)⟩

instance : Div (BinaryFloat format) := ⟨fun x y => ofRat (x.value / y.value)⟩

/-- Conversion to a word in two's complement, toward zero; an integer that does not fit is not
converted. -/
def toWord (width : ℕ) (x : BinaryFloat format) : Option (BitVec width) :=
  if -2 ^ (width - 1) ≤ Int.truncate x.value ∧ Int.truncate x.value < 2 ^ (width - 1) then
    some (BitVec.ofInt width (Int.truncate x.value))
  else
    none

theorem value_ofInt {z : ℤ} (representable : format.Representable z) :
    (ofInt z : BinaryFloat format).value = z :=
  FloatFormat.round_of_representable representable

theorem value_mul {x y : BinaryFloat format}
    (representable : format.Representable (x.value * y.value)) :
    (x * y).value = x.value * y.value :=
  FloatFormat.round_of_representable representable

theorem value_div {x y : BinaryFloat format}
    (representable : format.Representable (x.value / y.value)) :
    (x / y).value = x.value / y.value :=
  FloatFormat.round_of_representable representable

/-- Numbers in the range of the words are converted to what they are without their fraction. -/
theorem toWord_of_bounds {width : ℕ} {x : BinaryFloat format} (positive : 0 < width)
    (lower : -2 ^ (width - 1) ≤ x.value) (upper : x.value < 2 ^ (width - 1)) :
    x.toWord width = some (BitVec.ofInt width (Int.truncate x.value)) ∧
      (BitVec.ofInt width (Int.truncate x.value)).toInt = Int.truncate x.value := by
  have le : -2 ^ (width - 1) ≤ Int.truncate x.value :=
    Int.le_truncate (by push_cast; exact lower)
  have lt : Int.truncate x.value < 2 ^ (width - 1) :=
    Int.truncate_lt (by positivity) (by push_cast; exact upper)
  exact ⟨if_pos ⟨le, lt⟩, BitVec.toInt_ofInt_eq_self positive le lt⟩

end BinaryFloat
