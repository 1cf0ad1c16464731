import KKAccel.Foundation.BinaryFloat
import KKAccel.Protocol

/-!
# The driver's numbers

The accelerated program keeps its matrices in single precision and converts each element to a
fixed-point word for the bus, and back. Both conversions could round, as a word has more
significant bits than a float, but a word which comes from a float never needs them.
-/

namespace KKAccel

/-- The format of the type `float`. -/
def binary32 : FloatFormat where
  precision := 24
  minExponent := -149
  precision_pos := by omega

/-- Finite numbers of the type `float`. -/
abbrev Binary32 := BinaryFloat binary32

/-- Fractional multiplier. -/
def frac : ℤ := 65536

/-- Fixed-point fractional bits. -/
def fracBit : ℕ := 16

/-- Fixed-point integer bits. -/
def intBit : ℕ := 16

/-- Transform a fixed-point element to float. -/
def toFloat (elem : BitVec 32) : Binary32 :=
  BinaryFloat.ofInt elem.toInt / BinaryFloat.ofInt frac

/-- Transform a float to fixed-point element. The conversion to `int` is undefined on products
which do not fit, the infinite ones included. -/
def toBit (elem : Binary32) : Option (BitVec 32) := do
  let e ← (elem * BinaryFloat.ofInt frac).toWord 32
  return ((e &&& 0x80000000#32) >>> (32 - (fracBit + intBit))) ||| e

/-- The request of `kk_putelem`. -/
def kkPutelem (elem : Binary32) (i j : BitVec 32) : Option (AvalonRequest 18 32) := do
  let data ← toBit elem
  return { addr := wordAddress (putelemOffset i j), data, command := .write }

/-- A number without its binary digits after the first `fw` fractional ones. -/
def quantize (fw : ℕ) (x : ℚ) : ℚ := Int.truncate (x * 2 ^ fw) / 2 ^ fw

section Quantize

variable (fw : ℕ) (x : ℚ)

theorem abs_quantize_sub_lt : |quantize fw x - x| < 1 / 2 ^ fw := by
  have scale : (0 : ℚ) < 2 ^ fw := by positivity
  have exact : quantize fw x - x = (Int.truncate (x * 2 ^ fw) - x * 2 ^ fw) / 2 ^ fw := by
    rw [sub_div, mul_div_cancel_right₀ _ scale.ne', quantize]
  rw [exact, abs_div, abs_of_pos scale]
  exact div_lt_div_of_pos_right (Int.abs_truncate_sub_lt_one _) scale

theorem abs_quantize_le : |quantize fw x| ≤ |x| := by
  have scale : (0 : ℚ) < 2 ^ fw := by positivity
  rw [quantize, abs_div, abs_of_pos scale, div_le_iff₀ scale]
  calc |(Int.truncate (x * 2 ^ fw) : ℚ)| ≤ |x * 2 ^ fw| := Int.abs_truncate_le _
    _ = |x| * 2 ^ fw := by rw [abs_mul, abs_of_pos scale]

end Quantize

theorem value_frac : (BinaryFloat.ofInt frac : Binary32).value = 2 ^ 16 := by
  have representable : binary32.Representable (frac : ℤ) := by
    refine ⟨1, 16, ?_, ?_, ?_⟩ <;> norm_num [binary32, frac]
  rw [BinaryFloat.value_ofInt representable, frac]
  norm_num

theorem value_mul_frac (elem : Binary32) :
    (elem * BinaryFloat.ofInt frac : Binary32).value = elem.value * 2 ^ 16 := by
  have representable := elem.representable.mul_two_pow 16
  rw [← value_frac] at representable ⊢
  exact BinaryFloat.value_mul representable

theorem value_toFloat {elem : BitVec 32} (representable : binary32.Representable elem.toInt) :
    (toFloat elem).value = @FixedPoint.toRat 16 16 elem := by
  have quotient := representable.div_two_pow 16 (by decide)
  rw [← BinaryFloat.value_ofInt representable, ← value_frac] at quotient
  rw [toFloat, BinaryFloat.value_div quotient, BinaryFloat.value_ofInt representable, value_frac]
  rfl

/-- The sign bit is set already where `to_bit` sets it. -/
theorem or_sign (e : BitVec 32) :
    ((e &&& 0x80000000#32) >>> (32 - (fracBit + intBit))) ||| e = e := by
  have unshifted : 32 - (fracBit + intBit) = 0 := rfl
  rw [unshifted, BitVec.ushiftRight_zero]
  ext i bound
  rw [BitVec.getElem_or, BitVec.getElem_and]
  cases e[i] <;> simp

/-- In the range of the words, `to_bit` truncates the scaled element. -/
theorem toBit_of_bounds {elem : Binary32} (lower : -2 ^ 15 ≤ elem.value)
    (upper : elem.value < 2 ^ 15) :
    ∃ word, toBit elem = some word ∧ word.toInt = Int.truncate (elem.value * 2 ^ 16) := by
  have scaled := value_mul_frac elem
  have lower' : -2 ^ 31 ≤ (elem * BinaryFloat.ofInt frac : Binary32).value := by
    rw [scaled]
    linarith
  have upper' : (elem * BinaryFloat.ofInt frac : Binary32).value < 2 ^ 31 := by
    rw [scaled]
    linarith
  have width : 0 < 32 := by omega
  obtain ⟨converted, word⟩ := BinaryFloat.toWord_of_bounds width lower' upper'
  rw [scaled] at converted word
  refine ⟨_, ?_, word⟩
  rw [toBit, converted]
  exact congrArg some (or_sign _)

theorem toRat_of_truncated {word : BitVec 32} {elem : Binary32}
    (truncated : word.toInt = Int.truncate (elem.value * 2 ^ 16)) :
    @FixedPoint.toRat 16 16 word = quantize 16 elem.value ∧
      binary32.Representable word.toInt := by
  constructor
  · rw [FixedPoint.toRat, truncated]
    rfl
  · rw [truncated]
    exact (elem.representable.mul_two_pow 16).truncate (by decide)

/-- A word that has few significant bits survives the conversion to float and back. -/
theorem toBit_toFloat_of_representable {word : BitVec 32}
    (representable : binary32.Representable word.toInt) : toBit (toFloat word) = some word := by
  have value := value_toFloat representable
  obtain ⟨lower, upper⟩ := @FixedPoint.toRat_bounds 16 16 (by omega) word
  rw [← value] at lower upper
  obtain ⟨again, converted, truncated⟩ := toBit_of_bounds lower upper
  rw [value, FixedPoint.toRat_mul, Int.truncate_intCast, BitVec.toInt_inj] at truncated
  rw [converted, truncated]

/-- The elements which `to_bit` accepts become words in order, within the last place, and are
stable under further conversions. -/
theorem driver_codec (x : Binary32) (lower : -2 ^ 15 ≤ x.value) (upper : x.value < 2 ^ 15) :
    ∃ word, toBit x = some word ∧
      word = BitVec.ofInt 32 (Int.truncate (x.value * 2 ^ 16)) ∧
      word.toInt = Int.truncate (x.value * 2 ^ 16) ∧
      (toFloat word).value = Int.truncate (x.value * 2 ^ 16) / 2 ^ 16 ∧
      |(toFloat word).value - x.value| < 1 / 2 ^ 16 ∧
      |(toFloat word).value| ≤ |x.value| ∧
      toBit (toFloat word) = some word ∧
      ∀ y : Binary32, x.value ≤ y.value → y.value < 2 ^ 15 →
        ∃ word', toBit y = some word' ∧ word.toInt ≤ word'.toInt := by
  obtain ⟨word, converted, truncated⟩ := toBit_of_bounds lower upper
  obtain ⟨toRat, representable⟩ := toRat_of_truncated truncated
  have value := (value_toFloat representable).trans toRat
  refine ⟨word, converted, ?_, truncated, value, ?_, ?_,
    toBit_toFloat_of_representable representable, ?_⟩
  · rw [← truncated, BitVec.ofInt_toInt]
  · rw [value]
    exact abs_quantize_sub_lt 16 x.value
  · rw [value]
    exact abs_quantize_le 16 x.value
  · intro y le upper'
    obtain ⟨word', converted', truncated'⟩ := toBit_of_bounds (lower.trans le) upper'
    refine ⟨word', converted', ?_⟩
    rw [truncated, truncated']
    exact Int.truncate_mono (by linarith)

/-- The float nearest to minus seven tenths. -/
def minusSevenTenths : Binary32 where
  value := -11744051 / 2 ^ 24
  representable := ⟨-11744051, -24, by decide, by decide, by norm_num⟩

theorem driver_codec_minusSevenTenths :
    ∃ word, toBit minusSevenTenths = some word ∧ word.toInt = -45875 ∧
      toBit (toFloat word) = some word := by
  obtain ⟨word, converted, -, truncated, -, -, -, stable, -⟩ :=
    driver_codec minusSevenTenths (by norm_num [minusSevenTenths])
      (by norm_num [minusSevenTenths])
  refine ⟨word, converted, ?_, stable⟩
  rw [truncated, Int.truncate_of_neg (by norm_num [minusSevenTenths]), Int.ceil_eq_iff]
  norm_num [minusSevenTenths]

end KKAccel
