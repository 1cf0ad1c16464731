import KKAccel.Foundation.BinaryFloat
import Mathlib.Algebra.BigOperators.Group.Finset.Basic
import Mathlib.Algebra.Order.BigOperators.Group.List
import Mathlib.Tactic.Ring

/-!
# Rounding errors

One rounding of a number which is not too small changes it by at most the unit roundoff of its
format, relative to the number. A sum of two numbers of the format is never too small for that.
Sums of many terms accumulate the errors of their terms and of the additions.
-/

namespace Int

variable {K : Type*} [Field K] [LinearOrder K] [FloorRing K] [IsStrictOrderedRing K]

theorem abs_roundEven_sub_le (x : K) : |(roundEven x : K) - x| ≤ 1 / 2 := by
  have fraction := Int.floor_add_fract x
  have nonneg := Int.fract_nonneg x
  have small := Int.fract_lt_one x
  rw [roundEven, abs_le]
  split_ifs <;> push_cast <;> constructor <;> linarith

omit [IsStrictOrderedRing K] in
theorem roundEven_nonneg {x : K} (nonneg : 0 ≤ x) : 0 ≤ roundEven x := by
  have floor := Int.floor_nonneg.mpr nonneg
  rcases roundEven_eq_or x with rounded | rounded <;> omega

end Int

namespace FloatFormat

variable {format : FloatFormat} {x y : ℚ}

/-- The largest relative error of a rounding. -/
def unitRoundoff (format : FloatFormat) : ℚ := 2 ^ (-(format.precision : ℤ))

theorem unitRoundoff_pos (format : FloatFormat) : 0 < format.unitRoundoff := by
  rw [unitRoundoff]
  positivity

/-- Rounding changes the number by at most the unit roundoff, relative to the number. -/
def Accurate (format : FloatFormat) (x : ℚ) : Prop :=
  |format.round x - x| ≤ format.unitRoundoff * |x|

theorem Accurate.of_representable (representable : format.Representable x) :
    format.Accurate x := by
  rw [Accurate, round_of_representable representable, sub_self, abs_zero]
  exact mul_nonneg format.unitRoundoff_pos.le (abs_nonneg x)

theorem representable_zero (format : FloatFormat) : format.Representable 0 :=
  ⟨0, format.minExponent, by simp, le_rfl, by simp⟩

theorem representable_intCast {z : ℤ} (bound : |z| ≤ 2 ^ format.precision)
    (integers : format.minExponent ≤ 0) : format.Representable z := by
  simpa using representable_of_abs_le bound integers

theorem Representable.neg (representable : format.Representable x) :
    format.Representable (-x) := by
  obtain ⟨m, e, small, exponent, rfl⟩ := representable
  exact ⟨-m, e, by rwa [abs_neg], exponent, by push_cast; ring⟩

theorem Representable.abs (representable : format.Representable x) :
    format.Representable |x| := by
  rcases abs_choice x with positive | negative
  · rwa [positive]
  · rw [negative]
    exact representable.neg

/-- The error of a rounding is at most half the last digit. -/
theorem abs_round_sub_le (format : FloatFormat) (x : ℚ) :
    |format.round x - x| ≤ 2 ^ format.quantumExponent x / 2 := by
  have quantum : (0 : ℚ) < 2 ^ format.quantumExponent x := by positivity
  have scaled : format.round x - x =
      (Int.roundEven (x / 2 ^ format.quantumExponent x) - x / 2 ^ format.quantumExponent x) *
        2 ^ format.quantumExponent x := by
    rw [sub_mul, div_mul_cancel₀ _ quantum.ne', round]
  have half := mul_le_mul_of_nonneg_right
    (Int.abs_roundEven_sub_le (x / 2 ^ format.quantumExponent x)) quantum.le
  rw [scaled, abs_mul, abs_of_pos quantum]
  linarith

theorem round_nonneg (nonneg : 0 ≤ x) : 0 ≤ format.round x := by
  have scaled : 0 ≤ x / 2 ^ format.quantumExponent x := div_nonneg nonneg (by positivity)
  have rounded : (0 : ℚ) ≤ Int.roundEven (x / 2 ^ format.quantumExponent x) := by
    exact_mod_cast Int.roundEven_nonneg scaled
  exact mul_nonneg rounded (by positivity)

theorem two_zpow_log_le (nonzero : x ≠ 0) : (2 : ℚ) ^ Int.log 2 |x| ≤ |x| := by
  exact_mod_cast Int.zpow_log_le_self one_lt_two (abs_pos.mpr nonzero)

/-- Numbers with all their significant bits are rounded accurately. -/
theorem accurate_of_normal
    (normal : (2 : ℚ) ^ (format.minExponent + format.precision - 1) ≤ |x|) :
    format.Accurate x := by
  have nonzero : x ≠ 0 := by
    rintro rfl
    rw [abs_zero] at normal
    exact absurd normal (not_le.mpr (by positivity))
  have large : format.minExponent + format.precision - 1 ≤ Int.log 2 |x| :=
    (Int.zpow_le_iff_le_log one_lt_two (abs_pos.mpr nonzero)).mp (by exact_mod_cast normal)
  have quantum : format.quantumExponent x = Int.log 2 |x| + 1 - format.precision :=
    max_eq_left (by omega)
  calc |format.round x - x| ≤ 2 ^ format.quantumExponent x / 2 := format.abs_round_sub_le x
    _ = format.unitRoundoff * 2 ^ Int.log 2 |x| := by
        have exponent : Int.log 2 |x| + 1 - format.precision =
            -format.precision + Int.log 2 |x| + 1 := by ring
        rw [quantum, unitRoundoff, ← zpow_add₀ (by norm_num), exponent,
          zpow_add_one₀ (by norm_num), mul_div_cancel_right₀ _ (by norm_num)]
    _ ≤ format.unitRoundoff * |x| := by
        gcongr
        · exact format.unitRoundoff_pos.le
        · exact two_zpow_log_le nonzero

theorem Representable.exists_multiple (representable : format.Representable x) :
    ∃ k : ℤ, x = k * 2 ^ format.minExponent := by
  obtain ⟨m, e, -, exponent, rfl⟩ := representable
  obtain ⟨d, rfl⟩ := Int.le.dest exponent
  refine ⟨m * 2 ^ d, ?_⟩
  rw [zpow_add₀ (by norm_num), zpow_natCast]
  push_cast
  ring

theorem accurate_add (left : format.Representable x) (right : format.Representable y) :
    format.Accurate (x + y) := by
  rcases le_or_gt ((2 : ℚ) ^ (format.minExponent + format.precision - 1)) |x + y| with
    normal | small
  · exact accurate_of_normal normal
  · obtain ⟨k, rfl⟩ := left.exists_multiple
    obtain ⟨l, rfl⟩ := right.exists_multiple
    rw [← add_mul, ← Int.cast_add] at small ⊢
    refine .of_representable (representable_of_abs_le ?_ le_rfl)
    have scale : (0 : ℚ) < 2 ^ format.minExponent := by positivity
    have wide : (2 : ℚ) ^ (format.minExponent + format.precision - 1) ≤
        2 ^ format.precision * 2 ^ format.minExponent := by
      rw [← zpow_natCast, ← zpow_add₀ (by norm_num)]
      exact zpow_le_zpow_right₀ (by norm_num) (by omega)
    rw [abs_mul, abs_of_pos scale] at small
    have bound := lt_of_mul_lt_mul_right (small.trans_le wide) scale.le
    exact_mod_cast bound.le

theorem accurate_sub (left : format.Representable x) (right : format.Representable y) :
    format.Accurate (x - y) := by
  rw [sub_eq_add_neg]
  exact accurate_add left right.neg

theorem abs_round_sub_le_add (format : FloatFormat) (x : ℚ) :
    |format.round x - x| ≤ format.unitRoundoff * |x| + 2 ^ format.minExponent := by
  have least : (0 : ℚ) < 2 ^ format.minExponent := by positivity
  have relative := mul_nonneg format.unitRoundoff_pos.le (abs_nonneg x)
  rcases eq_or_ne x 0 with rfl | nonzero
  · rw [round_of_representable format.representable_zero, sub_self, abs_zero]
    positivity
  rcases le_or_gt ((2 : ℚ) ^ (format.minExponent + format.precision - 1)) |x| with
    normal | small
  · have accurate : |format.round x - x| ≤ _ := accurate_of_normal normal
    linarith
  · have bound : Int.log 2 |x| < format.minExponent + format.precision - 1 :=
      (Int.lt_zpow_iff_log_lt one_lt_two (abs_pos.mpr nonzero)).mp (by exact_mod_cast small)
    have quantum : format.quantumExponent x = format.minExponent := max_eq_right (by omega)
    have half := format.abs_round_sub_le x
    rw [quantum] at half
    linarith

/-- What `count` roundings in a row may change, relative to the number. -/
def growth (format : FloatFormat) (count : ℕ) : ℚ := (1 + format.unitRoundoff) ^ count - 1

theorem growth_one (format : FloatFormat) : format.growth 1 = format.unitRoundoff := by
  rw [growth, pow_one, add_sub_cancel_left]

theorem growth_mono (format : FloatFormat) {few many : ℕ} (le : few ≤ many) :
    format.growth few ≤ format.growth many := by
  have base : 1 ≤ 1 + format.unitRoundoff := by linarith [format.unitRoundoff_pos]
  exact sub_le_sub_right (pow_le_pow_right₀ base le) 1

/-- A number which has gone through so many roundings. -/
def Close (format : FloatFormat) (count : ℕ) (computed exact : ℚ) : Prop :=
  |computed - exact| ≤ format.growth count * |exact|

/-- One more rounding of a number which is close relative to a bound, up to a slack. -/
theorem abs_round_sub_le_growth {count : ℕ} {bound slack least : ℚ}
    (rounded : |format.round x - x| ≤ format.unitRoundoff * |x| + least)
    (close : |x - y| ≤ format.growth count * bound + slack) (small : |y| ≤ bound) :
    |format.round x - y| ≤
      format.growth (count + 1) * bound + ((1 + format.unitRoundoff) * slack + least) := by
  have unit := format.unitRoundoff_pos
  have larger : |x| ≤ |x - y| + |y| := by simpa using abs_add_le (x - y) y
  have triangle : |format.round x - y| ≤ |format.round x - x| + |x - y| := by
    simpa using abs_add_le (format.round x - x) (x - y)
  calc |format.round x - y|
      ≤ format.unitRoundoff * |x| + least + (format.growth count * bound + slack) :=
        triangle.trans (add_le_add rounded close)
    _ ≤ format.unitRoundoff * (format.growth count * bound + slack + bound) + least +
          (format.growth count * bound + slack) := by
        gcongr
        linarith
    _ = format.growth (count + 1) * bound + ((1 + format.unitRoundoff) * slack + least) := by
        rw [growth, growth, pow_succ]
        ring

theorem Accurate.rounded (accurate : format.Accurate x) :
    |format.round x - x| ≤ format.unitRoundoff * |x| + 0 := by
  rwa [add_zero]

theorem Close.round {count : ℕ} (close : format.Close count x y) (accurate : format.Accurate x) :
    format.Close (count + 1) (format.round x) y := by
  have slack : |x - y| ≤ format.growth count * |y| + 0 := by rwa [add_zero]
  simpa [Close] using abs_round_sub_le_growth accurate.rounded slack le_rfl

theorem Close.mul_right {count : ℕ} (close : format.Close count x y) (factor : ℚ) :
    format.Close count (x * factor) (y * factor) := by
  rw [Close, ← sub_mul, abs_mul, abs_mul, ← mul_assoc]
  exact mul_le_mul_of_nonneg_right close (abs_nonneg factor)

section Quotient

variable {a b : ℤ}

theorem unitRoundoff_le_half (format : FloatFormat) : format.unitRoundoff ≤ 1 / 2 := by
  have digits : -(format.precision : ℤ) ≤ -1 := by
    have positive := format.precision_pos
    omega
  calc format.unitRoundoff ≤ 2 ^ (-1 : ℤ) := zpow_le_zpow_right₀ (by norm_num) digits
    _ = 1 / 2 := by norm_num

theorem Close.abs_le_two_mul (close : format.Close 1 x y) : |y| ≤ 2 * |x| := by
  have triangle : |y| ≤ |x - y| + |x| := by simpa [abs_sub_comm] using abs_add_le (y - x) x
  have half := mul_le_mul_of_nonneg_right format.unitRoundoff_le_half (abs_nonneg y)
  rw [Close, growth_one] at close
  linarith

/-- A quotient of integers with few digits is not small, unless it is zero. -/
theorem le_abs_div (nonzero : a ≠ 0) (divisor : |b| ≤ 2 ^ format.precision) (proper : b ≠ 0) :
    format.unitRoundoff ≤ |(a / b : ℚ)| := by
  have positive : (0 : ℚ) < |(b : ℚ)| := abs_pos.mpr (by exact_mod_cast proper)
  have one_le : (1 : ℚ) ≤ |(a : ℚ)| := by exact_mod_cast Int.one_le_abs nonzero
  have digits : |(b : ℚ)| ≤ 2 ^ format.precision := by exact_mod_cast divisor
  rw [abs_div, le_div_iff₀ positive, unitRoundoff, zpow_neg, zpow_natCast]
  calc (2 ^ format.precision : ℚ)⁻¹ * |(b : ℚ)|
      ≤ (2 ^ format.precision : ℚ)⁻¹ * 2 ^ format.precision := by gcongr
    _ = 1 := inv_mul_cancel₀ (by positivity)
    _ ≤ |(a : ℚ)| := one_le

theorem normal_of_unitRoundoff_le (range : format.minExponent ≤ -2 * format.precision)
    (large : format.unitRoundoff ≤ 2 * |x|) : format.Accurate x := by
  apply accurate_of_normal
  have half : format.unitRoundoff = 2 * 2 ^ (-(format.precision : ℤ) - 1) := by
    rw [unitRoundoff, ← zpow_one_add₀ (by norm_num)]
    congr 1
    ring
  calc (2 : ℚ) ^ (format.minExponent + format.precision - 1)
      ≤ 2 ^ (-(format.precision : ℤ) - 1) := zpow_le_zpow_right₀ (by norm_num) (by omega)
    _ ≤ |x| := by linarith

theorem close_div (range : format.minExponent ≤ -2 * format.precision)
    (divisor : |b| ≤ 2 ^ format.precision) : format.Close 1 (format.round (a / b)) (a / b) := by
  rw [Close, growth_one]
  rcases eq_or_ne a 0 with rfl | nonzero
  · simpa using round_of_representable format.representable_zero
  rcases eq_or_ne b 0 with rfl | proper
  · simpa using round_of_representable format.representable_zero
  · have large := le_abs_div nonzero divisor proper
    exact normal_of_unitRoundoff_le range (by linarith [abs_nonneg (a / b : ℚ)])

/-- The product of a rounded quotient and an integer is off by two roundings. -/
theorem close_div_mul (range : format.minExponent ≤ -2 * format.precision)
    (divisor : |b| ≤ 2 ^ format.precision) (c : ℤ) :
    format.Close 2 (format.round (format.round (a / b) * c)) (a / b * c) := by
  have close := close_div (a := a) range divisor
  apply (close.mul_right c).round
  rcases eq_or_ne (a / b * c : ℚ) 0 with zero | nonzero
  · have product := close.mul_right c
    rw [zero, Close, abs_zero, mul_zero, sub_zero, abs_nonpos_iff] at product
    rw [product]
    exact .of_representable format.representable_zero
  · obtain ⟨quotient, factor⟩ := mul_ne_zero_iff.mp nonzero
    obtain ⟨dividend, proper⟩ := div_ne_zero_iff.mp quotient
    have large : format.unitRoundoff ≤ |(a / b : ℚ)| :=
      le_abs_div (by exact_mod_cast dividend) divisor (by exact_mod_cast proper)
    have one_le : (1 : ℚ) ≤ |(c : ℚ)| := by
      exact_mod_cast Int.one_le_abs (by exact_mod_cast factor)
    apply normal_of_unitRoundoff_le range
    calc format.unitRoundoff ≤ 2 * |format.round (a / b)| := large.trans close.abs_le_two_mul
      _ ≤ 2 * (|format.round (a / b)| * |(c : ℚ)|) := by
          gcongr
          exact le_mul_of_one_le_right (abs_nonneg _) one_le
      _ = 2 * |format.round (a / b) * c| := by rw [abs_mul]

end Quotient

end FloatFormat

namespace BinaryFloat

variable {format : FloatFormat}

instance : Add (BinaryFloat format) := ⟨fun x y => ofRat (x.value + y.value)⟩

instance : Sub (BinaryFloat format) := ⟨fun x y => ofRat (x.value - y.value)⟩

/-- The number without its sign. -/
def abs (x : BinaryFloat format) : BinaryFloat format := ⟨|x.value|, x.representable.abs⟩

theorem value_sub {x y : BinaryFloat format}
    (representable : format.Representable (x.value - y.value)) :
    (x - y).value = x.value - y.value :=
  FloatFormat.round_of_representable representable

theorem value_ofInt_zero : (ofInt 0 : BinaryFloat format).value = 0 := by
  have representable : format.Representable (0 : ℤ) := by simpa using format.representable_zero
  simpa using value_ofInt representable

variable {ι : Type*} {terms : ι → BinaryFloat format} {exact : ι → ℚ} {count : ℕ} {slack : ℚ}

theorem foldl_add_nonneg (nonneg : ∀ k, 0 ≤ (terms k).value) (ks : List ι) :
    0 ≤ (ks.foldl (fun sum k => sum + terms k) (ofInt 0)).value := by
  induction ks using List.reverseRecOn with
  | nil => simp [value_ofInt_zero]
  | append_singleton ks k induction =>
      rw [List.foldl_append]
      exact FloatFormat.round_nonneg (add_nonneg induction (nonneg k))

private theorem abs_sum_map_le (exact : ι → ℚ) (ks : List ι) :
    |(ks.map exact).sum| ≤ (ks.map fun k => |exact k|).sum := by
  induction ks with
  | nil => simp
  | cons k ks induction =>
      rw [List.map_cons, List.map_cons, List.sum_cons, List.sum_cons]
      exact (abs_add_le _ _).trans (add_le_add_right induction _)

/-- The error of a sum which is accumulated from zero: that of its terms, and one more rounding
for each of them. -/
theorem foldl_add_error (nonneg : 0 ≤ slack)
    (close : ∀ k, |(terms k).value - exact k| ≤ format.growth count * |exact k| + slack)
    (ks : List ι) :
    |(ks.foldl (fun sum k => sum + terms k) (ofInt 0)).value - (ks.map exact).sum| ≤
      format.growth (ks.length + count) * (ks.map fun k => |exact k|).sum +
        ks.length * (1 + format.unitRoundoff) ^ ks.length * slack := by
  have unit := format.unitRoundoff_pos
  induction ks using List.reverseRecOn with
  | nil => simp [value_ofInt_zero]
  | append_singleton ks k induction =>
      simp only [List.foldl_append, List.foldl_cons, List.foldl_nil, List.map_append,
        List.map_singleton, List.sum_append, List.sum_singleton, List.length_append,
        List.length_singleton]
      set sum := ks.foldl (fun sum k => sum + terms k) (ofInt 0)
      have one_le : 1 ≤ (1 + format.unitRoundoff) ^ ks.length :=
        one_le_pow₀ (by linarith)
      have term : |(terms k).value - exact k| ≤ format.growth (ks.length + count) * |exact k| +
          (1 + format.unitRoundoff) ^ ks.length * slack := by
        apply (close k).trans
        gcongr
        · exact format.growth_mono (Nat.le_add_left _ _)
        · exact le_mul_of_one_le_left nonneg one_le
      have bounded : |(ks.map exact).sum + exact k| ≤
          (ks.map fun k => |exact k|).sum + |exact k| :=
        (abs_add_le _ _).trans (add_le_add_left (abs_sum_map_le exact ks) _)
      have sumClose : |sum.value + (terms k).value - ((ks.map exact).sum + exact k)| ≤
          format.growth (ks.length + count) *
              ((ks.map fun k => |exact k|).sum + |exact k|) +
            (ks.length + 1) * (1 + format.unitRoundoff) ^ ks.length * slack := by
        rw [add_sub_add_comm]
        refine (abs_add_le _ _).trans ((add_le_add induction term).trans_eq ?_)
        ring
      have accurate := FloatFormat.accurate_add sum.representable (terms k).representable
      refine (FloatFormat.abs_round_sub_le_growth accurate.rounded sumClose bounded).trans_eq ?_
      rw [Nat.add_right_comm, pow_succ]
      push_cast
      ring

theorem foldl_add_close
    (close : ∀ k, format.Close count (terms k).value (exact k)) (ks : List ι) :
    |(ks.foldl (fun sum k => sum + terms k) (ofInt 0)).value - (ks.map exact).sum| ≤
      format.growth (ks.length + count) * (ks.map fun k => |exact k|).sum := by
  have close' (k : ι) : |(terms k).value - exact k| ≤ format.growth count * |exact k| + 0 := by
    rw [add_zero]
    exact close k
  simpa using foldl_add_error le_rfl close' ks

end BinaryFloat
