import KKAccel.Foundation.FloatError

/-!
# Floating point with infinities

A format with a largest number: a result beyond it is infinite, a division by zero is infinite or
not a number, and zeros have a sign. A result of sums, differences and products is finite only if
everything it has been computed from is, and then it is the one of the format without a bound.
-/

/-- A format whose exponents are bounded on both sides. Small integers are among its numbers. -/
structure BoundedFormat extends FloatFormat where
  maxExponent : ℤ
  minExponent_nonpos : minExponent ≤ 0
  one_le_maxExponent : 1 ≤ maxExponent

namespace BoundedFormat

variable (format : BoundedFormat) {q : ℚ}

/-- The largest number. -/
def maxFinite : ℚ := (2 ^ format.precision - 1) * 2 ^ format.maxExponent

/-- The finite numbers of the format. -/
def Contains (q : ℚ) : Prop := format.Representable q ∧ |q| ≤ format.maxFinite

theorem two_pow_le_maxFinite : 2 ^ format.precision ≤ format.maxFinite := by
  have exponent : (2 : ℚ) ^ (1 : ℤ) ≤ 2 ^ format.maxExponent :=
    zpow_le_zpow_right₀ (by norm_num) format.one_le_maxExponent
  have two_le : (2 : ℚ) ^ 1 ≤ 2 ^ format.precision :=
    pow_le_pow_right₀ (by norm_num) format.precision_pos
  calc (2 : ℚ) ^ format.precision ≤ (2 ^ format.precision - 1) * 2 ^ (1 : ℤ) := by linarith
    _ ≤ format.maxFinite := mul_le_mul_of_nonneg_left exponent (by linarith)

theorem maxFinite_nonneg : 0 ≤ format.maxFinite :=
  (by positivity : (0 : ℚ) ≤ 2 ^ format.precision).trans format.two_pow_le_maxFinite

variable {format}

theorem Contains.of_abs_le {a : ℤ} (small : |a| ≤ 2 ^ format.precision) : format.Contains a := by
  refine ⟨FloatFormat.representable_intCast small format.minExponent_nonpos, ?_⟩
  calc |(a : ℚ)| ≤ 2 ^ format.precision := by exact_mod_cast small
    _ ≤ format.maxFinite := format.two_pow_le_maxFinite

/-- Rounding takes no number out of the range. -/
theorem abs_round_le_maxFinite (bounded : |q| ≤ format.maxFinite) :
    |format.round q| ≤ format.maxFinite := by
  rcases eq_or_ne q 0 with rfl | nonzero
  · rwa [FloatFormat.round_of_representable format.representable_zero]
  have below : format.maxFinite < 2 ^ format.precision * 2 ^ format.maxExponent :=
    mul_lt_mul_of_pos_right (by linarith) (by positivity)
  have quantum := FloatFormat.quantumExponent_le (bounded.trans_lt below)
    (format.minExponent_nonpos.trans (by linarith [format.one_le_maxExponent])) nonzero
  have scale : (0 : ℚ) < 2 ^ format.quantumExponent q := by positivity
  -- The largest number is a multiple of the last digit of every number in the range.
  obtain ⟨multiple, largest⟩ : ∃ multiple : ℤ,
      format.maxFinite = multiple * 2 ^ format.quantumExponent q := by
    refine ⟨(2 ^ format.precision - 1) *
      2 ^ (format.maxExponent - format.quantumExponent q).toNat, ?_⟩
    rw [← FloatFormat.scaled_eq_intCast (by omega), mul_assoc, ← zpow_add₀ (by norm_num),
      sub_add_cancel, maxFinite]
    push_cast
    rfl
  have scaled : |q / 2 ^ format.quantumExponent q| ≤ multiple := by
    rwa [abs_div, abs_of_pos scale, div_le_iff₀ scale, ← largest]
  rw [FloatFormat.round, abs_mul, abs_of_pos scale, largest]
  refine mul_le_mul_of_nonneg_right ?_ scale.le
  exact_mod_cast Int.abs_roundEven_le scaled

end BoundedFormat

/-- A number of a bounded format, an infinity or the result of an invalid operation. -/
inductive ExtendedFloat (format : BoundedFormat)
  | finite (number : BinaryFloat format.toFloatFormat)
      (bounded : |number.value| ≤ format.maxFinite)
  | negativeZero
  | infinite (negative : Bool)
  | nan

namespace ExtendedFloat

variable {format : BoundedFormat}

/-- Neither infinite nor the result of an invalid operation. -/
def isFinite : ExtendedFloat format → Bool
  | finite _ _ | negativeZero => true
  | infinite _ | nan => false

def isNaN : ExtendedFloat format → Bool
  | nan => true
  | finite _ _ | negativeZero | infinite _ => false

/-- The number which a finite one is. -/
def toBinary : ExtendedFloat format → BinaryFloat format.toFloatFormat
  | finite number _ => number
  | negativeZero | infinite _ | nan => ⟨0, format.representable_zero⟩

def value (x : ExtendedFloat format) : ℚ := x.toBinary.value

def isZero (x : ExtendedFloat format) : Bool := x.isFinite && x.value == 0

/-- The sign; that of the result of an invalid operation is not used. -/
def isNegative : ExtendedFloat format → Bool
  | finite number _ => number.value < 0
  | negativeZero => true
  | infinite negative => negative
  | nan => false

/-- Zero with a sign. -/
def zero (negative : Bool) : ExtendedFloat format :=
  if negative then negativeZero
  else finite ⟨0, format.representable_zero⟩ (by simpa using format.maxFinite_nonneg)

/-- What an exact result becomes; the sign is that of a zero. -/
def rounded (negative : Bool) (q : ℚ) : ExtendedFloat format :=
  if bounded : |format.round q| ≤ format.maxFinite then
    if format.round q = 0 then zero negative else finite (.ofRat q) bounded
  else
    infinite (q < 0)

/-- Conversion of an integer. -/
def ofInt (z : ℤ) : ExtendedFloat format := rounded false z

/-- The number without its sign. -/
def abs : ExtendedFloat format → ExtendedFloat format
  | finite number bounded => finite number.abs (by rwa [BinaryFloat.abs, abs_abs])
  | negativeZero => zero false
  | infinite _ => infinite false
  | nan => nan

instance : Neg (ExtendedFloat format) where
  neg
    | finite number bounded =>
        if number.value = 0 then negativeZero
        else finite ⟨-number.value, number.representable.neg⟩ (by rwa [abs_neg])
    | negativeZero => zero false
    | infinite negative => infinite !negative
    | nan => nan

instance : Mul (ExtendedFloat format) where
  mul x y :=
    if x.isFinite && y.isFinite then rounded (x.isNegative ^^ y.isNegative) (x.value * y.value)
    else if x.isNaN || y.isNaN || x.isZero || y.isZero then nan
    else infinite (x.isNegative ^^ y.isNegative)

instance : Add (ExtendedFloat format) where
  add x y :=
    if x.isFinite && y.isFinite then rounded (x.isNegative && y.isNegative) (x.value + y.value)
    else if x.isFinite then y
    else if y.isFinite then x
    else if x.isNaN || y.isNaN || x.isNegative != y.isNegative then nan
    else x

instance : Sub (ExtendedFloat format) := ⟨fun x y => x + -y⟩

instance : Div (ExtendedFloat format) where
  div x y :=
    if x.isNaN || y.isNaN then nan
    else if !y.isFinite then
      if x.isFinite then zero (x.isNegative ^^ y.isNegative) else nan
    else if !x.isFinite then infinite (x.isNegative ^^ y.isNegative)
    else if y.isZero then
      if x.isZero then nan else infinite (x.isNegative ^^ y.isNegative)
    else rounded (x.isNegative ^^ y.isNegative) (x.value / y.value)

variable {x y : ExtendedFloat format} {q : ℚ} {negative : Bool}

@[simp]
theorem isFinite_zero (negative : Bool) :
    (zero negative : ExtendedFloat format).isFinite = true := by
  cases negative <;> rfl

theorem toBinary_zero (negative : Bool) :
    (zero negative : ExtendedFloat format).toBinary = ⟨0, format.representable_zero⟩ := by
  cases negative <;> rfl

theorem isFinite_rounded_iff :
    (rounded negative q : ExtendedFloat format).isFinite = true ↔
      |format.round q| ≤ format.maxFinite := by
  rw [rounded]
  split_ifs with bounded vanishes
  · simp [bounded]
  · simp [bounded, isFinite]
  · simp [bounded, isFinite]

theorem toBinary_rounded (bounded : |format.round q| ≤ format.maxFinite) :
    (rounded negative q : ExtendedFloat format).toBinary = .ofRat q := by
  rw [rounded, dif_pos bounded]
  split_ifs with vanishes
  · rw [toBinary_zero, BinaryFloat.ofRat]
    congr 1
    exact vanishes.symm
  · rfl

theorem mul_of_isFinite (left : x.isFinite = true) (right : y.isFinite = true) :
    x * y = rounded (x.isNegative ^^ y.isNegative) (x.value * y.value) :=
  if_pos (by rw [left, right, Bool.and_self])

theorem isFinite_of_mul (finite : (x * y).isFinite = true) :
    x.isFinite = true ∧ y.isFinite = true := by
  by_contra infinite
  rw [← Bool.and_eq_true] at infinite
  change (if x.isFinite && y.isFinite then _ else _ : ExtendedFloat format).isFinite = true
    at finite
  rw [if_neg infinite] at finite
  split_ifs at finite
  · exact Bool.false_ne_true finite
  · exact Bool.false_ne_true finite

theorem toBinary_mul (finite : (x * y).isFinite = true) :
    (x * y).toBinary = x.toBinary * y.toBinary := by
  obtain ⟨left, right⟩ := isFinite_of_mul finite
  rw [mul_of_isFinite left right] at finite ⊢
  exact toBinary_rounded (isFinite_rounded_iff.mp finite)

theorem add_of_isFinite (left : x.isFinite = true) (right : y.isFinite = true) :
    x + y = rounded (x.isNegative && y.isNegative) (x.value + y.value) :=
  if_pos (by rw [left, right, Bool.and_self])

theorem isFinite_of_add (finite : (x + y).isFinite = true) :
    x.isFinite = true ∧ y.isFinite = true := by
  by_contra infinite
  rw [← Bool.and_eq_true] at infinite
  change (if x.isFinite && y.isFinite then _ else _ : ExtendedFloat format).isFinite = true
    at finite
  rw [if_neg infinite] at finite
  rw [Bool.and_eq_true] at infinite
  split_ifs at finite with left right
  · exact infinite ⟨left, finite⟩
  · exact infinite ⟨finite, right⟩
  · exact Bool.false_ne_true finite
  · exact left finite

theorem toBinary_add (finite : (x + y).isFinite = true) :
    (x + y).toBinary = x.toBinary + y.toBinary := by
  obtain ⟨left, right⟩ := isFinite_of_add finite
  rw [add_of_isFinite left right] at finite ⊢
  exact toBinary_rounded (isFinite_rounded_iff.mp finite)

@[simp]
theorem isFinite_neg (x : ExtendedFloat format) : (-x).isFinite = x.isFinite := by
  cases x with
  | finite number bounded =>
      change (if number.value = 0 then _ else _ : ExtendedFloat format).isFinite = true
      split_ifs <;> rfl
  | negativeZero => rfl
  | infinite negative => rfl
  | nan => rfl

theorem value_neg (x : ExtendedFloat format) : (-x).value = -x.value := by
  cases x with
  | finite number bounded =>
      change (if number.value = 0 then _ else _ : ExtendedFloat format).value = -number.value
      split_ifs with vanishes
      · rw [vanishes, neg_zero]
        rfl
      · rfl
  | negativeZero | infinite | nan => exact neg_zero.symm

theorem sub_of_isFinite (left : x.isFinite = true) (right : y.isFinite = true) :
    x - y = rounded (x.isNegative && (-y).isNegative) (x.value - y.value) := by
  rw [sub_eq_add_neg, ← value_neg]
  exact add_of_isFinite left ((isFinite_neg y).trans right)

theorem isFinite_of_sub (finite : (x - y).isFinite = true) :
    x.isFinite = true ∧ y.isFinite = true := by
  rw [← isFinite_neg y]
  exact isFinite_of_add finite

theorem toBinary_sub (finite : (x - y).isFinite = true) :
    (x - y).toBinary = x.toBinary - y.toBinary := by
  obtain ⟨left, right⟩ := isFinite_of_sub finite
  rw [sub_of_isFinite left right] at finite ⊢
  exact toBinary_rounded (isFinite_rounded_iff.mp finite)

@[simp]
theorem isFinite_abs (x : ExtendedFloat format) : x.abs.isFinite = x.isFinite := by
  cases x <;> rfl

theorem toBinary_abs (finite : x.isFinite = true) : x.abs.toBinary = x.toBinary.abs := by
  cases x with
  | finite number bounded => rfl
  | negativeZero => simp [abs, zero, toBinary, BinaryFloat.abs]
  | infinite negative => contradiction
  | nan => contradiction

theorem isFinite_of_div (finite : (x / y).isFinite = true) :
    x.isFinite = true ∧ (y.isFinite = true → y.value ≠ 0) := by
  change (if x.isNaN || y.isNaN then _ else _ : ExtendedFloat format).isFinite = true at finite
  split_ifs at finite with invalid infinite left left zero both
  · exact absurd finite Bool.false_ne_true
  · rw [Bool.not_eq_true'] at infinite
    exact ⟨left, fun right => absurd (right.symm.trans infinite) (by decide)⟩
  · exact absurd finite Bool.false_ne_true
  · exact absurd finite Bool.false_ne_true
  · exact absurd finite Bool.false_ne_true
  · exact absurd finite Bool.false_ne_true
  · rw [Bool.not_eq_true', Bool.not_eq_false] at left
    refine ⟨left, fun right vanishes => zero ?_⟩
    rw [isZero, right, vanishes]
    rfl

theorem div_of_isFinite (left : x.isFinite = true) (right : y.isFinite = true)
    (nonzero : y.value ≠ 0) :
    x / y = rounded (x.isNegative ^^ y.isNegative) (x.value / y.value) := by
  have valid : ¬ (x.isNaN || y.isNaN) = true := by
    cases x <;> cases y <;> simp_all [isNaN, isFinite]
  have regular : ¬ y.isZero = true := by simp [isZero, nonzero]
  change (if x.isNaN || y.isNaN then _ else _ : ExtendedFloat format) = _
  rw [if_neg valid, if_neg (by simp [right]), if_neg (by simp [left]), if_neg regular]

theorem toBinary_div (finite : (x / y).isFinite = true) (right : y.isFinite = true) :
    (x / y).toBinary = x.toBinary / y.toBinary := by
  obtain ⟨left, nonzero⟩ := isFinite_of_div finite
  rw [div_of_isFinite left right (nonzero right)] at finite ⊢
  exact toBinary_rounded (isFinite_rounded_iff.mp finite)

theorem zero_div_zero (left : x.isFinite = true) (right : y.isFinite = true)
    (dividend : x.value = 0) (divisor : y.value = 0) : x / y = nan := by
  change (if x.isNaN || y.isNaN then _ else _ : ExtendedFloat format) = _
  split_ifs <;> simp_all [isZero]

@[simp]
theorem nan_mul (y : ExtendedFloat format) : nan * y = nan := rfl

@[simp]
theorem nan_sub (y : ExtendedFloat format) : nan - y = nan := by
  change (if false && (-y).isFinite then _ else _ : ExtendedFloat format) = nan
  cases (-y).isFinite <;> rfl

@[simp]
theorem nan_div (y : ExtendedFloat format) : nan / y = nan := rfl

@[simp]
theorem div_nan (x : ExtendedFloat format) : x / nan = nan := by
  change (if x.isNaN || true then _ else _ : ExtendedFloat format) = nan
  rw [Bool.or_true, if_pos rfl]

/-- A finite sum has finite terms, and is the one without a bound. -/
theorem isFinite_foldl_add {ι : Type*} {terms : ι → ExtendedFloat format} {ks : List ι}
    {initial : ExtendedFloat format}
    (finite : (ks.foldl (fun sum k => sum + terms k) initial).isFinite = true) :
    initial.isFinite = true ∧ (∀ k ∈ ks, (terms k).isFinite = true) ∧
      (ks.foldl (fun sum k => sum + terms k) initial).toBinary =
        ks.foldl (fun sum k => sum + (terms k).toBinary) initial.toBinary := by
  induction ks generalizing initial with
  | nil => exact ⟨finite, fun k member => (List.not_mem_nil member).elim, rfl⟩
  | cons k ks induction =>
      obtain ⟨first, rest, sum⟩ := induction finite
      obtain ⟨before, term⟩ := isFinite_of_add first
      refine ⟨before, List.forall_mem_cons.mpr ⟨term, rest⟩, ?_⟩
      rw [List.foldl_cons, List.foldl_cons, sum, toBinary_add first]

/-- A finite number and what it is. -/
def HasValue (x : ExtendedFloat format) (q : ℚ) : Prop := x.isFinite = true ∧ x.value = q

theorem hasValue_rounded (bounded : |format.round q| ≤ format.maxFinite) :
    (rounded negative q : ExtendedFloat format).HasValue (format.round q) :=
  ⟨isFinite_rounded_iff.mpr bounded, congrArg BinaryFloat.value (toBinary_rounded bounded)⟩

theorem hasValue_of_contains (contains : format.Contains q) :
    (rounded negative q : ExtendedFloat format).HasValue q := by
  have exact := FloatFormat.round_of_representable contains.1
  have bounded := BoundedFormat.abs_round_le_maxFinite contains.2
  simpa only [exact] using @hasValue_rounded format q negative bounded

theorem HasValue.div {a b : ℤ} (dividend : x.HasValue a) (divisor : y.HasValue b)
    (nonzero : b ≠ 0) (bounded : |(a : ℚ)| ≤ format.maxFinite) :
    (x / y).HasValue (format.round (a / b)) := by
  have proper : y.value ≠ 0 := by rwa [divisor.2, Int.cast_ne_zero]
  have one_le : (1 : ℚ) ≤ |(b : ℚ)| := by exact_mod_cast Int.one_le_abs nonzero
  rw [div_of_isFinite dividend.1 divisor.1 proper, dividend.2, divisor.2]
  apply hasValue_rounded
  apply BoundedFormat.abs_round_le_maxFinite
  rw [abs_div]
  exact (div_le_self (abs_nonneg _) one_le).trans bounded

theorem isFinite_div_of_zero (x : ExtendedFloat format) (divisor : y.HasValue 0) :
    (x / y).isFinite = false :=
  Bool.eq_false_of_not_eq_true fun finite =>
    (isFinite_of_div finite).2 divisor.1 divisor.2

end ExtendedFloat
