import KKAccel.Foundation.CyclicMinor

/-!
# Condensation over an arbitrary arithmetic

Each matrix of the condensation sequence is computed from the two before it by one product
difference and one division per entry. Nothing is assumed of the operations. If they are exact on
what occurs, the sequence consists of the cyclic contiguous minors for as long as no divisor
vanishes; over a field they always are.
-/

/-- The operations which condensation applies to matrix entries. No law is assumed. -/
structure Arith (α : Type*) where
  /-- Product of two entries. -/
  mul : α → α → α
  /-- Difference of two entries. -/
  sub : α → α → α
  /-- Quotient of two entries; its value at a zero divisor is whatever the divider returns. -/
  div : α → α → α
  /-- The unit by which the first step divides. -/
  one : α

namespace Arith

variable {n : ℕ} {α R K : Type*} [CommRing R] [Field K]

/-- The exact operations of a field. -/
@[simps]
def exact (K : Type*) [Field K] : Arith K where
  mul := (· * ·)
  sub := (· - ·)
  div := (· / ·)
  one := 1

/-- The two-by-two cross difference whose upper left corner is `(i, j)`. -/
def crossDifference (arith : Arith α) (M : Matrix (Fin n) (Fin n) α) (i j : Fin n) : α :=
  arith.sub (arith.mul (M i j) (M (i.wrapAdd 1) (j.wrapAdd 1)))
    (arith.mul (M (i.wrapAdd 1) j) (M i (j.wrapAdd 1)))

/-- The matrix of order `m` in the condensation sequence of `A`. Order zero is constant, so that
the first step divides by the unit. -/
def condense (arith : Arith α) (A : Matrix (Fin n) (Fin n) α) : ℕ → Matrix (Fin n) (Fin n) α
  | 0 => fun _ _ => arith.one
  | 1 => A
  | m + 2 => fun i j =>
      arith.div (arith.crossDifference (arith.condense A (m + 1)) i j)
        (arith.condense A m (i.wrapAdd 1) (j.wrapAdd 1))

@[simp]
theorem condense_zero (arith : Arith α) (A : Matrix (Fin n) (Fin n) α) (i j : Fin n) :
    arith.condense A 0 i j = arith.one := rfl

@[simp]
theorem condense_one (arith : Arith α) (A : Matrix (Fin n) (Fin n) α) :
    arith.condense A 1 = A := rfl

theorem condense_add_two (arith : Arith α) (A : Matrix (Fin n) (Fin n) α) (m : ℕ)
    (i j : Fin n) :
    arith.condense A (m + 2) i j =
      arith.div (arith.crossDifference (arith.condense A (m + 1)) i j)
        (arith.condense A m (i.wrapAdd 1) (j.wrapAdd 1)) := rfl

/-- Elements of an arithmetic hold elements of a ring, and quotients which are small are exact. -/
structure ExactDivision (arith : Arith α) (holds : α → R → Prop) (small : R → Prop) : Prop where
  one : holds arith.one 1
  div : ∀ {x y quotient divisor}, holds x (quotient * divisor) → holds y divisor → divisor ≠ 0 →
    small quotient → holds (arith.div x y) quotient

/-- Products and differences which are small are exact as well. -/
structure ExactRing (arith : Arith α) (holds : α → R → Prop) (small : R → Prop) : Prop
    extends ExactDivision arith holds small where
  mul : ∀ {x y a b}, holds x a → holds y b → small (a * b) → holds (arith.mul x y) (a * b)
  sub : ∀ {x y a b}, holds x a → holds y b → small (a - b) → holds (arith.sub x y) (a - b)

/-- The minors of a matrix up to an order, the products which are subtracted and the dividends are
small. -/
structure SmallThroughout (small : R → Prop) (A : Matrix (Fin n) (Fin n) R) (bound : ℕ) :
    Prop where
  minors : ∀ m, 1 ≤ m → m ≤ bound → ∀ i j, small (A.cyclicMinor m i j)
  products : ∀ m, 1 ≤ m → m + 1 ≤ bound → ∀ i j,
    small (A.cyclicMinor m i j * A.cyclicMinor m (i.wrapAdd 1) (j.wrapAdd 1)) ∧
      small (A.cyclicMinor m (i.wrapAdd 1) j * A.cyclicMinor m i (j.wrapAdd 1))
  dividends : ∀ m, m + 2 ≤ bound → ∀ i j,
    small (A.cyclicMinor (m + 2) i j * A.cyclicMinor m (i.wrapAdd 1) (j.wrapAdd 1))

section Minors

variable {arith : Arith α} {holds : α → R → Prop} {small : R → Prop}
  {M : Matrix (Fin n) (Fin n) α} {A : Matrix (Fin n) (Fin n) R} {bound : ℕ}

theorem SmallThroughout.entries (throughout : SmallThroughout small A bound) (positive : 1 ≤ bound)
    (i j : Fin n) : small (A i j) := by
  rw [← Matrix.cyclicMinor_one A i j]
  exact throughout.minors 1 le_rfl positive i j

theorem SmallThroughout.mono {large : R → Prop} (throughout : SmallThroughout small A bound)
    (weaker : ∀ a, small a → large a) : SmallThroughout large A bound where
  minors m positive le i j := weaker _ (throughout.minors m positive le i j)
  products m positive le i j :=
    (throughout.products m positive le i j).imp (weaker _) (weaker _)
  dividends m le i j := weaker _ (throughout.dividends m le i j)

/-- Every quotient is a minor, so the sequence holds the minors as long as the minors it divides by
do not vanish and the dividends are exact. -/
theorem ExactDivision.holds_condense [Nontrivial R] (exact : ExactDivision arith holds small)
    (entries : ∀ i j, holds (M i j) (A i j))
    (minors : ∀ m, 1 ≤ m → m ≤ bound → ∀ i j, small (A.cyclicMinor m i j))
    (regular : ∀ m, 1 ≤ m → m + 2 ≤ bound → ∀ i j, A.cyclicMinor m i j ≠ 0)
    (dividends : ∀ m, m + 2 ≤ bound →
      (∀ i j, holds (arith.condense M (m + 1) i j) (A.cyclicMinor (m + 1) i j)) →
      ∀ i j, holds (arith.crossDifference (arith.condense M (m + 1)) i j)
        (A.cyclicMinor (m + 2) i j * A.cyclicMinor m (i.wrapAdd 1) (j.wrapAdd 1)))
    (m : ℕ) (le : m ≤ bound) (i j : Fin n) :
    holds (arith.condense M m i j) (A.cyclicMinor m i j) := by
  induction m using Nat.strong_induction_on generalizing i j with
  | _ m induction =>
      match m with
      | 0 =>
          rw [condense_zero, Matrix.cyclicMinor_zero]
          exact exact.one
      | 1 =>
          rw [condense_one, Matrix.cyclicMinor_one]
          exact entries i j
      | m + 2 =>
          have divisor := induction m (by omega) (by omega)
          have dividend := dividends m le (induction (m + 1) (by omega) (by omega))
          have nonzero : A.cyclicMinor m (i.wrapAdd 1) (j.wrapAdd 1) ≠ 0 := by
            rcases Nat.eq_zero_or_pos m with rfl | positive
            · rw [Matrix.cyclicMinor_zero]
              exact one_ne_zero
            · exact regular m positive le _ _
          rw [condense_add_two]
          exact exact.div (dividend i j) (divisor _ _) nonzero (minors (m + 2) (by omega) le i j)

theorem ExactRing.holds_dividend (exact : ExactRing arith holds small)
    (throughout : SmallThroughout small A bound) {m : ℕ} (le : m + 2 ≤ bound)
    (curr : ∀ i j, holds (arith.condense M (m + 1) i j) (A.cyclicMinor (m + 1) i j))
    (i j : Fin n) :
    holds (arith.crossDifference (arith.condense M (m + 1)) i j)
      (A.cyclicMinor (m + 2) i j * A.cyclicMinor m (i.wrapAdd 1) (j.wrapAdd 1)) := by
  obtain ⟨main, cross⟩ := throughout.products (m + 1) (by omega) le i j
  have difference := throughout.dividends m le i j
  rw [A.cyclicMinor_mul_cyclicMinor] at difference ⊢
  exact exact.sub (exact.mul (curr _ _) (curr _ _) main) (exact.mul (curr _ _) (curr _ _) cross)
    difference

theorem ExactRing.holds_condense [Nontrivial R] (exact : ExactRing arith holds small)
    (throughout : SmallThroughout small A bound) (entries : ∀ i j, holds (M i j) (A i j)) {m : ℕ}
    (le : m ≤ bound) (regular : ∀ order, 1 ≤ order → order + 2 ≤ m → ∀ i j,
      A.cyclicMinor order i j ≠ 0) (i j : Fin n) :
    holds (arith.condense M m i j) (A.cyclicMinor m i j) :=
  exact.toExactDivision.holds_condense entries
    (fun order positive upper => throughout.minors order positive (upper.trans le)) regular
    (fun _ upper => exact.holds_dividend throughout (upper.trans le)) m le_rfl i j

end Minors

/-- No cyclic contiguous minor of order `m` vanishes. -/
def Regular (A : Matrix (Fin n) (Fin n) K) (m : ℕ) : Prop :=
  ∀ i j, A.cyclicMinor m i j ≠ 0

theorem regular_zero (A : Matrix (Fin n) (Fin n) K) : Regular A 0 := by
  simp [Regular]

theorem exactRing_exact (K : Type*) [Field K] : ExactRing (exact K) Eq fun _ => True where
  one := rfl
  div := by
    rintro x y quotient divisor rfl rfl nonzero -
    exact mul_div_cancel_right₀ quotient nonzero
  mul := by
    rintro x y a b rfl rfl -
    rfl
  sub := by
    rintro x y a b rfl rfl -
    rfl

theorem condense_exact (A : Matrix (Fin n) (Fin n) K) (m : ℕ)
    (regular : ∀ order, 1 ≤ order → order + 2 ≤ m → Regular A order) :
    (exact K).condense A m = A.cyclicMinor m := by
  have throughout : SmallThroughout (fun _ => True) A m :=
    ⟨fun _ _ _ _ _ => trivial, fun _ _ _ _ _ => ⟨trivial, trivial⟩, fun _ _ _ _ => trivial⟩
  funext i j
  exact (exactRing_exact K).holds_condense throughout (fun _ _ => rfl) le_rfl regular i j

end Arith
