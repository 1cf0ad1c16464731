import Mathlib.Algebra.Polynomial.RuleOfSigns
import Mathlib.LinearAlgebra.Matrix.ToLinearEquiv
import KKAccel.Foundation.CyclicMinor

/-!
# Generalized Vandermonde matrices

The powers of distinct positive nodes to distinct exponents, in any order, form a nonsingular
matrix: a kernel vector would be a polynomial with more positive roots than its terms allow. Every
cyclic contiguous minor of a Vandermonde matrix is a determinant of this form.
-/

open Polynomial

variable {R : Type*} [CommRing R] [LinearOrder R] [IsStrictOrderedRing R]

namespace Polynomial

omit [IsStrictOrderedRing R] in
/-- A nonzero polynomial changes sign less often than it has terms. -/
theorem signVariations_lt_card_support {P : R[X]} (nonzero : P ≠ 0) :
    P.signVariations < P.support.card := by
  induction terms : P.support.card generalizing P with
  | zero => exact absurd (card_support_eq_zero.mp terms) nonzero
  | succ count induction =>
      have tail : P.eraseLead.support.card = count := card_support_eraseLead' terms
      by_cases single : P.eraseLead = 0
      · have leading : SignType.sign P.leadingCoeff ≠ 0 :=
          sign_ne_zero.mpr (leadingCoeff_ne_zero.mpr nonzero)
        have unchanged := signVariations_eq_eraseLead_add_ite nonzero
        simp [single, leading] at unchanged
        omega
      · have shorter := induction single tail
        have dropped := P.signVariations_le_eraseLead_succ
        omega

/-- A nonzero polynomial has fewer positive roots than terms. -/
theorem card_positive_roots_lt {P : R[X]} (nonzero : P ≠ 0) (nodes : Finset R)
    (positive : ∀ node ∈ nodes, 0 < node) (roots : ∀ node ∈ nodes, P.IsRoot node) :
    nodes.card < P.support.card := by
  have inside : nodes.val ≤ P.roots.filter (0 < ·) := by
    rw [Multiset.le_iff_subset nodes.nodup]
    intro node member
    rw [Multiset.mem_filter]
    exact ⟨(mem_roots nonzero).mpr (roots node member), positive node member⟩
  calc nodes.card
      ≤ P.roots.countP (0 < ·) := by
        rw [Multiset.countP_eq_card_filter]
        exact Multiset.card_le_card inside
    _ ≤ P.signVariations := roots_countP_pos_le_signVariations P
    _ < P.support.card := signVariations_lt_card_support nonzero

end Polynomial

namespace Matrix

variable {m n : ℕ}

/-- The powers of given nodes to given exponents. -/
def powers (nodes : Fin m → R) (exponents : Fin m → ℕ) : Matrix (Fin m) (Fin m) R :=
  fun i j => nodes i ^ exponents j

/-- The polynomial with given coefficients at given exponents. -/
private noncomputable def sparse (exponents : Fin m → ℕ) (coefficients : Fin m → R) : R[X] :=
  ∑ j, monomial (exponents j) (coefficients j)

omit [LinearOrder R] [IsStrictOrderedRing R] in
private theorem coeff_sparse {exponents : Fin m → ℕ} (distinct : Function.Injective exponents)
    (coefficients : Fin m → R) (j : Fin m) :
    (sparse exponents coefficients).coeff (exponents j) = coefficients j := by
  rw [sparse, finsetSum_coeff, Finset.sum_eq_single j]
  · rw [coeff_monomial_same]
  · intro other _ different
    exact coeff_monomial_of_ne _ (distinct.ne different.symm)
  · exact fun missing => absurd (Finset.mem_univ j) missing

omit [LinearOrder R] [IsStrictOrderedRing R] in
private theorem card_support_sparse_le (exponents : Fin m → ℕ) (coefficients : Fin m → R) :
    (sparse exponents coefficients).support.card ≤ m := by
  have inside : (sparse exponents coefficients).support ⊆ Finset.univ.image exponents := by
    intro exponent member
    rw [mem_support_iff, sparse, finsetSum_coeff] at member
    obtain ⟨j, -, term⟩ := Finset.exists_ne_zero_of_sum_ne_zero member
    rw [coeff_monomial] at term
    exact Finset.mem_image.mpr ⟨j, Finset.mem_univ j, (ite_ne_right_iff.mp term).1⟩
  calc (sparse exponents coefficients).support.card
      ≤ (Finset.univ.image exponents).card := Finset.card_le_card inside
    _ ≤ m := Finset.card_image_le.trans (Finset.card_fin m).le

/-- Distinct positive nodes and distinct exponents, in any order, give a nonsingular matrix. -/
theorem det_powers_ne_zero {nodes : Fin m → R} {exponents : Fin m → ℕ}
    (positive : ∀ i, 0 < nodes i) (distinctNodes : Function.Injective nodes)
    (distinctExponents : Function.Injective exponents) : (powers nodes exponents).det ≠ 0 := by
  intro singular
  obtain ⟨coefficients, nonzero, kernel⟩ := exists_mulVec_eq_zero_iff.mpr singular
  obtain ⟨j, entry⟩ := Function.ne_iff.mp nonzero
  -- The kernel vector is a polynomial of at most `m` terms which vanishes at all `m` nodes.
  have polynomial : sparse exponents coefficients ≠ 0 := by
    intro zero
    have coefficient := coeff_sparse distinctExponents coefficients j
    rw [zero, coeff_zero] at coefficient
    exact entry coefficient.symm
  have vanishes (i : Fin m) : (sparse exponents coefficients).IsRoot (nodes i) := by
    have row : ∑ j, nodes i ^ exponents j * coefficients j = 0 := congrFun kernel i
    rw [IsRoot.def, sparse, eval_finsetSum, ← row]
    exact Finset.sum_congr rfl fun j _ => by rw [eval_monomial, mul_comm]
  have fewer := card_positive_roots_lt polynomial (Finset.univ.image nodes)
    (by simpa using positive) (by simpa using vanishes)
  rw [Finset.card_image_of_injective _ distinctNodes, Finset.card_univ, Fintype.card_fin] at fewer
  have terms := card_support_sparse_le exponents coefficients
  omega

end Matrix

namespace Fin

variable {n : ℕ}

theorem wrapAdd_injective {m : ℕ} (bound : m ≤ n) (i : Fin n) :
    Function.Injective fun a : Fin m => i.wrapAdd a := by
  intro a b equal
  have first : (a : ℕ) < n := a.isLt.trans_le bound
  have second : (b : ℕ) < n := b.isLt.trans_le bound
  have congruent : (i + a : ℕ) ≡ i + b [MOD n] := Fin.ext_iff.mp equal
  have offsets : (a : ℕ) ≡ b [MOD n] := congruent.add_left_cancel' i
  exact Fin.ext (offsets.eq_of_lt_of_lt first second)

end Fin

namespace Matrix

variable {m n : ℕ}

/-- Every cyclic contiguous minor of a matrix of powers is nonzero. -/
theorem cyclicMinor_powers_ne_zero {nodes : Fin n → R} {exponents : Fin n → ℕ}
    (positive : ∀ i, 0 < nodes i) (distinctNodes : Function.Injective nodes)
    (distinctExponents : Function.Injective exponents) (bound : m ≤ n) (i j : Fin n) :
    (powers nodes exponents).cyclicMinor m i j ≠ 0 := by
  have submatrix : (powers nodes exponents).cyclicSubmatrix m i j =
      powers (fun a => nodes (i.wrapAdd a)) fun b => exponents (j.wrapAdd b) := rfl
  rw [cyclicMinor, submatrix]
  exact det_powers_ne_zero (fun a => positive _)
    (distinctNodes.comp (Fin.wrapAdd_injective bound i))
    (distinctExponents.comp (Fin.wrapAdd_injective bound j))

end Matrix
