import KKAccel.Foundation.FixedPoint
import KKAccel.Inversion
import KKAccel.Refinement

/-!
# The division by zero flag

`checkDivZero` rewrites the flag in every iterating cycle, so after a run it reports the divisors of
the last iteration only. These are the entries of the matrix of order `n - 1`. A zero divisor of an
earlier iteration is forgotten, and the last iteration, which the program does not perform, can
raise the flag although every division that matters is sound.
-/

namespace KKAccel

open Arith FixedPoint

variable {n : ℕ} {α : Type*} [Zero α] [DecidableEq α] {arith : Arith α}
  {A : Matrix (Fin n) (Fin n) α} {kk : KKIteration n α} {visited : List (KKIteration n α)}
  {after : KKIteration n α}

/-- Some entry of the matrix of order `k` in the condensation sequence is zero. -/
def HasZero (arith : Arith α) (A : Matrix (Fin n) (Fin n) α) (k : ℕ) : Prop :=
  ∃ i j, arith.condense A k i j = 0

instance (arith : Arith α) (A : Matrix (Fin n) (Fin n) α) (k : ℕ) :
    Decidable (HasZero arith A k) :=
  @Nat.decidableExistsFin _ _ fun _ => inferInstance

/-- Some divisor of the iteration which fires in this state is zero. -/
def ZeroDivisor (kk : KKIteration n α) : Prop :=
  ∃ i j : Fin n, kk.rX (slotOf kk.rState.toNat) (i.wrapAdd 1) (j.wrapAdd 1) = 0

omit [DecidableEq α] in
theorem zeroDivisor_iff {k : ℕ} (state : kk.rState.toNat = k)
    (matrix : kk.rX (slotOf k) = arith.condense A k) : ZeroDivisor kk ↔ HasZero arith A k := by
  rw [ZeroDivisor, state, matrix]
  constructor
  · rintro ⟨i, j, zero⟩
    exact ⟨_, _, zero⟩
  · rintro ⟨row, column, zero⟩
    obtain ⟨i, rfl⟩ := Fin.wrapAdd_surjective 1 row
    obtain ⟨j, rfl⟩ := Fin.wrapAdd_surjective 1 column
    exact ⟨i, j, zero⟩

theorem checkDivZero_rDivZero (kk : KKIteration n α) :
    (KKIteration.checkDivZero.action kk).rDivZero = true ↔ kk.rState ≠ 0 ∧ ZeroDivisor kk := by
  simp only [KKIteration.checkDivZero, List.any_eq_true, List.mem_finRange, true_and,
    Bool.and_eq_true, bne_iff_ne, beq_iff_eq]
  constructor
  · rintro ⟨i, j, nonzero, zero⟩
    exact ⟨nonzero, i, j, zero.symm⟩
  · rintro ⟨nonzero, i, j, zero⟩
    exact ⟨i, j, nonzero, zero.symm⟩

namespace Progress

/-- The flag after a cycle reports the divisors of that cycle's iteration. -/
theorem divZero_cycle {k : ℕ} (progress : Progress arith A (k + 1) kk) (bound : k < n) :
    (kkCycle arith kk).divZero = true ↔ 1 ≤ k ∧ HasZero arith A k := by
  have room := two_mul_add_three_le_stateMaxVal n
  cases progress with
  | finished => omega
  | iterating _ state _ prev =>
      have nonzero : kk.rState ≠ 0 ↔ 1 ≤ k := by
        have zero : (0 : BitVec (stateRegSz n)).toNat = 0 := by simp
        rw [ne_eq, ← BitVec.toNat_inj, state, zero]
        omega
      rw [kkCycle_of_iterating (by omega), KKIteration.divZero, checkDivZero_rDivZero, nonzero]
      exact and_congr_right fun positive => zeroDivisor_iff state (prev positive)

theorem divZero_cycles {k : ℕ} (progress : Progress arith A 0 kk) (bound : k < n) :
    ((kkCycle arith)^[k + 2] kk).divZero = true ↔ 1 ≤ k ∧ HasZero arith A k := by
  have reached := progress.cycles (by omega) (k + 1) (by omega)
  rw [Nat.zero_add] at reached
  rw [Function.iterate_succ_apply']
  exact reached.divZero_cycle bound

/-- After a run the flag reports the divisors of the last iteration. -/
theorem divZero_completeRun {count : ℕ} (progress : Progress arith A count kk) (two_le : 2 ≤ n)
    (unfinished : count ≤ n) (complete : CompleteRun arith kk visited after) :
    after.divZero = true ↔ HasZero arith A (n - 1) := by
  induction complete generalizing count with
  | idle idle =>
      have finished := progress.idle_iff.mp idle
      omega
  | @cycle state _ _ running rest induction =>
      have advanced := progress.cycle (by omega) running
      rcases Nat.lt_or_eq_of_le unfinished with more | rfl
      · exact induction advanced more
      · have idle : (kkCycle arith state).isRunning = false := advanced.idle_iff.mpr rfl
        cases rest with
        | cycle busy =>
            rw [idle] at busy
            contradiction
        | idle =>
            -- The last iteration has fired, so the flag is not rewritten again.
            obtain ⟨k, rfl⟩ := Nat.exists_eq_add_of_le' (Nat.one_le_of_lt two_le)
            rw [progress.divZero_cycle (by omega), Nat.add_sub_cancel]
            exact and_iff_right (by omega)

/-- A state of the run has a zero divisor exactly when the matrix of its order has a zero. -/
theorem exists_zeroDivisor_iff (progress : Progress arith A 0 kk) (two_le : 2 ≤ n)
    (complete : CompleteRun arith kk visited after) :
    (∃ state ∈ visited, 1 ≤ state.rState.toNat ∧ state.rState.toNat ≤ n - 1 ∧
      ZeroDivisor state) ↔ ∃ k, 1 ≤ k ∧ k ≤ n - 1 ∧ HasZero arith A k := by
  have room := two_mul_add_three_le_stateMaxVal n
  constructor
  · rintro ⟨state, member, positive, bound, zero⟩
    obtain ⟨stage, -, reached⟩ := progress.of_visited (by omega) complete member
    cases reached with
    | pending pending => omega
    | iterating _ stateEq _ prev =>
        obtain rfl := stateEq
        exact ⟨_, positive, bound, (zeroDivisor_iff rfl (prev positive)).mp zero⟩
    | finished finished => omega
  · rintro ⟨k, positive, bound, zero⟩
    obtain ⟨state, member, reached⟩ :=
      progress.exists_visited (by omega) complete (Nat.zero_le (k + 1)) (by omega)
    cases reached with
    | finished => omega
    | iterating _ stateEq _ prev =>
        exact ⟨state, member, by omega, by omega,
          (zeroDivisor_iff stateEq (prev positive)).mpr zero⟩

end Progress

/-- The flag reports every zero divisor of a run exactly when no matrix of an order in
`1, …, n - 2` has a zero, or the matrix of order `n - 1` has one as well. -/
theorem divZero_reports_iff (arith : Arith α) (kk : KKIteration n α) (two_le : 2 ≤ n)
    (idle : kk.isRunning = false) (complete : CompleteRun arith kk.start visited after) :
    ((∃ state ∈ visited, 1 ≤ state.rState.toNat ∧ state.rState.toNat ≤ n - 1 ∧
        ∃ i j : Fin n,
          state.rX (slotOf state.rState.toNat) (i.wrapAdd 1) (j.wrapAdd 1) = 0) →
      after.divZero = true) ↔
    (∀ k, 1 ≤ k → k ≤ n - 2 → ¬ HasZero arith (kk.rX 1) k) ∨
      HasZero arith (kk.rX 1) (n - 1) := by
  have progress : Progress arith (kk.rX 1) 0 kk.start := .of_start idle rfl
  have occurs := progress.exists_zeroDivisor_iff two_le complete
  simp only [ZeroDivisor] at occurs
  rw [progress.divZero_completeRun two_le (Nat.zero_le n) complete, occurs]
  constructor
  · intro reported
    by_cases last : HasZero arith (kk.rX 1) (n - 1)
    · exact Or.inr last
    · refine Or.inl fun k positive bound zero => last (reported ⟨k, positive, by omega, zero⟩)
  · rintro (sound | last) ⟨k, positive, bound, zero⟩
    · obtain rfl : k = n - 1 := by
        by_contra earlier
        exact sound k positive (by omega) zero
      exact zero
    · exact last

/-- An integer matrix with one zero entry and no vanishing minor of order two. -/
def zeroCorner : Matrix (Fin 3) (Fin 3) (FixedPoint 16 16) :=
  (!![0, 1, 1; 1, 1, 2; 1, 2, 1] : Matrix (Fin 3) (Fin 3) ℤ).map ofInteger

/-- The first iteration that divides does so by zero, and the flag is clear after the run. -/
theorem divZero_missed :
    ∃ visited after,
      CompleteRun (truncating fun _ => 0) (loadedRegisters zeroCorner).start visited after ∧
      (∃ state ∈ visited, 1 ≤ state.rState.toNat ∧ state.rState.toNat ≤ 3 - 1 ∧
        ∃ i j : Fin 3,
          state.rX (slotOf state.rState.toNat) (i.wrapAdd 1) (j.wrapAdd 1) = 0) ∧
      after.divZero = false := by
  have progress := progress_loadedRegisters (truncating fun _ => 0) zeroCorner
  obtain ⟨visited, after, complete⟩ := progress.exists_completeRun (by omega)
  refine ⟨visited, after, complete, ?_, ?_⟩
  · exact (progress.exists_zeroDivisor_iff (by omega) complete).mpr
      ⟨1, le_rfl, by omega, 0, 0, rfl⟩
  · have nonzero (i : Fin 3) :
        ∀ j, (truncating fun _ => 0).condense zeroCorner (3 - 1) i j ≠ 0 := by
      fin_cases i <;> decide
    rw [← Bool.not_eq_true, progress.divZero_completeRun (by omega) (by omega) complete]
    exact fun ⟨i, j, zero⟩ => nonzero i j zero

/-- A matrix of ones, whose minors of order two vanish. -/
def threeOnes : Matrix (Fin 3) (Fin 3) (FixedPoint 16 16) := fun _ _ => ofInteger 1

/-- The entries are nonzero, so the zero divisors of the last iteration are the only ones, and they
are reported. -/
theorem divZero_reports_iff_last :
    ∃ visited after,
      CompleteRun (truncating fun _ => 0) (loadedRegisters threeOnes).start visited after ∧
      (∃ state ∈ visited, 1 ≤ state.rState.toNat ∧ state.rState.toNat ≤ 3 - 1 ∧
        ∃ i j : Fin 3,
          state.rX (slotOf state.rState.toNat) (i.wrapAdd 1) (j.wrapAdd 1) = 0) ∧
      after.divZero = true := by
  have progress := progress_loadedRegisters (truncating fun _ => 0) threeOnes
  obtain ⟨visited, after, complete⟩ := progress.exists_completeRun (by omega)
  have occurs := (progress.exists_zeroDivisor_iff (by omega) complete).mpr
    ⟨2, by omega, by omega, 0, 0, rfl⟩
  refine ⟨visited, after, complete, occurs, ?_⟩
  refine (divZero_reports_iff _ _ (by omega) (loadedRegisters_idle _) complete).mpr
    (.inl fun k positive bound zero => ?_) occurs
  obtain rfl : k = 1 := by omega
  obtain ⟨i, j, zero⟩ := zero
  rw [condense_one] at zero
  exact absurd zero (by decide : (ofInteger 1 : FixedPoint 16 16) ≠ 0)

/-- On a matrix which the program's loop accepts, the flag is clear after a run exactly when no
cyclic contiguous minor of order `n - 1` vanishes. -/
theorem divZero_clear_iff (scratch : Fin 3 → Matrix (Fin n) (Fin n) ℚ)
    (A : Matrix (Fin n) (Fin n) ℚ) (two_le : 2 ≤ n) {pad : Pad n ℚ}
    (executed : transferAndIterate (exact ℚ) isZero scratch A = .ok pad)
    {kk after : KKIteration n ℚ} {visited : List (KKIteration n ℚ)}
    (idle : kk.isRunning = false) (loaded : kk.rX 1 = A)
    (complete : CompleteRun (exact ℚ) kk.start visited after) :
    after.divZero = false ↔ ∀ i j, A.cyclicMinor (n - 1) i j ≠ 0 := by
  have regular := regularBelow_of_iterations scratch executed
  have progress : Progress (exact ℚ) A 0 kk.start := .of_start idle loaded
  rw [← Bool.not_eq_true, progress.divZero_completeRun two_le (Nat.zero_le n) complete, HasZero,
    condense_exact A (n - 1) (regular.mono (Nat.sub_le n 1))]
  simp only [not_exists, ne_eq]

/-- A permutation matrix, whose entries are its minors of order one. -/
def exchange : Matrix (Fin 2) (Fin 2) ℚ := !![0, 1; 1, 0]

theorem iterations_two (scratch : Fin 3 → Matrix (Fin 2) (Fin 2) ℚ)
    (A : Matrix (Fin 2) (Fin 2) ℚ) :
    ∃ pad, transferAndIterate (exact ℚ) isZero scratch A = .ok pad := by
  have regular : RegularBelow A 2 := fun order positive bound => by omega
  obtain ⟨pad, executed, -⟩ := iterations_complete scratch le_rfl regular
  exact ⟨pad, executed⟩

/-- The program's loop divides by one only, and the flag is raised. -/
theorem divZero_spurious :
    (∃ pad, transferAndIterate (exact ℚ) isZero (fun _ => 0) exchange = .ok pad) ∧
    ∃ visited after, CompleteRun (exact ℚ) (loadedRegisters exchange).start visited after ∧
      after.divZero = true := by
  have progress := progress_loadedRegisters (exact ℚ) exchange
  obtain ⟨visited, after, complete⟩ := progress.exists_completeRun (by omega)
  refine ⟨iterations_two _ _, visited, after, complete, ?_⟩
  rw [progress.divZero_completeRun le_rfl (by omega) complete]
  exact ⟨0, 0, rfl⟩

/-- A matrix without zero entries raises no alarm. -/
theorem divZero_clear_iff_ones :
    ∃ visited after,
      CompleteRun (exact ℚ) (loadedRegisters !![1, 1; 1, 2]).start visited after ∧
      after.divZero = false := by
  have idle := loadedRegisters_idle (!![1, 1; 1, 2] : Matrix (Fin 2) (Fin 2) ℚ)
  have progress := progress_loadedRegisters (exact ℚ) !![1, 1; 1, 2]
  obtain ⟨visited, after, complete⟩ := progress.exists_completeRun (by omega)
  obtain ⟨pad, executed⟩ := iterations_two (fun _ => 0) !![1, 1; 1, 2]
  refine ⟨visited, after, complete,
    (divZero_clear_iff _ _ le_rfl executed idle rfl complete).mpr fun i j => ?_⟩
  rw [Matrix.cyclicMinor_one]
  fin_cases i <;> fin_cases j <;> simp

end KKAccel
