import KKAccel.KKIteration

/-!
# Runs of the accelerator

The state register never wraps while the accelerator iterates, so the register slots are numbered
by the order of the matrix they hold, modulo three. A run from a start in the idle state fires
`init` once and `iterate` once for each order, and ends with the two highest orders in place.
-/

namespace KKAccel

open AtomicRules

variable {n : ℕ} {α : Type*} {kk : KKIteration n α}

theorem stateMaxVal_eq (n : ℕ) : stateMaxVal n = 2 ^ stateRegSz n - 1 := rfl

theorem two_mul_add_three_le_stateMaxVal (n : ℕ) : 2 * n + 3 ≤ stateMaxVal n := by
  have room : n + 2 ≤ 2 ^ Nat.clog 2 (n + 2) := Nat.le_pow_clog (by decide) (n + 2)
  rw [stateMaxVal, pow_succ]
  omega

theorem stateMaxVal_lt (n : ℕ) : stateMaxVal n < 2 ^ stateRegSz n := by
  have positive : 0 < 2 ^ stateRegSz n := Nat.two_pow_pos _
  rw [stateMaxVal_eq]
  omega

private theorem ofNat_toNat (value : ℕ) (bound : value ≤ stateMaxVal n) :
    (BitVec.ofNat (stateRegSz n) value).toNat = value := by
  rw [BitVec.toNat_ofNat]
  exact Nat.mod_eq_of_lt (bound.trans_lt (stateMaxVal_lt n))

@[simp]
theorem stateMax_toNat (n : ℕ) : (stateMax n).toNat = stateMaxVal n :=
  ofNat_toNat _ le_rfl

private theorem sub_one_toNat {value : BitVec (stateRegSz n)} (positive : 1 ≤ value.toNat) :
    (value - 1).toNat = value.toNat - 1 := by
  have one : (1 : BitVec (stateRegSz n)).toNat = 1 :=
    ofNat_toNat 1 (by have := two_mul_add_three_le_stateMaxVal n; omega)
  rw [BitVec.toNat_sub_of_le, one]
  rw [BitVec.le_def, one]
  exact positive

@[simp]
theorem stateMax_sub_one_toNat (n : ℕ) : (stateMax n - 1).toNat = stateMaxVal n - 1 := by
  rw [sub_one_toNat, stateMax_toNat]
  have := two_mul_add_three_le_stateMaxVal n
  rw [stateMax_toNat]
  omega

namespace KKIteration

theorem isRunning_eq_false_iff : kk.isRunning = false ↔ kk.rState.toNat = stateMaxVal n := by
  rw [isRunning, bne_eq_false_iff_eq, ← BitVec.toNat_inj, stateMax_toNat]

theorem isRunning_eq_true_iff : kk.isRunning = true ↔ kk.rState.toNat ≠ stateMaxVal n := by
  rw [ne_eq, ← isRunning_eq_false_iff, Bool.not_eq_false]

theorem rState_le (kk : KKIteration n α) : kk.rState.toNat ≤ stateMaxVal n := by
  have bound := kk.rState.isLt
  rw [stateMaxVal_eq]
  omega

theorem init_guard_iff : init.guard kk = true ↔ kk.rState.toNat = stateMaxVal n - 1 := by
  rw [init, beq_iff_eq, ← BitVec.toNat_inj, stateMax_sub_one_toNat, eq_comm]

theorem iterate_guard_iff {arith : Arith α} :
    (iterate arith).guard kk = true ↔ kk.rState.toNat < stateMaxVal n - 1 := by
  rw [iterate, decide_eq_true_iff, BitVec.lt_def, stateMax_sub_one_toNat]

theorem add_toNat_of_iterating (iterating : kk.rState.toNat < stateMaxVal n - 1) :
    (kk.rState + 1).toNat = kk.rState.toNat + 1 ∧
      (kk.rState + 2).toNat = kk.rState.toNat + 2 := by
  have room := two_mul_add_three_le_stateMaxVal n
  have bound := stateMaxVal_lt n
  have one : (1 : BitVec (stateRegSz n)).toNat = 1 := ofNat_toNat 1 (by omega)
  have two : (2 : BitVec (stateRegSz n)).toNat = 2 := ofNat_toNat 2 (by omega)
  rw [BitVec.toNat_add, BitVec.toNat_add, one, two]
  exact ⟨Nat.mod_eq_of_lt (by omega), Nat.mod_eq_of_lt (by omega)⟩

theorem last_iff (positive : 1 ≤ n) :
    BitVec.ofNat (stateRegSz n) n - 1 = kk.rState ↔ kk.rState.toNat = n - 1 := by
  have room := two_mul_add_three_le_stateMaxVal n
  have size : (BitVec.ofNat (stateRegSz n) n).toNat = n := ofNat_toNat n (by omega)
  rw [← BitVec.toNat_inj, sub_one_toNat (by omega), size, eq_comm]

/-- What one iteration computes, in terms of the iteration number. -/
theorem iterate_rX (arith : Arith α) {k : ℕ} (iterating : kk.rState.toNat < stateMaxVal n - 1)
    (state : kk.rState.toNat = k) :
    ((iterate arith).action kk).rX =
      Function.update kk.rX (slotOf (k + 2)) (Matrix.of fun i j =>
        arith.div (arith.crossDifference (kk.rX (slotOf (k + 1))) i j)
          (if k = 0 then arith.one else kk.rX (slotOf k) (i.wrapAdd 1) (j.wrapAdd 1))) := by
  obtain ⟨add_one, add_two⟩ := add_toNat_of_iterating iterating
  have first : 0 = kk.rState ↔ k = 0 := by
    rw [← BitVec.toNat_inj, state]
    simp [eq_comm]
  simp only [iterate, add_one, add_two, state, first]

/-- The iteration number advances, and the last one is followed by the idle code. -/
theorem iterate_rState (arith : Arith α) {k : ℕ} (positive : 1 ≤ n)
    (iterating : kk.rState.toNat < stateMaxVal n - 1) (state : kk.rState.toNat = k) :
    ((iterate arith).action kk).rState.toNat = if k = n - 1 then stateMaxVal n else k + 1 := by
  obtain ⟨add_one, -⟩ := add_toNat_of_iterating iterating
  simp only [iterate, last_iff positive, state]
  split
  · exact stateMax_toNat n
  · rw [add_one, state]

theorem start_of_idle (idle : kk.isRunning = false) :
    kk.start = { kk with rState := stateMax n - 1 } := by
  have equality : stateMax n = kk.rState := by
    rw [← BitVec.toNat_inj, stateMax_toNat, isRunning_eq_false_iff.mp idle]
  rw [start, if_pos equality]

theorem start_of_running (running : kk.isRunning = true) : kk.start = kk := by
  rw [start, if_neg]
  intro equality
  simp [isRunning, equality] at running

end KKIteration

section Guards

variable [Zero α] [DecidableEq α] {arith : Arith α} {after : KKIteration n α} {label : KKRule}

omit [Zero α] [DecidableEq α] in
theorem countCycles_guard (arith : Arith α) :
    KKIteration.countCycles.guard kk = (KKIteration.iterate arith).guard kk := rfl

theorem checkDivZero_guard (arith : Arith α) :
    KKIteration.checkDivZero.guard kk = (KKIteration.iterate arith).guard kk := rfl

omit [Zero α] [DecidableEq α] in
theorem init_guard_eq_not_iterate (arith : Arith α) (running : kk.isRunning = true) :
    KKIteration.init.guard kk = !(KKIteration.iterate arith).guard kk := by
  have bound := kk.rState_le
  have busy := KKIteration.isRunning_eq_true_iff.mp running
  rw [Bool.eq_iff_iff, Bool.not_eq_true', ← Bool.not_eq_true, KKIteration.init_guard_iff,
    KKIteration.iterate_guard_iff]
  omega

theorem exists_advance (arith : Arith α) (running : kk.isRunning = true) :
    ∃ label after, label.advance = 1 ∧ KKFires arith kk label after := by
  cases enabled : (KKIteration.iterate arith).guard kk with
  | true => exact ⟨.iterate, _, rfl, fires_action enabled⟩
  | false =>
      have initEnabled := init_guard_eq_not_iterate arith running
      rw [enabled, Bool.not_false] at initEnabled
      exact ⟨.init, _, rfl, fires_action initEnabled⟩

theorem isRunning_of_fires (fired : KKFires arith kk label after) : kk.isRunning = true := by
  have room := two_mul_add_three_le_stateMaxVal n
  have busy (ready : (KKIteration.iterate arith).guard kk = true) :
      kk.rState.toNat ≠ stateMaxVal n := by
    have iterating := KKIteration.iterate_guard_iff.mp ready
    omega
  rw [KKIteration.isRunning_eq_true_iff]
  cases label with
  | init =>
      have state := KKIteration.init_guard_iff.mp fired.1
      omega
  | iterate => exact busy fired.1
  | countCycles => exact busy ((countCycles_guard arith).symm.trans fired.1)
  | checkDivZero => exact busy ((checkDivZero_guard arith).symm.trans fired.1)

end Guards

/-- How far a run on `A` has come, counted in firings of `init` and `iterate` since its start. -/
inductive Progress (arith : Arith α) (A : Matrix (Fin n) (Fin n) α) :
    ℕ → KKIteration n α → Prop
  /-- The start has been honoured and `init` is to fire. -/
  | pending {kk : KKIteration n α} :
      kk.rState.toNat = stateMaxVal n - 1 →
      kk.rX 1 = A →
      Progress arith A 0 kk
  /-- Iteration `k` is to fire; the first iteration has no previous matrix. -/
  | iterating {kk : KKIteration n α} {k : ℕ} :
      k < n →
      kk.rState.toNat = k →
      kk.rX (slotOf (k + 1)) = arith.condense A (k + 1) →
      (1 ≤ k → kk.rX (slotOf k) = arith.condense A k) →
      Progress arith A (k + 1) kk
  /-- The accelerator is idle again. -/
  | finished {kk : KKIteration n α} :
      kk.rState.toNat = stateMaxVal n →
      kk.rX (slotOf n) = arith.condense A n →
      (1 ≤ n - 1 → kk.rX (slotOf (n - 1)) = arith.condense A (n - 1)) →
      Progress arith A (n + 1) kk

namespace Progress

variable {arith : Arith α} {A : Matrix (Fin n) (Fin n) α} {count : ℕ} {after : KKIteration n α}

theorem of_start (idle : kk.isRunning = false) (loaded : kk.rX 1 = A) :
    Progress arith A 0 kk.start := by
  rw [KKIteration.start_of_idle idle]
  exact .pending (stateMax_sub_one_toNat n) loaded

theorem congr (progress : Progress arith A count kk) (rState_eq : after.rState = kk.rState)
    (rX_eq : after.rX = kk.rX) : Progress arith A count after := by
  cases progress with
  | pending state matrix => exact .pending (rState_eq ▸ state) (rX_eq ▸ matrix)
  | iterating bound state curr prev =>
      exact .iterating bound (rState_eq ▸ state) (rX_eq ▸ curr) (rX_eq ▸ prev)
  | finished state curr prev => exact .finished (rState_eq ▸ state) (rX_eq ▸ curr) (rX_eq ▸ prev)

theorem count_le (progress : Progress arith A count kk) : count ≤ n + 1 := by
  cases progress <;> omega

/-- The run is over exactly when all iterations have fired. -/
theorem idle_iff (progress : Progress arith A count kk) :
    kk.isRunning = false ↔ count = n + 1 := by
  have room := two_mul_add_three_le_stateMaxVal n
  rw [KKIteration.isRunning_eq_false_iff]
  cases progress <;> omega

theorem finished_curr (progress : Progress arith A (n + 1) kk) :
    kk.rX (slotOf n) = arith.condense A n := by
  cases progress with
  | iterating bound => omega
  | finished _ curr => exact curr

theorem finished_prev (progress : Progress arith A (n + 1) kk) (two_le : 2 ≤ n) :
    kk.rX (slotOf (n - 1)) = arith.condense A (n - 1) := by
  cases progress with
  | iterating bound => omega
  | finished _ _ prev => exact prev (by omega)

theorem curr_of_lt {k : ℕ} (progress : Progress arith A (k + 1) kk) (bound : k < n) :
    kk.rX (slotOf (k + 1)) = arith.condense A (k + 1) := by
  cases progress with
  | iterating _ _ curr => exact curr
  | finished => omega

theorem prev_of_pos {k : ℕ} (progress : Progress arith A (k + 1) kk) (positive : 1 ≤ k) :
    kk.rX (slotOf k) = arith.condense A k := by
  cases progress with
  | iterating _ _ _ prev => exact prev positive
  | finished _ curr => exact curr

theorem init (progress : Progress arith A count kk) (positive : 1 ≤ n)
    (enabled : KKIteration.init.guard kk = true) :
    Progress arith A (count + 1) (KKIteration.init.action kk) := by
  have room := two_mul_add_three_le_stateMaxVal n
  have state := KKIteration.init_guard_iff.mp enabled
  cases progress with
  | pending _ matrix => exact .iterating positive rfl matrix (by omega)
  | iterating => omega
  | finished => omega

/-- Iteration `k` computes the matrix of order `k + 2`. -/
theorem iterate_next {k : ℕ} (progress : Progress arith A (k + 1) kk)
    (enabled : (KKIteration.iterate arith).guard kk = true) :
    ((KKIteration.iterate arith).action kk).rX (slotOf (k + 2)) = arith.condense A (k + 2) := by
  have room := two_mul_add_three_le_stateMaxVal n
  have iterating := KKIteration.iterate_guard_iff.mp enabled
  cases progress with
  | finished => omega
  | iterating bound state curr prev =>
      funext i j
      rw [KKIteration.iterate_rX arith iterating state, Function.update_self, Matrix.of_apply, curr,
        Arith.condense_add_two]
      rcases Nat.eq_zero_or_pos k with rfl | positive
      · rw [if_pos rfl, Arith.condense_zero]
      · rw [if_neg positive.ne', prev positive]

theorem iterate (progress : Progress arith A count kk)
    (enabled : (KKIteration.iterate arith).guard kk = true) :
    Progress arith A (count + 1) ((KKIteration.iterate arith).action kk) := by
  have room := two_mul_add_three_le_stateMaxVal n
  have iterating := KKIteration.iterate_guard_iff.mp enabled
  cases progress with
  | pending => omega
  | finished => omega
  | @iterating _ k bound state curr prev =>
      have rX := KKIteration.iterate_rX arith iterating state
      have rState := KKIteration.iterate_rState arith (by omega) iterating state
      -- The overwritten slot receives the next order; the other two are untouched.
      have next := (Progress.iterating bound state curr prev).iterate_next enabled
      have kept : ((KKIteration.iterate arith).action kk).rX (slotOf (k + 1)) =
          arith.condense A (k + 1) := by
        rw [rX, Function.update_of_ne (slotOf_add_one_ne_slotOf_add_two k), curr]
      by_cases last : k = n - 1
      · rw [if_pos last] at rState
        obtain rfl : n = k + 1 := by omega
        refine .finished rState kept fun positive => ?_
        rw [Nat.add_sub_cancel] at positive ⊢
        rw [rX, Function.update_of_ne (slotOf_ne_slotOf_add_two k), prev positive]
      · rw [if_neg last] at rState
        exact .iterating (by omega) rState next fun _ => kept

section Rules

variable [Zero α] [DecidableEq α] {trace : List KKRule} {label : KKRule}

/-- Every rule advances the run by its weight. -/
theorem fires (progress : Progress arith A count kk) (positive : 1 ≤ n)
    (fired : KKFires arith kk label after) :
    Progress arith A (count + label.advance) after := by
  obtain ⟨enabled, rfl⟩ := fired
  cases label with
  | init => exact progress.init positive enabled
  | iterate => exact progress.iterate enabled
  | countCycles => exact progress.congr rfl rfl
  | checkDivZero => exact progress.congr rfl rfl

theorem run (progress : Progress arith A count kk) (positive : 1 ≤ n)
    (executed : Execution (KKFires arith) kk trace after) :
    Progress arith A (count + (trace.map KKRule.advance).sum) after :=
  executed.weighted KKRule.advance (fun holds fired => holds.fires positive fired) progress

theorem reach (progress : Progress arith A count kk) (positive : 1 ≤ n) {stage : ℕ}
    (lower : count ≤ stage) (upper : stage ≤ n + 1) :
    ∃ trace after, Execution (KKFires arith) kk trace after ∧ Progress arith A stage after := by
  obtain ⟨remaining, rfl⟩ := Nat.exists_eq_add_of_le lower
  induction remaining generalizing count kk with
  | zero => exact ⟨[], kk, .nil kk, progress⟩
  | succ remaining induction =>
      have running : kk.isRunning = true := by
        rw [← Bool.not_eq_false, progress.idle_iff]
        omega
      obtain ⟨label, middle, weight, fired⟩ := exists_advance arith running
      have advanced := progress.fires positive fired
      rw [weight] at advanced
      obtain ⟨trace, after, executed, reached⟩ := induction advanced (by omega) (by omega)
      refine ⟨label :: trace, after, .cons fired executed, ?_⟩
      rwa [Nat.add_assoc, Nat.add_comm 1] at reached

theorem completes (progress : Progress arith A count kk) (positive : 1 ≤ n) :
    ∃ trace after, Execution (KKFires arith) kk trace after ∧ after.isRunning = false := by
  obtain ⟨trace, after, executed, finished⟩ := progress.reach positive progress.count_le le_rfl
  exact ⟨trace, after, executed, finished.idle_iff.mpr rfl⟩

/-- A run which has come to rest is finished. -/
theorem run_finished (progress : Progress arith A count kk) (positive : 1 ≤ n)
    (executed : Execution (KKFires arith) kk trace after) (idle : after.isRunning = false) :
    Progress arith A (n + 1) after := by
  have reached := progress.run positive executed
  rwa [reached.idle_iff.mp idle] at reached

end Rules

end Progress

/-! ## Clock cycles -/

section Cycles

variable [Zero α] [DecidableEq α] {arith : Arith α} {A : Matrix (Fin n) (Fin n) α}
  {count : ℕ}

theorem enabled_of_pending (pending : kk.rState.toNat = stateMaxVal n - 1) :
    enabled (KKRule.rule arith) KKRule.schedule kk = [.init] := by
  have initReady : KKIteration.init.guard kk = true := KKIteration.init_guard_iff.mpr pending
  have notIterating : (KKIteration.iterate arith).guard kk = false := by
    rw [← Bool.not_eq_true, KKIteration.iterate_guard_iff]
    omega
  simp only [enabled, KKRule.schedule, KKRule.rule, List.filter_cons, initReady, notIterating,
    checkDivZero_guard arith, countCycles_guard arith]
  simp

theorem enabled_of_iterating (iterating : kk.rState.toNat < stateMaxVal n - 1) :
    enabled (KKRule.rule arith) KKRule.schedule kk = [.checkDivZero, .countCycles, .iterate] := by
  have notInit : KKIteration.init.guard kk = false := by
    rw [← Bool.not_eq_true, KKIteration.init_guard_iff]
    omega
  have ready : (KKIteration.iterate arith).guard kk = true :=
    KKIteration.iterate_guard_iff.mpr iterating
  simp only [enabled, KKRule.schedule, KKRule.rule, List.filter_cons, notInit, ready,
    checkDivZero_guard arith, countCycles_guard arith]
  simp

theorem kkCycle_of_pending (pending : kk.rState.toNat = stateMaxVal n - 1) :
    kkCycle arith kk = KKIteration.init.action kk := by
  rw [kkCycle, clockCycle, enabled_of_pending pending]
  rfl

/-- In an iterating cycle all three rules see the registers as the cycle found them. -/
theorem kkCycle_of_iterating (iterating : kk.rState.toNat < stateMaxVal n - 1) :
    kkCycle arith kk =
      { (KKIteration.iterate arith).action kk with
        rCounter := (KKIteration.countCycles.action kk).rCounter
        rDivZero := (KKIteration.checkDivZero.action kk).rDivZero } := by
  rw [kkCycle, clockCycle, enabled_of_iterating iterating]
  rfl

/-- A cycle of a running accelerator is an execution one rule at a time which advances the run
once. -/
theorem kkCycle_execution (positive : 1 ≤ n) (progress : Progress arith A count kk)
    (running : kk.isRunning = true) :
    ∃ trace, Execution (KKFires arith) kk trace (kkCycle arith kk) ∧
      (trace.map KKRule.advance).sum = 1 := by
  have room := two_mul_add_three_le_stateMaxVal n
  have stays (labels : List KKRule) (schedule_eq :
      enabled (KKRule.rule arith) KKRule.schedule kk = labels)
      (stay : StayEnabled (KKRule.rule arith) labels kk) :
      Execution (KKFires arith) kk labels (kkCycle arith kk) := by
    rw [kkCycle, clockCycle, schedule_eq]
    exact execution_of_stayEnabled stay
  cases progress with
  | pending state =>
      exact ⟨[.init], stays _ (enabled_of_pending state)
        ⟨KKIteration.init_guard_iff.mpr state, trivial⟩, rfl⟩
  | iterating bound state =>
      have iterating : kk.rState.toNat < stateMaxVal n - 1 := by omega
      have ready : (KKIteration.iterate arith).guard kk = true :=
        KKIteration.iterate_guard_iff.mpr iterating
      exact ⟨[.checkDivZero, .countCycles, .iterate],
        stays _ (enabled_of_iterating iterating) ⟨ready, ready, ready, trivial⟩, rfl⟩
  | finished state =>
      exact absurd state (KKIteration.isRunning_eq_true_iff.mp running)

theorem Progress.cycle (progress : Progress arith A count kk) (positive : 1 ≤ n)
    (running : kk.isRunning = true) : Progress arith A (count + 1) (kkCycle arith kk) := by
  obtain ⟨trace, executed, weight⟩ := kkCycle_execution positive progress running
  simpa [weight] using progress.run positive executed

theorem Progress.cycles (progress : Progress arith A count kk) (positive : 1 ≤ n) (cycles : ℕ)
    (unfinished : count + cycles ≤ n + 1) :
    Progress arith A (count + cycles) ((kkCycle arith)^[cycles] kk) := by
  induction cycles with
  | zero => exact progress
  | succ cycles induction =>
      have reached := induction (by omega)
      have running : ((kkCycle arith)^[cycles] kk).isRunning = true := by
        rw [← Bool.not_eq_false, reached.idle_iff]
        omega
      rw [Function.iterate_succ_apply']
      exact reached.cycle positive running

/-- A run in clock cycles, from one honoured start to the next idle state. -/
abbrev CompleteRun (arith : Arith α) :
    KKIteration n α → List (KKIteration n α) → KKIteration n α → Prop :=
  RunsUntilIdle KKIteration.isRunning (kkCycle arith)

namespace Progress

variable {visited : List (KKIteration n α)} {after : KKIteration n α}

theorem completeRun (progress : Progress arith A count kk) (positive : 1 ≤ n)
    (complete : CompleteRun arith kk visited after) : Progress arith A (n + 1) after := by
  induction complete generalizing count with
  | idle idle => exact progress.idle_iff.mp idle ▸ progress
  | cycle running _ induction => exact induction (progress.cycle positive running)

/-- Every cycle begins in a state of the run. -/
theorem of_visited (progress : Progress arith A count kk) (positive : 1 ≤ n)
    (complete : CompleteRun arith kk visited after) {state : KKIteration n α}
    (member : state ∈ visited) : ∃ reached, reached ≤ n ∧ Progress arith A reached state := by
  induction complete generalizing count with
  | idle => exact (List.not_mem_nil member).elim
  | @cycle current _ _ running _ induction =>
      rcases List.mem_cons.mp member with rfl | later
      · refine ⟨count, ?_, progress⟩
        have bound := progress.count_le
        have unfinished : count ≠ n + 1 := fun finished => by
          rw [progress.idle_iff.mpr finished] at running
          contradiction
        omega
      · exact induction (progress.cycle positive running) later

theorem exists_visited (progress : Progress arith A count kk) (positive : 1 ≤ n)
    (complete : CompleteRun arith kk visited after) {stage : ℕ} (lower : count ≤ stage)
    (upper : stage ≤ n) : ∃ state ∈ visited, Progress arith A stage state := by
  induction complete generalizing count with
  | idle idle =>
      have finished := progress.idle_iff.mp idle
      omega
  | @cycle current _ _ running _ induction =>
      rcases Nat.eq_or_lt_of_le lower with rfl | later
      · exact ⟨current, List.mem_cons_self, progress⟩
      · obtain ⟨state, member, holds⟩ := induction (progress.cycle positive running) later
        exact ⟨state, List.mem_cons_of_mem current member, holds⟩

theorem exists_completeRun (progress : Progress arith A count kk) (positive : 1 ≤ n) :
    ∃ visited after, CompleteRun arith kk visited after := by
  obtain ⟨remaining, total⟩ := Nat.exists_eq_add_of_le progress.count_le
  induction remaining generalizing count kk with
  | zero => exact ⟨[], kk, .idle (progress.idle_iff.mpr (by omega))⟩
  | succ remaining induction =>
      have running : kk.isRunning = true := by
        rw [← Bool.not_eq_false, progress.idle_iff]
        omega
      obtain ⟨visited, after, complete⟩ :=
        induction (progress.cycle positive running) (by omega)
      exact ⟨kk :: visited, after, .cycle running complete⟩

end Progress

end Cycles

section Loading

/-- The arguments of one call of `putElem`. -/
structure ElementPut (α : Type*) where
  /-- Line index. -/
  i : BitVec 32
  /-- Column index. -/
  j : BitVec 32
  /-- The element itself. -/
  a : α

/-- Calls of `putElem`, one after another. -/
def putElems (puts : List (ElementPut α)) (kk : KKIteration n α) : KKIteration n α :=
  puts.foldl (fun current put => current.putElem put.i put.j put.a) kk

/-- The last value put at a position of the matrix. -/
def lastPut (puts : List (ElementPut α)) (i j : Fin n) : Option α :=
  ((puts.filter fun put => decide (i.val = put.i.toNat ∧ j.val = put.j.toNat)).getLast?).map
    ElementPut.a

variable (puts : List (ElementPut α)) (kk : KKIteration n α)

@[simp]
theorem putElem_rState (i j : BitVec 32) (a : α) : (kk.putElem i j a).rState = kk.rState := rfl

theorem putElem_rX_one (i j : BitVec 32) (a : α) (row column : Fin n) :
    (kk.putElem i j a).rX 1 row column =
      if row.val = i.toNat ∧ column.val = j.toNat then a else kk.rX 1 row column := by
  simp [KKIteration.putElem]

theorem putElem_rX_of_ne {slot : Fin 3} (different : slot ≠ 1) (i j : BitVec 32) (a : α) :
    (kk.putElem i j a).rX slot = kk.rX slot := by
  simp [KKIteration.putElem, different]

theorem putElems_rState : (putElems puts kk).rState = kk.rState := by
  induction puts generalizing kk with
  | nil => rfl
  | cons put puts induction => exact induction (kk.putElem put.i put.j put.a)

theorem putElems_isRunning : (putElems puts kk).isRunning = kk.isRunning := by
  rw [KKIteration.isRunning, putElems_rState, KKIteration.isRunning]

theorem putElems_rX_one (i j : Fin n) :
    (putElems puts kk).rX 1 i j = (lastPut puts i j).getD (kk.rX 1 i j) := by
  induction puts using List.reverseRecOn with
  | nil => rfl
  | append_singleton puts put induction =>
      have split : putElems (puts ++ [put]) kk =
          (putElems puts kk).putElem put.i put.j put.a := by
        simp [putElems]
      rw [split, putElem_rX_one, induction]
      by_cases target : i.val = put.i.toNat ∧ j.val = put.j.toNat
      · simp [lastPut, target]
      · simp [lastPut, target]

/-- Once every position has been put, the input matrix is the matrix of the last values. -/
theorem putElems_loaded {A : Matrix (Fin n) (Fin n) α}
    (loaded : ∀ i j, lastPut puts i j = some (A i j)) : (putElems puts kk).rX 1 = A := by
  funext i j
  rw [putElems_rX_one, loaded]
  rfl

/-- Idle registers which hold a given input matrix. -/
def loadedRegisters (A : Matrix (Fin n) (Fin n) α) : KKIteration n α :=
  KKIteration.reset (fun _ => A) 0 false

theorem loadedRegisters_idle (A : Matrix (Fin n) (Fin n) α) :
    (loadedRegisters A).isRunning = false := by
  simp [loadedRegisters, KKIteration.reset, KKIteration.isRunning]

theorem progress_loadedRegisters (arith : Arith α) (A : Matrix (Fin n) (Fin n) α) :
    Progress arith A 0 (loadedRegisters A).start :=
  .of_start (loadedRegisters_idle A) rfl

end Loading

end KKAccel
