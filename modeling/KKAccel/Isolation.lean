import KKAccel.KKAvalonSlave
import KKAccel.Refinement

/-!
# Matrix writes during a run

`putElem` always writes slot 1, and unlike `start` it does not check that the accelerator is idle.
Slot 1 holds the input at first and then takes part in every iteration, except that in an iteration
whose number is two modulo three it is about to be overwritten. A run is isolated from the writes
that fall into such iterations, and from those that change nothing.
-/

namespace KKAccel

open AtomicRules Slot

variable {n : ℕ} {addr : BitVec 18} {data : BitVec 32}

/-- The address of an element of the matrix. -/
def ElementAddr (n : ℕ) (addr : BitVec 18) : Prop :=
  (0b00 : BitVec 2) = (addr >>> 16).setWidth 2 ∧
    (lineIndex addr).toNat < n ∧ (columnIndex addr).toNat < n

instance : Decidable (ElementAddr n addr) := inferInstanceAs (Decidable (_ ∧ _ ∧ _))

/-- What happens in one step of a run under writes. -/
inductive WrittenLabel
  /-- A rule of the accelerator fires. -/
  | rule (label : KKRule)
  /-- The rule `processWrite` fires. -/
  | write (addr : BitVec 18) (data : BitVec 32)

/-- A rule of the accelerator fires, or a matrix element is written during the run. -/
inductive WrittenStep (arith : Arith (BitVec 32)) :
    KKIteration n (BitVec 32) → WrittenLabel → KKIteration n (BitVec 32) → Prop
  | rule {before after : KKIteration n (BitVec 32)} {label : KKRule} :
      KKFires arith before label after →
      WrittenStep arith before (.rule label) after
  | write {before : KKIteration n (BitVec 32)} {addr : BitVec 18} {data : BitVec 32} :
      before.isRunning = true →
      ElementAddr n addr →
      WrittenStep arith before (.write addr data) (processWrite addr data before)

/-- The write falls into an iteration which overwrites slot 1, or it changes nothing. -/
def Spares (kk : KKIteration n (BitVec 32)) (addr : BitVec 18) (data : BitVec 32) : Prop :=
  (kk.rState < stateMax n - 1 ∧ kk.rState.toNat % 3 = 2) ∨
    ∀ i j : Fin n, i.val = (lineIndex addr).toNat → j.val = (columnIndex addr).toNat →
      kk.rX 1 i j = data

/-- All writes are of the harmless kind; rules are not restricted. -/
def WrittenLabel.Spares (kk : KKIteration n (BitVec 32)) : WrittenLabel → Prop
  | rule _ => True
  | write addr data => KKAccel.Spares kk addr data

/-- One step, in which any write is harmless. -/
def SparingStep (arith : Arith (BitVec 32)) (before : KKIteration n (BitVec 32))
    (label : WrittenLabel) (after : KKIteration n (BitVec 32)) : Prop :=
  WrittenStep arith before label after ∧ label.Spares before

/-- The weight of a step in the count of a run. -/
def WrittenLabel.advance : WrittenLabel → ℕ
  | rule label => label.advance
  | write _ _ => 0

theorem processWrite_element (kk : KKIteration n (BitVec 32)) (address : ElementAddr n addr) :
    processWrite addr data kk = kk.putElem (lineIndex addr) (columnIndex addr) data := by
  rw [processWrite, if_pos address.1]

theorem putElem_of_unchanged {kk : KKIteration n (BitVec 32)} {i j : BitVec 32}
    (unchanged : ∀ row column : Fin n, row.val = i.toNat → column.val = j.toNat →
      kk.rX 1 row column = data) : (kk.putElem i j data).rX = kk.rX := by
  funext slot
  by_cases input : slot = 1
  · subst input
    funext row column
    rw [putElem_rX_one]
    split
    · next target => exact (unchanged row column target.1 target.2).symm
    · rfl
  · exact putElem_rX_of_ne kk input i j data

namespace Progress

variable {arith : Arith (BitVec 32)} {A : Matrix (Fin n) (Fin n) (BitVec 32)} {count : ℕ}
  {kk after : KKIteration n (BitVec 32)} {trace : List WrittenLabel}

/-- A harmless write leaves the run where it is. -/
theorem write (progress : Progress arith A count kk) (address : ElementAddr n addr)
    (spares : Spares kk addr data) :
    Progress arith A count (processWrite addr data kk) := by
  rw [processWrite_element kk address]
  rcases spares with ⟨iterating, overwritten⟩ | unchanged
  · have room := two_mul_add_three_le_stateMaxVal n
    rw [BitVec.lt_def, stateMax_sub_one_toNat] at iterating
    cases progress with
    | pending state => omega
    | finished state => omega
    | @iterating _ k bound state curr prev =>
        rw [state] at overwritten
        -- Neither of the two slots which the iteration reads is slot 1.
        have currSlot : slotOf (k + 1) ≠ 1 := by
          rw [ne_eq, slotOf_eq_one_iff]
          omega
        have prevSlot : slotOf k ≠ 1 := by
          rw [ne_eq, slotOf_eq_one_iff]
          omega
        refine .iterating bound state ?_ fun positive => ?_
        · rw [putElem_rX_of_ne kk currSlot, curr]
        · rw [putElem_rX_of_ne kk prevSlot, prev positive]
  · exact progress.congr rfl (putElem_of_unchanged unchanged)

theorem sparingStep {label : WrittenLabel} (progress : Progress arith A count kk)
    (positive : 1 ≤ n) (step : SparingStep arith kk label after) :
    Progress arith A (count + label.advance) after := by
  obtain ⟨step, spares⟩ := step
  cases step with
  | rule fired => exact progress.fires positive fired
  | write _ address => exact progress.write address spares

theorem sparingRun (progress : Progress arith A count kk) (positive : 1 ≤ n)
    (executed : Execution (SparingStep arith) kk trace after) :
    Progress arith A (count + (trace.map WrittenLabel.advance).sum) after :=
  executed.weighted WrittenLabel.advance (fun holds step => holds.sparingStep positive step)
    progress

/-- Two states at the same point of a run agree on slot 1 whenever the run depends on it. -/
theorem rX_one_eq (progress : Progress arith A count kk) (kept : Progress arith A count after)
    (running : kk.isRunning = true)
    (live : kk.rState.toNat < stateMaxVal n - 1 → kk.rState.toNat % 3 ≠ 2) :
    after.rX 1 = kk.rX 1 := by
  have room := two_mul_add_three_le_stateMaxVal n
  cases progress with
  | pending state input =>
      cases kept with
      | pending _ input' => rw [input, input']
  | finished state =>
      exact absurd state (KKIteration.isRunning_eq_true_iff.mp running)
  | @iterating _ k bound state curr prev =>
      have notDead := live (by omega)
      rw [state] at notDead
      cases kept with
      | finished => omega
      | iterating _ _ curr' prev' =>
          by_cases first : k % 3 = 0
          · have slot : slotOf (k + 1) = 1 := slotOf_eq_one_iff.mpr (by omega)
            rw [← slot, curr, curr']
          · have slot : slotOf k = 1 := slotOf_eq_one_iff.mpr (by omega)
            rw [← slot, prev (by omega), prev' (by omega)]

/-- A write which is not harmless changes a register that the run still depends on. -/
theorem not_of_write (progress : Progress arith A count kk) (running : kk.isRunning = true)
    (address : ElementAddr n addr) (harmful : ¬ Spares kk addr data) :
    ¬ Progress arith A count (processWrite addr data kk) := by
  simp only [Spares, not_or, not_and, not_forall, BitVec.lt_def, stateMax_sub_one_toNat] at harmful
  obtain ⟨live, i, j, row, column, different⟩ := harmful
  intro kept
  have written : (processWrite addr data kk).rX 1 i j = data := by
    rw [processWrite_element kk address, putElem_rX_one, if_pos ⟨row, column⟩]
  rw [progress.rX_one_eq kept running live] at written
  exact different written

end Progress

/-- In every run whose writes are harmless, the results are those of the undisturbed runs. -/
theorem isolated_of_spares (arith : Arith (BitVec 32))
    (outside : Matrix (Fin n) (Fin n) (BitVec 32) → BitVec 32 → BitVec 32 → BitVec 32)
    (two_le : 2 ≤ n) {kk after final : KKIteration n (BitVec 32)} (idle : kk.isRunning = false)
    {written : List WrittenLabel} (disturbed : Execution (SparingStep arith) kk.start written after)
    (done : after.isRunning = false) {trace : List KKRule}
    (undisturbed : Execution (KKFires arith) kk.start trace final)
    (finalDone : final.isRunning = false) (i j : BitVec 32) :
    after.getIntElem outside i j = final.getIntElem outside i j ∧
      after.getDetElem outside i j = final.getDetElem outside i j := by
  have progress : Progress arith (kk.rX 1) 0 kk.start := Progress.of_start idle rfl
  have finished := progress.run_finished (by omega) undisturbed finalDone
  have reached := progress.sparingRun (by omega) disturbed
  rw [reached.idle_iff.mp done] at reached
  exact reached.results_eq outside two_le finished i j

theorem execution_sparing {arith : Arith (BitVec 32)} {before after : KKIteration n (BitVec 32)}
    {trace : List KKRule} (executed : Execution (KKFires arith) before trace after) :
    Execution (SparingStep arith) before (trace.map WrittenLabel.rule) after :=
  executed.map id WrittenLabel.rule fun fired => ⟨.rule fired, trivial⟩

/-- A write into iteration two of a run on three lines is harmless. -/
theorem isolated_of_spares_midway :
    ∃ first second after trace final,
      Execution (SparingStep fixed16) (loadedRegisters (ones 3)).start
        (first ++ WrittenLabel.write 0 0x50000 :: second) after ∧
      Execution (KKFires fixed16) (loadedRegisters (ones 3)).start trace final ∧
      after.getDetElem (fun _ _ _ => 0) 0 0 = final.getDetElem (fun _ _ _ => 0) 0 0 := by
  have idle := loadedRegisters_idle (ones 3)
  have progress := progress_loadedRegisters fixed16 (ones 3)
  obtain ⟨first, before, leading, reached⟩ :=
    progress.reach (by omega) (Nat.zero_le 3) (by omega)
  have state : before.rState.toNat = 2 := by
    cases reached with
    | iterating _ state => exact state
  have spares : Spares before 0 0x50000 := by
    refine Or.inl ⟨?_, by rw [state]⟩
    rw [BitVec.lt_def, stateMax_sub_one_toNat, state]
    decide
  have running : before.isRunning = true := by
    rw [KKIteration.isRunning_eq_true_iff, state]
    decide
  have address : ElementAddr 3 0 := by decide
  obtain ⟨second, after, following, finished⟩ :=
    (reached.write address spares).reach (by omega) (by omega) le_rfl
  obtain ⟨trace, final, undisturbed, finalDone⟩ := progress.completes (by omega)
  have disturbed := (execution_sparing leading).append
    (.cons ⟨.write running address, spares⟩ (execution_sparing following))
  exact ⟨_, _, after, trace, final, disturbed, undisturbed,
    (isolated_of_spares fixed16 _ (by omega) idle disturbed (finished.idle_iff.mpr rfl)
      undisturbed finalDone 0 0).2⟩

/-- The identity matrix in fixed point. -/
def identity2 : Matrix (Fin 2) (Fin 2) (BitVec 32) := !![0x10000, 0; 0, 0x10000]

/-- A write right after the start replaces the first element, and the determinant comes out
different. -/
theorem isolation_broken :
    ∃ written after trace final,
      Execution (WrittenStep fixed16) (loadedRegisters identity2).start written after ∧
      after.isRunning = false ∧
      Execution (KKFires fixed16) (loadedRegisters identity2).start trace final ∧
      final.isRunning = false ∧
      after.getDetElem (fun _ _ _ => 0) 0 0 ≠ final.getDetElem (fun _ _ _ => 0) 0 0 := by
  have progress := progress_loadedRegisters fixed16 identity2
  obtain ⟨trace, final, undisturbed, finalDone⟩ := progress.completes (by omega)
  have finished := progress.run_finished (by omega) undisturbed finalDone
  -- The run with the write is a run on the matrix with the first element replaced.
  have replaced : Progress fixed16 !![0x50000, 0; 0, 0x10000] 0
      (processWrite 0 0x50000 (loadedRegisters identity2).start) := by
    refine .pending ?_ ?_
    · decide
    · funext i j
      fin_cases i <;> fin_cases j <;> rfl
  obtain ⟨rest, after, following, afterDone⟩ := replaced.completes (by omega)
  have reached := replaced.run_finished (by omega) following afterDone
  have first : WrittenStep fixed16 (loadedRegisters identity2).start (.write 0 0x50000)
      (processWrite 0 0x50000 (loadedRegisters identity2).start) :=
    .write (by decide) (by decide)
  have written := following.map id WrittenLabel.rule fun fired => WrittenStep.rule fired
  refine ⟨_, after, trace, final, .cons first written, afterDone, undisturbed, finalDone, ?_⟩
  rw [reached.getDetElem_eq, finished.getDetElem_eq]
  decide

end KKAccel
