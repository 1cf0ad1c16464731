import KKAccel.StateEncoding

/-!
# Termination of a run

Whatever number is in the state register, also one that no run produces, the firings of `init` and
`iterate` that are left before the accelerator is idle are determined, and no call but a `start` in
the idle state adds to them. So the accelerator cannot cycle without becoming idle.
-/

namespace KKAccel

open AtomicRules

variable {n : ℕ} {α : Type*}

/-- The firings of `init` and `iterate` from a state to the idle state. A stray code climbs to the
code of `init` first. -/
def firingsToIdle (n state : ℕ) : ℕ :=
  if state = stateMaxVal n then 0
  else if state = stateMaxVal n - 1 then n + 1
  else if state < n then n - state
  else stateMaxVal n - state + n

theorem firingsToIdle_eq_zero_iff {state : ℕ} (bound : state ≤ stateMaxVal n) :
    firingsToIdle n state = 0 ↔ state = stateMaxVal n := by
  rw [firingsToIdle]
  split
  · next idle => exact iff_of_true rfl idle
  · split
    · omega
    · split <;> omega

/-- Each firing brings the idle state one firing closer. -/
theorem firingsToIdle_next {state : ℕ} (positive : 1 ≤ n) (running : state < stateMaxVal n) :
    firingsToIdle n (nextState n state) + 1 = firingsToIdle n state := by
  have room := two_mul_add_three_le_stateMaxVal n
  simp only [firingsToIdle, nextState]
  split_ifs <;> omega

theorem startState_of_running {state : ℕ} (running : state ≠ stateMaxVal n) :
    startState n state = state :=
  if_neg running

section Running

variable [Zero α] [DecidableEq α] {arith : Arith α} {before after : KKIteration n α}

/-- A rule fires or a method is called, and `start` is called only while not idle. -/
def RunningStep (arith : Arith α) (before : KKIteration n α) (label : KKLabel α)
    (after : KKIteration n α) : Prop :=
  KKStep arith before label after ∧ (label = .start → before.isRunning = true)

theorem firingsToIdle_step {label : KKLabel α} (positive : 1 ≤ n)
    (step : RunningStep arith before label after) :
    firingsToIdle n after.rState.toNat + label.advance = firingsToIdle n before.rState.toNat := by
  obtain ⟨step, unstarted⟩ := step
  rcases step.rState_cases positive with ⟨fired, running, state⟩ | ⟨rfl, state⟩ | ⟨idle, state⟩
  · rw [fired, state, firingsToIdle_next positive running]
  · have running := KKIteration.isRunning_eq_true_iff.mp (unstarted rfl)
    rw [state, startState_of_running running]
    rfl
  · rw [idle, state, Nat.add_zero]

theorem firingsToIdle_run {trace : List (KKLabel α)} (positive : 1 ≤ n)
    (run : Execution (RunningStep arith) before trace after) :
    firingsToIdle n after.rState.toNat + (trace.map KKLabel.advance).sum =
      firingsToIdle n before.rState.toNat :=
  run.balance (fun kk => firingsToIdle n kk.rState.toNat) KKLabel.advance
    fun step => firingsToIdle_step positive step

/-- Firing the enabled one of `init` and `iterate` again and again reaches the idle state. -/
theorem exists_run_to_idle (arith : Arith α) (positive : 1 ≤ n) (kk : KKIteration n α) :
    ∃ rules final, Execution (KKFires arith) kk rules final ∧ final.isRunning = false ∧
      (∀ label ∈ rules, label.advance = 1) ∧
      rules.length = firingsToIdle n kk.rState.toNat := by
  generalize total : firingsToIdle n kk.rState.toNat = left
  induction left generalizing kk with
  | zero =>
      have state := (firingsToIdle_eq_zero_iff kk.rState_le).mp total
      exact ⟨[], kk, .nil kk, KKIteration.isRunning_eq_false_iff.mpr state,
        fun label member => (List.not_mem_nil member).elim, rfl⟩
  | succ left induction =>
      have running : kk.isRunning = true := by
        rw [KKIteration.isRunning_eq_true_iff, ne_eq, ← firingsToIdle_eq_zero_iff kk.rState_le,
          total]
        exact Nat.succ_ne_zero left
      obtain ⟨label, after, advance, fired⟩ := exists_advance arith running
      obtain ⟨busy, state⟩ := rState_of_fires positive fired
      rw [if_pos advance] at state
      have smaller := firingsToIdle_next positive busy
      obtain ⟨rules, final, executed, idle, moving, length⟩ :=
        induction after (by rw [state]; omega)
      exact ⟨label :: rules, final, .cons fired executed, idle,
        List.forall_mem_cons.mpr ⟨advance, moving⟩, congrArg (· + 1) length⟩

/-- From any number in the state register the firings of `init` and `iterate` up to the idle state
are determined, the accelerator is idle exactly after the last of them, as long as it is not, one
of the two may fire, and an execution in which they keep firing does become idle. -/
theorem run_terminates (arith : Arith α) (positive : 1 ≤ n) (kk : KKIteration n α) :
    (∀ trace after, Execution (RunningStep arith) kk trace after →
      (trace.map KKLabel.advance).sum ≤ firingsToIdle n kk.rState.toNat ∧
      (after.isRunning = false ↔
        (trace.map KKLabel.advance).sum = firingsToIdle n kk.rState.toNat) ∧
      (after.isRunning = true →
        KKIteration.init.guard after = !(KKIteration.iterate arith).guard after) ∧
      ∃ rules final, Execution (KKFires arith) after rules final ∧ final.isRunning = false ∧
        (∀ label ∈ rules, label.advance = 1) ∧
        (trace.map KKLabel.advance).sum + rules.length = firingsToIdle n kk.rState.toNat) ∧
    ∀ states labels, InfiniteExecution (RunningStep arith) states labels → states 0 = kk →
      (∀ time, (states time).isRunning = true →
        ∃ later, time ≤ later ∧ (labels later).advance = 1) →
      ∃ time, (states time).isRunning = false ∧
        (((List.range time).map labels).map KKLabel.advance).sum =
          firingsToIdle n kk.rState.toNat := by
  constructor
  · intro trace after run
    have total := firingsToIdle_run positive run
    obtain ⟨rules, final, executed, idle, moving, length⟩ :=
      exists_run_to_idle arith positive after
    refine ⟨by omega, ?_, init_guard_eq_not_iterate arith,
      rules, final, executed, idle, moving, by omega⟩
    rw [KKIteration.isRunning_eq_false_iff, ← firingsToIdle_eq_zero_iff after.rState_le]
    omega
  · rintro states labels run rfl recurring
    obtain ⟨time, idle⟩ : ∃ time, (states time).isRunning = false := by
      apply run.reaches (fun kk => kk.isRunning = false)
        (fun kk => firingsToIdle n kk.rState.toNat) KKLabel.advance
        fun step => firingsToIdle_step positive step
      intro time busy
      obtain ⟨later, ordered, advance⟩ := recurring time (Bool.eq_true_of_not_eq_false busy)
      exact ⟨later, ordered, by omega⟩
    refine ⟨time, idle, ?_⟩
    have total := firingsToIdle_run positive (run.take time)
    rw [KKIteration.isRunning_eq_false_iff,
      ← firingsToIdle_eq_zero_iff (states time).rState_le] at idle
    omega

/-- Registers with a stray code in the state register. -/
def strayRegisters : KKIteration 2 ℚ :=
  { loadedRegisters 0 with rState := 3 }

/-- On two lines the idle code is seven; from the stray code three it takes six firings, of which
one fires between a call of `putElem` and one of `start`. -/
theorem run_terminates_stray :
    ∃ middle rules final,
      Execution (RunningStep (Arith.exact ℚ)) strayRegisters
        [.putElem ⟨0, 1, 5⟩, .rule .iterate, .start] middle ∧
      Execution (KKFires (Arith.exact ℚ)) middle rules final ∧ final.isRunning = false ∧
      rules.length = 5 := by
  have left : firingsToIdle 2 strayRegisters.rState.toNat = 6 := by decide
  have run : Execution (RunningStep (Arith.exact ℚ)) strayRegisters
      [.putElem ⟨0, 1, 5⟩, .rule .iterate, .start] _ :=
    .cons ⟨.putElem ⟨0, 1, 5⟩, nofun⟩
      (.cons ⟨.rule (fires_action (by decide)), nofun⟩ (.single ⟨.start, fun _ => by decide⟩))
  obtain ⟨-, -, -, rules, final, executed, idle, -, length⟩ :=
    (run_terminates (Arith.exact ℚ) (by omega) strayRegisters).1 _ _ run
  refine ⟨_, rules, final, run, executed, idle, ?_⟩
  rw [left] at length
  change 1 + rules.length = 6 at length
  omega

end Running

end KKAccel
