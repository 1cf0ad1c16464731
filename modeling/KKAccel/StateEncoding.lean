import KKAccel.KKRun

/-!
# The state encoding

Whatever is called between the rules, the state register holds an iteration number or one of the
two codes at its top, and in an iteration its two successors do not wrap. When `iterate` and
`countCycles` fire together, the cycles counter follows the iteration number.
-/

namespace KKAccel

open AtomicRules

variable {n : ℕ} {α : Type*}

/-- What happens to the accelerator in one step. -/
inductive KKLabel (α : Type*)
  /-- A rule fires. -/
  | rule (label : KKRule)
  /-- The method `putElem` is called. -/
  | putElem (put : ElementPut α)
  /-- The method `start` is called. -/
  | start
  /-- A method which only reads is called. -/
  | read

/-- The steps that count as firings of `init` or `iterate`. -/
def KKLabel.advance : KKLabel α → ℕ
  | rule label => label.advance
  | putElem _ | start | read => 0

/-- A rule fires or a method is called. -/
inductive KKStep [Zero α] [DecidableEq α] (arith : Arith α) :
    KKIteration n α → KKLabel α → KKIteration n α → Prop
  | rule {before after : KKIteration n α} {label : KKRule} :
      KKFires arith before label after →
      KKStep arith before (.rule label) after
  | putElem {before : KKIteration n α} (put : ElementPut α) :
      KKStep arith before (.putElem put) (before.putElem put.i put.j put.a)
  | start {before : KKIteration n α} :
      KKStep arith before .start before.start
  | read {before : KKIteration n α} :
      KKStep arith before .read before

/-- What `init` and `iterate` make of the number in the state register. -/
def nextState (n state : ℕ) : ℕ :=
  if state = stateMaxVal n - 1 then 0 else if state = n - 1 then stateMaxVal n else state + 1

/-- What `start` makes of it. -/
def startState (n state : ℕ) : ℕ :=
  if state = stateMaxVal n then stateMaxVal n - 1 else state

namespace KKIteration

variable {kk after : KKIteration n α}

theorem start_rState (kk : KKIteration n α) :
    kk.start.rState.toNat = startState n kk.rState.toNat := by
  cases running : kk.isRunning with
  | false =>
      have state := isRunning_eq_false_iff.mp running
      rw [start_of_idle running, startState, if_pos state]
      exact stateMax_sub_one_toNat n
  | true =>
      have state := isRunning_eq_true_iff.mp running
      rw [start_of_running running, startState, if_neg state]

theorem init_rState (enabled : init.guard kk = true) :
    (init.action kk).rState.toNat = nextState n kk.rState.toNat := by
  rw [nextState, if_pos (init_guard_iff.mp enabled)]
  rfl

theorem iterate_rState_eq {arith : Arith α} (positive : 1 ≤ n)
    (enabled : (iterate arith).guard kk = true) :
    ((iterate arith).action kk).rState.toNat = nextState n kk.rState.toNat := by
  have iterating := iterate_guard_iff.mp enabled
  rw [iterate_rState arith positive iterating rfl, nextState, if_neg iterating.ne]

end KKIteration

section Steps

variable [Zero α] [DecidableEq α] {arith : Arith α} {kk before after : KKIteration n α}

/-- No rule fires in the idle state, and two of them move the state register. -/
theorem rState_of_fires (positive : 1 ≤ n) {label : KKRule} (fired : KKFires arith kk label after) :
    kk.rState.toNat < stateMaxVal n ∧
      after.rState.toNat =
        if label.advance = 1 then nextState n kk.rState.toNat else kk.rState.toNat := by
  have running := KKIteration.isRunning_eq_true_iff.mp (isRunning_of_fires fired)
  refine ⟨kk.rState_le.lt_of_ne running, ?_⟩
  obtain ⟨enabled, rfl⟩ := fired
  cases label with
  | init => exact KKIteration.init_rState enabled
  | iterate => exact KKIteration.iterate_rState_eq positive enabled
  | countCycles => rfl
  | checkDivZero => rfl

/-- What a step does to the state register. -/
theorem KKStep.rState_cases {label : KKLabel α} (step : KKStep arith before label after)
    (positive : 1 ≤ n) :
    (label.advance = 1 ∧ before.rState.toNat < stateMaxVal n ∧
        after.rState.toNat = nextState n before.rState.toNat) ∨
      (label = .start ∧ after.rState.toNat = startState n before.rState.toNat) ∨
      (label.advance = 0 ∧ after.rState.toNat = before.rState.toNat) := by
  cases step with
  | @rule _ label fired =>
      obtain ⟨running, state⟩ := rState_of_fires positive fired
      cases label with
      | init => exact Or.inl ⟨rfl, running, state⟩
      | iterate => exact Or.inl ⟨rfl, running, state⟩
      | countCycles => exact Or.inr (Or.inr ⟨rfl, state⟩)
      | checkDivZero => exact Or.inr (Or.inr ⟨rfl, state⟩)
  | putElem put => exact Or.inr (Or.inr ⟨rfl, rfl⟩)
  | start => exact Or.inr (Or.inl ⟨rfl, KKIteration.start_rState before⟩)
  | read => exact Or.inr (Or.inr ⟨rfl, rfl⟩)

end Steps

/-- An iteration number, the code of `init` or the idle code. -/
def StateCode (n state : ℕ) : Prop :=
  state < n ∨ state = stateMaxVal n - 1 ∨ state = stateMaxVal n

theorem StateCode.next {state : ℕ} (code : StateCode n state) (positive : 1 ≤ n)
    (running : state < stateMaxVal n) : StateCode n (nextState n state) := by
  rw [nextState]
  split
  · exact Or.inl positive
  · split
    · exact Or.inr (Or.inr rfl)
    · rcases code with iterating | pending | idle
      · exact Or.inl (by omega)
      · contradiction
      · exact absurd idle running.ne

theorem StateCode.start {state : ℕ} (code : StateCode n state) :
    StateCode n (startState n state) := by
  rw [startState]
  split
  · exact Or.inr (Or.inl rfl)
  · exact code

theorem stateCode_reset (rX : Fin 3 → Matrix (Fin n) (Fin n) α) (rCounter : BitVec 32)
    (rDivZero : Bool) : StateCode n (KKIteration.reset rX rCounter rDivZero).rState.toNat :=
  Or.inr (Or.inr (stateMax_toNat n))

section Codes

variable [Zero α] [DecidableEq α] {arith : Arith α} {before after : KKIteration n α}

theorem StateCode.step {label : KKLabel α} (code : StateCode n before.rState.toNat)
    (positive : 1 ≤ n) (step : KKStep arith before label after) :
    StateCode n after.rState.toNat := by
  rcases step.rState_cases positive with ⟨-, running, state⟩ | ⟨-, state⟩ | ⟨-, state⟩
  · rw [state]
    exact code.next positive running
  · rw [state]
    exact code.start
  · rw [state]
    exact code

theorem StateCode.run {trace : List (KKLabel α)} (code : StateCode n before.rState.toNat)
    (positive : 1 ≤ n) (executed : Execution (KKStep arith) before trace after) :
    StateCode n after.rState.toNat := by
  induction executed with
  | nil => exact code
  | cons step _ induction => exact induction (code.step positive step)

end Codes

theorem slots_distinct {kk : KKIteration n α} (iterating : kk.rState.toNat < n) :
    slotOf kk.rState.toNat ≠ slotOf (kk.rState + 1).toNat ∧
      slotOf (kk.rState + 1).toNat ≠ slotOf (kk.rState + 2).toNat ∧
      slotOf kk.rState.toNat ≠ slotOf (kk.rState + 2).toNat := by
  have room := two_mul_add_three_le_stateMaxVal n
  obtain ⟨add_one, add_two⟩ :=
    KKIteration.add_toNat_of_iterating (show kk.rState.toNat < stateMaxVal n - 1 by omega)
  rw [add_one, add_two]
  refine ⟨?_, slotOf_add_one_ne_slotOf_add_two _, slotOf_ne_slotOf_add_two _⟩
  rw [slotOf_add_one]
  exact (nextSlot_ne _).symm

/-- What happens in one step when `iterate` and `countCycles` fire together. -/
inductive CountedLabel (α : Type*)
  /-- Both of them fire. -/
  | together
  /-- Another rule fires, or a method is called. -/
  | other (label : KKLabel α)

/-- The calls of `start`. -/
def CountedLabel.starts : CountedLabel α → ℕ
  | other .start => 1
  | _ => 0

/-- A step in which `iterate` and `countCycles` fire together or not at all. -/
inductive CountedStep [Zero α] [DecidableEq α] (arith : Arith α) :
    KKIteration n α → CountedLabel α → KKIteration n α → Prop
  | together {before : KKIteration n α} :
      (KKIteration.iterate arith).guard before = true →
      CountedStep arith before .together
        ((KKIteration.iterate arith).action (KKIteration.countCycles.action before))
  | other {before after : KKIteration n α} {label : KKLabel α} :
      KKStep arith before label after →
      label ≠ .rule .iterate →
      label ≠ .rule .countCycles →
      CountedStep arith before (.other label) after

/-- The counter, after this many calls of `start` since reset. -/
inductive Counted : ℕ → KKIteration n α → Prop
  /-- Once there has been a run, the counter is left at the number of its iterations. -/
  | idle {kk : KKIteration n α} {starts : ℕ} :
      kk.rState.toNat = stateMaxVal n →
      (1 ≤ starts → kk.rCounter.toNat = n % 2 ^ 32) →
      Counted starts kk
  /-- The counter is to be cleared. -/
  | pending {kk : KKIteration n α} {starts : ℕ} :
      kk.rState.toNat = stateMaxVal n - 1 →
      1 ≤ starts →
      Counted starts kk
  /-- The counter follows the iteration number. -/
  | iterating {kk : KKIteration n α} {starts k : ℕ} :
      kk.rState.toNat = k →
      k < n →
      kk.rCounter.toNat = k % 2 ^ 32 →
      1 ≤ starts →
      Counted starts kk

theorem counter_succ {counter : BitVec 32} {k : ℕ} (value : counter.toNat = k % 2 ^ 32) :
    (counter + 1).toNat = (k + 1) % 2 ^ 32 := by
  have one : (1 : BitVec 32).toNat = 1 := rfl
  rw [BitVec.toNat_add, value, one, Nat.mod_add_mod]

namespace Counted

variable {starts : ℕ} {kk after : KKIteration n α}

theorem congr (counted : Counted starts kk) (rState_eq : after.rState = kk.rState)
    (rCounter_eq : after.rCounter = kk.rCounter) : Counted starts after := by
  cases counted with
  | idle state counter => exact .idle (rState_eq ▸ state) (rCounter_eq ▸ counter)
  | pending state started => exact .pending (rState_eq ▸ state) started
  | iterating state bound counter started =>
      exact .iterating (rState_eq ▸ state) bound (rCounter_eq ▸ counter) started

theorem start (counted : Counted starts kk) : Counted (starts + 1) kk.start := by
  have room := two_mul_add_three_le_stateMaxVal n
  cases counted with
  | idle state =>
      rw [KKIteration.start_of_idle (KKIteration.isRunning_eq_false_iff.mpr state)]
      exact .pending (stateMax_sub_one_toNat n) (Nat.le_add_left 1 starts)
  | pending state =>
      rw [KKIteration.start_of_running (KKIteration.isRunning_eq_true_iff.mpr (by omega))]
      exact .pending state (Nat.le_add_left 1 starts)
  | iterating state bound counter =>
      rw [KKIteration.start_of_running (KKIteration.isRunning_eq_true_iff.mpr (by omega))]
      exact .iterating state bound counter (Nat.le_add_left 1 starts)

theorem init (counted : Counted starts kk) (positive : 1 ≤ n)
    (enabled : KKIteration.init.guard kk = true) :
    Counted starts (KKIteration.init.action kk) := by
  have room := two_mul_add_three_le_stateMaxVal n
  have state := KKIteration.init_guard_iff.mp enabled
  cases counted with
  | idle => omega
  | pending _ started => exact .iterating rfl positive rfl started
  | iterating => omega

theorem together {arith : Arith α} (counted : Counted starts kk) (positive : 1 ≤ n)
    (enabled : (KKIteration.iterate arith).guard kk = true) :
    Counted starts
      ((KKIteration.iterate arith).action (KKIteration.countCycles.action kk)) := by
  have room := two_mul_add_three_le_stateMaxVal n
  have running := KKIteration.iterate_guard_iff.mp enabled
  cases counted with
  | idle => omega
  | pending => omega
  | @iterating _ _ k state bound counter started =>
      -- Counting a cycle does not move the state register.
      have counted : (KKIteration.countCycles.action kk).rState = kk.rState := rfl
      rw [← counted] at running state
      have next := KKIteration.iterate_rState arith positive running state
      have follows := counter_succ counter
      split at next
      · next last =>
          have size : k + 1 = n := by omega
          rw [size] at follows
          exact .idle next fun _ => follows
      · exact .iterating next (by omega) follows started

theorem step [Zero α] [DecidableEq α] {arith : Arith α} {label : CountedLabel α}
    (counted : Counted starts kk) (positive : 1 ≤ n) (step : CountedStep arith kk label after) :
    Counted (starts + label.starts) after := by
  cases step with
  | together enabled => exact counted.together positive enabled
  | other step notIterate notCount =>
      cases step with
      | @rule _ label fired =>
          obtain ⟨enabled, rfl⟩ := fired
          cases label with
          | init => exact counted.init positive enabled
          | iterate => contradiction
          | countCycles => contradiction
          | checkDivZero => exact counted.congr rfl rfl
      | putElem put => exact counted.congr rfl rfl
      | start => exact counted.start
      | read => exact counted

theorem of_reset [Zero α] [DecidableEq α] {arith : Arith α} (positive : 1 ≤ n)
    {rX : Fin 3 → Matrix (Fin n) (Fin n) α} {rCounter : BitVec 32} {rDivZero : Bool}
    {trace : List (CountedLabel α)}
    (run : Execution (CountedStep arith) (KKIteration.reset rX rCounter rDivZero) trace kk) :
    Counted (trace.map CountedLabel.starts).sum kk := by
  have initially : Counted 0 (KKIteration.reset rX rCounter rDivZero) :=
    .idle (stateMax_toNat n) fun started => absurd started (by omega)
  rw [← Nat.zero_add (trace.map CountedLabel.starts).sum]
  exact run.weighted CountedLabel.starts (fun counted step => counted.step positive step) initially

end Counted

section Cycles

variable [Zero α] [DecidableEq α] {arith : Arith α} {kk after : KKIteration n α}

/-- In a clock cycle `iterate` and `countCycles` fire together. -/
theorem kkCycle_counted (running : kk.isRunning = true) :
    ∃ trace, Execution (CountedStep arith) kk trace (kkCycle arith kk) := by
  have state := KKIteration.isRunning_eq_true_iff.mp running
  have bound := kk.rState_le
  rcases Nat.lt_or_ge kk.rState.toNat (stateMaxVal n - 1) with iterating | pending
  · have ready : (KKIteration.iterate arith).guard kk = true :=
      KKIteration.iterate_guard_iff.mpr iterating
    have check : CountedStep arith kk (.other (.rule .checkDivZero))
        (KKIteration.checkDivZero.action kk) :=
      .other (.rule ⟨ready, rfl⟩) (by simp) (by simp)
    have both : CountedStep arith (KKIteration.checkDivZero.action kk) .together _ :=
      .together ready
    rw [kkCycle_of_iterating iterating]
    exact ⟨_, .cons check (.single both)⟩
  · have state : kk.rState.toNat = stateMaxVal n - 1 := by omega
    have fired : KKFires arith kk .init (KKIteration.init.action kk) :=
      fires_action (KKIteration.init_guard_iff.mpr state)
    rw [kkCycle_of_pending state]
    exact ⟨_, .single (.other (.rule fired) (by simp) (by simp))⟩

theorem counted_of_completeRun {visited : List (KKIteration n α)}
    (complete : CompleteRun arith kk visited after) :
    ∃ trace, Execution (CountedStep arith) kk trace after := by
  induction complete with
  | idle => exact ⟨[], .nil _⟩
  | cycle running _ induction =>
      obtain ⟨first, cycle⟩ := kkCycle_counted running
      obtain ⟨rest, later⟩ := induction
      exact ⟨first ++ rest, cycle.append later⟩

end Cycles

theorem starts_pos {trace : List (CountedLabel α)} (started : .other .start ∈ trace) :
    1 ≤ (trace.map CountedLabel.starts).sum :=
  List.sum_pos_iff_exists_pos_nat.mpr ⟨1, List.mem_map.mpr ⟨_, started, rfl⟩, Nat.one_pos⟩

/-- In every state reached from reset the state register holds an iteration number or one of two
codes which are no iteration numbers, an iteration uses three different slots, and the counter is
the iteration number and in the end the number of iterations, both in the 32 bits it has. -/
theorem state_encoding [Zero α] [DecidableEq α] (arith : Arith α) (positive : 1 ≤ n)
    (rX : Fin 3 → Matrix (Fin n) (Fin n) α) (rCounter : BitVec 32) (rDivZero : Bool) :
    n - 1 < stateMaxVal n - 1 ∧
    (∀ trace kk, Execution (KKStep arith) (KKIteration.reset rX rCounter rDivZero) trace kk →
      (kk.rState.toNat < n ∨ kk.rState.toNat = stateMaxVal n - 1 ∨
        kk.rState.toNat = stateMaxVal n) ∧
      (kk.rState.toNat < n →
        ((kk.rState + 1).toNat = kk.rState.toNat + 1 ∧
          (kk.rState + 2).toNat = kk.rState.toNat + 2) ∧
        slotOf kk.rState.toNat ≠ slotOf (kk.rState + 1).toNat ∧
        slotOf (kk.rState + 1).toNat ≠ slotOf (kk.rState + 2).toNat ∧
        slotOf kk.rState.toNat ≠ slotOf (kk.rState + 2).toNat)) ∧
    ∀ trace kk, Execution (CountedStep arith) (KKIteration.reset rX rCounter rDivZero) trace kk →
      (kk.rState.toNat < n → kk.rCounter.toNat = kk.rState.toNat % 2 ^ 32) ∧
      (kk.isRunning = false → .other .start ∈ trace → kk.rCounter.toNat = n % 2 ^ 32) := by
  have room := two_mul_add_three_le_stateMaxVal n
  refine ⟨by omega, fun trace kk run => ⟨?_, fun iterating => ⟨?_, ?_⟩⟩,
    fun trace kk run => ⟨fun iterating => ?_, fun idle started => ?_⟩⟩
  · exact (stateCode_reset rX rCounter rDivZero).run positive run
  · exact KKIteration.add_toNat_of_iterating (by omega)
  · exact slots_distinct iterating
  · cases Counted.of_reset positive run with
    | idle => omega
    | pending => omega
    | iterating state _ counter => rw [state, counter]
  · have state := KKIteration.isRunning_eq_false_iff.mp idle
    cases Counted.of_reset positive run with
    | idle _ counter => exact counter (starts_pos started)
    | pending => omega
    | iterating => omega

theorem exists_counted_run (positive : 1 ≤ n) (A : Matrix (Fin n) (Fin n) ℚ) :
    ∃ trace kk, Execution (CountedStep (Arith.exact ℚ)) (loadedRegisters A) trace kk ∧
      kk.isRunning = false ∧ .other .start ∈ trace := by
  have progress := progress_loadedRegisters (Arith.exact ℚ) A
  obtain ⟨visited, after, complete⟩ := progress.exists_completeRun positive
  have finished := progress.completeRun positive complete
  obtain ⟨trace, run⟩ := counted_of_completeRun complete
  have start : CountedStep (Arith.exact ℚ) (loadedRegisters A) (.other .start)
      (loadedRegisters A).start := .other .start (by simp) (by simp)
  exact ⟨_, after, .cons start run, finished.idle_iff.mpr rfl, List.mem_cons_self⟩

/-- After a run on two lines the counter is two. -/
theorem state_encoding_two :
    ∃ trace kk, Execution (CountedStep (Arith.exact ℚ))
        (loadedRegisters (0 : Matrix (Fin 2) (Fin 2) ℚ)) trace kk ∧
      kk.isRunning = false ∧ kk.rCounter.toNat = 2 := by
  obtain ⟨trace, kk, run, idle, started⟩ :=
    exists_counted_run (by omega) (0 : Matrix (Fin 2) (Fin 2) ℚ)
  have counted := (state_encoding (Arith.exact ℚ) (by omega) _ _ _).2.2 trace kk run
  exact ⟨trace, kk, run, idle, counted.2 idle started⟩

/-- With `2 ^ 32` lines the counter is not the number of iterations after a run. -/
theorem counter_wraps :
    ∃ (trace : List (CountedLabel ℚ)) (kk : KKIteration (2 ^ 32) ℚ),
      Execution (CountedStep (Arith.exact ℚ)) (KKIteration.reset (fun _ => 0) 0 false) trace kk ∧
      kk.isRunning = false ∧ .other .start ∈ trace ∧ kk.rCounter.toNat ≠ 2 ^ 32 := by
  obtain ⟨trace, kk, run, idle, started⟩ :=
    exists_counted_run (Nat.one_le_two_pow) (0 : Matrix (Fin (2 ^ 32)) (Fin (2 ^ 32)) ℚ)
  exact ⟨trace, kk, run, idle, started, kk.rCounter.isLt.ne⟩

end KKAccel
