import KKAccel.Driver
import KKAccel.Refinement

/-!
# Sessions of the driver

The driver loads a matrix, starts the accelerator, polls until it is idle again and reads the
results, for any number of sessions. Its requests are processed in order, interleaved with the
rules of the accelerator and with further requests which a run in progress must withstand. The
progress of a run is the invariant that ties the driver's phases to the registers.
-/

namespace KKAccel

open AtomicRules Slot

variable {n : ℕ}

/-- Where the driver is in its session. -/
inductive Phase (n : ℕ)
  /-- Elements have been put. -/
  | loading (puts : List (ElementPut (BitVec 32)))
  /-- The run on a matrix has been started, and this many firings of `init` and `iterate` ago. -/
  | polling (W : Matrix (Fin n) (Fin n) (BitVec 32)) (fired : ℕ)
  /-- The results for a matrix are being read. -/
  | reading (W : Matrix (Fin n) (Fin n) (BitVec 32))

/-- Firings are counted while the driver polls. -/
def Phase.advance (firings : ℕ) : Phase n → Phase n
  | polling W fired => polling W (fired + firings)
  | other => other

/-- The driver and the accelerator. -/
structure Session (n : ℕ) where
  phase : Phase n
  kk : KKIteration n (BitVec 32)

/-- What happens in one step of the sessions. -/
inductive SessionLabel (n : ℕ)
  /-- A rule of the accelerator fires. -/
  | rule (label : KKRule)
  /-- `kk_putelem` is processed. -/
  | putelem (i j : Fin n) (word : BitVec 32)
  /-- `kk_start` is processed, after all elements of a matrix have been put. -/
  | start (W : Matrix (Fin n) (Fin n) (BitVec 32))
  /-- `kk_isrunning` is processed, this many firings after the start. -/
  | isrunning (fired : ℕ) (response : BitVec 32)
  /-- `kk_getintelem` is processed in a session on a matrix. -/
  | getintelem (W : Matrix (Fin n) (Fin n) (BitVec 32)) (i j : Fin n) (word : BitVec 32)
  /-- `kk_getdetelem` is processed in a session on a matrix. -/
  | getdetelem (W : Matrix (Fin n) (Fin n) (BitVec 32)) (i j : Fin n) (word : BitVec 32)
  /-- The driver turns to the next session. -/
  | next
  /-- A further start is processed while the accelerator is running. -/
  | extraStart
  /-- A write is processed whose address is neither an element nor the start command. -/
  | extraWrite (addr : BitVec 18) (data : BitVec 32)
  /-- A read of any address is processed. -/
  | extraRead (addr : BitVec 18) (response : BitVec 32)

/-- The loop `while(kk_isrunning())` ends: the response, returned as a `char`, is zero. -/
def PollEnds (response : BitVec 32) : Prop := response.setWidth 8 = 0

instance (response : BitVec 32) : Decidable (PollEnds response) :=
  inferInstanceAs (Decidable (_ = _))

/-- An address which `processWrite` does not act on. -/
def Unmapped (addr : BitVec 18) : Prop :=
  (0b00 : BitVec 2) ≠ (addr >>> 16).setWidth 2 ∧
    ¬ ((0b01 : BitVec 2) = (addr >>> 16).setWidth 2 ∧ (0x0 : BitVec 16) = addr.setWidth 16)

section Steps

variable (arith : Arith (BitVec 32))
  (outside : Matrix (Fin n) (Fin n) (BitVec 32) → BitVec 32 → BitVec 32 → BitVec 32)

/-- One step of the sessions: requests are processed one at a time between the rules. -/
inductive SessionStep : Session n → SessionLabel n → Session n → Prop
  | rule {phase : Phase n} {before after : KKIteration n (BitVec 32)} {label : KKRule} :
      KKFires arith before label after →
      SessionStep ⟨phase, before⟩ (.rule label) ⟨phase.advance label.advance, after⟩
  | putelem {puts : List (ElementPut (BitVec 32))} {kk : KKIteration n (BitVec 32)} (i j : Fin n)
      (word : BitVec 32) :
      SessionStep ⟨.loading puts, kk⟩ (.putelem i j word)
        ⟨.loading (puts ++ [⟨BitVec.ofNat 32 i, BitVec.ofNat 32 j, word⟩]),
          processWrite
            (wordAddress (putelemOffset (BitVec.ofNat 32 i) (BitVec.ofNat 32 j))) word kk⟩
  | start {puts : List (ElementPut (BitVec 32))} {kk : KKIteration n (BitVec 32)}
      {W : Matrix (Fin n) (Fin n) (BitVec 32)} :
      (∀ i j, lastPut puts i j = some (W i j)) →
      SessionStep ⟨.loading puts, kk⟩ (.start W)
        ⟨.polling W 0, processWrite (wordAddress startOffset) 0 kk⟩
  | isrunning {W : Matrix (Fin n) (Fin n) (BitVec 32)} {fired : ℕ}
      {kk : KKIteration n (BitVec 32)} {response : BitVec 32} :
      response = processRead outside (wordAddress isrunningOffset) kk →
      SessionStep ⟨.polling W fired, kk⟩ (.isrunning fired response)
        ⟨if PollEnds response then .reading W else .polling W fired, kk⟩
  | getintelem {W : Matrix (Fin n) (Fin n) (BitVec 32)} {kk : KKIteration n (BitVec 32)}
      (i j : Fin n) :
      SessionStep ⟨.reading W, kk⟩
        (.getintelem W i j (processRead outside
          (wordAddress (getintelemOffset (BitVec.ofNat 32 i) (BitVec.ofNat 32 j))) kk))
        ⟨.reading W, kk⟩
  | getdetelem {W : Matrix (Fin n) (Fin n) (BitVec 32)} {kk : KKIteration n (BitVec 32)}
      (i j : Fin n) :
      SessionStep ⟨.reading W, kk⟩
        (.getdetelem W i j (processRead outside
          (wordAddress (getdetelemOffset (BitVec.ofNat 32 i) (BitVec.ofNat 32 j))) kk))
        ⟨.reading W, kk⟩
  | next {W : Matrix (Fin n) (Fin n) (BitVec 32)} {kk : KKIteration n (BitVec 32)} :
      SessionStep ⟨.reading W, kk⟩ .next ⟨.loading [], kk⟩
  | extraStart {phase : Phase n} {kk : KKIteration n (BitVec 32)} {data : BitVec 32} :
      kk.isRunning = true →
      SessionStep ⟨phase, kk⟩ .extraStart
        ⟨phase, processWrite (wordAddress startOffset) data kk⟩
  | extraWrite {phase : Phase n} {kk : KKIteration n (BitVec 32)} {addr : BitVec 18}
      {data : BitVec 32} :
      Unmapped addr →
      SessionStep ⟨phase, kk⟩ (.extraWrite addr data) ⟨phase, processWrite addr data kk⟩
  | extraRead {phase : Phase n} {kk : KKIteration n (BitVec 32)} {addr : BitVec 18} :
      SessionStep ⟨phase, kk⟩ (.extraRead addr (processRead outside addr kk)) ⟨phase, kk⟩

/-- A run on a matrix with nothing on the bus, and its final registers. -/
def UndisturbedRun (W : Matrix (Fin n) (Fin n) (BitVec 32)) (final : KKIteration n (BitVec 32)) :
    Prop :=
  ∃ (kk : KKIteration n (BitVec 32)) (trace : List KKRule),
    kk.isRunning = false ∧ kk.rX 1 = W ∧
    Execution (KKFires arith) kk.start trace final ∧ final.isRunning = false

/-- What the driver relies on: it stops polling exactly when the run is over, and it reads the
results of the undisturbed runs on its matrix. -/
def SessionLabel.Sound : SessionLabel n → Prop
  | isrunning fired response => PollEnds response ↔ fired = n + 1
  | getintelem W i j word =>
      (∃ final, UndisturbedRun arith W final) ∧
        ∀ final, UndisturbedRun arith W final →
          word = final.getIntElem outside (BitVec.ofNat 32 i) (BitVec.ofNat 32 j)
  | getdetelem W i j word =>
      (∃ final, UndisturbedRun arith W final) ∧
        ∀ final, UndisturbedRun arith W final →
          word = final.getDetElem outside (BitVec.ofNat 32 i) (BitVec.ofNat 32 j)
  | _ => True

/-- The registers in each phase. -/
def Session.Invariant (session : Session n) : Prop :=
  match session.phase with
  | .loading puts => ∃ before, before.isRunning = false ∧ session.kk = putElems puts before
  | .polling W fired => Progress arith W fired session.kk
  | .reading W => Progress arith W (n + 1) session.kk

end Steps

section Requests

variable {kk after : KKIteration n (BitVec 32)}
  (outside : Matrix (Fin n) (Fin n) (BitVec 32) → BitVec 32 → BitVec 32 → BitVec 32)

theorem processWrite_putelem (size : n ≤ 256) (i j : Fin n) (word : BitVec 32) :
    processWrite (wordAddress (putelemOffset (BitVec.ofNat 32 i) (BitVec.ofNat 32 j))) word kk =
      kk.putElem (BitVec.ofNat 32 i) (BitVec.ofNat 32 j) word := by
  have decoded := ofAddr_putelem (i.castLE size) (j.castLE size)
  simp only [Fin.val_castLE] at decoded
  rw [processWrite_eq_write, decoded]
  rfl

theorem processWrite_start (data : BitVec 32) :
    processWrite (wordAddress startOffset) data kk = kk.start := by
  rw [processWrite_eq_write, ofAddr_start]
  rfl

theorem processWrite_unmapped {addr : BitVec 18} (unmapped : Unmapped addr) (data : BitVec 32) :
    processWrite addr data kk = kk := by
  rw [processWrite, if_neg unmapped.1, if_neg unmapped.2]

/-- The driver stops polling exactly when the accelerator is idle. -/
theorem pollEnds_isrunning :
    PollEnds (processRead outside (wordAddress isrunningOffset) kk) ↔ kk.isRunning = false := by
  rw [processRead_eq_read, ofAddr_isrunning, PollEnds, Register.read]
  cases kk.isRunning <;> decide

theorem processRead_getintelem (size : n ≤ 256) (i j : Fin n) :
    processRead outside
        (wordAddress (getintelemOffset (BitVec.ofNat 32 i) (BitVec.ofNat 32 j))) kk =
      kk.getIntElem outside (BitVec.ofNat 32 i) (BitVec.ofNat 32 j) := by
  have decoded := ofAddr_getintelem (i.castLE size) (j.castLE size)
  simp only [Fin.val_castLE] at decoded
  rw [processRead_eq_read, decoded]
  rfl

theorem processRead_getdetelem (size : n ≤ 256) (i j : Fin n) :
    processRead outside
        (wordAddress (getdetelemOffset (BitVec.ofNat 32 i) (BitVec.ofNat 32 j))) kk =
      kk.getDetElem outside (BitVec.ofNat 32 i) (BitVec.ofNat 32 j) := by
  have decoded := ofAddr_getdetelem (i.castLE size) (j.castLE size)
  simp only [Fin.val_castLE] at decoded
  rw [processRead_eq_read, decoded]
  rfl

end Requests

section Safety

variable {arith : Arith (BitVec 32)}
  {outside : Matrix (Fin n) (Fin n) (BitVec 32) → BitVec 32 → BitVec 32 → BitVec 32}
  {session next : Session n} {label : SessionLabel n} {trace : List (SessionLabel n)}
  {W : Matrix (Fin n) (Fin n) (BitVec 32)}

theorem idle_of_loading {puts : List (ElementPut (BitVec 32))} {kk : KKIteration n (BitVec 32)}
    (invariant : Session.Invariant arith ⟨.loading puts, kk⟩) : kk.isRunning = false := by
  obtain ⟨before, idle, rfl⟩ := invariant
  rw [putElems_isRunning, idle]

theorem idle_of_reading {kk : KKIteration n (BitVec 32)}
    (invariant : Session.Invariant arith ⟨.reading W, kk⟩) : kk.isRunning = false :=
  Progress.idle_iff invariant |>.mpr rfl

theorem Session.Invariant.step (invariant : session.Invariant arith) (positive : 1 ≤ n)
    (size : n ≤ 256) (step : SessionStep arith outside session label next) :
    next.Invariant arith := by
  cases step with
  | @rule phase before after label fired =>
      have running := isRunning_of_fires fired
      cases phase with
      | loading puts =>
          rw [idle_of_loading invariant] at running
          contradiction
      | polling W count => exact Progress.fires invariant positive fired
      | reading W =>
          rw [idle_of_reading invariant] at running
          contradiction
  | @putelem puts kk i j word =>
      obtain ⟨before, idle, rfl⟩ := invariant
      refine ⟨before, idle, ?_⟩
      rw [processWrite_putelem size]
      simp [putElems]
  | @start puts kk W loaded =>
      obtain ⟨before, idle, rfl⟩ := invariant
      rw [processWrite_start]
      exact progress_of_loaded idle loaded
  | @isrunning W fired kk response equality =>
      by_cases ends : PollEnds response
      · rw [if_pos ends]
        rw [equality, pollEnds_isrunning] at ends
        have progress : Progress arith W fired kk := invariant
        rw [progress.idle_iff.mp ends] at progress
        exact progress
      · rw [if_neg ends]
        exact invariant
  | getintelem => exact invariant
  | getdetelem => exact invariant
  | @next W kk => exact ⟨kk, idle_of_reading invariant, rfl⟩
  | extraStart running =>
      rw [processWrite_start, KKIteration.start_of_running running]
      exact invariant
  | extraWrite unmapped =>
      rw [processWrite_unmapped unmapped]
      exact invariant
  | extraRead => exact invariant

/-- The registers at the end of a run hold what the undisturbed runs end with. -/
theorem Progress.eq_undisturbed {kk final : KKIteration n (BitVec 32)}
    (progress : Progress arith W (n + 1) kk) (two_le : 2 ≤ n)
    (undisturbed : UndisturbedRun arith W final) (i j : BitVec 32) :
    kk.getIntElem outside i j = final.getIntElem outside i j ∧
      kk.getDetElem outside i j = final.getDetElem outside i j := by
  obtain ⟨before, trace, idle, loaded, executed, done⟩ := undisturbed
  have started : Progress arith W 0 before.start := .of_start idle loaded
  have finished := started.run_finished (by omega) executed done
  exact progress.results_eq outside two_le finished i j

theorem exists_undisturbedRun (arith : Arith (BitVec 32))
    (W : Matrix (Fin n) (Fin n) (BitVec 32)) (positive : 1 ≤ n) :
    ∃ final, UndisturbedRun arith W final := by
  obtain ⟨trace, final, executed, done⟩ := (progress_loadedRegisters arith W).completes positive
  exact ⟨final, loadedRegisters W, trace, loadedRegisters_idle W, rfl, executed, done⟩

theorem Session.Invariant.sound (invariant : session.Invariant arith) (two_le : 2 ≤ n)
    (size : n ≤ 256) (step : SessionStep arith outside session label next) :
    label.Sound arith outside := by
  cases step with
  | @isrunning W fired kk response equality =>
      rw [SessionLabel.Sound, equality, pollEnds_isrunning]
      exact Progress.idle_iff invariant
  | @getintelem W kk i j =>
      refine ⟨exists_undisturbedRun arith W (by omega), fun final undisturbed => ?_⟩
      rw [processRead_getintelem outside size]
      exact (Progress.eq_undisturbed invariant two_le undisturbed _ _).1
  | @getdetelem W kk i j =>
      refine ⟨exists_undisturbedRun arith W (by omega), fun final undisturbed => ?_⟩
      rw [processRead_getdetelem outside size]
      exact (Progress.eq_undisturbed invariant two_le undisturbed _ _).2
  | rule => trivial
  | putelem => trivial
  | start => trivial
  | next => trivial
  | extraStart => trivial
  | extraWrite => trivial
  | extraRead => trivial

/-- In every run of sessions the driver stops polling exactly after the last firing of its run, and
every word it reads is that of the undisturbed runs on the matrix of its session. -/
theorem sessions_sound (arith : Arith (BitVec 32))
    (outside : Matrix (Fin n) (Fin n) (BitVec 32) → BitVec 32 → BitVec 32 → BitVec 32)
    (two_le : 2 ≤ n) (size : n ≤ 256) {kk : KKIteration n (BitVec 32)}
    (idle : kk.isRunning = false) {after : Session n}
    (run : Execution (SessionStep arith outside) ⟨.loading [], kk⟩ trace after) :
    ∀ label ∈ trace, label.Sound arith outside := by
  have initially : Session.Invariant arith ⟨.loading [], kk⟩ := ⟨kk, idle, rfl⟩
  exact run.forall_labels (fun invariant step => invariant.step (by omega) size step)
    (fun invariant step => invariant.sound two_le size step) initially

theorem execution_polling {kk after : KKIteration n (BitVec 32)} {fired : ℕ}
    {rules : List KKRule} (executed : Execution (KKFires arith) kk rules after) :
    Execution (SessionStep arith outside) ⟨.polling W fired, kk⟩ (rules.map SessionLabel.rule)
      ⟨.polling W (fired + (rules.map KKRule.advance).sum), after⟩ := by
  induction executed generalizing fired with
  | nil => exact .nil _
  | @cons before middle after label rules step _ induction =>
      refine .cons (.rule step) ?_
      have rest := @induction (fired + label.advance)
      rwa [Nat.add_assoc] at rest

theorem SessionStep.isrunning_idle {kk : KKIteration n (BitVec 32)} {fired : ℕ}
    (idle : kk.isRunning = false) :
    SessionStep arith outside ⟨.polling W fired, kk⟩
      (.isrunning fired (processRead outside (wordAddress isrunningOffset) kk))
      ⟨.reading W, kk⟩ := by
  have step : SessionStep arith outside ⟨.polling W fired, kk⟩
      (.isrunning fired (processRead outside (wordAddress isrunningOffset) kk)) _ := .isrunning rfl
  rwa [if_pos ((pollEnds_isrunning outside).mpr idle)] at step

theorem execution_start_ones (kk : KKIteration 2 (BitVec 32)) :
    ∃ trace started,
      Execution (SessionStep fixed16 fun _ _ _ => 0) ⟨.loading [], kk⟩ trace
        ⟨.polling (ones 2) 0, started⟩ := by
  refine ⟨_, _, .cons (.putelem 0 0 0x10000) (.cons (.putelem 0 1 0x10000)
    (.cons (.putelem 1 0 0x10000) (.cons (.putelem 1 1 0x10000) (.single (.start ?_)))))⟩
  decide

/-- A session on a matrix of ones, in which an element of the result is read. -/
theorem sessions_sound_ones :
    ∃ trace after word,
      Execution (SessionStep fixed16 fun _ _ _ => 0) ⟨.loading [], loadedRegisters (ones 2)⟩ trace
        after ∧
      .getdetelem (ones 2) 0 0 word ∈ trace ∧
      ∀ final, UndisturbedRun fixed16 (ones 2) final →
        word = final.getDetElem (fun _ _ _ => 0) 0 0 := by
  have idle := loadedRegisters_idle (ones 2)
  obtain ⟨loading, started, loaded⟩ := execution_start_ones (loadedRegisters (ones 2))
  have initially : Session.Invariant fixed16 ⟨.loading [], loadedRegisters (ones 2)⟩ :=
    ⟨_, idle, rfl⟩
  have invariant : Session.Invariant fixed16 ⟨.polling (ones 2) 0, started⟩ :=
    loaded.invariant (fun holds step => holds.step (by omega) (by omega) step) initially
  have progress : Progress fixed16 (ones 2) 0 started := invariant
  obtain ⟨rules, finished, executed, done⟩ := progress.completes (by omega)
  have polled := loaded.append (execution_polling executed)
  have run := polled.append (.cons (.isrunning_idle done) (.single (.getdetelem 0 0)))
  have sound := sessions_sound fixed16 _ le_rfl (by omega) idle run
  have word := sound _ (List.mem_append_right _ (List.mem_cons_of_mem _ List.mem_cons_self))
  exact ⟨_, _, _, run, List.mem_append_right _ (List.mem_cons_of_mem _ List.mem_cons_self),
    word.2⟩

end Safety

end KKAccel
