import KKAccel.AcceleratedFloat
import KKAccel.BusSchedule

/-!
# The accelerated program on the bus

`the_algorithm` as the processor executes it: `kk_putelem` and `kk_start` are writes which the slave
may carry out later, `kk_isrunning` and the functions which get elements are reads for which it
stalls. What the program computes on the wires is what it computes with its requests carried out at
once, and it comes to its end within a bounded number of cycles.
-/

namespace KKAccel

open AtomicRules CellLoop FixedPoint

variable {n : ℕ}

/-- A read of the word at an offset. -/
def readRequest (offset : BitVec 32) : AvalonRequest 18 32 where
  addr := wordAddress offset
  data := 0
  command := .read

/-- The request of `kk_start`. -/
def kkStart : AvalonRequest 18 32 where
  addr := wordAddress startOffset
  data := 0
  command := .write

/-- The points of the program at which it makes a request, and its end. -/
inductive Point (n : ℕ)
  /-- The elements still to be put; after the last one the accelerator is started. -/
  | transfer (rest : List (Fin n × Fin n))
  /-- The loop `while(kk_isrunning());`. -/
  | polling
  /-- The elements still to be got. -/
  | getIntElem (rest : List (Fin n × Fin n)) (pad : Pad n Binary32)
  /-- The same, with an intermediate element just read. -/
  | getDetElem (i j : Fin n) (rest : List (Fin n × Fin n)) (pad : Pad n Binary32)

section Program

variable (scratch : Fin 3 → Matrix (Fin n) (Fin n) Binary32)
  (matrixO : Matrix (Fin n) (Fin n) Binary32)

/-- The program up to the end of its requests. An element which cannot be converted stops it. -/
def acceleratedClient : Client (Point n) (AvalonRequest 18 32) (BitVec 32) where
  asks
    | .transfer ((i, j) :: _) => kkPutelem (matrixO i j) (BitVec.ofNat 32 i) (BitVec.ofNat 32 j)
    | .transfer [] => some kkStart
    | .polling => some (readRequest isrunningOffset)
    | .getIntElem ((i, j) :: _) _ =>
        some (readRequest (getintelemOffset (BitVec.ofNat 32 i) (BitVec.ofNat 32 j)))
    | .getIntElem [] _ => none
    | .getDetElem i j _ _ =>
        some (readRequest (getdetelemOffset (BitVec.ofNat 32 i) (BitVec.ofNat 32 j)))
  resume
    | .transfer (_ :: rest), _ => .transfer rest
    | .transfer [], _ => .polling
    | .polling, some response =>
        if PollEnds response then .getIntElem (cells n) (Pad.accelerated scratch) else .polling
    | .getIntElem ((i, j) :: rest) pad, some response =>
        .getDetElem i j rest (pad.store pad.prev i j (toFloat response))
    | .getDetElem i j rest pad, some response =>
        .getIntElem rest (pad.store pad.curr i j (toFloat response))
    | point, _ => point

/-- The stages after the last request. -/
def completeAccelerated (pad : Pad n Binary32) : Except (DivFault n) (FloatReport binary32 n) := do
  let pad ← finalIteration (floatArith binary32) isZeroFloat pad
  let matrixIC := multiplyMatrixFloat (pad.matrixK pad.next) matrixO
  return { pad, matrixIC, error := calculateErrorSingle matrixIC }

/-- One pass of the loop which transfers the matrix. -/
def transferElement (kk : KKIteration n (BitVec 32)) (position : Fin n × Fin n) :
    Except (Fin n × Fin n) (KKIteration n (BitVec 32)) :=
  match kkPutelem (matrixO position.1 position.2) (BitVec.ofNat 32 position.1)
      (BitVec.ofNat 32 position.2) with
  | some request => .ok (processWrite request.addr request.data kk)
  | none => .error position

/-- One pass of the loop which gets the elements. -/
def getElement (intElem detElem : Fin n → Fin n → Binary32) (pad : Pad n Binary32)
    (position : Fin n × Fin n) : Pad n Binary32 :=
  let pad := pad.store pad.prev position.1 position.2 (intElem position.1 position.2)
  pad.store pad.curr position.1 position.2 (detElem position.1 position.2)

variable {scratch matrixO}

theorem transferElements_eq_foldlM (kk : KKIteration n (BitVec 32)) :
    transferElements matrixO kk = (cells n).foldlM (transferElement matrixO) kk :=
  forCells_eq_foldlM _ _

theorem getElements_eq_foldl (intElem detElem : Fin n → Fin n → Binary32)
    (pad : Pad n Binary32) :
    getElements intElem detElem pad = .ok ((cells n).foldl (getElement intElem detElem) pad) :=
  (forCells_eq_foldlM _ _).trans List.foldlM_pure

theorem finishAccelerated_eq (intElem detElem : Fin n → Fin n → Binary32) :
    finishAccelerated scratch matrixO intElem detElem =
      completeAccelerated matrixO
        ((cells n).foldl (getElement intElem detElem) (Pad.accelerated scratch)) := by
  rw [finishAccelerated, invertFromElements, getElements_eq_foldl]
  rfl

end Program

section Safety

variable (arith : Arith (BitVec 32))
  (outside : Matrix (Fin n) (Fin n) (BitVec 32) → BitVec 32 → BitVec 32 → BitVec 32)
  (scratch : Fin 3 → Matrix (Fin n) (Fin n) Binary32)
  (matrixO : Matrix (Fin n) (Fin n) Binary32) (kk : KKIteration n (BitVec 32))

/-- The registers after the transfer, the start and some rules. -/
def RunOn (current : KKIteration n (BitVec 32)) : Prop :=
  ∃ loaded rules, transferElements matrixO kk = .ok loaded ∧
    Execution (KKFires arith) (processWrite (wordAddress startOffset) 0 loaded) rules current

/-- What holds at a point of the registers, which were `kk` at first. -/
def Point.Reached (current : KKIteration n (BitVec 32)) : Point n → Prop
  | .transfer rest =>
      current.isRunning = false ∧
        rest.foldlM (transferElement matrixO) current = transferElements matrixO kk
  | .polling => RunOn arith matrixO kk current
  | .getIntElem rest pad =>
      current.isRunning = false ∧ RunOn arith matrixO kk current ∧
        rest.foldl (getElement (kkGetintelem outside current) (kkGetdetelem outside current)) pad =
          (cells n).foldl
            (getElement (kkGetintelem outside current) (kkGetdetelem outside current))
            (Pad.accelerated scratch)
  | .getDetElem i j rest pad =>
      current.isRunning = false ∧ RunOn arith matrixO kk current ∧
        rest.foldl (getElement (kkGetintelem outside current) (kkGetdetelem outside current))
            (pad.store pad.curr i j (kkGetdetelem outside current i j)) =
          (cells n).foldl
            (getElement (kkGetintelem outside current) (kkGetdetelem outside current))
            (Pad.accelerated scratch)

variable {arith outside scratch matrixO kk} {current after : KKIteration n (BitVec 32)}
  {point next : Point n} {label : ServiceLabel}

theorem exists_word_of_kkPutelem {elem : Binary32} {i j : BitVec 32}
    {request : AvalonRequest 18 32} (asked : kkPutelem elem i j = some request) :
    ∃ word, toBit elem = some word ∧
      request = ⟨wordAddress (putelemOffset i j), word, .write⟩ := by
  rw [kkPutelem] at asked
  cases converted : toBit elem with
  | none =>
      rw [converted] at asked
      contradiction
  | some word =>
      rw [converted] at asked
      exact ⟨word, rfl, (Option.some.inj asked).symm⟩

theorem Point.Reached.rule {rule : KKRule} (reached : point.Reached arith outside scratch matrixO kk
      current) (fired : KKFires arith current rule after) :
    point.Reached arith outside scratch matrixO kk after := by
  have running := isRunning_of_fires fired
  cases point with
  | polling =>
      obtain ⟨loaded, rules, transferred, executed⟩ := reached
      exact ⟨loaded, rules ++ [rule], transferred, executed.append (.single fired)⟩
  | transfer rest => exact absurd running (by simp [reached.1])
  | getIntElem rest pad => exact absurd running (by simp [reached.1])
  | getDetElem i j rest pad => exact absurd running (by simp [reached.1])

/-- Each request of the program leads to its next point. -/
theorem Point.Reached.request (size : n ≤ 256) {request : AvalonRequest 18 32}
    (reached : point.Reached arith outside scratch matrixO kk current)
    (step : ServiceStep arith outside current label after)
    (asked : (acceleratedClient scratch matrixO).asks point = some request)
    (carried : busService.request label = some request) :
    ((acceleratedClient scratch matrixO).resume point (busService.response label)).Reached arith
      outside scratch matrixO kk after := by
  have effect := step.of_request carried
  match point with
  | .transfer [] =>
      obtain rfl := Option.some.inj asked
      obtain ⟨-, rfl, -⟩ | ⟨read, -⟩ := effect
      · exact ⟨current, [], reached.2.symm, .nil _⟩
      · contradiction
  | .transfer ((i, j) :: rest) =>
      obtain ⟨-, rfl, -⟩ | ⟨read, -⟩ := effect
      · obtain ⟨idle, remaining⟩ := reached
        have first : transferElement matrixO current (i, j) =
            .ok (processWrite request.addr request.data current) := by
          rw [transferElement, show kkPutelem _ _ _ = some request from asked]
        rw [List.foldlM_cons, first] at remaining
        refine ⟨?_, remaining⟩
        obtain ⟨word, -, rfl⟩ := exists_word_of_kkPutelem asked
        rw [processWrite_putelem size]
        exact idle
      · obtain ⟨word, -, rfl⟩ := exists_word_of_kkPutelem asked
        contradiction
  | .polling =>
      obtain rfl := Option.some.inj asked
      obtain ⟨write, -⟩ | ⟨-, rfl, response⟩ := effect
      · contradiction
      · rw [response]
        simp only [acceleratedClient, readRequest]
        split
        · next ends => exact ⟨(pollEnds_isrunning outside).mp ends, reached, rfl⟩
        · exact reached
  | .getIntElem ((i, j) :: rest) pad =>
      obtain rfl := Option.some.inj asked
      obtain ⟨write, -⟩ | ⟨-, rfl, response⟩ := effect
      · contradiction
      · rw [response]
        exact reached
  | .getDetElem i j rest pad =>
      obtain rfl := Option.some.inj asked
      obtain ⟨write, -⟩ | ⟨-, rfl, response⟩ := effect
      · contradiction
      · rw [response]
        exact reached

theorem Point.Reached.run {source target : Point n × KKIteration n (BitVec 32)}
    {service : List ServiceLabel} (size : n ≤ 256)
    (reached : source.1.Reached arith outside scratch matrixO kk source.2)
    (run : Execution ((acceleratedClient scratch matrixO).Joint busService
      (ServiceStep arith outside)) source service target) :
    target.1.Reached arith outside scratch matrixO kk target.2 := by
  refine @Execution.invariant _ _ _ _ _ _
    (fun state => state.1.Reached arith outside scratch matrixO kk state.2) ?_ run reached
  rintro source label target reached (⟨step, silent⟩ | ⟨step, asked, carried⟩)
  · cases step with
    | rule fired => exact reached.rule fired
    | write => contradiction
    | read => contradiction
  · exact reached.request size step asked carried

/-- At the end of its requests the program has what it has with its requests carried out at
once. -/
theorem Point.Reached.finished {pad : Pad n Binary32} {computed : FloatReport binary32 n}
    (reached : (Point.getIntElem [] pad).Reached arith outside scratch matrixO kk current)
    (completed : completeAccelerated matrixO pad = .ok computed) :
    TheAlgorithmAccelerated arith outside scratch matrixO kk computed := by
  obtain ⟨idle, ⟨loaded, rules, transferred, executed⟩, elements⟩ := reached
  refine ⟨loaded, current, current, rules, transferred, executed,
    .done ((pollEnds_isrunning outside).mpr idle), ?_⟩
  rw [finishAccelerated_eq, ← elements]
  exact completed

end Safety

/-! ## How far the program is from its end -/

section Progress

variable {arith : Arith (BitVec 32)}
  {outside : Matrix (Fin n) (Fin n) (BitVec 32) → BitVec 32 → BitVec 32 → BitVec 32}
  {scratch : Fin 3 → Matrix (Fin n) (Fin n) Binary32}
  {matrixO : Matrix (Fin n) (Fin n) Binary32}

/-- The requests and responses still to come; of the polls only one is counted. -/
def Point.left : Point n → ℕ
  | .transfer rest => rest.length + 4 * (n * n) + 3
  | .polling => 4 * (n * n) + 2
  | .getIntElem rest _ => 4 * rest.length
  | .getDetElem _ _ rest _ => 4 * rest.length + 2

/-- A write is among the requests which have not been processed. -/
def KKAvalonSlave.hasWrite (slave : KKAvalonSlave n) : Bool :=
  slave.pending.any fun request => request.command == .write

/-- The firings of the accelerator's run still to come while the program may poll. -/
def Point.runLeft (slave : KKAvalonSlave n) : Point n → ℕ
  | .transfer _ => n + 2
  | .polling => if slave.hasWrite then n + 2 else slave.kk.firingsLeft
  | .getIntElem _ _ => 0
  | .getDetElem _ _ _ _ => 0

/-- What has to happen before the program is at its end. -/
def eventsLeft (state : ClientState (Point n)) (slave : KKAvalonSlave n) : ℕ :=
  (state.point.left - if state.awaiting then 1 else 0) + state.point.runLeft slave

/-- The cycles which the program may take, when the processor does not think. -/
def cyclesLeft (state : ClientState (Point n)) (slave : KKAvalonSlave n) : ℕ :=
  eventsLeft state slave * (3 * n + 10) + slave.waiting

/-- The program has made its last request. -/
def Ended (state : ClientState (Point n)) : Prop := ∃ pad, state = ⟨.getIntElem [] pad, false⟩

/-- What the slave has not yet processed of the requests of the program. -/
def InFlight (scratch : Fin 3 → Matrix (Fin n) (Fin n) Binary32)
    (matrixO : Matrix (Fin n) (Fin n) Binary32)
    (system : ClientState (Point n) × KKAvalonSlave n) : Prop :=
  system.2.kk.firingsLeft ≤ n + 1 ∧
    ∃ point, (acceleratedClient scratch matrixO).Outstanding busService point
      (system.2.pending.map AvalonRequest.observed) system.1

theorem asks_isSome (converts : ∀ i j, (toBit (matrixO i j)).isSome = true) {point : Point n}
    (unfinished : ∀ pad, point ≠ .getIntElem [] pad) :
    ((acceleratedClient scratch matrixO).asks point).isSome = true := by
  match point with
  | .transfer [] => rfl
  | .transfer ((i, j) :: rest) =>
      obtain ⟨word, converted⟩ := Option.isSome_iff_exists.mp (converts i j)
      simp only [acceleratedClient, kkPutelem, converted]
      rfl
  | .polling => rfl
  | .getIntElem [] pad => exact absurd rfl (unfinished pad)
  | .getIntElem ((i, j) :: rest) pad => rfl
  | .getDetElem i j rest pad => rfl

theorem left_resume_write {point : Point n} {request : AvalonRequest 18 32}
    (asked : (acceleratedClient scratch matrixO).asks point = some request)
    (unread : busService.isRead request = false) :
    ((acceleratedClient scratch matrixO).resume point none).left + 1 = point.left ∧
      ∀ slave : KKAvalonSlave n, point.runLeft slave = n + 2 := by
  match point with
  | .transfer [] => exact ⟨by simp [acceleratedClient, Point.left], fun _ => rfl⟩
  | .transfer ((i, j) :: rest) =>
      refine ⟨?_, fun _ => rfl⟩
      simp only [acceleratedClient, Point.left, List.length_cons]
      omega
  | .polling =>
      obtain rfl := Option.some.inj asked
      contradiction
  | .getIntElem ((i, j) :: rest) pad =>
      obtain rfl := Option.some.inj asked
      contradiction
  | .getDetElem i j rest pad =>
      obtain rfl := Option.some.inj asked
      contradiction

theorem left_resume_read {point : Point n} {request : AvalonRequest 18 32}
    (asked : (acceleratedClient scratch matrixO).asks point = some request)
    (isRead : busService.isRead request = true) (response : BitVec 32) :
    (((acceleratedClient scratch matrixO).resume point (some response)).left + 2 = point.left ∧
        ∀ slave : KKAvalonSlave n,
          ((acceleratedClient scratch matrixO).resume point (some response)).runLeft slave = 0) ∨
      (point = .polling ∧ ¬ PollEnds response ∧
        (acceleratedClient scratch matrixO).resume point (some response) = .polling) := by
  match point with
  | .transfer [] =>
      obtain rfl := Option.some.inj asked
      contradiction
  | .transfer ((i, j) :: rest) =>
      obtain ⟨word, -, rfl⟩ := exists_word_of_kkPutelem asked
      contradiction
  | .polling =>
      by_cases ends : PollEnds response
      · left
        simp only [acceleratedClient, if_pos ends, Point.left, length_cells]
        exact ⟨trivial, fun _ => rfl⟩
      · exact .inr ⟨rfl, ends, by simp only [acceleratedClient, if_neg ends]⟩
  | .getIntElem ((i, j) :: rest) pad => exact .inl ⟨rfl, fun _ => rfl⟩
  | .getDetElem i j rest pad => exact .inl ⟨rfl, fun _ => rfl⟩

theorem runLeft_le {slave : KKAvalonSlave n} (bound : slave.kk.firingsLeft ≤ n + 1)
    (point : Point n) : point.runLeft slave ≤ n + 2 := by
  match point with
  | .transfer _ => exact le_rfl
  | .polling =>
      rw [Point.runLeft]
      split
      · exact le_rfl
      · exact bound.trans (Nat.le_succ _)
  | .getIntElem _ _ => exact Nat.zero_le _
  | .getDetElem _ _ _ _ => exact Nat.zero_le _

theorem hasWrite_eq_false {slave : KKAvalonSlave n} :
    slave.hasWrite = false ↔ ∀ request ∈ slave.pending, request.command = .read := by
  rw [KKAvalonSlave.hasWrite, List.any_eq_false]
  refine forall₂_congr fun request _ => ?_
  cases request.command <;> decide

variable {before after : KKAvalonSlave n} {cycle : BusTrace}

theorem runLeft_of_cycle (positive : 1 ≤ n) (step : MaximalCycle arith outside before cycle after)
    (bound : before.kk.firingsLeft ≤ n + 1) (point : Point n)
    (reads : point = .polling → ∀ request ∈ cycle.accepted, request.command = .read) :
    point.runLeft after ≤ point.runLeft before := by
  have boundAfter := step.scheduledCycle.firingsLeft_le positive bound
  match point with
  | .transfer _ => exact le_rfl
  | .getIntElem _ _ => exact le_rfl
  | .getDetElem _ _ _ _ => exact le_rfl
  | .polling =>
      cases written : before.hasWrite with
      | true =>
          have longest := runLeft_le boundAfter (n := n) .polling
          rwa [Point.runLeft.eq_2 before, written, if_pos rfl]
      | false =>
          have conserved := KKAvalonSlave.pending_of_cycle step.busCycle
          have unwritten : ∀ request ∈ before.pending ++ cycle.accepted,
              request.command = .read := by
            intro request member
            rcases List.mem_append.mp member with waits | accepted
            · exact hasWrite_eq_false.mp written request waits
            · exact reads rfl request accepted
          rw [conserved] at unwritten
          have rest : after.hasWrite = false := hasWrite_eq_false.mpr fun request member =>
            unwritten request (List.mem_append_right _ member)
          simp only [Point.runLeft, written, rest, Bool.false_eq_true, if_false]
          exact (step.firingsLeft_lt positive fun request member =>
            unwritten request (List.mem_append_left _ member)).1

theorem runLeft_of_poll (positive : 1 ≤ n) (step : MaximalCycle arith outside before cycle after)
    (bound : before.kk.firingsLeft ≤ n + 1) (settled : after.pending = [])
    (polls : ∀ request ∈ cycle.accepted, request.observed = readRequest isrunningOffset)
    (polled : before.hasWrite = false → ∀ request ∈ before.pending,
      request.observed = readRequest isrunningOffset)
    {response : BitVec 32} (given : cycle.response = [response]) (runs : ¬ PollEnds response) :
    Point.polling.runLeft after + 1 ≤ Point.polling.runLeft before := by
  have boundAfter := step.scheduledCycle.firingsLeft_le positive bound
  have unwritten : after.hasWrite = false := by
    rw [hasWrite_eq_false, settled]
    simp
  rw [Point.runLeft, Point.runLeft, unwritten, if_neg Bool.false_ne_true]
  cases written : before.hasWrite with
  | true =>
      rw [if_pos rfl]
      omega
  | false =>
      rw [if_neg Bool.false_ne_true]
      have conserved := KKAvalonSlave.pending_of_cycle step.busCycle
      rw [settled, List.append_nil] at conserved
      have executed : ∀ request ∈ cycle.executed,
          request.observed = readRequest isrunningOffset := by
        rw [← conserved]
        intro request member
        rcases List.mem_append.mp member with waits | accepted
        · exact polled written request waits
        · exact polls request accepted
      have reads : ∀ request ∈ cycle.executed, request.command = .read := fun request member => by
        rw [← request.observed_command, executed request member]
        rfl
      refine (step.firingsLeft_lt positive reads).2 ?_
      -- An idle accelerator would have ended the loop.
      by_contra idle
      rw [Bool.not_eq_true] at idle
      obtain ⟨service, served, requests, responses⟩ :=
        KKAvalonSlave.service_of_cycle step.busCycle
      obtain ⟨-, answers⟩ := idle_service served idle (requests ▸ reads)
      rw [responses, given, requests] at answers
      have member : response ∈ cycle.executed.map fun request =>
          processRead outside request.addr before.kk := answers ▸ List.mem_singleton_self _
      obtain ⟨request, among, rfl⟩ := List.mem_map.mp member
      apply runs
      rw [← request.observed_addr, executed request among]
      exact (pollEnds_isrunning outside).mpr idle

variable {source target : ClientState (Point n) × KKAvalonSlave n} {label : BusTrace × Bool}
  {trace : List (BusTrace × Bool)}

theorem OnBus.busCycle {κ : Type*} {client : Client κ (AvalonRequest 18 32) (BitVec 32)}
    {source target : ClientState κ × KKAvalonSlave n}
    (step : OnBus client (MaximalCycle arith outside) source label target) :
    OnBus client (BusCycle arith outside) source label target := by
  obtain ⟨slaveStep, asserted, thinking⟩ := step
  exact .intro slaveStep.busCycle asserted thinking

theorem InFlight.step (positive : 1 ≤ n) (flight : InFlight scratch matrixO source)
    (step : OnBus (acceleratedClient scratch matrixO) (MaximalCycle arith outside) source label
      target) : InFlight scratch matrixO target := by
  obtain ⟨bound, point, outstanding⟩ := flight
  obtain ⟨reached, service, -, outstanding'⟩ := OnBus.joint_cycle step.busCycle outstanding
  refine ⟨?_, reached, outstanding'⟩
  cases step with
  | intro slaveStep _ _ => exact slaveStep.scheduledCycle.firingsLeft_le positive bound

theorem eq_isrunning_of_outstanding {point : Point n} {state : ClientState (Point n)}
    {slave : KKAvalonSlave n}
    (outstanding : (acceleratedClient scratch matrixO).Outstanding busService point
      (slave.pending.map AvalonRequest.observed) state)
    (polling : state.point = .polling) (unwritten : slave.hasWrite = false) :
    ∀ request ∈ slave.pending, request.observed = readRequest isrunningOffset := by
  intro request member
  have isRead : busService.isRead request.observed = true := by
    rw [busService_isRead_observed]
    exact beq_iff_eq.mpr (hasWrite_eq_false.mp unwritten request member)
  have among := List.mem_map_of_mem (f := AvalonRequest.observed) member
  obtain ⟨writes, unread, ⟨-, shape⟩ | ⟨-, poll, asked, -, shape⟩⟩ := outstanding.eq_writes
  · rw [shape] at among
    exact absurd (isRead.symm.trans (unread _ among)) (by simp)
  · rw [shape] at among
    rcases List.mem_append.mp among with write | last
    · exact absurd (isRead.symm.trans (unread _ write)) (by simp)
    · rw [polling] at asked
      rw [List.mem_singleton.mp last]
      exact (Option.some.inj asked).symm

theorem left_pos {point : Point n} {request : AvalonRequest 18 32}
    (asked : (acceleratedClient scratch matrixO).asks point = some request)
    (isRead : busService.isRead request = true) : 1 ≤ point.left := by
  rcases left_resume_read asked isRead 0 with ⟨fewer, -⟩ | ⟨rfl, -, -⟩
  · omega
  · rw [Point.left]
    omega

/-- Each response brings the program closer to its end: it goes on, or the accelerator has. -/
theorem eventsLeft_of_response (positive : 1 ≤ n)
    (step : MaximalCycle arith outside before cycle after) (bound : before.kk.firingsLeft ≤ n + 1)
    {point : Point n} {request : AvalonRequest 18 32} {response : BitVec 32}
    (asked : (acceleratedClient scratch matrixO).asks point = some request)
    (isRead : busService.isRead request = true) (given : cycle.response = [response])
    (settled : after.pending = [])
    (polls : point = .polling → ∀ request ∈ cycle.accepted,
      request.observed = readRequest isrunningOffset)
    (polled : point = .polling → before.hasWrite = false → ∀ request ∈ before.pending,
      request.observed = readRequest isrunningOffset) :
    eventsLeft ⟨(acceleratedClient scratch matrixO).resume point (some response), false⟩ after + 1 ≤
      point.left + point.runLeft before := by
  simp only [eventsLeft, Bool.false_eq_true, if_false]
  rcases left_resume_read asked isRead response with ⟨fewer, ended⟩ | ⟨polling, runs, again⟩
  · rw [ended]
    omega
  · have run := runLeft_of_poll positive step bound settled (polls polling) (polled polling)
      given runs
    rw [again, polling]
    omega

/-- Each request which is accepted brings the program closer to its end, and it never moves away
from it. -/
theorem eventsLeft_of_cycle (positive : 1 ≤ n) (flight : InFlight scratch matrixO source)
    (step : OnBus (acceleratedClient scratch matrixO) (MaximalCycle arith outside) source label
      target) :
    eventsLeft target.1 target.2 + label.1.accepted.length ≤ eventsLeft source.1 source.2 := by
  obtain ⟨state, before⟩ := source
  obtain ⟨next, after⟩ := target
  obtain ⟨bound, point, outstanding⟩ := flight
  have slaveStep : MaximalCycle arith outside before label.1 after := by
    cases step with
    | intro slaveStep _ _ => exact slaveStep
  have polled := eq_isrunning_of_outstanding outstanding
  have responses := step.busCycle.response_cases outstanding
  rcases step.accepted_cases with ⟨none, same⟩ | ⟨request, one, free, asked, issued⟩
  · -- Nothing is accepted: at most the response of an earlier read arrives.
    rw [same] at responses
    rw [none, List.length_nil, Nat.add_zero]
    rcases responses with ⟨-, rfl⟩ |
      ⟨response, request, given, asked, isRead, waits, rfl, settled⟩
    · have run := runLeft_of_cycle positive slaveStep bound next.point (by simp [none])
      exact Nat.add_le_add_left run _
    · have closer := eventsLeft_of_response positive slaveStep bound asked isRead given settled
        (by simp [none]) polled
      have some := left_pos asked isRead
      rw [eventsLeft.eq_1 state, waits, if_pos rfl]
      dsimp only at closer ⊢
      omega
  · rw [issued] at responses
    rw [one, List.length_singleton, eventsLeft.eq_1 state, free, if_neg Bool.false_ne_true]
    cases isRead : busService.isRead request with
    | false =>
        have unread : busService.isRead request.observed = false := by
          rwa [busService_isRead_observed]
        obtain ⟨fewer, longest⟩ := left_resume_write asked unread
        rw [isRead, if_neg Bool.false_ne_true] at responses
        rcases responses with ⟨-, rfl⟩ | ⟨_, _, -, -, -, waits, -, -⟩
        · have run := runLeft_le (slaveStep.scheduledCycle.firingsLeft_le positive bound)
            ((acceleratedClient scratch matrixO).resume state.point Option.none)
          simp only [eventsLeft, longest before, Bool.false_eq_true, if_false]
          omega
        · contradiction
    | true =>
        have isRead' : busService.isRead request.observed = true := by
          rwa [busService_isRead_observed]
        rw [isRead, if_pos rfl] at responses
        rcases responses with ⟨-, rfl⟩ | ⟨response, _, given, -, -, -, rfl, settled⟩
        · have run := runLeft_of_cycle positive slaveStep bound state.point fun polling => by
            simpa [one, busService] using isRead
          have some := left_pos asked isRead'
          simp only [eventsLeft, if_true]
          omega
        · refine eventsLeft_of_response positive slaveStep bound asked isRead' given settled
            (fun polling => ?_) polled
          change state.point = .polling at polling
          rw [polling] at asked
          rw [one]
          exact List.forall_mem_singleton.mpr (Option.some.inj asked).symm

theorem pending_ne_nil {state : ClientState (Point n)} {point : Point n}
    (outstanding : (acceleratedClient scratch matrixO).Outstanding busService point
      (before.pending.map AvalonRequest.observed) state)
    (step : OnBus (acceleratedClient scratch matrixO) (MaximalCycle arith outside) (state, before)
      (cycle, false) target)
    (asks : ((acceleratedClient scratch matrixO).asks state.point).isSome = true)
    (accepted : cycle.accepted = []) : before.pending ≠ [] := by
  intro settled
  rw [settled, List.map_nil] at outstanding
  have free : state.awaiting = false := by
    generalize state = reached at outstanding
    cases outstanding with
    | none => rfl
  cases step with
  | intro slaveStep asserted thinking =>
      have requested : cycle.wires.request cycle.unspecified ≠ none := fun silent =>
        Bool.false_ne_true (thinking.mpr ⟨free, asks, silent⟩)
      have stalled : cycle.waitrequest = true := by
        by_contra ready
        rw [BusTrace.accepted, if_neg ready, Option.toList_eq_nil_iff] at accepted
        exact requested accepted
      have full := KKAvalonSlave.two_le_pending_of_waitrequest slaveStep.scheduledCycle stalled
      rw [settled, List.length_nil] at full
      omega

/-- Every cycle in which the processor does not think brings the end closer. -/
theorem cyclesLeft_of_cycle (positive : 1 ≤ n) (flight : InFlight scratch matrixO source)
    (step : OnBus (acceleratedClient scratch matrixO) (MaximalCycle arith outside) source label
      target)
    (asks : ((acceleratedClient scratch matrixO).asks source.1.point).isSome = true) :
    cyclesLeft target.1 target.2 + 1 ≤
      cyclesLeft source.1 source.2 + if label.2 then 1 else 0 := by
  have events := eventsLeft_of_cycle positive flight step
  have whole := step
  obtain ⟨bound, point, outstanding⟩ := flight
  cases step with
  | @intro state before after cycle thinks slaveStep asserted thinking =>
      have scheduled := slaveStep.scheduledCycle
      rw [cyclesLeft, cyclesLeft]
      cases accepted : cycle.accepted with
      | cons request others =>
          have soon := KKAvalonSlave.waiting_le_three (scheduled.firingsLeft_le positive bound)
          rw [accepted, List.length_cons] at events
          have fewer := Nat.mul_le_mul_right (3 * n + 10)
            ((Nat.add_le_add_left (Nat.le_add_left 1 others.length) _).trans events)
          rw [Nat.succ_mul] at fewer
          dsimp only at fewer ⊢
          omega
      | nil =>
          rw [accepted, List.length_nil, Nat.add_zero] at events
          have same := Nat.mul_le_mul_right (3 * n + 10) events
          dsimp only at same ⊢
          cases thought : thinks with
          | true =>
              have turn := KKAvalonSlave.waiting_le_of_unaccepted positive scheduled bound accepted
              rw [if_pos rfl]
              omega
          | false =>
              have waits := pending_ne_nil outstanding (thought ▸ whole) asks accepted
              have turn := KKAvalonSlave.waiting_lt positive scheduled bound accepted waits
              rw [if_neg Bool.false_ne_true]
              omega

theorem InFlight.ended {pad : Pad n Binary32} (flight : InFlight scratch matrixO source)
    (point_eq : source.1.point = .getIntElem [] pad) : Ended source.1 := by
  obtain ⟨-, point, outstanding⟩ := flight
  obtain ⟨writes, -, ⟨free, -⟩ | ⟨-, request, asked, -⟩⟩ := outstanding.eq_writes
  · exact ⟨pad, by rw [← point_eq, ← free]⟩
  · rw [point_eq] at asked
    contradiction

theorem InFlight.ended_of_cyclesLeft (flight : InFlight scratch matrixO source)
    (none : cyclesLeft source.1 source.2 = 0) : Ended source.1 := by
  have events : eventsLeft source.1 source.2 = 0 := by
    rw [cyclesLeft, Nat.add_eq_zero_iff, Nat.mul_eq_zero] at none
    exact none.1.resolve_right (by omega)
  have awaited : (if source.1.awaiting then 1 else 0) ≤ 1 := by split <;> omega
  rw [eventsLeft, Nat.add_eq_zero_iff] at events
  cases point_eq : source.1.point with
  | getIntElem rest pad =>
      cases rest with
      | nil => exact flight.ended point_eq
      | cons position rest =>
          simp only [point_eq, Point.left, List.length_cons] at events
          omega
  | transfer | polling | getDetElem =>
      simp only [point_eq, Point.left] at events
      omega

theorem Ended.step (ended : Ended source.1) (flight : InFlight scratch matrixO source)
    (step : OnBus (acceleratedClient scratch matrixO) (MaximalCycle arith outside) source label
      target) : Ended target.1 := by
  obtain ⟨state, before⟩ := source
  obtain ⟨next, after⟩ := target
  obtain ⟨pad, rfl⟩ := ended
  obtain ⟨-, point, outstanding⟩ := flight
  rcases step.accepted_cases with ⟨-, same⟩ | ⟨_, -, -, asked, -⟩
  · rcases step.busCycle.response_cases outstanding with ⟨-, kept⟩ | ⟨_, _, -, asked, -⟩
    · exact ⟨pad, kept.trans same⟩
    · rw [same] at asked
      contradiction
  · contradiction

/-- The program is at its end after as many cycles as were left at first and the processor has
thought. -/
theorem InFlight.ends_within (positive : 1 ≤ n)
    (converts : ∀ i j, (toBit (matrixO i j)).isSome = true)
    (flight : InFlight scratch matrixO source)
    (run : Execution (OnBus (acceleratedClient scratch matrixO) (MaximalCycle arith outside)) source
      trace target) :
    Ended target.1 ∨
      cyclesLeft target.1 target.2 + trace.length ≤
        cyclesLeft source.1 source.2 + trace.countP Prod.snd := by
  induction run with
  | nil => exact .inr le_rfl
  | @cons source middle target label trace step rest induction =>
      by_cases ended : ∃ pad, source.1.point = .getIntElem [] pad
      · left
        obtain ⟨pad, point_eq⟩ := ended
        have initially : Ended source.1 ∧ InFlight scratch matrixO source :=
          ⟨flight.ended point_eq, flight⟩
        have whole := Execution.cons step rest
        exact (@Execution.invariant _ _ _ _ _ _
          (fun system => Ended system.1 ∧ InFlight scratch matrixO system)
          (fun holds step => ⟨holds.1.step holds.2 step, holds.2.step positive step⟩)
          whole initially).1
      · have asks := @asks_isSome n scratch matrixO converts source.1.point fun pad point_eq =>
          ended ⟨pad, point_eq⟩
        have closer := cyclesLeft_of_cycle positive flight step asks
        refine (induction (flight.step positive step)).imp_right fun bound => ?_
        rw [List.length_cons, List.countP_cons]
        omega

end Progress

/-! ## The program on the wires -/

section Wires

variable {arith : Arith (BitVec 32)}
  {outside : Matrix (Fin n) (Fin n) (BitVec 32) → BitVec 32 → BitVec 32 → BitVec 32}
  {scratch : Fin 3 → Matrix (Fin n) (Fin n) Binary32}
  {matrixO : Matrix (Fin n) (Fin n) Binary32} {fifo : FIFO2 51} {kk : KKIteration n (BitVec 32)}
  {trace : List (BusTrace × Bool)} {state : ClientState (Point n)} {after : WiredSlave n}
  {pad : Pad n Binary32}

/-- The beginning of the program and the reset of the slave. -/
def systemReset (fifo : FIFO2 51) (kk : KKIteration n (BitVec 32)) :
    ClientState (Point n) × WiredSlave n :=
  (⟨.transfer (cells n), false⟩, .reset fifo kk)

/-- The cycles within which the program ends, when the processor does not think. -/
def cycleBound (n : ℕ) : ℕ := (5 * (n * n) + n + 5) * (3 * n + 10)

/-- At its end the program has gone through all its points, and nothing is left on the bus. -/
theorem reached_of_ended (size : n ≤ 256) (idle : kk.isRunning = false)
    (run : Execution (OnBus (acceleratedClient scratch matrixO) (WiredStep arith outside))
      (systemReset fifo kk) trace (state, after))
    (ended : state.point = .getIntElem [] pad) :
    state = ⟨.getIntElem [] pad, false⟩ ∧ after.pending = [] ∧
      (Point.getIntElem [] pad).Reached arith outside scratch matrixO kk after.kk := by
  obtain ⟨final, queued, represents⟩ :=
    OnBus.simulate (fun represents step => represents.wiredStep step) run
      (WiredSlave.represents_reset fifo kk)
  obtain ⟨point, service, executed, outstanding⟩ := OnBus.joint_run queued (.none _)
  have reached := Point.Reached.run size
    (show (Point.transfer (cells n)).Reached arith outside scratch matrixO kk kk from
      ⟨idle, (transferElements_eq_foldlM kk).symm⟩) executed
  have unwritten (point : Point n) (request : AvalonRequest 18 32)
      (asked : (acceleratedClient scratch matrixO).asks point = some request)
      (unread : busService.isRead request = false) :
      (acceleratedClient scratch matrixO).resume point none ≠ state.point := by
    rw [ended]
    match point with
    | .transfer [] => simp [acceleratedClient]
    | .transfer (_ :: _) => simp [acceleratedClient]
    | .polling =>
        obtain rfl := Option.some.inj asked
        contradiction
    | .getIntElem (_ :: _) _ =>
        obtain rfl := Option.some.inj asked
        contradiction
    | .getDetElem _ _ _ _ =>
        obtain rfl := Option.some.inj asked
        contradiction
  have unasked : (acceleratedClient scratch matrixO).asks state.point = none := by
    rw [ended]
    rfl
  obtain ⟨none, state_eq⟩ := outstanding.settled unasked unwritten
  have point_eq : state.point = point := congrArg ClientState.point state_eq
  rw [List.map_eq_nil_iff] at none
  rw [ended] at point_eq
  rw [represents.pending_eq, represents.kk_eq, point_eq]
  exact ⟨state_eq, none, reached⟩

/-- A long run of the compiled slave brings the program to its end. -/
theorem ended_of_long (positive : 1 ≤ n) (converts : ∀ i j, (toBit (matrixO i j)).isSome = true)
    (idle : kk.isRunning = false)
    (run : Execution (OnBus (acceleratedClient scratch matrixO) (CompiledCycle arith outside))
      (systemReset fifo kk) trace (state, after))
    (long : cycleBound n + trace.countP Prod.snd ≤ trace.length) : Ended state := by
  obtain ⟨final, queued, -⟩ :=
    OnBus.simulate (fun represents step => represents.compiledCycle step) run
      (WiredSlave.represents_reset fifo kk)
  have flight : InFlight scratch matrixO (⟨.transfer (cells n), false⟩, .reset kk) :=
    ⟨KKIteration.firingsLeft_of_idle idle, _, .none _⟩
  rcases flight.ends_within positive converts queued with ended | bound
  · exact ended
  have flight' : InFlight scratch matrixO (state, final) :=
    queued.invariant (fun holds step => holds.step positive step) flight
  refine flight'.ended_of_cyclesLeft ?_
  have first : cyclesLeft ⟨.transfer (cells n), false⟩ (.reset kk) = cycleBound n := by
    have events : eventsLeft ⟨.transfer (cells n), false⟩ (.reset kk) =
        5 * (n * n) + n + 5 := by
      simp only [eventsLeft, Point.left, Point.runLeft, length_cells, Bool.false_eq_true, if_false]
      omega
    have empty : (KKAvalonSlave.reset kk).waiting = 0 := if_pos rfl
    rw [cyclesLeft, events, cycleBound, empty, Nat.add_zero]
  dsimp only [systemReset] at bound ⊢
  omega

theorem observed_asks (point : Point n) (request : AvalonRequest 18 32)
    (asked : (acceleratedClient scratch matrixO).asks point = some request) :
    request.observed = request := by
  match point with
  | .transfer [] =>
      obtain rfl := Option.some.inj asked
      rfl
  | .transfer ((i, j) :: _) =>
      obtain ⟨word, -, rfl⟩ := exists_word_of_kkPutelem asked
      rfl
  | .polling =>
      obtain rfl := Option.some.inj asked
      rfl
  | .getIntElem ((i, j) :: _) _ =>
      obtain rfl := Option.some.inj asked
      rfl
  | .getDetElem i j _ _ =>
      obtain rfl := Option.some.inj asked
      rfl

theorem OnBus.wiredRun {κ : Type*} {client : Client κ (AvalonRequest 18 32) (BitVec 32)}
    {source target : ClientState κ × WiredSlave n}
    (run : Execution (OnBus client (CompiledCycle arith outside)) source trace target) :
    Execution (OnBus client (WiredStep arith outside)) source trace target := by
  have mapped := run.map id id fun step => by
    obtain ⟨slaveStep, asserted, thinking⟩ := step
    exact OnBus.intro slaveStep.wiredStep asserted thinking
  simpa using mapped

theorem exists_ended (arith : Arith (BitVec 32))
    (outside : Matrix (Fin n) (Fin n) (BitVec 32) → BitVec 32 → BitVec 32 → BitVec 32)
    (scratch : Fin 3 → Matrix (Fin n) (Fin n) Binary32) (fifo : FIFO2 51) (positive : 1 ≤ n)
    (converts : ∀ i j, (toBit (matrixO i j)).isSome = true) (idle : kk.isRunning = false) :
    ∃ trace state after,
      Execution (OnBus (acceleratedClient scratch matrixO) (CompiledCycle arith outside))
        (systemReset fifo kk) trace (state, after) ∧
      trace.length = cycleBound n ∧ trace.countP Prod.snd = 0 ∧ Ended state := by
  obtain ⟨trace, ⟨state, after⟩, run, counted, quick⟩ :=
    OnBus.exists_run (@observed_asks n scratch matrixO) arith outside (systemReset fifo kk)
      (cycleBound n)
  exact ⟨trace, state, after, run, counted, quick,
    ended_of_long positive converts idle run (by omega)⟩

section Integers

variable {A : Matrix (Fin n) (Fin n) ℤ} {arith : Arith (FixedPoint 16 16)}

theorem toBit_floats_isSome (fits : ∀ i j, Fits 16 (A i j)) (i j : Fin n) :
    (toBit (floats binary32 A i j)).isSome = true := by
  rw [floats, Matrix.map_apply, toBit_ofInt (fits i j)]
  rfl

theorem completeAccelerated_ok (computes : ComputesMinors arith A) (two_le : 2 ≤ n)
    (size : n ≤ 256) (nonsingular : A.det ≠ 0) (idle : kk.isRunning = false)
    {current : KKIteration n (BitVec 32)}
    (reached : (Point.getIntElem [] pad).Reached arith outside scratch (floats binary32 A) kk
      current) :
    ∃ computed, completeAccelerated (floats binary32 A) pad = .ok computed ∧
      ∀ i j, (computed.inverted i j).value =
        binary32.round ((A.map (Int.cast : ℤ → ℚ))⁻¹ i j) := by
  obtain ⟨done, ⟨loaded, rules, transferred, executed⟩, elements⟩ := reached
  have progress := progress_of_transferred (by omega) size computes.fits idle
    transferred executed done
  obtain ⟨computed, completed, rounded, -⟩ :=
    @finishAccelerated_ok n A current arith outside scratch computes two_le size nonsingular
      progress
  rw [finishAccelerated_eq, ← elements] at completed
  exact ⟨computed, completed, rounded⟩

theorem completeAccelerated_fault (computes : ComputesMinors arith A) (two_le : 2 ≤ n)
    (size : n ≤ 256) (singular : A.det = 0) (idle : kk.isRunning = false)
    {current : KKIteration n (BitVec 32)}
    (reached : (Point.getIntElem [] pad).Reached arith outside scratch (floats binary32 A) kk
      current) :
    ∃ i j, completeAccelerated (floats binary32 A) pad = .error (.final i j) := by
  obtain ⟨done, ⟨loaded, rules, transferred, executed⟩, elements⟩ := reached
  have progress := progress_of_transferred (by omega) size computes.fits idle
    transferred executed done
  obtain ⟨i, j, stopped⟩ :=
    @finishAccelerated_fault n A current arith outside scratch computes two_le size singular
      progress
  rw [finishAccelerated_eq, ← elements] at stopped
  exact ⟨i, j, stopped⟩

theorem InRange.regularBelow (range : InRange 16 A) :
    RegularBelow (A.map (Int.cast : ℤ → ℚ)) n := by
  intro order positive bound i j
  rw [← cast_cyclicMinor, Int.cast_ne_zero]
  exact range.regular order positive (by omega) i j

/-- What the program does, given what the exact program does: it ends with the rounded inverse, or
it stops in the same iteration. -/
inductive Follows (format : FloatFormat) :
    Except (DivFault n) (Report n) → Except (DivFault n) (FloatReport format n) → Prop
  | ok {report : Report n} {computed : FloatReport format n} :
      (∀ i j, (computed.inverted i j).value = format.round (report.inverted i j)) →
      Follows format (.ok report) (.ok computed)
  | iteration (k : ℕ) (i j row column : Fin n) :
      Follows format (.error (.iteration k i j)) (.error (.iteration k row column))
  | final (i j row column : Fin n) :
      Follows format (.error (.final i j)) (.error (.final row column))

/-- Whatever the last stages find, the exact program finds it as well. -/
theorem completeAccelerated_follows (exactScratch : Fin 3 → Matrix (Fin n) (Fin n) ℚ)
    (regular : RegularBelow (A.map (Int.cast : ℤ → ℚ)) n) (computes : ComputesMinors arith A)
    (two_le : 2 ≤ n) (size : n ≤ 256) (idle : kk.isRunning = false)
    {current : KKIteration n (BitVec 32)}
    (reached : (Point.getIntElem [] pad).Reached arith outside scratch (floats binary32 A) kk
      current) :
    Follows binary32 (theAlgorithm exactScratch (A.map (Int.cast : ℤ → ℚ)))
      (completeAccelerated (floats binary32 A) pad) := by
  by_cases singular : A.det = 0
  · obtain ⟨-, -, -, i, j, stopped⟩ :=
      theAlgorithm_final_fault exactScratch two_le regular (det_map_eq_zero_iff.mpr singular)
    obtain ⟨row, column, stopped'⟩ :=
      completeAccelerated_fault computes two_le size singular idle reached
    rw [stopped, stopped']
    exact .final i j row column
  · obtain ⟨report, completed, inverse⟩ :=
      theAlgorithm_ok exactScratch two_le regular (mt det_map_eq_zero_iff.mp singular)
    obtain ⟨computed, executed, rounded⟩ :=
      completeAccelerated_ok computes two_le size singular idle reached
    rw [completed, executed]
    refine .ok fun i j => ?_
    rw [inverse]
    exact rounded i j

theorem reached_of_long (fits : ∀ i j, Fits 16 (A i j)) (positive : 1 ≤ n) (size : n ≤ 256)
    (idle : kk.isRunning = false) {system : ClientState (Point n) × WiredSlave n}
    (run : Execution (OnBus (acceleratedClient scratch (floats binary32 A))
      (CompiledCycle arith outside)) (systemReset fifo kk) trace system)
    (long : cycleBound n + trace.countP Prod.snd ≤ trace.length) :
    ∃ pad, system.1 = ⟨.getIntElem [] pad, false⟩ ∧
      (Point.getIntElem [] pad).Reached arith outside scratch (floats binary32 A) kk
        system.2.kk := by
  obtain ⟨state, after⟩ := system
  obtain ⟨pad, ended⟩ :=
    ended_of_long positive (toBit_floats_isSome fits) idle run long
  obtain ⟨-, -, reached⟩ :=
    reached_of_ended size idle (OnBus.wiredRun run) (congrArg ClientState.point ended)
  exact ⟨pad, ended, reached⟩

end Integers

end Wires

/-- On the compiled slave the program, whose elements can be converted, is at its end after
`cycleBound n` cycles, not counting those in which the processor thinks; and there is always a next
cycle in which it does not. -/
theorem accelerated_onBus_ends (arith : Arith (BitVec 32))
    (outside : Matrix (Fin n) (Fin n) (BitVec 32) → BitVec 32 → BitVec 32 → BitVec 32)
    (scratch : Fin 3 → Matrix (Fin n) (Fin n) Binary32) (matrixO : Matrix (Fin n) (Fin n) Binary32)
    (fifo : FIFO2 51) (positive : 1 ≤ n) (converts : ∀ i j, (toBit (matrixO i j)).isSome = true)
    {kk : KKIteration n (BitVec 32)} (idle : kk.isRunning = false)
    {trace : List (BusTrace × Bool)} {system : ClientState (Point n) × WiredSlave n}
    (run : Execution (OnBus (acceleratedClient scratch matrixO) (CompiledCycle arith outside))
      (systemReset fifo kk) trace system) :
    (cycleBound n + trace.countP Prod.snd ≤ trace.length →
      ∃ pad, system.1 = ⟨.getIntElem [] pad, false⟩) ∧
    ∃ cycle next, OnBus (acceleratedClient scratch matrixO) (CompiledCycle arith outside) system
      (cycle, false) next :=
  ⟨ended_of_long positive converts idle run,
    OnBus.exists_step observed_asks arith outside system.1 system.2⟩

/-- The `3 x 3` matrix, whose program has ended after `cycleBound 3` cycles. -/
theorem accelerated_onBus_ends_matrixO :
    ∃ trace system pad,
      Execution (OnBus (acceleratedClient (fun _ _ _ => .ofInt 0)
          (floats binary32 (integerMatrixO 3))) (CompiledCycle fixed16 fun _ _ _ => 0))
        (systemReset ⟨false, true, 7, 7⟩ (loadedRegisters 0)) trace system ∧
      trace.length = cycleBound 3 ∧ system.1 = ⟨.getIntElem [] pad, false⟩ := by
  have converts := toBit_floats_isSome inRange_integerMatrixO.entries
  obtain ⟨trace, state, after, run, long, quick, -⟩ := exists_ended fixed16 (fun _ _ _ => 0)
    (fun _ _ _ => .ofInt 0) ⟨false, true, 7, 7⟩ (by omega) converts (loadedRegisters_idle 0)
  obtain ⟨pad, ended⟩ := (accelerated_onBus_ends fixed16 _ _ _ _ (by omega) converts
    (loadedRegisters_idle 0) run).1 (by omega)
  exact ⟨trace, (state, after), pad, run, long, ended⟩

/-- On the compiled slave the program, run for `cycleBound n` cycles beside those in which the
processor thinks, has inverted every nonsingular integer matrix in range throughout: each entry is
the number nearest to that of the inverse. -/
theorem accelerated_onBus_inverts (ops : ExactOperations 16 16)
    (outside : Matrix (Fin n) (Fin n) (BitVec 32) → BitVec 32 → BitVec 32 → BitVec 32)
    (scratch : Fin 3 → Matrix (Fin n) (Fin n) Binary32) (A : Matrix (Fin n) (Fin n) ℤ)
    (fifo : FIFO2 51) (two_le : 2 ≤ n) (size : n ≤ 256) (range : InRangeThroughout 16 A)
    (nonsingular : A.det ≠ 0) {kk : KKIteration n (BitVec 32)} (idle : kk.isRunning = false)
    {trace : List (BusTrace × Bool)} {system : ClientState (Point n) × WiredSlave n}
    (run : Execution (OnBus (acceleratedClient scratch (floats binary32 A))
      (CompiledCycle ops.toArith outside)) (systemReset fifo kk) trace system)
    (long : cycleBound n + trace.countP Prod.snd ≤ trace.length) :
    ∃ pad computed, system.1 = ⟨.getIntElem [] pad, false⟩ ∧
      completeAccelerated (floats binary32 A) pad = .ok computed ∧
      ∀ i j, (computed.inverted i j).value =
        binary32.round ((A.map (Int.cast : ℤ → ℚ))⁻¹ i j) := by
  have computes := range.computesMinors ops (by omega)
  obtain ⟨pad, ended, reached⟩ := reached_of_long computes.fits (by omega) size idle run long
  obtain ⟨computed, completed, rounded⟩ :=
    completeAccelerated_ok computes two_le size nonsingular idle reached
  exact ⟨pad, computed, ended, completed, rounded⟩

/-- The `3 x 3` matrix. -/
theorem accelerated_onBus_inverts_matrixO :
    ∃ pad computed,
      completeAccelerated (floats binary32 (integerMatrixO 3)) pad = .ok computed ∧
      ∀ i j, (computed.inverted i j).value = binary32.round ((matrixO 3)⁻¹ i j) := by
  have nonsingular : (integerMatrixO 3).det ≠ 0 := by decide
  have converts := toBit_floats_isSome inRange_integerMatrixO.entries
  obtain ⟨trace, state, after, run, long, quick, -⟩ := exists_ended
    (@saturating 16 16 fun _ => 0) (fun _ _ _ => 0) (fun _ _ _ => .ofInt 0)
    ⟨false, true, 7, 7⟩ (by omega) converts (loadedRegisters_idle 0)
  obtain ⟨pad, computed, -, completed, rounded⟩ := accelerated_onBus_inverts
    (saturatingOperations fun _ => 0) _ _ _ _ (by omega) (by omega) inRange_integerMatrixO
    nonsingular (loadedRegisters_idle 0) run (by omega)
  rw [integerMatrixO_map] at rounded
  exact ⟨pad, computed, completed, rounded⟩

/-- The accelerated program on the wires against the program over exact numbers, on every integer
matrix in range throughout: run for long enough, it ends with the inverse which the other one
computes, each entry rounded once, or it divides by zero in the final iteration as the other one
does. -/
theorem accelerated_onBus_follows (ops : ExactOperations 16 16)
    (outside : Matrix (Fin n) (Fin n) (BitVec 32) → BitVec 32 → BitVec 32 → BitVec 32)
    (scratch : Fin 3 → Matrix (Fin n) (Fin n) Binary32)
    (exactScratch : Fin 3 → Matrix (Fin n) (Fin n) ℚ) (A : Matrix (Fin n) (Fin n) ℤ)
    (fifo : FIFO2 51) (two_le : 2 ≤ n) (size : n ≤ 256) (range : InRangeThroughout 16 A)
    {kk : KKIteration n (BitVec 32)} (idle : kk.isRunning = false)
    {trace : List (BusTrace × Bool)} {system : ClientState (Point n) × WiredSlave n}
    (run : Execution (OnBus (acceleratedClient scratch (floats binary32 A))
      (CompiledCycle ops.toArith outside)) (systemReset fifo kk) trace system)
    (long : cycleBound n + trace.countP Prod.snd ≤ trace.length) :
    ∃ pad, system.1 = ⟨.getIntElem [] pad, false⟩ ∧
      Follows binary32 (theAlgorithm exactScratch (A.map (Int.cast : ℤ → ℚ)))
        (completeAccelerated (floats binary32 A) pad) := by
  have computes := range.computesMinors ops (by omega)
  obtain ⟨pad, ended, reached⟩ := reached_of_long computes.fits (by omega) size idle run long
  exact ⟨pad, ended, completeAccelerated_follows exactScratch range.toInRange.regularBelow computes
    two_le size idle reached⟩

/-- A singular matrix. -/
def matrixOfOnes : Matrix (Fin 2) (Fin 2) ℤ := fun _ _ => 1

theorem inRange_matrixOfOnes : InRangeThroughout 16 matrixOfOnes := by
  have second (i j : Fin 2) : matrixOfOnes.cyclicMinor 2 i j = 0 := by
    rw [Matrix.cyclicMinor_size_eq_zero_iff, Matrix.det_fin_two]
    rfl
  have one (i j : Fin 2) : matrixOfOnes.cyclicMinor 1 i j = 1 := Matrix.cyclicMinor_one _ _ _
  refine ⟨⟨fun m positive bound => by omega, fun m positive bound i j => ?_,
    fun m positive bound i j => ?_⟩, fun m positive bound i j => ?_⟩
  · obtain rfl | rfl : m = 1 ∨ m = 2 := by omega
    · rw [one]
      exact fits_one (by omega)
    · rw [second]
      exact fits_of_abs_lt (by norm_num)
  · obtain rfl : m = 1 := by omega
    rw [second, zero_mul]
    exact fits_of_abs_lt (by norm_num)
  · obtain rfl : m = 1 := by omega
    simp only [one, mul_one]
    exact ⟨fits_one (by omega), fits_one (by omega)⟩

/-- On the matrix of ones both programs divide by zero in the final iteration. -/
theorem accelerated_onBus_follows_ones :
    ∃ pad row column,
      completeAccelerated (floats binary32 matrixOfOnes) pad = .error (.final row column) := by
  have converts := toBit_floats_isSome inRange_matrixOfOnes.entries
  obtain ⟨trace, state, after, run, long, quick, -⟩ := exists_ended fixed16 (fun _ _ _ => 0)
    (fun _ _ _ => .ofInt 0) ⟨false, true, 7, 7⟩ (by omega) converts (loadedRegisters_idle 0)
  obtain ⟨pad, -, follows⟩ := accelerated_onBus_follows
    (truncatingOperations fun _ => 0).toExactOperations _ _ (fun _ => 0) _ _ (by omega) (by omega)
    inRange_matrixOfOnes (loadedRegisters_idle 0) run (by omega)
  have singular : (matrixOfOnes.map (Int.cast : ℤ → ℚ)).det = 0 := by
    rw [Matrix.det_fin_two]
    simp [matrixOfOnes]
  obtain ⟨-, -, -, i, j, stopped⟩ := theAlgorithm_final_fault (fun _ => 0) (by omega)
    inRange_matrixOfOnes.toInRange.regularBelow singular
  rw [stopped] at follows
  generalize outcome : completeAccelerated (floats binary32 matrixOfOnes) pad = result at follows
  cases follows with
  | final _ _ row column => exact ⟨pad, row, column, outcome⟩

end KKAccel
