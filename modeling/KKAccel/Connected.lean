import KKAccel.AvalonMaster
import KKAccel.ServiceTime

/-!
# Master and slave

A master on the wires of the accelerator's slave. Between them the wires transfer a request in every
cycle in which one is asserted and the slave does not ask the master to wait. What the client of the
master sees is the register map, served one request at a time.
-/

namespace KKAccel

open AtomicRules

variable {n mainBusSize : ℕ}

/-- The registers on both sides of the bus. -/
structure Connected (n : ℕ) where
  master : AvalonMaster 18 32
  slave : KKAvalonSlave n

/-- A cycle on both sides, in which the wires carry the same. The slave takes the lower bits of the
address. -/
inductive ConnectedStep
    (slaveStep : KKAvalonSlave n → BusTrace → KKAvalonSlave n → Prop) :
    Connected n → MasterCycle 18 mainBusSize 32 × BusTrace → Connected n → Prop
  | intro {before after : Connected n} {cycle : MasterCycle 18 mainBusSize 32} {trace : BusTrace} :
      MasterStep before.master cycle after.master →
      slaveStep before.slave trace after.slave →
      trace.wires = cycle.wires.narrow 18 →
      trace.waitrequest = cycle.waitrequest →
      trace.readdatavalid = cycle.readdatavalid →
      trace.readdata = cycle.readdata →
      ConnectedStep slaveStep before (cycle, trace) after

/-- The requests which the client puts, as the bus carries them. -/
def putsOf (trace : List (MasterCycle 18 mainBusSize 32 × BusTrace)) : List (AvalonRequest 18 32) :=
  (trace.flatMap fun cycle => cycle.1.put.toList).map AvalonRequest.observed

/-- The responses which the client gets. -/
def gotOf (trace : List (MasterCycle 18 mainBusSize 32 × BusTrace)) : List (BitVec 32) :=
  trace.flatMap fun cycle => cycle.1.got.toList

/-- The requests processed by the slave, as the bus carries them. -/
def executedOf (trace : List (MasterCycle 18 mainBusSize 32 × BusTrace)) :
    List (AvalonRequest 18 32) :=
  (trace.flatMap fun cycle => cycle.2.executed).map AvalonRequest.observed

namespace ConnectedStep

variable {slaveStep : KKAvalonSlave n → BusTrace → KKAvalonSlave n → Prop}
  {before after : Connected n} {cycle : MasterCycle 18 mainBusSize 32 × BusTrace}
  {trace : List (MasterCycle 18 mainBusSize 32 × BusTrace)}

theorem masterRun (run : Execution (ConnectedStep slaveStep) before trace after) :
    Execution MasterStep before.master (trace.map Prod.fst) after.master :=
  run.map Connected.master Prod.fst fun step => by
    obtain ⟨masterStep, -⟩ := step
    exact masterStep

theorem onSlave (step : ConnectedStep slaveStep before cycle after) :
    slaveStep before.slave cycle.2 after.slave := by
  obtain ⟨-, slaveStep, -⟩ := step
  exact slaveStep

theorem slaveRun (run : Execution (ConnectedStep slaveStep) before trace after) :
    Execution slaveStep before.slave (trace.map Prod.snd) after.slave :=
  run.map Connected.slave Prod.snd fun step => step.onSlave

theorem request_observed (wires : SlaveWires 18 32) (unspecified : BitVec 32) :
    (wires.request unspecified).toList.map AvalonRequest.observed =
      (wires.request 0).toList.map AvalonRequest.observed := by
  rw [SlaveWires.request, SlaveWires.request]
  split
  · rfl
  · rfl

theorem accepted_eq (step : ConnectedStep slaveStep before cycle after) :
    cycle.2.accepted.map AvalonRequest.observed = cycle.1.issued.map AvalonRequest.observed := by
  obtain ⟨-, -, wires, waitrequest, -, -⟩ := step
  rw [BusTrace.accepted, MasterCycle.issued, waitrequest]
  split
  · rfl
  · rw [request_observed, wires]

theorem received_eq (step : ConnectedStep slaveStep before cycle after)
    (kept : cycle.1.overrun = false) : cycle.1.received = cycle.2.response := by
  obtain ⟨-, -, -, -, readdatavalid, readdata⟩ := step
  simp only at kept
  simp [MasterCycle.received, BusTrace.response, kept, readdatavalid, readdata]

theorem accepted_run (run : Execution (ConnectedStep slaveStep) before trace after) :
    ((trace.map Prod.snd).flatMap BusTrace.accepted).map AvalonRequest.observed =
      ((trace.map Prod.fst).flatMap MasterCycle.issued).map AvalonRequest.observed := by
  induction run with
  | nil => rfl
  | cons step _ induction =>
      rw [List.map_cons, List.map_cons, List.flatMap_cons, List.flatMap_cons, List.map_append,
        List.map_append, accepted_eq step, induction]

theorem received_run (run : Execution (ConnectedStep slaveStep) before trace after)
    (kept : ∀ cycle ∈ trace, cycle.1.overrun = false) :
    (trace.map Prod.fst).flatMap MasterCycle.received =
      (trace.map Prod.snd).flatMap BusTrace.response := by
  induction run with
  | nil => rfl
  | cons step _ induction =>
      obtain ⟨first, rest⟩ := List.forall_mem_cons.mp kept
      rw [List.map_cons, List.map_cons, List.flatMap_cons, List.flatMap_cons,
        received_eq step first, induction rest]

/-- The requests put are those accepted by the slave and the one still in the master. -/
theorem puts_run (wide : 18 ≤ mainBusSize)
    (run : Execution (ConnectedStep slaveStep) before trace after) :
    before.master.reqFIFO.items.map AvalonRequest.observed ++ putsOf trace =
      ((trace.map Prod.snd).flatMap BusTrace.accepted).map AvalonRequest.observed ++
        after.master.reqFIFO.items.map AvalonRequest.observed := by
  have requests := MasterStep.requests_run wide (masterRun run)
  rw [List.flatMap_map] at requests
  rw [accepted_run run, ← requests]
  rfl

theorem items_eq_nil (step : ConnectedStep slaveStep before cycle after)
    (ready : cycle.2.waitrequest = false) : after.master.reqFIFO.items = [] := by
  obtain ⟨masterStep, -, -, waitrequest, -, -⟩ := step
  rw [waitrequest] at ready
  generalize after.master = final at masterStep
  obtain ⟨put, waits, readdatavalid, get, readdata, room⟩ := masterStep
  simp only at ready
  subst ready
  exact BoundedQueue.items_deq_eq_nil _

/-- Whatever the client puts, a cycle can be scheduled in which it takes a response. -/
theorem exists_step (mainBusSize : ℕ) (arith : Arith (BitVec 32))
    (outside : Matrix (Fin n) (Fin n) (BitVec 32) → BitVec 32 → BitVec 32 → BitVec 32)
    (before : Connected n) (put : Option (AvalonRequest 18 32))
    (room : put.isSome = true → before.master.reqFIFO.notFull = true) :
    ∃ (cycle : MasterCycle 18 mainBusSize 32 × BusTrace) (after : Connected n),
      ConnectedStep (ScheduledCycle arith outside) before cycle after ∧ cycle.1.put = put := by
  let wires := handleReq mainBusSize (before.master.putRequest put).first?
  obtain ⟨trace, slave, slaveStep, driven, -⟩ :=
    KKAvalonSlave.exists_scheduledCycle arith outside before.slave (wires.narrow 18)
  have masterStep : @MasterStep 18 mainBusSize 32 before.master _ _ :=
    .intro before.master put trace.waitrequest trace.readdatavalid true trace.readdata room
  exact ⟨(_, trace), ⟨_, slave⟩, .intro masterStep slaveStep driven rfl rfl rfl, rfl⟩

theorem exists_run (mainBusSize : ℕ) (arith : Arith (BitVec 32))
    (outside : Matrix (Fin n) (Fin n) (BitVec 32) → BitVec 32 → BitVec 32 → BitVec 32)
    (before : Connected n) (length : ℕ) :
    ∃ (trace : List (MasterCycle 18 mainBusSize 32 × BusTrace)) (after : Connected n),
      Execution (ConnectedStep (ScheduledCycle arith outside)) before trace after ∧
        trace.length = length := by
  induction length generalizing before with
  | zero => exact ⟨[], before, .nil before, rfl⟩
  | succ length induction =>
      obtain ⟨cycle, middle, step, -⟩ := exists_step mainBusSize arith outside before none
        fun put => by contradiction
      obtain ⟨trace, after, rest, counted⟩ := induction middle
      exact ⟨cycle :: trace, after, .cons step rest, congrArg (· + 1) counted⟩

end ConnectedStep

/-- In every run of the two from reset in which the client does not leave a response behind: the
requests it puts are carried out once each and in order on the register map, but for those still
under way, and it gets the answers of its reads in order, each the value of the register map after
the requests put before it. -/
theorem connected_serves (arith : Arith (BitVec 32))
    (outside : Matrix (Fin n) (Fin n) (BitVec 32) → BitVec 32 → BitVec 32 → BitVec 32)
    (wide : 18 ≤ mainBusSize) (kk : KKIteration n (BitVec 32)) {after : Connected n}
    {trace : List (MasterCycle 18 mainBusSize 32 × BusTrace)}
    (run : Execution (ConnectedStep (BusCycle arith outside)) ⟨.reset, .reset kk⟩ trace after)
    (kept : ∀ cycle ∈ trace, cycle.1.overrun = false) :
    ∃ service, Execution (ServiceStep arith outside) kk service after.slave.kk ∧
      putsOf trace = (requestsOf service ++ after.slave.pending ++
        after.master.reqFIFO.items).map AvalonRequest.observed ∧
      responsesOf service = gotOf trace ++ after.master.respFIFO.items ∧
      ∀ earlier request response later, service = earlier ++ .read request response :: later →
        ∃ state, Execution (ServiceStep arith outside) kk earlier state ∧
          response = (Register.ofAddr request.addr).read outside state := by
  have slaveRun := ConnectedStep.slaveRun run
  obtain ⟨service, served, requests, responses⟩ := KKAvalonSlave.service_of_run slaveRun
  have accepted := KKAvalonSlave.pending_of_run slaveRun
  change [] ++ _ = _ at accepted
  refine ⟨service, served, ?_, ?_, ?_⟩
  · have puts := ConnectedStep.puts_run wide run
    change [] ++ _ = _ at puts
    rw [List.nil_append] at puts accepted
    rw [puts, accepted, ← requests, List.map_append, List.map_append, List.map_append]
  · have received := MasterStep.responses_run (ConnectedStep.masterRun run)
    change [] ++ _ = _ at received
    rw [List.nil_append, ConnectedStep.received_run run kept] at received
    rw [responses, received, List.flatMap_map]
    rfl
  · rintro earlier request response later rfl
    obtain ⟨state, first, rest⟩ := served.split
    refine ⟨state, first, ?_⟩
    cases rest with
    | cons step _ =>
        cases step with
        | read => rfl

/-- Some cycle in which the master does not have to wait comes early enough for all requests then
pending to be carried out in time. -/
theorem exists_ready_soon {arith : Arith (BitVec 32)}
    {outside : Matrix (Fin n) (Fin n) (BitVec 32) → BitVec 32 → BitVec 32 → BitVec 32}
    {before after : Connected n} {trace : List (MasterCycle 18 mainBusSize 32 × BusTrace)}
    (positive : 1 ≤ n)
    (run : Execution (ConnectedStep (ScheduledCycle arith outside)) before trace after)
    (bound : before.slave.kk.firingsLeft ≤ n + 1) (long : 2 * (n + 3) < trace.length) :
    ∃ (front back : List (MasterCycle 18 mainBusSize 32 × BusTrace))
      (cycle : MasterCycle 18 mainBusSize 32 × BusTrace) (middle flushed : Connected n),
      trace = front ++ cycle :: back ∧ cycle.2.waitrequest = false ∧
      Execution (ConnectedStep (ScheduledCycle arith outside)) before front middle ∧
      ConnectedStep (ScheduledCycle arith outside) middle cycle flushed ∧
      Execution (ConnectedStep (ScheduledCycle arith outside)) flushed back after ∧
      front.length + 1 + flushed.slave.pending.length * (n + 3) ≤ 5 * (n + 3) := by
  rw [← List.take_append_drop (2 * (n + 3)) trace] at run ⊢
  have size : (trace.take (2 * (n + 3))).length = 2 * (n + 3) := by
    rw [List.length_take]
    omega
  by_cases early : ∃ cycle ∈ trace.take (2 * (n + 3)), cycle.2.waitrequest = false
  · obtain ⟨cycle, member, free⟩ := early
    obtain ⟨front, back, split⟩ := List.append_of_mem member
    rw [split, List.append_assoc, List.cons_append] at run ⊢
    obtain ⟨middle, first, second⟩ := run.split
    cases second with
    | cons step rest =>
        rename_i flushed
        refine ⟨front, _, cycle, middle, flushed, rfl, free, first, step, rest, ?_⟩
        have room := Nat.mul_le_mul_right (n + 3) flushed.slave.length_pending_le
        rw [split, List.length_append, List.length_cons] at size
        omega
  · have waits (cycle : BusTrace)
        (member : cycle ∈ (trace.take (2 * (n + 3))).map Prod.snd) :
        cycle.waitrequest = true := by
      obtain ⟨cycle, inside, rfl⟩ := List.mem_map.mp member
      exact Bool.eq_true_of_not_eq_false fun free => early ⟨cycle, inside, free⟩
    obtain ⟨middle, first, second⟩ := run.split
    have blocked := KKAvalonSlave.length_pending_le_one positive (ConnectedStep.slaveRun first)
      bound (by rw [List.length_map, size]) waits
    cases rest : trace.drop (2 * (n + 3)) with
    | nil =>
        rw [List.drop_eq_nil_iff] at rest
        omega
    | cons cycle back =>
        rw [rest] at second
        cases second with
        | cons step remaining =>
            rename_i flushed
            have slaveStep := step.onSlave
            -- With one request pending at most the master does not wait any longer.
            have free := KKAvalonSlave.ready_of_blocked positive (ConnectedStep.slaveRun first)
              bound (by rw [List.length_map, size]) waits slaveStep
            have more := KKAvalonSlave.length_pending_le_succ slaveStep
            have room : flushed.slave.pending.length * (n + 3) ≤ 2 * (n + 3) :=
              Nat.mul_le_mul_right _ (by omega)
            refine ⟨_, back, cycle, middle, flushed, rfl, free, first, step, remaining, ?_⟩
            omega

/-- When the rules of the slave are scheduled, every request that has been put is carried out
within `5 * (n + 3)` cycles. -/
theorem connected_serves_within (arith : Arith (BitVec 32))
    (outside : Matrix (Fin n) (Fin n) (BitVec 32) → BitVec 32 → BitVec 32 → BitVec 32)
    (positive : 1 ≤ n) (wide : 18 ≤ mainBusSize) {kk : KKIteration n (BitVec 32)}
    (idle : kk.isRunning = false) {before after : Connected n}
    {earlier later : List (MasterCycle 18 mainBusSize 32 × BusTrace)}
    (reached : Execution (ConnectedStep (ScheduledCycle arith outside)) ⟨.reset, .reset kk⟩ earlier
      before)
    (continued : Execution (ConnectedStep (ScheduledCycle arith outside)) before later after)
    (long : 5 * (n + 3) ≤ later.length) :
    putsOf earlier <+: executedOf (earlier ++ later) := by
  have initially := KKIteration.firingsLeft_of_idle idle
  have bound := ScheduledCycle.firingsLeft_le_of_run positive (ConnectedStep.slaveRun reached)
    initially
  -- Some cycle does not make the master wait; after it, all that has been put has been accepted.
  obtain ⟨front, back, cycle, middle, flushed, rfl, free, first, step, rest, soon⟩ :=
    exists_ready_soon positive continued bound (by omega)
  have sofar := reached.append (first.append (.single step))
  have puts := ConnectedStep.puts_run wide sofar
  change [] ++ _ = _ at puts
  have accepted := KKAvalonSlave.pending_of_run
    (ScheduledCycle.busRun (ConnectedStep.slaveRun sofar))
  change [] ++ _ = _ at accepted
  rw [step.items_eq_nil free, List.map_nil, List.append_nil, List.nil_append] at puts
  rw [List.nil_append] at accepted
  have served := KKAvalonSlave.served_prefix positive flushed.slave.pending.length
    (ConnectedStep.slaveRun rest)
    (ScheduledCycle.firingsLeft_le_of_run positive (ConnectedStep.slaveRun sofar) initially)
    (by
      rw [List.length_append, List.length_cons] at long
      rw [List.length_map]
      omega)
  rw [List.take_length] at served
  rw [List.append_cons]
  calc putsOf earlier
      <+: putsOf (earlier ++ (front ++ [cycle])) := by
        rw [putsOf, putsOf, List.flatMap_append, List.map_append]
        exact List.prefix_append _ _
    _ <+: executedOf (earlier ++ (front ++ [cycle] ++ back)) := by
        rw [puts, accepted, executedOf]
        have tail := (List.prefix_append_right_inj
          (((earlier ++ (front ++ [cycle])).map Prod.snd).flatMap BusTrace.executed)).mpr served
        have mapped := tail.map AvalonRequest.observed
        simp only [List.flatMap_map, ← List.flatMap_append, List.append_assoc] at mapped ⊢
        exact mapped

/-- A read of the running status, put into the master. -/
theorem connected_serves_within_status :
    ∃ (earlier later : List (MasterCycle 18 32 32 × BusTrace)) (after : Connected 2),
      Execution (ConnectedStep (ScheduledCycle fixed16 fun _ _ _ => 0))
        ⟨.reset, .reset (loadedRegisters 0)⟩ (earlier ++ later) after ∧
      putsOf earlier = [⟨0x10001, 0, .read⟩] ∧
      putsOf earlier <+: executedOf (earlier ++ later) := by
  obtain ⟨cycle, middle, step, put⟩ := ConnectedStep.exists_step 32 fixed16 (fun _ _ _ => 0)
    (⟨.reset, .reset (loadedRegisters 0)⟩ : Connected 2) (some ⟨0x10001, 7, .read⟩) fun _ => rfl
  obtain ⟨later, after, continued, counted⟩ :=
    ConnectedStep.exists_run 32 fixed16 (fun _ _ _ => 0) middle 25
  have reached := Execution.single step
  refine ⟨[cycle], later, after, reached.append continued, ?_,
    connected_serves_within fixed16 _ (by omega) (by omega) (loadedRegisters_idle 0) reached
      continued (by omega)⟩
  simp [putsOf, put, AvalonRequest.observed]

/-- A client which puts the same read and gets its answer. -/
theorem connected_serves_status :
    ∃ (trace : List (MasterCycle 18 32 32 × BusTrace)) (after : Connected 2)
      (service : List ServiceLabel),
      Execution (ConnectedStep (BusCycle fixed16 fun _ _ _ => 0))
        ⟨.reset, .reset (loadedRegisters 0)⟩ trace after ∧
      responsesOf service = [0] ∧ gotOf trace = [0] := by
  let master : AvalonMaster 18 32 := .reset
  let slave : KKAvalonSlave 2 := .reset (loadedRegisters 0)
  have ask : @MasterStep 18 32 32 master _ _ :=
    .intro master (some ⟨0x10001, 7, .read⟩) false false true 0 fun _ => rfl
  have rest : @MasterStep 18 32 32 { reqFIFO := .empty, respFIFO := .empty } _ _ :=
    .intro _ none false true true 0 fun put => by contradiction
  let wires := (handleReq 32 (master.putRequest (some ⟨0x10001, 7, .read⟩)).first?).narrow 18
  let first := runCycle slave wires [.produceRequest]
  let second := runCycle first.toKKAvalonSlave
    ((handleReq 32 (none : Option (AvalonRequest 18 32))).narrow 18)
    [.connection, .processRead, .produceRequest]
  have accept : Execution (Fires (BusRule.rule fixed16 (fun _ _ _ => 0) slave.reqFIFO.notFull
      (wires.request 0))) slave.beginCycle [.produceRequest] first :=
    execution_of_stayEnabled ⟨rfl, trivial⟩
  have answer : Execution (Fires (BusRule.rule fixed16 (fun _ _ _ => 0)
      first.toKKAvalonSlave.reqFIFO.notFull
      (((handleReq 32 (none : Option (AvalonRequest 18 32))).narrow 18).request 0)))
      first.toKKAvalonSlave.beginCycle [.connection, .processRead, .produceRequest] second :=
    execution_of_stayEnabled ⟨rfl, rfl, rfl, trivial⟩
  have run := Execution.cons
    (@ConnectedStep.intro 2 32 (BusCycle fixed16 fun _ _ _ => 0) ⟨master, slave⟩
      ⟨_, first.toKKAvalonSlave⟩ _ _ ask (.intro wires 0 (by decide) (by decide) accept)
      rfl rfl rfl rfl)
    (.single (@ConnectedStep.intro 2 32 (BusCycle fixed16 fun _ _ _ => 0) _
      ⟨_, second.toKKAvalonSlave⟩ _ _ rest (.intro _ 0 (by decide) (by decide) answer)
      rfl rfl rfl (by decide)))
  obtain ⟨service, -, -, responses, -⟩ :=
    connected_serves fixed16 _ (by omega) (loadedRegisters 0) run (by decide)
  exact ⟨_, _, service, run, responses, rfl⟩

end KKAccel
