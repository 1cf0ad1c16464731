import KKAccel.AvalonSlave

/-!
# The bus master

`mkAvalonMaster`: a client puts requests and gets responses, the wires carry one request at a time.
Both queues are bypass FIFOs: what is put in a cycle may leave in the same cycle, but whether there
is room is decided when the cycle begins.
-/

namespace KKAccel

open AtomicRules

variable {addressWidth mainBusSize dataWidth : ℕ}

/-- A request as the bus carries it: the data of a read is not specified. -/
def AvalonRequest.observed (request : AvalonRequest addressWidth dataWidth) :
    AvalonRequest addressWidth dataWidth :=
  match request.command with
  | .read => { request with data := 0 }
  | .write => request

/-- The wires of a slave with fewer address bits than the bus. -/
def SlaveWires.narrow (wires : SlaveWires mainBusSize dataWidth) (addressWidth : ℕ) :
    SlaveWires addressWidth dataWidth :=
  { wires with address := wires.address.setWidth addressWidth }

theorem SlaveWires.exclusive_idle : ¬(false = true ∧ false = true) := by simp

/-- What `handleReq` drives: the request which is first in the queue, or nothing. -/
def handleReq (mainBusSize : ℕ) (first : Option (AvalonRequest addressWidth dataWidth)) :
    SlaveWires mainBusSize dataWidth :=
  match first with
  | some req =>
      { read := req.command == .read
        write := req.command == .write
        address := req.addr.setWidth mainBusSize
        writedata := req.data
        exclusive := by cases req.command <;> simp }
  | none =>
      { read := false
        write := false
        address := 0
        writedata := 0
        exclusive := SlaveWires.exclusive_idle }

theorem request_handleReq (wide : addressWidth ≤ mainBusSize)
    (first : Option (AvalonRequest addressWidth dataWidth)) (unspecified : BitVec dataWidth) :
    (((handleReq mainBusSize first).narrow addressWidth).request unspecified).map
      AvalonRequest.observed = first.map AvalonRequest.observed := by
  cases first with
  | none => rfl
  | some req =>
      obtain ⟨addr, data, command⟩ := req
      have address : (addr.setWidth mainBusSize).setWidth addressWidth = addr := by
        rw [BitVec.setWidth_setWidth_of_le _ wide, BitVec.setWidth_eq]
      cases command <;>
        simp [handleReq, SlaveWires.narrow, SlaveWires.request, AvalonRequest.observed, address]

/-- The registers of `mkAvalonMaster`. -/
structure AvalonMaster (addressWidth dataWidth : ℕ) where
  reqFIFO : BoundedQueue (AvalonRequest addressWidth dataWidth) 1
  respFIFO : BoundedQueue (BitVec dataWidth) 1

/-- After reset both queues are empty. -/
def AvalonMaster.reset : AvalonMaster addressWidth dataWidth where
  reqFIFO := .empty
  respFIFO := .empty

/-- What can be observed of one cycle. -/
structure MasterCycle (addressWidth mainBusSize dataWidth : ℕ) where
  /-- The request which the client puts. -/
  put : Option (AvalonRequest addressWidth dataWidth)
  /-- What the master drives. -/
  wires : SlaveWires mainBusSize dataWidth
  waitrequest : Bool
  readdatavalid : Bool
  readdata : BitVec dataWidth
  /-- The response which the client gets. -/
  got : Option (BitVec dataWidth)
  /-- A response came while the last one was still in its queue; recorded for the statements
  only. -/
  overrun : Bool

namespace AvalonMaster

variable (master : AvalonMaster addressWidth dataWidth)

/-- The request queue with what the client puts. -/
def putRequest (put : Option (AvalonRequest addressWidth dataWidth)) :
    BoundedQueue (AvalonRequest addressWidth dataWidth) 1 :=
  match put with
  | some request => master.reqFIFO.enq request
  | none => master.reqFIFO

/-- `ackReq`: the request on the wires leaves the queue unless the master has to wait. -/
def ackReq (waitrequest : Bool) (reqFIFO : BoundedQueue (AvalonRequest addressWidth dataWidth) 1) :
    BoundedQueue (AvalonRequest addressWidth dataWidth) 1 :=
  if waitrequest then reqFIFO else reqFIFO.deq

/-- `handleResp`: the response on the wires enters its queue; the rule cannot fire when the queue
is full. -/
def handleResp (readdatavalid : Bool) (readdata : BitVec dataWidth) :
    BoundedQueue (BitVec dataWidth) 1 :=
  if readdatavalid then master.respFIFO.enq readdata else master.respFIFO

end AvalonMaster

/-- One clock cycle of the master. The client puts only when there is room, and `get` tells whether
it takes a response if there is one. -/
inductive MasterStep : AvalonMaster addressWidth dataWidth →
    MasterCycle addressWidth mainBusSize dataWidth → AvalonMaster addressWidth dataWidth → Prop
  | intro (before : AvalonMaster addressWidth dataWidth)
      (put : Option (AvalonRequest addressWidth dataWidth)) (waitrequest readdatavalid get : Bool)
      (readdata : BitVec dataWidth) :
      (put.isSome = true → before.reqFIFO.notFull = true) →
      MasterStep before
        { put := put
          wires := handleReq mainBusSize (before.putRequest put).first?
          waitrequest := waitrequest
          readdatavalid := readdatavalid
          readdata := readdata
          got := if get then (before.handleResp readdatavalid readdata).first? else none
          overrun := readdatavalid && !before.respFIFO.notFull }
        { reqFIFO := AvalonMaster.ackReq waitrequest (before.putRequest put)
          respFIFO :=
            if get then (before.handleResp readdatavalid readdata).deq
            else before.handleResp readdatavalid readdata }

namespace MasterCycle

variable (cycle : MasterCycle addressWidth mainBusSize dataWidth)

/-- The master asserts a request. -/
def asserts : Bool := cycle.wires.read || cycle.wires.write

/-- The request which a slave with the address bits of the client accepts. -/
def issued : List (AvalonRequest addressWidth dataWidth) :=
  if cycle.waitrequest then [] else ((cycle.wires.narrow addressWidth).request 0).toList

/-- The response on the wires, unless it finds its queue full. -/
def received : List (BitVec dataWidth) :=
  if cycle.readdatavalid && !cycle.overrun then [cycle.readdata] else []

end MasterCycle

section Step

variable {before middle after : AvalonMaster addressWidth dataWidth}
  {cycle second : MasterCycle addressWidth mainBusSize dataWidth}
  {trace : List (MasterCycle addressWidth mainBusSize dataWidth)}

theorem items_putRequest {put : Option (AvalonRequest addressWidth dataWidth)}
    (room : put.isSome = true → before.reqFIFO.notFull = true) :
    (before.putRequest put).items = before.reqFIFO.items ++ put.toList := by
  cases put with
  | none => exact (List.append_nil _).symm
  | some request => exact BoundedQueue.items_enq (room rfl) request

/-- The requests put are those issued and the one still in the queue. -/
theorem MasterStep.requests (wide : addressWidth ≤ mainBusSize)
    (step : MasterStep before cycle after) :
    before.reqFIFO.items.map AvalonRequest.observed ++
        cycle.put.toList.map AvalonRequest.observed =
      cycle.issued.map AvalonRequest.observed ++
        after.reqFIFO.items.map AvalonRequest.observed := by
  obtain ⟨put, waitrequest, readdatavalid, get, readdata, room⟩ := step
  rw [← List.map_append, ← items_putRequest room, MasterCycle.issued, AvalonMaster.ackReq]
  cases waitrequest with
  | true => rfl
  | false =>
      have asserted := request_handleReq wide (before.putRequest put).first? 0
      rw [BoundedQueue.items_eq_toList, ← Option.toList_map, ← asserted, Option.toList_map]
      simp [BoundedQueue.items_deq_eq_nil]

/-- The responses received are those the client gets and the one still in the queue. -/
theorem MasterStep.responses (step : MasterStep before cycle after) :
    before.respFIFO.items ++ cycle.received = cycle.got.toList ++ after.respFIFO.items := by
  obtain ⟨put, waitrequest, readdatavalid, get, readdata, room⟩ := step
  have filled : (before.handleResp readdatavalid readdata).items = before.respFIFO.items ++
      if readdatavalid && !(readdatavalid && !before.respFIFO.notFull) then [readdata] else [] := by
    rw [AvalonMaster.handleResp]
    cases readdatavalid with
    | false => simp
    | true =>
        cases vacant : before.respFIFO.notFull with
        | true => simpa using BoundedQueue.items_enq vacant readdata
        | false =>
            have full : ¬ before.respFIFO.items.length < 1 := by
              simpa [BoundedQueue.notFull] using vacant
            simp [BoundedQueue.enq, full]
  rw [MasterCycle.received, ← filled]
  cases get with
  | false => rfl
  | true =>
      simp only [if_true]
      rw [BoundedQueue.items_deq_eq_nil, BoundedQueue.items_eq_toList, List.append_nil]

theorem MasterStep.held (step : MasterStep before cycle middle)
    (next : MasterStep middle second after) (asserts : cycle.asserts = true)
    (waits : cycle.waitrequest = true) : second.put = none ∧ second.wires = cycle.wires := by
  obtain ⟨put, waitrequest, readdatavalid, get, readdata, room⟩ := step
  obtain ⟨put', waitrequest', readdatavalid', get', readdata', room'⟩ := next
  simp only [MasterCycle.asserts] at waits asserts
  subst waits
  have held : ∃ request, (before.putRequest put).first? = some request := by
    cases first : (before.putRequest put).first? with
    | none => simp [first, handleReq] at asserts
    | some request => exact ⟨request, rfl⟩
  obtain ⟨request, first⟩ := held
  have occupied : (before.putRequest put).notFull = false := by
    simp [BoundedQueue.notFull, BoundedQueue.items_eq_toList, first]
  have unput : put' = none := by
    simpa [AvalonMaster.ackReq, occupied] using room'
  subst unput
  exact ⟨rfl, rfl⟩

end Step

section Runs

variable {before after : AvalonMaster addressWidth dataWidth}
  {trace : List (MasterCycle addressWidth mainBusSize dataWidth)}

theorem MasterStep.requests_run (wide : addressWidth ≤ mainBusSize)
    (run : Execution MasterStep before trace after) :
    before.reqFIFO.items.map AvalonRequest.observed ++
        (trace.flatMap fun cycle => cycle.put.toList).map AvalonRequest.observed =
      (trace.flatMap MasterCycle.issued).map AvalonRequest.observed ++
        after.reqFIFO.items.map AvalonRequest.observed := by
  induction run with
  | nil => simp
  | cons step _ induction =>
      rw [List.flatMap_cons, List.flatMap_cons, List.map_append, List.map_append,
        ← List.append_assoc, step.requests wide, List.append_assoc, induction, List.append_assoc]

theorem MasterStep.responses_run (run : Execution MasterStep before trace after) :
    before.respFIFO.items ++ trace.flatMap MasterCycle.received =
      (trace.flatMap fun cycle => cycle.got.toList) ++ after.respFIFO.items := by
  induction run with
  | nil => simp
  | cons step _ induction =>
      rw [List.flatMap_cons, List.flatMap_cons, ← List.append_assoc, step.responses,
        List.append_assoc, induction, List.append_assoc]

end Runs

/-- In every run from reset the requests which the client puts are issued on the bus once each and
in order, but for one which is still waiting; a request which has to wait is held unchanged in the
next cycle; the client gets the responses once each and in order, except those which come while the
last one is still in its queue. -/
theorem master_transfers (wide : addressWidth ≤ mainBusSize)
    {after : AvalonMaster addressWidth dataWidth}
    {trace : List (MasterCycle addressWidth mainBusSize dataWidth)}
    (run : Execution MasterStep .reset trace after) :
    (trace.flatMap fun cycle => cycle.put.toList).map AvalonRequest.observed =
      (trace.flatMap MasterCycle.issued).map AvalonRequest.observed ++
        after.reqFIFO.items.map AvalonRequest.observed ∧
    (∀ earlier cycle next later, trace = earlier ++ cycle :: next :: later →
      cycle.asserts = true → cycle.waitrequest = true →
      next.put = none ∧ next.wires = cycle.wires) ∧
    trace.flatMap MasterCycle.received =
      (trace.flatMap fun cycle => cycle.got.toList) ++ after.respFIFO.items := by
  refine ⟨MasterStep.requests_run wide run, ?_, MasterStep.responses_run run⟩
  rintro earlier cycle next later rfl asserts waits
  obtain ⟨middle, -, rest⟩ := run.split
  cases rest with
  | cons step rest =>
      cases rest with
      | cons step' _ => exact step.held step' asserts waits

/-- A write which has to wait for one cycle. -/
theorem master_transfers_waiting :
    ∃ (trace : List (MasterCycle 18 32 32)) (after : AvalonMaster 18 32),
      Execution MasterStep .reset trace after ∧ trace.length = 2 ∧
      (trace.flatMap fun cycle => cycle.put.toList).map AvalonRequest.observed =
        (trace.flatMap MasterCycle.issued).map AvalonRequest.observed ++
          after.reqFIFO.items.map AvalonRequest.observed ∧
      after.reqFIFO.items = [] := by
  have ask : @MasterStep 18 32 32 .reset _ _ :=
    .intro .reset (some ⟨0x10000, 0, .write⟩) true false false 0 fun _ => rfl
  have release : @MasterStep 18 32 32
      { reqFIFO := AvalonMaster.reset.putRequest (some ⟨0x10000, 0, .write⟩), respFIFO := .empty }
      _ _ :=
    .intro _ none false false false 0 fun put => by contradiction
  have run := Execution.cons ask (.single release)
  exact ⟨_, _, run, rfl, (master_transfers (by omega) run).1, rfl⟩

end KKAccel
