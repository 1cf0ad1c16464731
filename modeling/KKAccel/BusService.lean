import KKAccel.AvalonSlave
import KKAccel.KKRun

/-!
# The service on the bus

Acceptance on the bus and processing happen in different cycles, with two queues in between. Seen
from outside, the slave nevertheless carries out the accepted requests one at a time and in order
on the register map, while the accelerator's rules fire in between.
-/

namespace KKAccel

open AtomicRules

variable {n : ℕ}

/-- What happens in one step of the service. -/
inductive ServiceLabel
  /-- A rule of the accelerator fires. -/
  | rule (label : KKRule)
  /-- A write request is carried out. -/
  | write (request : AvalonRequest 18 32)
  /-- A read request is carried out, with this response. -/
  | read (request : AvalonRequest 18 32) (response : BitVec 32)

namespace ServiceLabel

/-- The request which the step carries out. -/
def request? : ServiceLabel → Option (AvalonRequest 18 32)
  | rule _ => none
  | write request => some request
  | read request _ => some request

/-- The response which the step produces. -/
def response? : ServiceLabel → Option (BitVec 32)
  | rule _ => none
  | write _ => none
  | read _ response => some response

end ServiceLabel

/-- The requests of a service, in the order in which they are carried out. -/
def requestsOf (service : List ServiceLabel) : List (AvalonRequest 18 32) :=
  service.filterMap ServiceLabel.request?

/-- The responses of a service. -/
def responsesOf (service : List ServiceLabel) : List (BitVec 32) :=
  service.filterMap ServiceLabel.response?

section Lists

variable (label : KKRule) (request : AvalonRequest 18 32) (response : BitVec 32)
  (service later : List ServiceLabel)

@[simp]
theorem requestsOf_rule : requestsOf (.rule label :: service) = requestsOf service := rfl

@[simp]
theorem requestsOf_write : requestsOf (.write request :: service) = request :: requestsOf service :=
  rfl

@[simp]
theorem requestsOf_read :
    requestsOf (.read request response :: service) = request :: requestsOf service := rfl

@[simp]
theorem requestsOf_append :
    requestsOf (service ++ later) = requestsOf service ++ requestsOf later :=
  List.filterMap_append

@[simp]
theorem responsesOf_rule : responsesOf (.rule label :: service) = responsesOf service := rfl

@[simp]
theorem responsesOf_write : responsesOf (.write request :: service) = responsesOf service := rfl

@[simp]
theorem responsesOf_read :
    responsesOf (.read request response :: service) = response :: responsesOf service := rfl

@[simp]
theorem responsesOf_append :
    responsesOf (service ++ later) = responsesOf service ++ responsesOf later :=
  List.filterMap_append

end Lists

section Service

variable (arith : Arith (BitVec 32))
  (outside : Matrix (Fin n) (Fin n) (BitVec 32) → BitVec 32 → BitVec 32 → BitVec 32)

/-- A rule of the accelerator fires, or one request is carried out on the register map. -/
inductive ServiceStep :
    KKIteration n (BitVec 32) → ServiceLabel → KKIteration n (BitVec 32) → Prop
  | rule {before after : KKIteration n (BitVec 32)} {label : KKRule} :
      KKFires arith before label after →
      ServiceStep before (.rule label) after
  | write {before : KKIteration n (BitVec 32)} {request : AvalonRequest 18 32} :
      request.command = .write →
      ServiceStep before (.write request)
        ((Register.ofAddr request.addr).write request.data before)
  | read {before : KKIteration n (BitVec 32)} {request : AvalonRequest 18 32} :
      request.command = .read →
      ServiceStep before
        (.read request ((Register.ofAddr request.addr).read outside before)) before

end Service

variable {arith : Arith (BitVec 32)}
  {outside : Matrix (Fin n) (Fin n) (BitVec 32) → BitVec 32 → BitVec 32 → BitVec 32}

theorem responses_length {before after : KKIteration n (BitVec 32)}
    {service : List ServiceLabel}
    (served : Execution (ServiceStep arith outside) before service after) :
    (responsesOf service).length =
      ((requestsOf service).filter fun request => request.command == .read).length := by
  induction served with
  | nil => rfl
  | cons step _ induction =>
      cases step with
      | rule => exact induction
      | write isWrite => simpa [isWrite] using induction
      | read isRead => simpa [isRead] using induction

namespace InCycle

/-- The requests which have passed the bus, the oldest first. -/
def flow (slave : InCycle n) : List (AvalonRequest 18 32) :=
  slave.executed ++ slave.cliReq.items ++ slave.reqFIFO.items

variable {before after : InCycle n} {ready : Bool} {request : Option (AvalonRequest 18 32)}
  {label : BusRule}

theorem first_of_matches {command : MapperCommand}
    (guard : BusRule.matchesCommand command before = true) :
    ∃ request, before.cliReq.first? = some request ∧ request.command = command := by
  rw [BusRule.matchesCommand, Option.any_eq_true] at guard
  obtain ⟨request, first, equality⟩ := guard
  exact ⟨request, first, beq_iff_eq.mp equality⟩

theorem first_of_connection {asserted : Option (AvalonRequest 18 32)}
    (guard : (BusRule.rule arith outside ready asserted .connection).guard before = true) :
    ∃ request, before.reqFIFO.first? = some request ∧ before.cliReq.notFull = true := by
  simp only [BusRule.rule, Bool.and_eq_true, Option.isSome_iff_exists] at guard
  obtain ⟨⟨request, first⟩, vacant⟩ := guard
  exact ⟨request, first, vacant⟩

theorem connection_action {request : AvalonRequest 18 32}
    (first : before.reqFIFO.first? = some request) {asserted : Option (AvalonRequest 18 32)} :
    (BusRule.rule arith outside ready asserted .connection).action before =
      { before with
        reqFIFO := before.reqFIFO.deq
        cliReq := before.cliReq.enq request } := by
  simp only [BusRule.rule, first]

theorem processRead_action {request : AvalonRequest 18 32}
    (first : before.cliReq.first? = some request) {asserted : Option (AvalonRequest 18 32)} :
    (BusRule.rule arith outside ready asserted .processRead).action before =
      { before with
        readdataOutValue := some ((Register.ofAddr request.addr).read outside before.kk)
        cliReq := before.cliReq.deq
        executed := before.executed ++ [request] } := by
  simp only [BusRule.rule, first, processRead_eq_read]

theorem processWrite_action {request : AvalonRequest 18 32}
    (first : before.cliReq.first? = some request) {asserted : Option (AvalonRequest 18 32)} :
    (BusRule.rule arith outside ready asserted .processWrite).action before =
      { before with
        kk := (Register.ofAddr request.addr).write request.data before.kk
        cliReq := before.cliReq.deq
        executed := before.executed ++ [request] } := by
  simp only [BusRule.rule, first, processWrite_eq_write]

/-- Requests move along the queues, and only `produceRequest` adds one. -/
theorem flow_of_fires
    (fired : Fires (BusRule.rule arith outside ready request) before label after)
    (room : label = .produceRequest → before.reqFIFO.notFull = true) :
    after.flow =
      before.flow ++ if label = .produceRequest then request.toList else [] := by
  obtain ⟨guard, rfl⟩ := fired
  cases label with
  | produceRequest =>
      cases request with
      | none => simp [BusRule.rule, flow]
      | some request => simp [BusRule.rule, flow, BoundedQueue.items_enq (room rfl)]
  | connection =>
      obtain ⟨request, first, vacant⟩ := first_of_connection guard
      simp [connection_action first, flow, BoundedQueue.items_enq vacant,
        BoundedQueue.items_deq first]
  | processRead =>
      obtain ⟨request, first, -⟩ := first_of_matches guard
      simp [processRead_action first, flow, BoundedQueue.items_deq first]
  | processWrite =>
      obtain ⟨request, first, -⟩ := first_of_matches guard
      simp [processWrite_action first, flow, BoundedQueue.items_deq first]
  | kk => simp [BusRule.rule, flow]

theorem notFull_of_fires
    (fired : Fires (BusRule.rule arith outside ready request) before label after)
    (other : label ≠ .produceRequest) (room : before.reqFIFO.notFull = true) :
    after.reqFIFO.notFull = true := by
  obtain ⟨guard, rfl⟩ := fired
  cases label with
  | produceRequest => exact absurd rfl other
  | connection =>
      obtain ⟨request, first, -⟩ := first_of_connection guard
      rw [connection_action first]
      rw [BoundedQueue.notFull, decide_eq_true_iff, BoundedQueue.items_deq first] at room
      rw [BoundedQueue.notFull, decide_eq_true_iff]
      exact Nat.lt_of_succ_lt room
  | processRead =>
      obtain ⟨request, first, -⟩ := first_of_matches guard
      rw [processRead_action first]
      exact room
  | processWrite =>
      obtain ⟨request, first, -⟩ := first_of_matches guard
      rw [processWrite_action first]
      exact room
  | kk => exact room

private theorem service_of_unchanged (kk_eq : after.kk = before.kk)
    (executed_eq : after.executed = before.executed)
    (response_eq : after.readdataOutValue = before.readdataOutValue) :
    ∃ service, Execution (ServiceStep arith outside) before.kk service after.kk ∧
      after.executed = before.executed ++ requestsOf service ∧
      after.readdataOutValue.toList =
        before.readdataOutValue.toList ++ responsesOf service ∧
      (label ≠ .processRead → after.readdataOutValue = before.readdataOutValue) := by
  refine ⟨[], ?_, ?_, ?_, fun _ => response_eq⟩
  · rw [kk_eq]
    exact .nil before.kk
  · rw [executed_eq]
    exact (List.append_nil _).symm
  · rw [response_eq]
    exact (List.append_nil _).symm

/-- A rule carries out at most one request, and only `processRead` sets the response. -/
theorem service_of_fires
    (fired : Fires (BusRule.rule arith outside ready request) before label after)
    (unset : label = .processRead → before.readdataOutValue = none) :
    ∃ service, Execution (ServiceStep arith outside) before.kk service after.kk ∧
      after.executed = before.executed ++ requestsOf service ∧
      after.readdataOutValue.toList =
        before.readdataOutValue.toList ++ responsesOf service ∧
      (label ≠ .processRead → after.readdataOutValue = before.readdataOutValue) := by
  obtain ⟨guard, rfl⟩ := fired
  cases label with
  | produceRequest =>
      cases request with
      | none => exact service_of_unchanged rfl rfl rfl
      | some request => exact service_of_unchanged rfl rfl rfl
  | connection =>
      obtain ⟨request, first, -⟩ := first_of_connection guard
      rw [connection_action first]
      exact service_of_unchanged rfl rfl rfl
  | processRead =>
      obtain ⟨request, first, isRead⟩ := first_of_matches guard
      rw [processRead_action first, unset rfl]
      exact ⟨[.read request _], .single (.read isRead), rfl, rfl, fun other => absurd rfl other⟩
  | processWrite =>
      obtain ⟨request, first, isWrite⟩ := first_of_matches guard
      rw [processWrite_action first]
      exact ⟨[.write request], .single (.write isWrite), rfl, (List.append_nil _).symm,
        fun _ => rfl⟩
  | kk label =>
      exact ⟨[.rule label], .single (.rule (fires_action guard)), (List.append_nil _).symm,
        (List.append_nil _).symm, fun _ => rfl⟩

variable {fired : List BusRule}

theorem flow_of_cycle
    (executed : Execution (Fires (BusRule.rule arith outside ready request)) before fired after)
    (distinct : fired.Nodup)
    (room : .produceRequest ∈ fired → before.reqFIFO.notFull = true) :
    after.flow =
      before.flow ++ if .produceRequest ∈ fired then request.toList else [] := by
  induction executed with
  | nil => simp
  | @cons before middle after label fired step _ induction =>
      obtain ⟨absent, distinctLater⟩ := List.nodup_cons.mp distinct
      have moved := flow_of_fires step fun produced => room (produced ▸ List.mem_cons_self)
      by_cases produced : label = .produceRequest
      · subst produced
        rw [induction distinctLater fun later => absurd later absent, moved]
        simp [absent]
      · have vacant (later : .produceRequest ∈ fired) : middle.reqFIFO.notFull = true :=
          notFull_of_fires step produced (room (List.mem_cons_of_mem _ later))
        rw [induction distinctLater vacant, moved, if_neg produced, List.append_nil]
        simp [Ne.symm produced]

/-- In a cycle the response is that of the read carried out in it. -/
theorem service_of_cycle
    (executed : Execution (Fires (BusRule.rule arith outside ready request)) before fired after)
    (distinct : fired.Nodup)
    (unset : .processRead ∈ fired → before.readdataOutValue = none) :
    ∃ service, Execution (ServiceStep arith outside) before.kk service after.kk ∧
      after.executed = before.executed ++ requestsOf service ∧
      after.readdataOutValue.toList =
        before.readdataOutValue.toList ++ responsesOf service := by
  induction executed with
  | nil state => exact ⟨[], .nil _, (List.append_nil _).symm, (List.append_nil _).symm⟩
  | @cons before middle after label fired step _ induction =>
      obtain ⟨absent, distinctLater⟩ := List.nodup_cons.mp distinct
      obtain ⟨first, servedFirst, requestsFirst, responsesFirst, kept⟩ :=
        service_of_fires step fun read => unset (read ▸ List.mem_cons_self)
      have unsetLater (later : .processRead ∈ fired) : middle.readdataOutValue = none := by
        rw [kept fun read => absent (read ▸ later)]
        exact unset (List.mem_cons_of_mem _ later)
      obtain ⟨rest, servedRest, requestsRest, responsesRest⟩ := induction distinctLater unsetLater
      refine ⟨first ++ rest, servedFirst.append servedRest, ?_, ?_⟩
      · rw [requestsRest, requestsFirst, requestsOf_append, List.append_assoc]
      · rw [responsesRest, responsesFirst, responsesOf_append, List.append_assoc]

end InCycle

namespace KKAvalonSlave

/-- The requests accepted but not yet processed. -/
def pending (slave : KKAvalonSlave n) : List (AvalonRequest 18 32) :=
  slave.cliReq.items ++ slave.reqFIFO.items

variable {before after : KKAvalonSlave n} {cycle : BusTrace} {trace : List BusTrace}

/-- No request is lost, duplicated or overtaken in a cycle. -/
theorem pending_of_cycle (step : BusCycle arith outside before cycle after) :
    before.pending ++ cycle.accepted = cycle.executed ++ after.pending := by
  cases step with
  | @intro final fired wires unspecified distinct produced executed =>
      have flow := InCycle.flow_of_cycle executed distinct produced.mp
      simp only [InCycle.flow, beginCycle, List.nil_append, List.append_assoc] at flow
      rw [pending, pending, List.append_assoc, flow, BusTrace.accepted]
      cases vacant : before.reqFIFO.notFull <;> simp [produced, vacant]

/-- Within a cycle the requests are carried out one at a time. -/
theorem service_of_cycle (step : BusCycle arith outside before cycle after) :
    ∃ service, Execution (ServiceStep arith outside) before.kk service after.kk ∧
      requestsOf service = cycle.executed ∧ responsesOf service = cycle.response := by
  cases step with
  | @intro final fired wires unspecified distinct produced executed =>
      obtain ⟨service, served, requests, responses⟩ :=
        InCycle.service_of_cycle executed distinct fun _ => rfl
      refine ⟨service, served, requests.symm, ?_⟩
      rw [← List.nil_append (responsesOf service)]
      refine responses.symm.trans ?_
      cases final.readdataOutValue <;> simp [BusTrace.response]

theorem pending_of_run (run : Execution (BusCycle arith outside) before trace after) :
    before.pending ++ trace.flatMap BusTrace.accepted =
      trace.flatMap BusTrace.executed ++ after.pending := by
  induction run with
  | nil => simp
  | cons step _ induction =>
      rw [List.flatMap_cons, List.flatMap_cons, ← List.append_assoc, pending_of_cycle step,
        List.append_assoc, induction, List.append_assoc]

theorem service_of_run (run : Execution (BusCycle arith outside) before trace after) :
    ∃ service, Execution (ServiceStep arith outside) before.kk service after.kk ∧
      requestsOf service = trace.flatMap BusTrace.executed ∧
      responsesOf service = trace.flatMap BusTrace.response := by
  induction run with
  | nil state => exact ⟨[], .nil _, rfl, rfl⟩
  | cons step _ induction =>
      obtain ⟨first, servedFirst, requestsFirst, responsesFirst⟩ := service_of_cycle step
      obtain ⟨rest, servedRest, requestsRest, responsesRest⟩ := induction
      refine ⟨first ++ rest, servedFirst.append servedRest, ?_, ?_⟩
      · rw [requestsOf_append, requestsFirst, requestsRest, List.flatMap_cons]
      · rw [responsesOf_append, responsesFirst, responsesRest, List.flatMap_cons]

/-- In every cycle there is a response exactly if a read is processed, and one read at most. -/
theorem readdatavalid_of_cycle (step : BusCycle arith outside before cycle after) :
    (cycle.executed.filter fun request => request.command == .read).length =
      if cycle.readdatavalid then 1 else 0 := by
  obtain ⟨service, served, requests, responses⟩ := service_of_cycle step
  rw [← requests, ← responses_length served, responses, BusTrace.response]
  split <;> rfl

end KKAvalonSlave

/-- Whatever the master drives and in whatever order the rules fire: the processed requests are a
prefix of the accepted ones, every read is answered once in the cycle in which it is processed, and
the answer is the value of the register map after the requests accepted before it and no others. A
master which has to wait may hold its request or not. -/
theorem slave_serves_in_order (arith : Arith (BitVec 32))
    (outside : Matrix (Fin n) (Fin n) (BitVec 32) → BitVec 32 → BitVec 32 → BitVec 32)
    (kk : KKIteration n (BitVec 32)) {trace : List BusTrace} {after : KKAvalonSlave n}
    (run : Execution (BusCycle arith outside) (.reset kk) trace after) :
    trace.flatMap BusTrace.accepted = trace.flatMap BusTrace.executed ++ after.pending ∧
    (∀ cycle ∈ trace,
      (cycle.executed.filter fun request => request.command == .read).length =
        if cycle.readdatavalid then 1 else 0) ∧
    ∃ service, Execution (ServiceStep arith outside) kk service after.kk ∧
      requestsOf service = trace.flatMap BusTrace.executed ∧
      responsesOf service = trace.flatMap BusTrace.response ∧
      ∀ earlier request response later,
        service = earlier ++ .read request response :: later →
        requestsOf earlier ++ [request] <+: trace.flatMap BusTrace.accepted ∧
        ∃ state, Execution (ServiceStep arith outside) kk earlier state ∧
          response = (Register.ofAddr request.addr).read outside state := by
  have conserved : trace.flatMap BusTrace.accepted =
      trace.flatMap BusTrace.executed ++ after.pending := by
    rw [← KKAvalonSlave.pending_of_run run]
    rfl
  obtain ⟨service, served, requests, responses⟩ := KKAvalonSlave.service_of_run run
  have answered := run.forall_labels (fun _ _ => trivial)
    (fun _ step => KKAvalonSlave.readdatavalid_of_cycle step) trivial
  refine ⟨conserved, answered, service, served, requests, responses, ?_⟩
  rintro earlier request response later rfl
  constructor
  · refine ⟨requestsOf later ++ after.pending, ?_⟩
    rw [conserved, ← requests]
    simp
  · obtain ⟨state, first, rest⟩ := served.split
    refine ⟨state, first, ?_⟩
    cases rest with
    | cons step _ =>
        cases step with
        | read => rfl

/-- A master which asserts nothing. -/
def quiet : SlaveWires 18 32 := ⟨false, false, 0, 0, by decide⟩

/-- A master which reads the running status. -/
def readStatus : SlaveWires 18 32 := ⟨true, false, 0x10001, 0, by decide⟩

/-- The cycle in which the given rules fire, one after another. -/
def runCycle (slave : KKAvalonSlave 2) (wires : SlaveWires 18 32) (fired : List BusRule) :
    InCycle 2 :=
  fired.foldl
    (fun current label =>
      (BusRule.rule fixed16 (fun _ _ _ => 0) slave.reqFIFO.notFull (wires.request 0) label).action
        current)
    slave.beginCycle

/-- The read is accepted in one cycle and answered in the next. -/
theorem slave_serves_in_order_status :
    ∃ trace after,
      Execution (BusCycle fixed16 fun _ _ _ => 0)
        (.reset (loadedRegisters (0 : Matrix (Fin 2) (Fin 2) (BitVec 32)))) trace after ∧
      trace.flatMap BusTrace.response = [0] ∧
      trace.flatMap BusTrace.accepted = trace.flatMap BusTrace.executed ++ after.pending := by
  let slave : KKAvalonSlave 2 := .reset (loadedRegisters 0)
  let first := runCycle slave readStatus [.produceRequest]
  let second := runCycle first.toKKAvalonSlave quiet [.connection, .processRead, .produceRequest]
  have accept : Execution (Fires (BusRule.rule fixed16 (fun _ _ _ => 0) slave.reqFIFO.notFull
      (readStatus.request 0))) slave.beginCycle [.produceRequest] first :=
    execution_of_stayEnabled ⟨rfl, trivial⟩
  have answer : Execution (Fires (BusRule.rule fixed16 (fun _ _ _ => 0)
      first.toKKAvalonSlave.reqFIFO.notFull (quiet.request 0)))
      first.toKKAvalonSlave.beginCycle [.connection, .processRead, .produceRequest] second :=
    execution_of_stayEnabled ⟨rfl, rfl, rfl, trivial⟩
  have run := Execution.cons (BusCycle.intro readStatus 0 (by decide) (by decide) accept)
    (.single (BusCycle.intro quiet 0 (by decide) (by decide) answer))
  exact ⟨_, _, run, rfl, (slave_serves_in_order fixed16 _ _ run).1⟩

end KKAccel
