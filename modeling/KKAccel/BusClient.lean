import KKAccel.AvalonMaster
import KKAccel.Foundation.RequestClient
import KKAccel.WiredSlave

/-!
# Clients on the bus

A processor which runs a program on the wires of the slave: it asserts one request at a time, goes
on when a write has been accepted, and stalls after a read until its response arrives. Whatever the
program and however the slave is scheduled, the program runs as if each of its requests were carried
out on the register map when it is made.
-/

namespace KKAccel

open AtomicRules

variable {n : ℕ} {κ τ : Type*}

/-- What a client sees of the service. -/
def busService : Service ServiceLabel (AvalonRequest 18 32) (BitVec 32) where
  request label := label.request?.map AvalonRequest.observed
  response := ServiceLabel.response?
  isRead request := request.command == .read

/-- A client after a cycle: first its request is accepted, then the response arrives. -/
def afterCycle (client : Client κ (AvalonRequest 18 32) (BitVec 32)) (state : ClientState κ)
    (cycle : BusTrace) : ClientState κ :=
  cycle.response.foldl client.receive (cycle.accepted.foldl (client.issue busService) state)

/-- A cycle of a client and a slave. The client asserts nothing else than what it asks; it is
recorded whether it asserts nothing although it could. -/
inductive OnBus (client : Client κ (AvalonRequest 18 32) (BitVec 32))
    (slaveStep : τ → BusTrace → τ → Prop) :
    ClientState κ × τ → BusTrace × Bool → ClientState κ × τ → Prop
  | intro {state : ClientState κ} {before after : τ} {cycle : BusTrace} {thinks : Bool} :
      slaveStep before cycle after →
      (∀ request, cycle.wires.request cycle.unspecified = some request →
        state.awaiting = false ∧ client.asks state.point = some request.observed) →
      (thinks = true ↔ state.awaiting = false ∧ (client.asks state.point).isSome = true ∧
        cycle.wires.request cycle.unspecified = none) →
      OnBus client slaveStep (state, before) (cycle, thinks) (afterCycle client state cycle, after)

@[simp]
theorem AvalonRequest.observed_command (request : AvalonRequest 18 32) :
    request.observed.command = request.command := by
  obtain ⟨addr, data, command⟩ := request
  cases command <;> rfl

@[simp]
theorem AvalonRequest.observed_addr (request : AvalonRequest 18 32) :
    request.observed.addr = request.addr := by
  obtain ⟨addr, data, command⟩ := request
  cases command <;> rfl

@[simp]
theorem busService_isRead_observed (request : AvalonRequest 18 32) :
    busService.isRead request.observed = busService.isRead request := by
  simp [busService]

theorem issue_observed (client : Client κ (AvalonRequest 18 32) (BitVec 32))
    (state : ClientState κ) (request : AvalonRequest 18 32) :
    client.issue busService state request.observed = client.issue busService state request := by
  rw [Client.issue, Client.issue, busService_isRead_observed]

theorem filterMap_request (service : List ServiceLabel) :
    service.filterMap busService.request = (requestsOf service).map AvalonRequest.observed :=
  List.map_filterMap.symm

section Steps

variable {arith : Arith (BitVec 32)}
  {outside : Matrix (Fin n) (Fin n) (BitVec 32) → BitVec 32 → BitVec 32 → BitVec 32}
  {client : Client κ (AvalonRequest 18 32) (BitVec 32)}

theorem ServiceStep.answers {before after : KKIteration n (BitVec 32)} {label : ServiceLabel}
    (step : ServiceStep arith outside before label after) :
    (busService.response label).isSome = (busService.request label).any busService.isRead := by
  cases step with
  | rule => rfl
  | write isWrite =>
      simp [busService, ServiceLabel.response?, ServiceLabel.request?, isWrite]
  | read isRead =>
      simp [busService, ServiceLabel.response?, ServiceLabel.request?, isRead]

theorem ServiceStep.of_request {before after : KKIteration n (BitVec 32)} {label : ServiceLabel}
    {request : AvalonRequest 18 32} (step : ServiceStep arith outside before label after)
    (carried : busService.request label = some request) :
    (request.command = .write ∧ after = processWrite request.addr request.data before ∧
        busService.response label = none) ∨
      (request.command = .read ∧ after = before ∧
        busService.response label = some (processRead outside request.addr before)) := by
  cases step with
  | rule => contradiction
  | @write asked isWrite =>
      obtain ⟨addr, data, command⟩ := asked
      subst isWrite
      obtain rfl := Option.some.inj carried
      exact .inl ⟨rfl, (processWrite_eq_write _ _ _).symm, rfl⟩
  | @read asked isRead =>
      obtain ⟨addr, data, command⟩ := asked
      subst isRead
      obtain rfl := Option.some.inj carried
      exact .inr ⟨rfl, rfl, congrArg some (processRead_eq_read _ _ _).symm⟩

namespace OnBus

variable {state next : ClientState κ} {label : BusTrace × Bool} {point : κ}

section Queue

variable {before after : KKAvalonSlave n}

theorem outstanding_accepted {slaveStep : τ → BusTrace → τ → Prop} {source target : τ}
    {pending : List (AvalonRequest 18 32)}
    (step : OnBus client slaveStep (state, source) label (next, target))
    (outstanding : client.Outstanding busService point (pending.map AvalonRequest.observed) state) :
    client.Outstanding busService point
      ((pending ++ label.1.accepted).map AvalonRequest.observed)
      (label.1.accepted.foldl (client.issue busService) state) := by
  cases step with
  | @intro state source target cycle thinks slaveStep asserted thinking =>
      rw [BusTrace.accepted]
      split
      · rwa [List.append_nil]
      · cases requested : cycle.wires.request cycle.unspecified with
        | none =>
            rw [Option.toList_none, List.append_nil]
            exact outstanding
        | some request =>
            obtain ⟨free, asked⟩ := asserted request requested
            have joined := outstanding.issue free asked
            rw [issue_observed] at joined
            rw [Option.toList_some, List.map_append]
            exact joined

/-- The client runs together with the registers, but for the outstanding requests. -/
theorem joint_cycle
    (step : OnBus client (BusCycle arith outside) (state, before) label (next, after))
    (outstanding : client.Outstanding busService point
      (before.pending.map AvalonRequest.observed) state) :
    ∃ reached service,
      Execution (client.Joint busService (ServiceStep arith outside)) (point, before.kk) service
        (reached, after.kk) ∧
      client.Outstanding busService reached (after.pending.map AvalonRequest.observed) next := by
  have joined := step.outstanding_accepted outstanding
  obtain ⟨slaveStep, -, -⟩ := step
  obtain ⟨service, served, requests, responses⟩ := KKAvalonSlave.service_of_cycle slaveStep
  rw [KKAvalonSlave.pending_of_cycle slaveStep, List.map_append, ← requests,
    ← filterMap_request] at joined
  obtain ⟨reached, run, rest⟩ :=
    Client.Outstanding.serve_all (fun step => step.answers) served joined
  refine ⟨reached, service, run, ?_⟩
  rw [afterCycle, ← responses]
  exact rest

theorem accepted_cases {slaveStep : τ → BusTrace → τ → Prop} {source target : τ}
    (step : OnBus client slaveStep (state, source) label (next, target)) :
    (label.1.accepted = [] ∧ label.1.accepted.foldl (client.issue busService) state = state) ∨
      ∃ request, label.1.accepted = [request] ∧ state.awaiting = false ∧
        client.asks state.point = some request.observed ∧
        label.1.accepted.foldl (client.issue busService) state =
          if busService.isRead request then ⟨state.point, true⟩
          else ⟨client.resume state.point none, false⟩ := by
  cases step with
  | @intro state source target cycle thinks slaveStep asserted thinking =>
      rw [BusTrace.accepted]
      split
      · exact .inl ⟨rfl, rfl⟩
      · cases requested : cycle.wires.request cycle.unspecified with
        | none => exact .inl ⟨rfl, rfl⟩
        | some request =>
            obtain ⟨free, asked⟩ := asserted request requested
            refine .inr ⟨request, rfl, free, asked, ?_⟩
            rw [Option.toList_some, List.foldl_cons, List.foldl_nil, Client.issue, free]

/-- A response is that of the last request, when all have been processed. -/
theorem response_cases
    (step : OnBus client (BusCycle arith outside) (state, before) label (next, after))
    (outstanding : client.Outstanding busService point
      (before.pending.map AvalonRequest.observed) state) :
    (label.1.response = [] ∧ next = label.1.accepted.foldl (client.issue busService) state) ∨
      ∃ response request, label.1.response = [response] ∧
        client.asks (label.1.accepted.foldl (client.issue busService) state).point =
          some request ∧
        busService.isRead request = true ∧
        (label.1.accepted.foldl (client.issue busService) state).awaiting = true ∧
        next = ⟨client.resume (label.1.accepted.foldl (client.issue busService) state).point
          (some response), false⟩ ∧
        after.pending = [] := by
  have joined := step.outstanding_accepted outstanding
  cases step with
  | @intro state before after cycle thinks slaveStep asserted thinking =>
      have answered := KKAvalonSlave.readdatavalid_of_cycle slaveStep
      have conserved := KKAvalonSlave.pending_of_cycle slaveStep
      rw [afterCycle, BusTrace.response]
      cases valid : cycle.readdatavalid with
      | false => exact .inl ⟨by simp, by simp⟩
      | true =>
          right
          rw [valid, if_pos rfl] at answered
          -- A read has been processed, and it can only be the last request.
          have unserved {writes : List (AvalonRequest 18 32)} {rest : List (AvalonRequest 18 32)}
              (unread : ∀ request ∈ writes, busService.isRead request = false)
              (served : cycle.executed.map AvalonRequest.observed ++ rest = writes) : False := by
            have none : (cycle.executed.filter fun request => request.command == .read) = [] := by
              rw [List.filter_eq_nil_iff]
              intro request member isRead
              have write := unread request.observed
                (served ▸ List.mem_append_left _ (List.mem_map_of_mem member))
              rw [busService_isRead_observed] at write
              exact absurd (write.symm.trans isRead) Bool.false_ne_true
            rw [none] at answered
            contradiction
          obtain ⟨writes, unread, ⟨free, shape⟩ | ⟨waits, request, asked, isRead, shape⟩⟩ :=
            joined.eq_writes
          · rw [conserved, List.map_append] at shape
            exact (unserved unread shape).elim
          · rw [conserved, List.map_append] at shape
            refine ⟨cycle.readdata, request, by simp, asked, isRead, waits, ?_, ?_⟩
            · simp [Client.receive, waits]
            · by_contra left
              obtain ⟨others, last, pending⟩ :=
                (List.eq_nil_or_concat after.pending).resolve_left left
              rw [pending, List.concat_eq_append, List.map_append, ← List.append_assoc] at shape
              exact unserved unread (List.append_inj_left' shape rfl)

theorem joint_run {source target : ClientState κ × KKAvalonSlave n}
    {trace : List (BusTrace × Bool)}
    (run : Execution (OnBus client (BusCycle arith outside)) source trace target)
    (outstanding : client.Outstanding busService point
      (source.2.pending.map AvalonRequest.observed) source.1) :
    ∃ reached service,
      Execution (client.Joint busService (ServiceStep arith outside)) (point, source.2.kk) service
        (reached, target.2.kk) ∧
      client.Outstanding busService reached (target.2.pending.map AvalonRequest.observed)
        target.1 := by
  induction run generalizing point with
  | nil => exact ⟨point, [], .nil _, outstanding⟩
  | cons step _ induction =>
      obtain ⟨middle, first, executed, outstanding'⟩ := joint_cycle step outstanding
      obtain ⟨reached, rest, executedRest, outstanding''⟩ := induction outstanding'
      exact ⟨reached, first ++ rest, executed.append executedRest, outstanding''⟩

end Queue

end OnBus

end Steps

section Wired

variable (arith : Arith (BitVec 32))
  (outside : Matrix (Fin n) (Fin n) (BitVec 32) → BitVec 32 → BitVec 32 → BitVec 32)

/-- A cycle of the slave over the FIFO, by what it does on the bus. -/
def WiredStep (before : WiredSlave n) (cycle : BusTrace) (after : WiredSlave n) : Prop :=
  ∃ fifo, WiredCycle arith outside before (cycle, fifo) after

variable {arith outside} {client : Client κ (AvalonRequest 18 32) (BitVec 32)}

/-- Over a slave which simulates another one the client does the same. -/
theorem OnBus.simulate {σ : Type*} {slaveStep : τ → BusTrace → τ → Prop}
    {simulated : σ → BusTrace → σ → Prop} {related : τ → σ → Prop}
    (simulates : ∀ {before after : τ} {cycle : BusTrace} {slave : σ}, related before slave →
      slaveStep before cycle after → ∃ next, simulated slave cycle next ∧ related after next)
    {source target : ClientState κ × τ} {trace : List (BusTrace × Bool)} {slave : σ}
    (run : Execution (OnBus client slaveStep) source trace target)
    (initially : related source.2 slave) :
    ∃ final, Execution (OnBus client simulated) (source.1, slave) trace (target.1, final) ∧
      related target.2 final := by
  induction run generalizing slave with
  | nil => exact ⟨slave, .nil _, initially⟩
  | cons step _ induction =>
      cases step with
      | intro slaveStep asserted thinking =>
          obtain ⟨next, step', related'⟩ := simulates initially slaveStep
          obtain ⟨final, rest, relatedFinal⟩ := induction related'
          exact ⟨final, .cons (.intro step' asserted thinking) rest, relatedFinal⟩

theorem WiredSlave.Represents.wiredStep {before after : WiredSlave n} {cycle : BusTrace}
    {slave : KKAvalonSlave n} (represents : before.Represents slave)
    (step : WiredStep arith outside before cycle after) :
    ∃ next, BusCycle arith outside slave cycle next ∧ after.Represents next := by
  obtain ⟨fifo, wired⟩ := step
  obtain ⟨next, queued, representsNext, -⟩ := represents.cycle wired
  exact ⟨next, queued, representsNext⟩

end Wired

/-- For every program, whatever the FIFO held before the reset, in whatever order the rules fire and
however long the processor thinks: there is a run of the program in which each request is carried
out on the registers when it is made, which ends with the registers of the slave; and the program
on the bus is ahead of it by the requests which the slave has accepted but not processed. -/
theorem client_sees_registers (arith : Arith (BitVec 32))
    (outside : Matrix (Fin n) (Fin n) (BitVec 32) → BitVec 32 → BitVec 32 → BitVec 32)
    (client : Client κ (AvalonRequest 18 32) (BitVec 32)) (start : κ) (fifo : FIFO2 51)
    (kk : KKIteration n (BitVec 32)) {trace : List (BusTrace × Bool)} {state : ClientState κ}
    {after : WiredSlave n}
    (run : Execution (OnBus client (WiredStep arith outside)) (⟨start, false⟩, .reset fifo kk) trace
      (state, after)) :
    ∃ point service,
      Execution (client.Joint busService (ServiceStep arith outside)) (start, kk) service
        (point, after.kk) ∧
      client.Outstanding busService point (after.pending.map AvalonRequest.observed) state ∧
      (after.pending = [] → state = ⟨point, false⟩) := by
  obtain ⟨final, queued, represents⟩ :=
    OnBus.simulate (fun represents step => represents.wiredStep step) run
      (WiredSlave.represents_reset fifo kk)
  obtain ⟨point, service, executed, outstanding⟩ :=
    OnBus.joint_run queued (.none start)
  rw [represents.kk_eq, represents.pending_eq]
  refine ⟨point, service, executed, outstanding, fun none => ?_⟩
  have pending : final.pending = [] := none
  rw [pending] at outstanding
  generalize state = reached at outstanding
  cases outstanding with
  | none => rfl

/-- A program which reads the running status and ends with the response. -/
def statusClient : Client (Option (BitVec 32)) (AvalonRequest 18 32) (BitVec 32) where
  asks
    | none => some { addr := 0x10001, data := 0, command := .read }
    | some _ => none
  resume _ response := response

/-- The program reads that an accelerator which has been used before is idle. -/
theorem client_sees_registers_status :
    ∃ trace after,
      Execution (@OnBus _ (WiredSlave 2) statusClient (WiredStep fixed16 fun _ _ _ => 0))
        (⟨none, false⟩, .reset ⟨false, true, 7, 7⟩ (loadedRegisters 0)) trace
        (⟨some 0, false⟩, after) ∧
      ∃ service,
        Execution (statusClient.Joint busService (ServiceStep fixed16 fun _ _ _ => 0))
          (none, loadedRegisters 0) service (some 0, after.kk) := by
  have asked (request : AvalonRequest 18 32) (asserted : readStatus.request 0 = some request) :
      false = false ∧ statusClient.asks none = some request.observed := by
    obtain rfl := Option.some.inj asserted
    exact ⟨rfl, rfl⟩
  have unasked (request : AvalonRequest 18 32) (asserted : quiet.request 0 = some request) :
      true = false ∧ statusClient.asks none = some request.observed := by
    contradiction
  have reads := @OnBus.intro _ _ statusClient (WiredStep fixed16 fun _ _ _ => 0) ⟨none, false⟩
    usedSlave statusQueued _ false
    ⟨_, .intro readStatus 0 (by decide) (by decide) execution_statusAccepted⟩ asked (by decide)
  have answered := @OnBus.intro _ _ statusClient (WiredStep fixed16 fun _ _ _ => 0) ⟨none, true⟩
    statusQueued _ _ false
    ⟨_, .intro quiet 0 (by decide) (by decide) execution_statusAnswered⟩ unasked (by decide)
  have response : statusAnswered.readdataOutValue = some 0 := by decide
  simp only [response] at answered
  have run := Execution.cons reads (.single answered)
  obtain ⟨point, service, executed, -, settled⟩ := client_sees_registers fixed16 _ _ _ _ _ run
  have reached : some 0 = point := congrArg ClientState.point (settled rfl)
  rw [← reached] at executed
  exact ⟨_, _, run, service, executed⟩

end KKAccel
