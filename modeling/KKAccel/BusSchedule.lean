import KKAccel.BusClient
import KKAccel.ServiceTime

/-!
# The compiled slave on the bus

The compiler fires every rule that is enabled when a cycle begins unless it conflicts with one that
fires. So a run of the accelerator advances in every cycle in which no write is processed, and the
requests that wait get closer to their turn.
-/

namespace KKAccel

open AtomicRules

variable {n : ℕ}

/-- The rules which write the state register do not fire together. -/
def BusRule.conflicts : BusRule → BusRule → Bool
  | .processWrite, .kk .init | .processWrite, .kk .iterate => true
  | .kk .init, .processWrite | .kk .iterate, .processWrite => true
  | _, _ => false

theorem BusRule.conflicts_processWrite {other : BusRule}
    (conflict : BusRule.processWrite.conflicts other = true) :
    other = .kk .init ∨ other = .kk .iterate := by
  cases other with
  | kk rule =>
      cases rule with
      | init => exact .inl rfl
      | iterate => exact .inr rfl
      | countCycles | checkDivZero => contradiction
  | produceRequest | connection | processRead | processWrite => contradiction

/-- No enabled rule is left out without reason. -/
def Maximal (guard : BusRule → Bool) (fired : List BusRule) : Prop :=
  ∀ label, guard label = true → label ∈ fired ∨ ∃ other ∈ fired, label.conflicts other = true

section Cycles

variable (arith : Arith (BitVec 32))
  (outside : Matrix (Fin n) (Fin n) (BitVec 32) → BitVec 32 → BitVec 32 → BitVec 32)

/-- One clock cycle over the queue, with as many rules as possible. -/
inductive MaximalCycle : KKAvalonSlave n → BusTrace → KKAvalonSlave n → Prop
  | intro {before : KKAvalonSlave n} {final : InCycle n} {fired : List BusRule}
      (wires : SlaveWires 18 32) (unspecified : BitVec 32) :
      Maximal (fun label => (BusRule.rule arith outside before.reqFIFO.notFull
        (wires.request unspecified) label).guard before.beginCycle) fired →
      fired.Nodup →
      (.produceRequest ∈ fired ↔ before.reqFIFO.notFull = true) →
      Execution
        (Fires (BusRule.rule arith outside before.reqFIFO.notFull (wires.request unspecified)))
        before.beginCycle fired final →
      MaximalCycle before
        { wires := wires
          unspecified := unspecified
          waitrequest := !before.reqFIFO.notFull
          readdatavalid := final.readdataOutValue.isSome
          readdata := final.readdataOutValue.getD 0
          executed := final.executed }
        final.toKKAvalonSlave

/-- One clock cycle over the FIFO, with as many rules as possible. -/
inductive CompiledCycle : WiredSlave n → BusTrace → WiredSlave n → Prop
  | intro {before : WiredSlave n} {final : WiredInCycle n} {fired : List BusRule}
      (wires : SlaveWires 18 32) (unspecified : BitVec 32) :
      Maximal (fun label => (wiredRule arith outside
        (wires.request unspecified) label).guard before.beginCycle) fired →
      fired.Nodup →
      (.produceRequest ∈ fired ↔ before.fifo.fullReg = true) →
      Execution (Fires (wiredRule arith outside (wires.request unspecified))) before.beginCycle
        fired final →
      CompiledCycle before
        { wires := wires
          unspecified := unspecified
          waitrequest := !before.fifo.fullReg
          readdatavalid := final.readdataOutValue.isSome
          readdata := final.readdataOutValue.getD 0
          executed := final.executed }
        { final.toWiredSlave with fifo := before.fifo.clockEdge final.inputs }

end Cycles

variable {arith : Arith (BitVec 32)}
  {outside : Matrix (Fin n) (Fin n) (BitVec 32) → BitVec 32 → BitVec 32 → BitVec 32}

namespace WiredSlave

variable {before after : WiredSlave n} {slave : KKAvalonSlave n} {cycle : BusTrace}

theorem Represents.guard_eq (represents : before.Represents slave)
    (request : Option (AvalonRequest 18 32)) (label : BusRule) :
    (wiredRule arith outside request label).guard before.beginCycle =
      (BusRule.rule arith outside slave.reqFIFO.notFull request label).guard slave.beginCycle := by
  by_cases produces : label = .produceRequest
  · subst produces
    exact represents.fullReg_eq
  by_cases connects : label = .connection
  · subst connects
    simp only [wiredRule, BusRule.rule, beginCycle, KKAvalonSlave.beginCycle,
      represents.emptyReg_eq, represents.cliReq_eq]
  · have beside : before.beginCycle.beside = { slave.beginCycle with reqFIFO := .empty } := by
      simp only [WiredInCycle.beside, beginCycle, KKAvalonSlave.beginCycle, represents.cliReq_eq,
        represents.kk_eq]
    rw [wiredRule_beside produces connects]
    dsimp only
    rw [beside]
    exact (rule_beside produces connects slave.beginCycle).1

theorem Represents.compiledCycle (represents : before.Represents slave)
    (step : CompiledCycle arith outside before cycle after) :
    ∃ next, MaximalCycle arith outside slave cycle next ∧ after.Represents next := by
  cases step with
  | @intro final fired wires unspecified maximal distinct produced executed =>
      obtain ⟨next, run, related⟩ := represents.execution executed distinct
      simp only [represents.guard_eq] at maximal
      rw [represents.fullReg_eq] at produced
      have step := MaximalCycle.intro wires unspecified maximal distinct produced run
      rw [← related.readdataOutValue_eq, ← related.executed_eq, ← represents.fullReg_eq] at step
      exact ⟨_, step, represents.edge related⟩

end WiredSlave

theorem CompiledCycle.wiredStep {before after : WiredSlave n} {cycle : BusTrace}
    (step : CompiledCycle arith outside before cycle after) :
    WiredStep arith outside before cycle after := by
  obtain ⟨wires, unspecified, -, distinct, produced, executed⟩ := step
  exact ⟨_, .intro wires unspecified distinct produced executed⟩

namespace MaximalCycle

variable {before after : KKAvalonSlave n} {cycle : BusTrace}

theorem scheduledCycle (step : MaximalCycle arith outside before cycle after) :
    ScheduledCycle arith outside before cycle after := by
  cases step with
  | @intro final fired wires unspecified maximal distinct produced executed =>
      refine .intro wires unspecified ⟨fun accepted vacant => ?_, fun matched => ?_,
        fun matched => ?_⟩ distinct produced executed
      · have enabled : (BusRule.rule arith outside before.reqFIFO.notFull
            (wires.request unspecified) .connection).guard before.beginCycle = true := by
          rw [BusRule.rule, Bool.and_eq_true]
          exact ⟨accepted, vacant⟩
        rcases maximal _ enabled with fires | ⟨other, -, conflict⟩
        · exact fires
        · contradiction
      · rcases maximal .processRead matched with fires | ⟨other, -, conflict⟩
        · exact fires
        · contradiction
      · rcases maximal .processWrite matched with fires | ⟨other, fires, conflict⟩
        · exact .inl fires
        · obtain rfl | rfl := BusRule.conflicts_processWrite conflict
          · exact .inr (.inl fires)
          · exact .inr (.inr fires)

theorem busCycle (step : MaximalCycle arith outside before cycle after) :
    BusCycle arith outside before cycle after :=
  step.scheduledCycle.busCycle

end MaximalCycle

namespace InCycle

variable {before after : InCycle n} {ready : Bool} {request : Option (AvalonRequest 18 32)}
  {label : BusRule} {fired : List BusRule}

theorem executed_suffix
    (fired : Fires (BusRule.rule arith outside ready request) before label after) :
    ∃ more, after.executed = before.executed ++ more ∧
      (label = .processWrite → ∃ request ∈ more, request.command = .write) := by
  obtain ⟨guard, rfl⟩ := fired
  cases label with
  | produceRequest => cases request <;> exact ⟨[], (List.append_nil _).symm, by simp⟩
  | connection =>
      obtain ⟨request, first, -⟩ := first_of_connection guard
      rw [connection_action first]
      exact ⟨[], (List.append_nil _).symm, by simp⟩
  | processRead =>
      obtain ⟨request, first, -⟩ := first_of_matches guard
      rw [processRead_action first]
      exact ⟨[request], rfl, by simp⟩
  | processWrite =>
      obtain ⟨request, first, isWrite⟩ := first_of_matches guard
      rw [processWrite_action first]
      exact ⟨[request], rfl, fun _ => ⟨request, List.mem_singleton_self _, isWrite⟩⟩
  | kk rule => exact ⟨[], (List.append_nil _).symm, by simp⟩

theorem notMem_of_reads
    (executed : Execution (Fires (BusRule.rule arith outside ready request)) before fired after)
    (reads : ∀ request ∈ after.executed, request.command = .read) : .processWrite ∉ fired := by
  have prefixed {source target : InCycle n} {labels : List BusRule}
      (run : Execution (Fires (BusRule.rule arith outside ready request)) source labels target) :
      source.executed <+: target.executed := by
    induction run with
    | nil => exact List.prefix_rfl
    | cons step _ induction =>
        obtain ⟨more, moved, -⟩ := executed_suffix step
        exact (moved ▸ List.prefix_append _ more).trans induction
  induction executed with
  | nil => exact List.not_mem_nil
  | @cons before middle after label fired step rest induction =>
      rw [List.mem_cons, not_or]
      refine ⟨fun processes => ?_, induction reads⟩
      obtain ⟨more, moved, writes⟩ := executed_suffix step
      obtain ⟨request, member, isWrite⟩ := writes processes.symm
      have kept := (prefixed rest).subset (moved ▸ List.mem_append_right _ member)
      rw [reads request kept] at isWrite
      contradiction

theorem firingsLeft_of_cycle (positive : 1 ≤ n)
    (executed : Execution (Fires (BusRule.rule arith outside ready request)) before fired after)
    (unwritten : .processWrite ∉ fired) :
    after.kk.firingsLeft + (fired.map BusRule.advance).sum = before.kk.firingsLeft := by
  induction executed with
  | nil => rfl
  | @cons before middle after label fired step _ induction =>
      rw [List.mem_cons, not_or] at unwritten
      obtain ⟨first, rest⟩ := unwritten
      have moved : middle.kk.firingsLeft + label.advance = before.kk.firingsLeft := by
        by_cases reads : label = .processRead
        · subst reads
          obtain ⟨guard, rfl⟩ := step
          obtain ⟨request, held, -⟩ := first_of_matches guard
          rw [processRead_action held]
          rfl
        · have idle : label.processes = false := by
            cases label <;> first | rfl | contradiction
          exact (closer_of_fires positive step idle).1
      have movedRest := induction rest
      rw [List.map_cons, List.sum_cons]
      omega

end InCycle

namespace MaximalCycle

variable {before after : KKAvalonSlave n} {cycle : BusTrace}

/-- In a cycle which processes no write a run comes closer to its end. -/
theorem firingsLeft_lt (positive : 1 ≤ n) (step : MaximalCycle arith outside before cycle after)
    (reads : ∀ request ∈ cycle.executed, request.command = .read) :
    after.kk.firingsLeft ≤ before.kk.firingsLeft ∧
      (before.kk.isRunning = true → after.kk.firingsLeft < before.kk.firingsLeft) := by
  cases step with
  | @intro final fired wires unspecified maximal distinct produced executed =>
      have unwritten := InCycle.notMem_of_reads executed reads
      have moved := InCycle.firingsLeft_of_cycle positive executed unwritten
      change final.kk.firingsLeft + _ = before.kk.firingsLeft at moved
      refine ⟨Nat.le_of_add_right_le moved.le, fun running => ?_⟩
      obtain ⟨rule, after, one, enabled, -⟩ := exists_advance arith running
      have fires : .kk rule ∈ fired := by
        rcases maximal (.kk rule) enabled with fires | ⟨other, fires, conflict⟩
        · exact fires
        · have processes : other = .processWrite := by
            cases other <;> cases rule <;> first | rfl | contradiction
          exact absurd (processes ▸ fires) unwritten
      have taken : rule.advance ≤ (fired.map BusRule.advance).sum :=
        List.single_le_sum (fun _ _ => Nat.zero_le _) _
          (List.mem_map_of_mem (f := BusRule.advance) fires)
      omega

end MaximalCycle

/-- Without writes an idle accelerator stays as it is, and every read is answered from it. -/
theorem idle_service {before after : KKIteration n (BitVec 32)} {service : List ServiceLabel}
    (served : Execution (ServiceStep arith outside) before service after)
    (idle : before.isRunning = false)
    (reads : ∀ request ∈ requestsOf service, request.command = .read) :
    after = before ∧ responsesOf service =
      (requestsOf service).map fun request => processRead outside request.addr before := by
  induction served with
  | nil => exact ⟨rfl, rfl⟩
  | cons step _ induction =>
      cases step with
      | rule fired =>
          have running := isRunning_of_fires fired
          rw [idle] at running
          contradiction
      | write isWrite =>
          have isRead := reads _ List.mem_cons_self
          rw [isWrite] at isRead
          contradiction
      | read isRead =>
          obtain ⟨same, responses⟩ :=
            induction idle fun request member => reads request (List.mem_cons_of_mem _ member)
          rw [requestsOf_read, responsesOf_read, List.map_cons, processRead_eq_read, responses]
          exact ⟨same, rfl⟩

namespace KKAvalonSlave

variable {before after : KKAvalonSlave n} {cycle : BusTrace}

/-- How many cycles it may take until no request waits. -/
def waiting (slave : KKAvalonSlave n) : ℕ :=
  if slave.pending = [] then 0 else (slave.pending.length - 1) * (n + 3) + slave.delay + 1

theorem waiting_le {slave : KKAvalonSlave n} (bound : slave.kk.firingsLeft ≤ n + 1) :
    slave.waiting ≤ slave.pending.length * (n + 3) := by
  rw [waiting]
  split
  · exact Nat.zero_le _
  · next waits =>
      obtain ⟨others, length⟩ := Nat.exists_eq_succ_of_ne_zero (mt List.length_eq_zero_iff.mp waits)
      have soon := slave.delay_le
      rw [length, Nat.succ_sub_one, Nat.succ_mul]
      omega

theorem waiting_le_three {slave : KKAvalonSlave n} (bound : slave.kk.firingsLeft ≤ n + 1) :
    slave.waiting ≤ 3 * (n + 3) :=
  (waiting_le bound).trans (Nat.mul_le_mul_right _ slave.length_pending_le)

/-- Unless a request is accepted, those that wait come closer to their turn. -/
theorem waiting_lt (positive : 1 ≤ n) (step : ScheduledCycle arith outside before cycle after)
    (bound : before.kk.firingsLeft ≤ n + 1) (unaccepted : cycle.accepted = [])
    (waits : before.pending ≠ []) : after.waiting < before.waiting := by
  have conserved := pending_of_cycle step.busCycle
  rw [unaccepted, List.append_nil] at conserved
  have some := List.length_pos_iff.mpr waits
  have soon := waiting_le (step.firingsLeft_le positive bound)
  by_cases unserved : cycle.executed = []
  · rw [unserved, List.nil_append] at conserved
    rcases served_or_closer positive waits step with served | ⟨waits', closer⟩
    · exact absurd unserved served
    · rw [waiting, waiting, if_neg waits, if_neg waits', conserved]
      omega
  · have served := List.length_pos_iff.mpr unserved
    have lengths := congrArg List.length conserved
    rw [List.length_append] at lengths
    have fewer : after.pending.length * (n + 3) ≤ (before.pending.length - 1) * (n + 3) :=
      Nat.mul_le_mul_right _ (by omega)
    rw [waiting.eq_1 before, if_neg waits]
    omega

theorem waiting_le_of_unaccepted (positive : 1 ≤ n)
    (step : ScheduledCycle arith outside before cycle after)
    (bound : before.kk.firingsLeft ≤ n + 1) (unaccepted : cycle.accepted = []) :
    after.waiting ≤ before.waiting := by
  by_cases waits : before.pending = []
  · have conserved := pending_of_cycle step.busCycle
    rw [unaccepted, waits, List.append_nil] at conserved
    have empty := (List.append_eq_nil_iff.mp conserved.symm).2
    rw [waiting, if_pos empty]
    exact Nat.zero_le _
  · exact (waiting_lt positive step bound unaccepted waits).le

end KKAvalonSlave

theorem exists_firedRules (arith : Arith (BitVec 32)) (kk : KKIteration n (BitVec 32)) :
    ∃ rules after, Execution (KKFires arith) kk rules after ∧ rules.Nodup ∧
      (kk.isRunning = true → KKRule.init ∈ rules ∨ KKRule.iterate ∈ rules) ∧
      ∀ rule, (KKRule.rule arith rule).guard kk = true → rule ∈ rules := by
  cases running : kk.isRunning with
  | false =>
      refine ⟨[], kk, .nil kk, List.nodup_nil, fun busy => by contradiction,
        fun rule enabled => ?_⟩
      have busy := isRunning_of_fires (fires_action enabled)
      rw [running] at busy
      contradiction
  | true =>
      have exclusive := init_guard_eq_not_iterate arith running
      cases ready : (KKIteration.iterate arith).guard kk with
      | false =>
          rw [ready, Bool.not_false] at exclusive
          refine ⟨[.init], _, .single (fires_action exclusive), List.nodup_singleton _,
            fun _ => .inl List.mem_cons_self, fun rule enabled => ?_⟩
          cases rule with
          | init => exact List.mem_cons_self
          | iterate => exact absurd (ready.symm.trans enabled) Bool.false_ne_true
          | countCycles => exact absurd (ready.symm.trans enabled) Bool.false_ne_true
          | checkDivZero => exact absurd (ready.symm.trans enabled) Bool.false_ne_true
      | true =>
          rw [ready, Bool.not_true] at exclusive
          refine ⟨[.checkDivZero, .countCycles, .iterate], _,
            execution_of_stayEnabled ⟨ready, ready, ready, trivial⟩, by simp,
            fun _ => .inr (by simp), fun rule enabled => ?_⟩
          cases rule with
          | init => exact absurd (exclusive.symm.trans enabled) Bool.false_ne_true
          | iterate => simp
          | countCycles => simp
          | checkDivZero => simp

theorem fifo_of_fires {request : Option (AvalonRequest 18 32)} {before after : WiredInCycle n}
    {label : BusRule} (fired : Fires (wiredRule arith outside request) before label after) :
    after.fifo = before.fifo := by
  obtain ⟨-, rfl⟩ := fired
  cases label with
  | produceRequest => cases request <;> rfl
  | connection | processRead | processWrite | kk rule => rfl

theorem fifo_of_execution {request : Option (AvalonRequest 18 32)} {before after : WiredInCycle n}
    {fired : List BusRule} (run : Execution (Fires (wiredRule arith outside request)) before fired
      after) : after.fifo = before.fifo := by
  induction run with
  | nil => rfl
  | cons step _ induction => exact induction.trans (fifo_of_fires step)

/-- Whatever the master drives, the rules of a cycle can be scheduled. -/
theorem exists_compiledCycle (arith : Arith (BitVec 32))
    (outside : Matrix (Fin n) (Fin n) (BitVec 32) → BitVec 32 → BitVec 32 → BitVec 32)
    (before : WiredSlave n) (wires : SlaveWires 18 32) :
    ∃ cycle after, CompiledCycle arith outside before cycle after ∧ cycle.wires = wires := by
  let rules : BusRule → Rule (WiredInCycle n) := wiredRule arith outside (wires.request 0)
  obtain ⟨ran, kk, executed, distinct, busy, complete⟩ := exists_firedRules arith before.kk
  have first : Execution (Fires rules) before.beginCycle (ran.map .kk)
      { before.beginCycle with kk := kk } :=
    executed.map (fun kk => { before.beginCycle with kk := kk }) BusRule.kk
      fun step => ⟨step.1, by rw [step.2]; rfl⟩
  have guards (label : BusRule) (turn : label.takes before.fifo.emptyReg before.cliReq = true) :
      (rules label).guard { before.beginCycle with kk := kk } = true := by
    cases label with
    | connection | processRead | processWrite => exact turn
    | produceRequest | kk rule => contradiction
  -- `processWrite` is left out while the accelerator runs.
  obtain ⟨taken, middle, second, distinct', turns, fetched⟩ :=
    BusRule.exists_taken (fun label => before.kk.isRunning && label == .processWrite) guards
  have separate : (ran.map BusRule.kk ++ taken).Nodup := by
    refine (distinct.map fun _ _ => BusRule.kk.inj).append distinct' ?_
    rintro label inRun inTaken
    obtain ⟨rule, -, rfl⟩ := List.mem_map.mp inRun
    cases turns _ inTaken
  have absent : .produceRequest ∉ ran.map BusRule.kk ++ taken := by
    rw [List.mem_append, not_or]
    exact ⟨by simp, fun member => by cases turns _ member⟩
  have unchanged := fifo_of_execution (first.append second)
  obtain ⟨fired, final, run, separate', produced, kept⟩ :=
    BusRule.exists_produced (first.append second) separate absent (congrArg FIFO2.fullReg unchanged)
  refine ⟨_, _, .intro wires 0 (fun label enabled => ?_) separate' produced run, rfl⟩
  have fires (turn : label.takes before.fifo.emptyReg before.cliReq = true)
      (other : label ≠ .processWrite) : label ∈ fired := by
    rcases fetched label turn with blocked | member
    · simp [other] at blocked
    · exact kept (List.mem_append_right _ member)
  cases label with
  | produceRequest => exact .inl (produced.mpr enabled)
  | connection => exact .inl (fires enabled (by simp))
  | processRead => exact .inl (fires enabled (by simp))
  | kk rule =>
      exact .inl (kept (List.mem_append_left _ (List.mem_map_of_mem (complete rule enabled))))
  | processWrite =>
      rcases fetched .processWrite enabled with blocked | member
      · rw [Bool.and_eq_true] at blocked
        right
        rcases busy blocked.1 with init | iterate
        · exact ⟨_, kept (List.mem_append_left _ (List.mem_map_of_mem init)), rfl⟩
        · exact ⟨_, kept (List.mem_append_left _ (List.mem_map_of_mem iterate)), rfl⟩
      · exact .inl (kept (List.mem_append_right _ member))

namespace OnBus

variable {κ : Type*} {client : Client κ (AvalonRequest 18 32) (BitVec 32)}

/-- A client can go on at once, if what it asks leaves no data of a read unspecified. -/
theorem exists_step
    (normal : ∀ point request, client.asks point = some request → request.observed = request)
    (arith : Arith (BitVec 32))
    (outside : Matrix (Fin n) (Fin n) (BitVec 32) → BitVec 32 → BitVec 32 → BitVec 32)
    (state : ClientState κ) (before : WiredSlave n) :
    ∃ cycle next,
      OnBus client (CompiledCycle arith outside) (state, before) (cycle, false) next := by
  let asked : Option (AvalonRequest 18 32) :=
    if state.awaiting then none else client.asks state.point
  obtain ⟨cycle, after, step, driven⟩ :=
    exists_compiledCycle arith outside before ((handleReq 18 asked).narrow 18)
  have observed := request_handleReq le_rfl asked cycle.unspecified
  rw [← driven] at observed
  refine ⟨cycle, _, .intro step (fun request asserted => ?_) ?_⟩
  · rw [asserted, Option.map_some] at observed
    cases awaiting : state.awaiting with
    | true => simp [asked, awaiting] at observed
    | false =>
        simp only [asked, awaiting, Bool.false_eq_true, if_false] at observed
        obtain ⟨request', made, same⟩ := Option.map_eq_some_iff.mp observed.symm
        rw [normal _ _ made] at same
        exact ⟨rfl, same ▸ made⟩
  · refine ⟨fun thinks => by contradiction, fun ⟨free, asks, silent⟩ => ?_⟩
    rw [silent, Option.map_none] at observed
    simp only [asked, free, Bool.false_eq_true, if_false] at observed
    rw [Option.map_eq_none_iff.mp observed.symm] at asks
    contradiction

theorem exists_run
    (normal : ∀ point request, client.asks point = some request → request.observed = request)
    (arith : Arith (BitVec 32))
    (outside : Matrix (Fin n) (Fin n) (BitVec 32) → BitVec 32 → BitVec 32 → BitVec 32)
    (source : ClientState κ × WiredSlave n) (length : ℕ) :
    ∃ trace target, Execution (OnBus client (CompiledCycle arith outside)) source trace target ∧
      trace.length = length ∧ trace.countP Prod.snd = 0 := by
  induction length generalizing source with
  | zero => exact ⟨[], source, .nil source, rfl, rfl⟩
  | succ length induction =>
      obtain ⟨cycle, middle, step⟩ := exists_step normal arith outside source.1 source.2
      obtain ⟨trace, target, rest, counted, quick⟩ := induction middle
      exact ⟨(cycle, false) :: trace, target, .cons step rest, congrArg (· + 1) counted, quick⟩

end OnBus

end KKAccel
