import KKAccel.BusService
import KKAccel.FIFO2

/-!
# The slave over the Verilog FIFO

In the compiled slave the request queue is an instance of `FIFO2`. The rules drive its inputs
during a cycle and see the outputs which it had when the cycle began; the registers move at the
edge of the clock. Every run of this design is one of the rules over a queue.
-/

namespace KKAccel

open AtomicRules

variable {n : ℕ}

namespace AvalonRequest

/-- The word which the FIFO holds: address, data and command, as the type derives its bits. -/
def pack (request : AvalonRequest 18 32) : BitVec 51 :=
  request.addr ++ request.data ++ BitVec.ofBool (request.command == .write)

/-- The request in a word. -/
def unpack (word : BitVec 51) : AvalonRequest 18 32 where
  addr := word.extractLsb' 33 18
  data := word.extractLsb' 1 32
  command := if word.getLsbD 0 then .write else .read

@[simp]
theorem unpack_pack (request : AvalonRequest 18 32) : unpack request.pack = request := by
  obtain ⟨addr, data, command⟩ := request
  have addr_eq : (addr ++ data ++ BitVec.ofBool (command == .write)).extractLsb' 33 18 = addr := by
    ext i bound
    simp only [BitVec.getElem_extractLsb', BitVec.getLsbD_append]
    rw [if_neg (by omega), if_neg (by omega), BitVec.getLsbD_eq_getElem (by omega)]
    congr 1
    omega
  have data_eq : (addr ++ data ++ BitVec.ofBool (command == .write)).extractLsb' 1 32 = data := by
    ext i bound
    simp only [BitVec.getElem_extractLsb', BitVec.getLsbD_append]
    rw [if_neg (by omega), if_pos (by omega), BitVec.getLsbD_eq_getElem (by omega)]
    congr 1
    omega
  have command_eq : (addr ++ data ++ BitVec.ofBool (command == .write)).getLsbD 0 =
      (command == .write) := by
    simp only [BitVec.getLsbD_append, BitVec.getLsbD_ofBool]
    simp
  rw [unpack, pack, addr_eq, data_eq, command_eq]
  cases command <;> rfl

end AvalonRequest

/-- The registers of the slave, with the FIFO in place of the request queue. -/
structure WiredSlave (n : ℕ) where
  fifo : FIFO2 51
  cliReq : BoundedQueue (AvalonRequest 18 32) 1
  kk : KKIteration n (BitVec 32)

/-- The slave during a cycle, in which the registers of the FIFO stand still. -/
structure WiredInCycle (n : ℕ) extends WiredSlave n where
  /-- The inputs of the FIFO which the rules drive. -/
  enq : Bool
  dIn : BitVec 51
  deq : Bool
  readdataOutValue : Option (BitVec 32)
  /-- The requests processed so far in this cycle, recorded for the statements only. -/
  executed : List (AvalonRequest 18 32)

namespace WiredSlave

/-- A reset clears the flags of the FIFO, whatever it held. -/
def reset (fifo : FIFO2 51) (kk : KKIteration n (BitVec 32)) : WiredSlave n where
  fifo := fifo.clockEdge { rst := false, dIn := 0, enq := false, deq := false, clr := false }
  cliReq := .empty
  kk := kk

def beginCycle (slave : WiredSlave n) : WiredInCycle n where
  toWiredSlave := slave
  enq := false
  dIn := 0
  deq := false
  readdataOutValue := none
  executed := []

end WiredSlave

namespace WiredInCycle

/-- The parts of the slave beside the request queue. -/
def beside (slave : WiredInCycle n) : InCycle n where
  reqFIFO := .empty
  cliReq := slave.cliReq
  kk := slave.kk
  readdataOutValue := slave.readdataOutValue
  executed := slave.executed

/-- The slave with these parts replaced. -/
def withBeside (slave : WiredInCycle n) (beside : InCycle n) : WiredInCycle n :=
  { slave with
    cliReq := beside.cliReq
    kk := beside.kk
    readdataOutValue := beside.readdataOutValue
    executed := beside.executed }

/-- The inputs of the FIFO at the edge which ends the cycle. -/
def inputs (slave : WiredInCycle n) : FIFO2.Inputs 51 where
  rst := true
  dIn := slave.dIn
  enq := slave.enq
  deq := slave.deq
  clr := false

end WiredInCycle

section Cycles

variable (arith : Arith (BitVec 32))
  (outside : Matrix (Fin n) (Fin n) (BitVec 32) → BitVec 32 → BitVec 32 → BitVec 32)

/-- The rules over the FIFO. Those which do not touch the request queue act as before. -/
def wiredRule (request : Option (AvalonRequest 18 32)) : BusRule → Rule (WiredInCycle n)
  | .produceRequest =>
      { guard := fun slave => slave.fifo.fullReg
        action := fun slave =>
          match request with
          | some request => { slave with enq := true, dIn := request.pack }
          | none => slave }
  | .connection =>
      { guard := fun slave => slave.fifo.emptyReg && slave.cliReq.notFull
        action := fun slave =>
          { slave with
            deq := true
            cliReq := slave.cliReq.enq (.unpack slave.fifo.data0Reg) } }
  | label =>
      let rule := BusRule.rule arith outside false none label
      { guard := fun slave => rule.guard slave.beside
        action := fun slave => slave.withBeside (rule.action slave.beside) }

/-- One clock cycle, with what can be observed of the slave and of the FIFO in it. -/
inductive WiredCycle : WiredSlave n → BusTrace × FIFO2.Cycle 51 → WiredSlave n → Prop
  | intro {before : WiredSlave n} {final : WiredInCycle n} {fired : List BusRule}
      (wires : SlaveWires 18 32) (unspecified : BitVec 32) :
      fired.Nodup →
      (.produceRequest ∈ fired ↔ before.fifo.fullReg = true) →
      Execution (Fires (wiredRule arith outside (wires.request unspecified))) before.beginCycle
        fired final →
      WiredCycle before
        ({ wires := wires
           unspecified := unspecified
           waitrequest := !before.fifo.fullReg
           readdatavalid := final.readdataOutValue.isSome
           readdata := final.readdataOutValue.getD 0
           executed := final.executed },
          before.fifo.observe true final.inputs)
        { final.toWiredSlave with fifo := before.fifo.clockEdge final.inputs }

end Cycles

/-! ## The relation to the rules over a queue -/

/-- The FIFO holds the requests of the queue, and everything else is the same. -/
structure WiredSlave.Represents (wired : WiredSlave n) (slave : KKAvalonSlave n) : Prop where
  contents_eq : wired.fifo.contents = slave.reqFIFO.items.map AvalonRequest.pack
  valid : wired.fifo.emptyReg = true ∨ wired.fifo.fullReg = true
  cliReq_eq : wired.cliReq = slave.cliReq
  kk_eq : wired.kk = slave.kk

/-- During a cycle the queue is ahead of the FIFO by what the inputs will move. -/
structure Related (fifo : FIFO2 51) (wired : WiredInCycle n) (slave : InCycle n) : Prop where
  fifo_eq : wired.fifo = fifo
  moved : fifo.contents ++ (if wired.enq then [wired.dIn] else []) =
    (if wired.deq then [fifo.data0Reg] else []) ++ slave.reqFIFO.items.map AvalonRequest.pack
  takes : wired.deq = true → fifo.emptyReg = true
  puts : wired.enq = true → fifo.fullReg = true
  cliReq_eq : wired.cliReq = slave.cliReq
  kk_eq : wired.kk = slave.kk
  readdataOutValue_eq : wired.readdataOutValue = slave.readdataOutValue
  executed_eq : wired.executed = slave.executed

section Simulation

variable {arith : Arith (BitVec 32)}
  {outside : Matrix (Fin n) (Fin n) (BitVec 32) → BitVec 32 → BitVec 32 → BitVec 32}
  {fifo : FIFO2 51} {wired after : WiredInCycle n} {slave : InCycle n} {ready : Bool}
  {request : Option (AvalonRequest 18 32)} {label : BusRule} {fired : List BusRule}

theorem Related.beside_eq (related : Related fifo wired slave) :
    wired.beside = { slave with reqFIFO := .empty } := by
  obtain ⟨-, -, -, -, cliReq_eq, kk_eq, readdataOutValue_eq, executed_eq⟩ := related
  simp only [WiredInCycle.beside, cliReq_eq, kk_eq, readdataOutValue_eq, executed_eq]

theorem rule_beside (produces : label ≠ .produceRequest) (connects : label ≠ .connection)
    (slave : InCycle n) :
    ((BusRule.rule arith outside false none label).guard { slave with reqFIFO := .empty } =
        (BusRule.rule arith outside ready request label).guard slave) ∧
      (BusRule.rule arith outside false none label).action { slave with reqFIFO := .empty } =
        { (BusRule.rule arith outside ready request label).action slave with reqFIFO := .empty } ∧
      ((BusRule.rule arith outside ready request label).action slave).reqFIFO = slave.reqFIFO := by
  cases label with
  | produceRequest => exact absurd rfl produces
  | connection => exact absurd rfl connects
  | processRead =>
      refine ⟨rfl, ?_⟩
      cases first : slave.cliReq.first? <;> simp [BusRule.rule, first]
  | processWrite =>
      refine ⟨rfl, ?_⟩
      cases first : slave.cliReq.first? <;> simp [BusRule.rule, first]
  | kk rule => exact ⟨rfl, rfl, rfl⟩

theorem wiredRule_beside (produces : label ≠ .produceRequest) (connects : label ≠ .connection) :
    wiredRule arith outside request label =
      { guard := fun slave => (BusRule.rule arith outside false none label).guard slave.beside
        action := fun slave => slave.withBeside
          ((BusRule.rule arith outside false none label).action slave.beside) } := by
  cases label with
  | produceRequest => exact absurd rfl produces
  | connection => exact absurd rfl connects
  | _ => rfl

theorem Related.first_eq (related : Related fifo wired slave) (untaken : wired.deq = false)
    (nonempty : fifo.emptyReg = true) :
    slave.reqFIFO.first? = some (.unpack fifo.data0Reg) := by
  obtain ⟨held, contents⟩ := FIFO2.exists_contents_eq nonempty
  have moved := related.moved
  rw [untaken, contents] at moved
  cases items : slave.reqFIFO.items with
  | nil => simp [items] at moved
  | cons first rest =>
      rw [items] at moved
      have head : fifo.data0Reg = first.pack := List.head_eq_of_cons_eq moved
      rw [BoundedQueue.first?, items, head, AvalonRequest.unpack_pack]
      rfl

/-- A rule over the FIFO is the same rule over the queue, if each input is driven once. -/
theorem Related.fires (related : Related fifo wired slave)
    (fired : Fires (wiredRule arith outside request) wired label after)
    (undriven : label = .produceRequest → wired.enq = false)
    (untaken : label = .connection → wired.deq = false) :
    ∃ next, Fires (BusRule.rule arith outside fifo.fullReg request) slave label next ∧
      Related fifo after next ∧
      (label ≠ .produceRequest → after.enq = wired.enq) ∧
      (label ≠ .connection → after.deq = wired.deq) := by
  obtain ⟨guard, rfl⟩ := fired
  by_cases produces : label = .produceRequest
  · subst produces
    have room : fifo.fullReg = true := related.fifo_eq ▸ guard
    cases request with
    | none => exact ⟨slave, ⟨room, rfl⟩, related, fun _ => rfl, fun _ => rfl⟩
    | some request =>
        have moved := related.moved
        rw [undriven rfl] at moved
        have vacant : slave.reqFIFO.notFull = true := by
          rw [BoundedQueue.notFull, decide_eq_true_iff]
          have lengths := congrArg List.length moved
          have held := FIFO2.contents_length_lt room
          simp at lengths
          omega
        refine ⟨_, fires_action room, ?_, fun other => absurd rfl other, fun _ => rfl⟩
        exact
          { related with
            moved := by
              have extended := congrArg (· ++ [request.pack]) moved
              simp only [Bool.false_eq_true, if_false, List.append_nil, List.append_assoc]
                at extended
              simp only [BusRule.rule, BoundedQueue.items_enq vacant, List.map_append]
              exact extended
            puts := fun _ => room }
  by_cases connects : label = .connection
  · subst connects
    simp only [wiredRule, Bool.and_eq_true, related.fifo_eq, related.cliReq_eq] at guard
    obtain ⟨nonempty, vacant⟩ := guard
    have first := related.first_eq (untaken rfl) nonempty
    have moved := related.moved
    have enabled : (BusRule.rule arith outside fifo.fullReg request .connection).guard slave =
        true := by
      simp [BusRule.rule, first, vacant]
    refine ⟨_, fires_action enabled, ?_, fun _ => rfl, fun other => absurd rfl other⟩
    rw [InCycle.connection_action first]
    rw [untaken rfl, BoundedQueue.items_deq first] at moved
    have oldest : (AvalonRequest.unpack fifo.data0Reg).pack = fifo.data0Reg := by
      obtain ⟨held, contents⟩ := FIFO2.exists_contents_eq nonempty
      rw [contents] at moved
      exact (List.head_eq_of_cons_eq moved).symm
    exact
      { related with
        moved := by
          rw [List.map_cons, oldest] at moved
          exact moved
        takes := fun _ => nonempty
        cliReq_eq := by
          simp only [wiredRule, related.fifo_eq, related.cliReq_eq] }
  · obtain ⟨guard_eq, action_eq, reqFIFO_eq⟩ :=
      @rule_beside n arith outside fifo.fullReg request label produces connects slave
    rw [wiredRule_beside produces connects] at guard ⊢
    simp only [related.beside_eq, guard_eq, action_eq] at guard ⊢
    refine ⟨_, fires_action guard, ?_, fun _ => rfl, fun _ => rfl⟩
    exact
      { fifo_eq := related.fifo_eq
        moved := by
          rw [reqFIFO_eq]
          exact related.moved
        takes := related.takes
        puts := related.puts
        cliReq_eq := rfl
        kk_eq := rfl
        readdataOutValue_eq := rfl
        executed_eq := rfl }

theorem Related.execution (related : Related fifo wired slave)
    (executed : Execution (Fires (wiredRule arith outside request)) wired fired after)
    (distinct : fired.Nodup) (undriven : .produceRequest ∈ fired → wired.enq = false)
    (untaken : .connection ∈ fired → wired.deq = false) :
    ∃ next, Execution (Fires (BusRule.rule arith outside fifo.fullReg request)) slave fired next ∧
      Related fifo after next := by
  induction executed generalizing slave with
  | nil => exact ⟨slave, .nil slave, related⟩
  | @cons before middle after label fired step _ induction =>
      obtain ⟨absent, distinctLater⟩ := List.nodup_cons.mp distinct
      obtain ⟨next, fires, relatedNext, enqKept, deqKept⟩ :=
        related.fires step (fun produced => undriven (produced ▸ List.mem_cons_self))
          fun connected => untaken (connected ▸ List.mem_cons_self)
      have undrivenLater (later : .produceRequest ∈ fired) : middle.enq = false := by
        rw [enqKept fun produced => absent (produced ▸ later)]
        exact undriven (List.mem_cons_of_mem _ later)
      have untakenLater (later : .connection ∈ fired) : middle.deq = false := by
        rw [deqKept fun connected => absent (connected ▸ later)]
        exact untaken (List.mem_cons_of_mem _ later)
      obtain ⟨final, rest, relatedFinal⟩ :=
        induction relatedNext distinctLater undrivenLater untakenLater
      exact ⟨final, .cons fires rest, relatedFinal⟩

end Simulation

namespace WiredSlave

variable {arith : Arith (BitVec 32)}
  {outside : Matrix (Fin n) (Fin n) (BitVec 32) → BitVec 32 → BitVec 32 → BitVec 32}
  {before after : WiredSlave n} {slave : KKAvalonSlave n}

theorem Represents.fifo (represents : before.Represents slave) :
    ∃ words : BoundedQueue (BitVec 51) 2, before.fifo.Represents words ∧
      words.items = slave.reqFIFO.items.map AvalonRequest.pack :=
  ⟨⟨slave.reqFIFO.items.map AvalonRequest.pack, by
      rw [List.length_map]
      exact slave.reqFIFO.bounded⟩,
    ⟨represents.contents_eq, represents.valid⟩, rfl⟩

theorem Represents.fullReg_eq (represents : before.Represents slave) :
    before.fifo.fullReg = slave.reqFIFO.notFull := by
  obtain ⟨words, fifo, items⟩ := represents.fifo
  rw [fifo.fullReg_eq, BoundedQueue.notFull, BoundedQueue.notFull, items, List.length_map]

theorem Represents.emptyReg_eq (represents : before.Represents slave) :
    before.fifo.emptyReg = slave.reqFIFO.first?.isSome := by
  obtain ⟨words, fifo, items⟩ := represents.fifo
  rw [fifo.emptyReg_eq, BoundedQueue.first?, BoundedQueue.first?, items]
  cases slave.reqFIFO.items <;> rfl

theorem represents_reset (fifo : FIFO2 51) (kk : KKIteration n (BitVec 32)) :
    (reset fifo kk).Represents (.reset kk) := by
  obtain ⟨contents_eq, valid⟩ := FIFO2.represents_of_discards fifo
    (show (!(FIFO2.Inputs.mk false (0 : BitVec 51) false false false).rst || false) = true from rfl)
  exact ⟨contents_eq, valid, rfl, rfl⟩

/-- The rules that fire in a cycle over the FIFO can fire over the queue. -/
theorem Represents.execution {request : Option (AvalonRequest 18 32)} {fired : List BusRule}
    {final : WiredInCycle n} (represents : before.Represents slave)
    (executed : Execution (Fires (wiredRule arith outside request)) before.beginCycle fired final)
    (distinct : fired.Nodup) :
    ∃ next, Execution (Fires (BusRule.rule arith outside slave.reqFIFO.notFull request))
        slave.beginCycle fired next ∧
      Related before.fifo final next := by
  have started : Related before.fifo before.beginCycle slave.beginCycle :=
    { fifo_eq := rfl
      moved := by simpa [beginCycle, KKAvalonSlave.beginCycle] using represents.contents_eq
      takes := fun taken => absurd taken Bool.false_ne_true
      puts := fun driven => absurd driven Bool.false_ne_true
      cliReq_eq := represents.cliReq_eq
      kk_eq := represents.kk_eq
      readdataOutValue_eq := rfl
      executed_eq := rfl }
  obtain ⟨next, run, related⟩ := started.execution executed distinct (fun _ => rfl) fun _ => rfl
  rw [represents.fullReg_eq] at run
  exact ⟨next, run, related⟩

/-- At the edge the FIFO takes over what the queue has moved. -/
theorem Represents.edge {final : WiredInCycle n} {next : InCycle n}
    (represents : before.Represents slave) (related : Related before.fifo final next) :
    ({ final.toWiredSlave with fifo := before.fifo.clockEdge final.inputs } :
      WiredSlave n).Represents next.toKKAvalonSlave := by
  obtain ⟨moved, valid⟩ := @FIFO2.contents_clockEdge 51 before.fifo final.inputs
    represents.valid rfl related.takes fun driven => .inl (related.puts driven)
  exact ⟨List.append_cancel_left (moved.symm.trans related.moved), valid, related.cliReq_eq,
    related.kk_eq⟩

/-- A cycle over the FIFO is a cycle over the queue, and the FIFO displays no warning in it. -/
theorem Represents.cycle {trace : BusTrace × FIFO2.Cycle 51} (represents : before.Represents slave)
    (cycle : WiredCycle arith outside before trace after) :
    ∃ next, BusCycle arith outside slave trace.1 next ∧ after.Represents next ∧
      trace.2.Silent := by
  cases cycle with
  | @intro final fired wires unspecified distinct produced executed =>
      obtain ⟨next, run, related⟩ := represents.execution executed distinct
      rw [represents.fullReg_eq] at produced
      have cycle := BusCycle.intro wires unspecified distinct produced run
      rw [← related.readdataOutValue_eq, ← related.executed_eq, ← represents.fullReg_eq] at cycle
      refine ⟨_, cycle, represents.edge related, ?_⟩
      have takes := related.takes
      have puts := related.puts
      constructor
      · cases taken : final.deq <;>
          simp_all [FIFO2.observe, FIFO2.deqError, WiredInCycle.inputs]
      · cases driven : final.enq <;>
          simp_all [FIFO2.observe, FIFO2.enqError, WiredInCycle.inputs]

theorem Represents.run {trace : List (BusTrace × FIFO2.Cycle 51)}
    (represents : before.Represents slave)
    (run : Execution (WiredCycle arith outside) before trace after) :
    ∃ final, Execution (BusCycle arith outside) slave (trace.map Prod.fst) final ∧
      after.Represents final ∧ ∀ cycle ∈ trace, cycle.2.Silent := by
  induction run generalizing slave with
  | nil => exact ⟨slave, .nil slave, represents, fun _ member => absurd member List.not_mem_nil⟩
  | cons cycle _ induction =>
      obtain ⟨next, step, representsNext, silent⟩ := represents.cycle cycle
      obtain ⟨final, rest, representsFinal, silentRest⟩ := induction representsNext
      exact ⟨final, .cons step rest, representsFinal,
        List.forall_mem_cons.mpr ⟨silent, silentRest⟩⟩

/-- The requests which have been accepted but not yet processed. -/
def pending (slave : WiredSlave n) : List (AvalonRequest 18 32) :=
  slave.cliReq.items ++ slave.fifo.contents.map .unpack

theorem Represents.pending_eq (represents : before.Represents slave) :
    before.pending = slave.pending := by
  have held : before.fifo.contents.map AvalonRequest.unpack = slave.reqFIFO.items := by
    rw [represents.contents_eq, List.map_map]
    exact (List.map_congr_left fun request _ => AvalonRequest.unpack_pack request).trans
      (List.map_id _)
  rw [pending, KKAvalonSlave.pending, held, represents.cliReq_eq]

end WiredSlave

/-- Whatever the FIFO held before the reset and in whatever order the rules fire: the design over
the Verilog FIFO does on the bus what the rules over a queue do, cycle by cycle; the FIFO never
displays a warning; and the accepted requests are the processed ones, followed by the one to be
processed and those which the registers of the FIFO hold. -/
theorem wiredSlave_refines (arith : Arith (BitVec 32))
    (outside : Matrix (Fin n) (Fin n) (BitVec 32) → BitVec 32 → BitVec 32 → BitVec 32)
    (fifo : FIFO2 51) (kk : KKIteration n (BitVec 32)) {trace : List (BusTrace × FIFO2.Cycle 51)}
    {after : WiredSlave n}
    (run : Execution (WiredCycle arith outside) (.reset fifo kk) trace after) :
    (∃ final, Execution (BusCycle arith outside) (.reset kk) (trace.map Prod.fst) final ∧
      after.Represents final) ∧
    (∀ cycle ∈ trace, cycle.2.Silent) ∧
    (trace.map Prod.fst).flatMap BusTrace.accepted =
      (trace.map Prod.fst).flatMap BusTrace.executed ++ after.cliReq.items ++
        after.fifo.contents.map .unpack := by
  obtain ⟨final, simulated, represents, silent⟩ :=
    (WiredSlave.represents_reset fifo kk).run run
  refine ⟨⟨final, simulated, represents⟩, silent, ?_⟩
  have conserved := KKAvalonSlave.pending_of_run simulated
  rw [← represents.pending_eq, WiredSlave.pending] at conserved
  rw [List.append_assoc]
  exact conserved

/-- The cycle over the FIFO in which the given rules fire, one after another. -/
def runWiredCycle (slave : WiredSlave 2) (wires : SlaveWires 18 32) (fired : List BusRule) :
    WiredInCycle 2 :=
  fired.foldl
    (fun current label =>
      (wiredRule fixed16 (fun _ _ _ => 0) (wires.request 0) label).action current)
    slave.beginCycle

/-- A slave whose FIFO was full before the reset. -/
def usedSlave : WiredSlave 2 := .reset ⟨false, true, 7, 7⟩ (loadedRegisters 0)

/-- Its first cycle, which accepts a read of the running status. -/
def statusAccepted : WiredInCycle 2 := runWiredCycle usedSlave readStatus [.produceRequest]

def statusQueued : WiredSlave 2 :=
  { statusAccepted.toWiredSlave with fifo := usedSlave.fifo.clockEdge statusAccepted.inputs }

/-- Its second cycle, which answers the read. -/
def statusAnswered : WiredInCycle 2 :=
  runWiredCycle statusQueued quiet [.connection, .processRead, .produceRequest]

theorem execution_statusAccepted :
    Execution (Fires (wiredRule fixed16 (fun _ _ _ => 0) (readStatus.request 0)))
      usedSlave.beginCycle [.produceRequest] statusAccepted :=
  execution_of_stayEnabled ⟨rfl, trivial⟩

theorem execution_statusAnswered :
    Execution (Fires (wiredRule fixed16 (fun _ _ _ => 0) (quiet.request 0)))
      statusQueued.beginCycle [.connection, .processRead, .produceRequest] statusAnswered :=
  execution_of_stayEnabled ⟨rfl, by decide, rfl, trivial⟩

/-- A read passes the FIFO, whose registers were full before the reset. -/
theorem wiredSlave_refines_status :
    ∃ trace after,
      Execution (@WiredCycle 2 fixed16 fun _ _ _ => 0)
        (.reset ⟨false, true, 7, 7⟩ (loadedRegisters 0)) trace after ∧
      (∀ cycle ∈ trace, cycle.2.Silent) ∧
      (trace.map Prod.fst).flatMap BusTrace.response = [0] := by
  have run := Execution.cons
    (WiredCycle.intro readStatus 0 (by decide) (by decide) execution_statusAccepted)
    (.single (WiredCycle.intro quiet 0 (by decide) (by decide) execution_statusAnswered))
  exact ⟨_, _, run, (wiredSlave_refines fixed16 _ _ _ run).2.1, by decide⟩

end KKAccel
