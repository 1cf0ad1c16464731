import KKAccel.Foundation.BoundedQueue
import KKAccel.KKAvalonSlave

/-!
# The bus slave in clock cycles

`mkAvalonSlave` and `mkKKAvalonSlave`: the wires, the two request queues and the rules between
them. Whether the request queue accepts is decided when the cycle begins, so `produceRequest`,
which conflicts with no other rule, fires exactly in the cycles without `waitrequest`. The other
enabled rules fire at most once a cycle each, in any order.
-/

namespace KKAccel

open AtomicRules

variable {n : ℕ}

/-- What the master drives during a cycle; it never asserts read and write together. -/
structure SlaveWires (addressWidth dataWidth : ℕ) where
  read : Bool
  write : Bool
  address : BitVec addressWidth
  writedata : BitVec dataWidth
  exclusive : ¬ (read = true ∧ write = true)

/-- The request which `produceRequest` enqueues; the data of a read is unspecified. -/
def SlaveWires.request {addressWidth dataWidth : ℕ} (wires : SlaveWires addressWidth dataWidth)
    (unspecified : BitVec dataWidth) : Option (AvalonRequest addressWidth dataWidth) :=
  if wires.read then
    some { addr := wires.address, data := unspecified, command := .read }
  else if wires.write then
    some { addr := wires.address, data := wires.writedata, command := .write }
  else
    none

/-- The registers and queues of `mkKKAvalonSlave`. -/
structure KKAvalonSlave (n : ℕ) where
  /-- Requests accepted on the bus. -/
  reqFIFO : BoundedQueue (AvalonRequest 18 32) 2
  /-- The request to be processed. -/
  cliReq : BoundedQueue (AvalonRequest 18 32) 1
  /-- The KK iterator. -/
  kk : KKIteration n (BitVec 32)

/-- The slave during a cycle. -/
structure InCycle (n : ℕ) extends KKAvalonSlave n where
  /-- The wire which carries the response; `readdatavalid` tells whether it has been set. -/
  readdataOutValue : Option (BitVec 32)
  /-- The requests processed so far in this cycle, recorded for the statements only. -/
  executed : List (AvalonRequest 18 32)

namespace KKAvalonSlave

/-- After reset both queues are empty. -/
def reset (kk : KKIteration n (BitVec 32)) : KKAvalonSlave n where
  reqFIFO := .empty
  cliReq := .empty
  kk := kk

/-- When a cycle begins no wire has been set. -/
def beginCycle (slave : KKAvalonSlave n) : InCycle n where
  toKKAvalonSlave := slave
  readdataOutValue := none
  executed := []

end KKAvalonSlave

/-- The rules of the slave and of the accelerator in it. -/
inductive BusRule
  | produceRequest
  | connection
  | processRead
  | processWrite
  | kk (rule : KKRule)
  deriving DecidableEq

namespace BusRule

/-- The next request to be processed has this command. -/
def matchesCommand (command : MapperCommand) (slave : InCycle n) : Bool :=
  slave.cliReq.first?.any fun request => request.command == command

/-- The rule of each name, in a cycle with the given request on the bus. -/
def rule (arith : Arith (BitVec 32))
    (outside : Matrix (Fin n) (Fin n) (BitVec 32) → BitVec 32 → BitVec 32 → BitVec 32)
    (ready : Bool) (request : Option (AvalonRequest 18 32)) : BusRule → Rule (InCycle n)
  | produceRequest =>
      { guard := fun _ => ready
        action := fun slave =>
          match request with
          | some request => { slave with reqFIFO := slave.reqFIFO.enq request }
          | none => slave }
  | connection =>
      { guard := fun slave => slave.reqFIFO.first?.isSome && slave.cliReq.notFull
        action := fun slave =>
          match slave.reqFIFO.first? with
          | some request =>
              { slave with
                reqFIFO := slave.reqFIFO.deq
                cliReq := slave.cliReq.enq request }
          | none => slave }
  | processRead =>
      { guard := matchesCommand .read
        action := fun slave =>
          match slave.cliReq.first? with
          | some request =>
              { slave with
                readdataOutValue := some (KKAccel.processRead outside request.addr slave.kk)
                cliReq := slave.cliReq.deq
                executed := slave.executed ++ [request] }
          | none => slave }
  | processWrite =>
      { guard := matchesCommand .write
        action := fun slave =>
          match slave.cliReq.first? with
          | some request =>
              { slave with
                kk := KKAccel.processWrite request.addr request.data slave.kk
                cliReq := slave.cliReq.deq
                executed := slave.executed ++ [request] }
          | none => slave }
  | kk label =>
      { guard := fun slave => (KKRule.rule arith label).guard slave.kk
        action := fun slave => { slave with kk := (KKRule.rule arith label).action slave.kk } }

end BusRule

/-- What can be observed of one cycle. -/
structure BusTrace where
  /-- What the master drives. -/
  wires : SlaveWires 18 32
  /-- The unspecified data of a read request. -/
  unspecified : BitVec 32
  /-- Whether the master has to wait. -/
  waitrequest : Bool
  /-- Whether there is a response. -/
  readdatavalid : Bool
  /-- The data of the response. -/
  readdata : BitVec 32
  /-- The requests processed in the cycle. -/
  executed : List (AvalonRequest 18 32)

namespace BusTrace

/-- The request accepted on the bus: asserted in a cycle without `waitrequest`. -/
def accepted (cycle : BusTrace) : List (AvalonRequest 18 32) :=
  if cycle.waitrequest then [] else (cycle.wires.request cycle.unspecified).toList

/-- The response of a cycle. -/
def response (cycle : BusTrace) : List (BitVec 32) :=
  if cycle.readdatavalid then [cycle.readdata] else []

end BusTrace

/-- One clock cycle of the slave. -/
inductive BusCycle (arith : Arith (BitVec 32))
    (outside : Matrix (Fin n) (Fin n) (BitVec 32) → BitVec 32 → BitVec 32 → BitVec 32) :
    KKAvalonSlave n → BusTrace → KKAvalonSlave n → Prop
  | intro {before : KKAvalonSlave n} {final : InCycle n} {fired : List BusRule}
      (wires : SlaveWires 18 32) (unspecified : BitVec 32) :
      fired.Nodup →
      (.produceRequest ∈ fired ↔ before.reqFIFO.notFull = true) →
      Execution
        (Fires (BusRule.rule arith outside before.reqFIFO.notFull (wires.request unspecified)))
        before.beginCycle fired final →
      BusCycle arith outside before
        { wires := wires
          unspecified := unspecified
          waitrequest := !before.reqFIFO.notFull
          readdatavalid := final.readdataOutValue.isSome
          readdata := final.readdataOutValue.getD 0
          executed := final.executed }
        final.toKKAvalonSlave

end KKAccel
