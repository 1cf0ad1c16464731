import KKAccel.BusService
import KKAccel.Termination

/-!
# The time to service

The compiler fires every rule that is enabled when a cycle begins, unless one fires with which it
conflicts: `processWrite` may have to wait for `init` and `iterate`, which write the state register
as well. Whichever of them is preferred, a run ends while a request waits, as nothing can start
another one. Every accepted request is therefore processed within a bounded number of cycles.
-/

namespace KKAccel

open AtomicRules

variable {n : ℕ}

/-- The rules that fire are as many as the compiler lets fire. -/
structure Scheduled (before : KKAvalonSlave n) (fired : List BusRule) : Prop where
  connection : before.reqFIFO.first?.isSome = true → before.cliReq.notFull = true →
    .connection ∈ fired
  processRead : BusRule.matchesCommand .read before.beginCycle = true → .processRead ∈ fired
  processWrite : BusRule.matchesCommand .write before.beginCycle = true →
    .processWrite ∈ fired ∨ .kk .init ∈ fired ∨ .kk .iterate ∈ fired

/-- One clock cycle of the slave in which the rules are scheduled. -/
inductive ScheduledCycle (arith : Arith (BitVec 32))
    (outside : Matrix (Fin n) (Fin n) (BitVec 32) → BitVec 32 → BitVec 32 → BitVec 32) :
    KKAvalonSlave n → BusTrace → KKAvalonSlave n → Prop
  | intro {before : KKAvalonSlave n} {final : InCycle n} {fired : List BusRule}
      (wires : SlaveWires 18 32) (unspecified : BitVec 32) :
      Scheduled before fired →
      fired.Nodup →
      (.produceRequest ∈ fired ↔ before.reqFIFO.notFull = true) →
      Execution
        (Fires (BusRule.rule arith outside before.reqFIFO.notFull (wires.request unspecified)))
        before.beginCycle fired final →
      ScheduledCycle arith outside before
        { wires := wires
          unspecified := unspecified
          waitrequest := !before.reqFIFO.notFull
          readdatavalid := final.readdataOutValue.isSome
          readdata := final.readdataOutValue.getD 0
          executed := final.executed }
        final.toKKAvalonSlave

namespace BusRule

/-- The rules which carry out a request. -/
def processes : BusRule → Bool
  | processRead | processWrite => true
  | _ => false

/-- The rules that move the state register of the accelerator on. -/
def advance : BusRule → ℕ
  | kk rule => rule.advance
  | _ => 0

/-- A rule can take a request: one that waits, or one that is offered when none waits. -/
def takes (offered : Bool) (cliReq : BoundedQueue (AvalonRequest 18 32) 1) : BusRule → Bool
  | connection => offered && cliReq.notFull
  | processRead => cliReq.first?.any fun request => request.command == .read
  | processWrite => cliReq.first?.any fun request => request.command == .write
  | _ => false

end BusRule

namespace BusRule

/-- No two rules can take a request in the same cycle. -/
theorem exists_turn (offered : Bool) (cliReq : BoundedQueue (AvalonRequest 18 32) 1) :
    ∃ turn : Option BusRule, ∀ label, takes offered cliReq label = true ↔ turn = some label := by
  have occupied : cliReq.notFull = !cliReq.first?.isSome := by
    rw [BoundedQueue.notFull, BoundedQueue.items_eq_toList]
    cases cliReq.first? <;> rfl
  cases held : cliReq.first? with
  | none =>
      refine ⟨if offered then some .connection else none, fun label => ?_⟩
      cases label <;> simp [takes, held, occupied]
  | some request =>
      cases command : request.command with
      | read =>
          refine ⟨some .processRead, fun label => ?_⟩
          cases label <;> simp [takes, held, occupied, command]
      | write =>
          refine ⟨some .processWrite, fun label => ?_⟩
          cases label <;> simp [takes, held, occupied, command]

variable {σ : Type*} {rules : BusRule → Rule σ} {before middle : σ} {first : List BusRule}

/-- The rule whose turn it is fires, unless it is blocked. -/
theorem exists_taken {offered : Bool} {cliReq : BoundedQueue (AvalonRequest 18 32) 1}
    (blocked : BusRule → Bool)
    (guards : ∀ label, takes offered cliReq label = true → (rules label).guard before = true) :
    ∃ taken after, Execution (Fires rules) before taken after ∧ taken.Nodup ∧
      (∀ label ∈ taken, takes offered cliReq label = true) ∧
      ∀ label, takes offered cliReq label = true → blocked label = true ∨ label ∈ taken := by
  obtain ⟨turn, unique⟩ := exists_turn offered cliReq
  by_cases fires : ∃ label, turn = some label ∧ blocked label = false
  · obtain ⟨label, rfl, free⟩ := fires
    have enabled := (unique label).mpr rfl
    refine ⟨[label], _, .single (fires_action (guards label enabled)), List.nodup_singleton _,
      fun other member => ?_, fun other takes => ?_⟩
    · rwa [List.mem_singleton.mp member]
    · rw [Option.some.inj ((unique other).mp takes)]
      exact .inr List.mem_cons_self
  · refine ⟨[], before, .nil before, List.nodup_nil, fun _ member => ?_, fun label takes => ?_⟩
    · contradiction
    · exact .inl (Bool.eq_true_of_not_eq_false fun free =>
        fires ⟨label, (unique label).mp takes, free⟩)

/-- `produceRequest` fires after the other rules, if it can. -/
theorem exists_produced {room : Bool} (executed : Execution (Fires rules) before first middle)
    (distinct : first.Nodup) (absent : .produceRequest ∉ first)
    (guard : (rules .produceRequest).guard middle = room) :
    ∃ fired final, Execution (Fires rules) before fired final ∧ fired.Nodup ∧
      (.produceRequest ∈ fired ↔ room = true) ∧ first ⊆ fired := by
  cases room with
  | false => exact ⟨first, middle, executed, distinct, by simp [absent], List.Subset.refl _⟩
  | true =>
      refine ⟨first ++ [.produceRequest], _, executed.append (.single (fires_action guard)), ?_,
        by simp, List.subset_append_left _ _⟩
      rw [List.nodup_append_comm]
      exact List.nodup_cons.mpr ⟨absent, distinct⟩

end BusRule

namespace KKIteration

/-- The firings that are left before the accelerator is idle. -/
def firingsLeft (kk : KKIteration n (BitVec 32)) : ℕ := firingsToIdle n kk.rState.toNat

variable {arith : Arith (BitVec 32)} {kk after : KKIteration n (BitVec 32)}

theorem firingsLeft_of_fires (positive : 1 ≤ n) {label : KKRule}
    (fired : KKFires arith kk label after) :
    after.firingsLeft + label.advance = kk.firingsLeft :=
  firingsToIdle_step positive ⟨KKStep.rule fired, fun called => by contradiction⟩

theorem firingsLeft_of_idle (idle : kk.isRunning = false) : kk.firingsLeft ≤ n + 1 := by
  rw [isRunning_eq_false_iff, ← firingsToIdle_eq_zero_iff kk.rState_le] at idle
  rw [firingsLeft, idle]
  exact Nat.zero_le _

theorem firingsLeft_start (bound : kk.firingsLeft ≤ n + 1) : kk.start.firingsLeft ≤ n + 1 := by
  have room := two_mul_add_three_le_stateMaxVal n
  rw [firingsLeft, start_rState, startState]
  split
  · rw [firingsToIdle, if_neg (by omega), if_pos rfl]
  · exact bound

theorem firingsLeft_write (register : Register) (data : BitVec 32)
    (bound : kk.firingsLeft ≤ n + 1) : (register.write data kk).firingsLeft ≤ n + 1 := by
  cases register with
  | start => exact firingsLeft_start bound
  | _ => exact bound

end KKIteration

namespace InCycle

variable {arith : Arith (BitVec 32)}
  {outside : Matrix (Fin n) (Fin n) (BitVec 32) → BitVec 32 → BitVec 32 → BitVec 32}
  {before after : InCycle n} {ready : Bool} {request : Option (AvalonRequest 18 32)}
  {label : BusRule} {fired : List BusRule}

theorem firingsLeft_le_of_fires (positive : 1 ≤ n)
    (fired : Fires (BusRule.rule arith outside ready request) before label after)
    (bound : before.kk.firingsLeft ≤ n + 1) : after.kk.firingsLeft ≤ n + 1 := by
  obtain ⟨guard, rfl⟩ := fired
  cases label with
  | produceRequest =>
      cases request with
      | none => exact bound
      | some request => exact bound
  | connection =>
      obtain ⟨request, first, -⟩ := first_of_connection guard
      rw [connection_action first]
      exact bound
  | processRead =>
      obtain ⟨request, first, -⟩ := first_of_matches guard
      rw [processRead_action first]
      exact bound
  | processWrite =>
      obtain ⟨request, first, -⟩ := first_of_matches guard
      rw [processWrite_action first]
      exact KKIteration.firingsLeft_write _ _ bound
  | kk label =>
      have moved := KKIteration.firingsLeft_of_fires positive (fires_action guard)
      exact (Nat.le_of_add_right_le moved.le).trans bound

theorem executed_of_fires
    (fired : Fires (BusRule.rule arith outside ready request) before label after) :
    after.executed.length = before.executed.length + if label.processes then 1 else 0 := by
  obtain ⟨guard, rfl⟩ := fired
  cases label with
  | produceRequest => cases request <;> rfl
  | connection =>
      obtain ⟨request, first, -⟩ := first_of_connection guard
      rw [connection_action first]
      rfl
  | processRead =>
      obtain ⟨request, first, -⟩ := first_of_matches guard
      rw [processRead_action first]
      exact List.length_append
  | processWrite =>
      obtain ⟨request, first, -⟩ := first_of_matches guard
      rw [processWrite_action first]
      exact List.length_append
  | kk rule => rfl

/-- The other rules take their part from the run and take no request from its turn. -/
theorem closer_of_fires (positive : 1 ≤ n)
    (fired : Fires (BusRule.rule arith outside ready request) before label after)
    (idle : label.processes = false) :
    after.kk.firingsLeft + label.advance = before.kk.firingsLeft ∧
      (before.cliReq.items ≠ [] ∨ label = .connection → after.cliReq.items ≠ []) := by
  obtain ⟨guard, rfl⟩ := fired
  cases label with
  | produceRequest =>
      cases request with
      | none => exact ⟨rfl, fun waits => waits.resolve_right BusRule.noConfusion⟩
      | some request => exact ⟨rfl, fun waits => waits.resolve_right BusRule.noConfusion⟩
  | connection =>
      obtain ⟨request, first, vacant⟩ := first_of_connection guard
      rw [connection_action first]
      refine ⟨rfl, fun _ => ?_⟩
      rw [BoundedQueue.items_enq vacant]
      exact List.append_ne_nil_of_right_ne_nil _ (List.cons_ne_nil _ _)
  | processRead => contradiction
  | processWrite => contradiction
  | kk rule =>
      exact ⟨KKIteration.firingsLeft_of_fires positive (fires_action guard),
        fun waits => waits.resolve_right BusRule.noConfusion⟩

theorem executed_of_cycle
    (executed : Execution (Fires (BusRule.rule arith outside ready request)) before fired after) :
    after.executed.length =
      before.executed.length + (fired.map fun label => if label.processes then 1 else 0).sum := by
  induction executed with
  | nil => rfl
  | cons step _ induction =>
      rw [induction, executed_of_fires step, List.map_cons, List.sum_cons, Nat.add_assoc]

theorem idle_of_unserved
    (executed : Execution (Fires (BusRule.rule arith outside ready request)) before fired after)
    (unserved : after.executed = []) : ∀ label ∈ fired, label.processes = false := by
  intro label member
  have counted := executed_of_cycle executed
  rw [unserved, List.length_nil, eq_comm, Nat.add_eq_zero_iff, List.sum_eq_zero_iff] at counted
  have zero := counted.2 _ (List.mem_map_of_mem member)
  revert zero
  cases label.processes <;> simp

theorem firingsLeft_le_of_cycle (positive : 1 ≤ n)
    (executed : Execution (Fires (BusRule.rule arith outside ready request)) before fired after)
    (bound : before.kk.firingsLeft ≤ n + 1) : after.kk.firingsLeft ≤ n + 1 :=
  @Execution.invariant _ _ _ _ _ _ (fun slave : InCycle n => slave.kk.firingsLeft ≤ n + 1)
    (fun holds step => firingsLeft_le_of_fires positive step holds) executed bound

/-- In a cycle in which no request is carried out the run goes on, and no request loses its
turn. -/
theorem closer_of_cycle (positive : 1 ≤ n)
    (executed : Execution (Fires (BusRule.rule arith outside ready request)) before fired after)
    (idle : ∀ label ∈ fired, label.processes = false) :
    after.kk.firingsLeft + (fired.map BusRule.advance).sum = before.kk.firingsLeft ∧
      (before.cliReq.items ≠ [] ∨ .connection ∈ fired → after.cliReq.items ≠ []) := by
  induction executed with
  | nil => exact ⟨rfl, fun waits => waits.resolve_right List.not_mem_nil⟩
  | @cons before middle after label fired step _ induction =>
      obtain ⟨idleFirst, idleRest⟩ := List.forall_mem_cons.mp idle
      obtain ⟨moved, turn⟩ := closer_of_fires positive step idleFirst
      obtain ⟨movedRest, turnRest⟩ := induction idleRest
      constructor
      · rw [List.map_cons, List.sum_cons]
        omega
      · rintro (waits | connects)
        · exact turnRest (.inl (turn (.inl waits)))
        · rcases List.mem_cons.mp connects with first | later
          · exact turnRest (.inl (turn (.inr first.symm)))
          · exact turnRest (.inr later)

end InCycle

/-! ## Runs of cycles -/

namespace ScheduledCycle

variable {arith : Arith (BitVec 32)}
  {outside : Matrix (Fin n) (Fin n) (BitVec 32) → BitVec 32 → BitVec 32 → BitVec 32}
  {before after : KKAvalonSlave n} {cycle : BusTrace} {trace : List BusTrace}

theorem busCycle (step : ScheduledCycle arith outside before cycle after) :
    BusCycle arith outside before cycle after := by
  obtain ⟨wires, unspecified, -, distinct, produced, executed⟩ := step
  exact .intro wires unspecified distinct produced executed

theorem busRun (run : Execution (ScheduledCycle arith outside) before trace after) :
    Execution (BusCycle arith outside) before trace after := by
  simpa using run.map id id busCycle

theorem firingsLeft_le (positive : 1 ≤ n)
    (step : ScheduledCycle arith outside before cycle after)
    (bound : before.kk.firingsLeft ≤ n + 1) : after.kk.firingsLeft ≤ n + 1 := by
  obtain ⟨wires, unspecified, -, distinct, produced, executed⟩ := step
  exact InCycle.firingsLeft_le_of_cycle positive executed bound

theorem firingsLeft_le_of_run (positive : 1 ≤ n)
    (run : Execution (ScheduledCycle arith outside) before trace after)
    (bound : before.kk.firingsLeft ≤ n + 1) : after.kk.firingsLeft ≤ n + 1 :=
  @Execution.invariant _ _ _ _ _ _ (fun slave : KKAvalonSlave n => slave.kk.firingsLeft ≤ n + 1)
    (fun holds step => firingsLeft_le positive step holds) run bound

end ScheduledCycle

namespace KKAvalonSlave

variable {arith : Arith (BitVec 32)}
  {outside : Matrix (Fin n) (Fin n) (BitVec 32) → BitVec 32 → BitVec 32 → BitVec 32}
  {before after : KKAvalonSlave n} {cycle : BusTrace} {trace : List BusTrace}

/-- How many cycles may pass before the one in which the next request is carried out. -/
def delay (slave : KKAvalonSlave n) : ℕ :=
  if slave.cliReq.items = [] then slave.kk.firingsLeft + 1 else slave.kk.firingsLeft

theorem delay_le (slave : KKAvalonSlave n) : slave.delay ≤ slave.kk.firingsLeft + 1 := by
  rw [delay]
  split <;> omega

theorem length_pending_le (slave : KKAvalonSlave n) : slave.pending.length ≤ 3 := by
  have accepted := slave.reqFIFO.bounded
  have turn := slave.cliReq.bounded
  rw [pending, List.length_append]
  omega

theorem two_le_length_pending {slave : KKAvalonSlave n} (full : slave.reqFIFO.notFull = false) :
    2 ≤ slave.pending.length := by
  rw [BoundedQueue.notFull, decide_eq_false_iff_not] at full
  rw [pending, List.length_append]
  omega

/-- A scheduled cycle carries out a request, or the next one is closer to its turn. -/
theorem served_or_closer (positive : 1 ≤ n) (waits : before.pending ≠ [])
    (step : ScheduledCycle arith outside before cycle after) :
    cycle.executed ≠ [] ∨ (after.pending ≠ [] ∧ after.delay < before.delay) := by
  cases step with
  | @intro final fired wires unspecified scheduled distinct produced executed =>
      by_cases unserved : final.executed = []
      · right
        have idle := InCycle.idle_of_unserved executed unserved
        obtain ⟨moved, turn⟩ := InCycle.closer_of_cycle positive executed idle
        have advanced {rule : KKRule} (fires : .kk rule ∈ fired) :
            rule.advance ≤ (fired.map BusRule.advance).sum :=
          List.single_le_sum (fun _ _ => Nat.zero_le _) _ (List.mem_map_of_mem fires)
        change final.kk.firingsLeft + _ = before.kk.firingsLeft at moved
        suffices final.cliReq.items ≠ [] ∧
            (before.cliReq.items ≠ [] → final.kk.firingsLeft < before.kk.firingsLeft) by
          obtain ⟨held, smaller⟩ := this
          refine ⟨List.append_ne_nil_of_left_ne_nil held _, ?_⟩
          rw [delay, delay, if_neg held]
          split
          · omega
          · next turned => exact smaller turned
        cases turned : before.cliReq.items with
        | nil =>
            have accepted : before.reqFIFO.first?.isSome = true := by
              rw [pending, turned, List.nil_append] at waits
              rw [BoundedQueue.first?, List.isSome_head?]
              simpa using waits
            have vacant : before.cliReq.notFull = true := by
              rw [BoundedQueue.notFull, turned]
              rfl
            exact ⟨turn (.inr (scheduled.connection accepted vacant)),
              fun waits => absurd rfl waits⟩
        | cons request others =>
            have first : before.cliReq.first? = some request := by
              rw [BoundedQueue.first?, turned]
              rfl
            have matched : BusRule.matchesCommand request.command before.beginCycle = true := by
              simp [BusRule.matchesCommand, beginCycle, first]
            refine ⟨turn (.inl (turned ▸ List.cons_ne_nil request others)), fun _ => ?_⟩
            -- A read is carried out at once; a write waits for a firing of the run at most.
            cases command : request.command with
            | read =>
                rw [command] at matched
                have served := idle _ (scheduled.processRead matched)
                contradiction
            | write =>
                rw [command] at matched
                rcases scheduled.processWrite matched with write | init | iterate
                · have served := idle _ write
                  contradiction
                · have one := advanced init
                  rw [show KKRule.init.advance = 1 from rfl] at one
                  omega
                · have one := advanced iterate
                  rw [show KKRule.iterate.advance = 1 from rfl] at one
                  omega
      · exact .inl unserved

/-- The requests which wait are carried out one after another, each within `n + 3` cycles. -/
theorem served_within (positive : 1 ≤ n) (count : ℕ)
    (run : Execution (ScheduledCycle arith outside) before trace after)
    (bound : before.kk.firingsLeft ≤ n + 1) (waiting : count ≤ before.pending.length)
    (long : count * (n + 3) ≤ trace.length) :
    count ≤ (trace.flatMap BusTrace.executed).length := by
  induction count using Nat.strong_induction_on generalizing before trace with
  | _ count induction =>
      rcases Nat.eq_zero_or_pos count with rfl | some
      · exact Nat.zero_le _
      have waits : before.pending ≠ [] := List.length_pos_iff.mp (some.trans_le waiting)
      have soon := before.delay_le
      have room : n + 3 ≤ count * (n + 3) := Nat.le_mul_of_pos_left _ some
      obtain ⟨earlier, cycle, later, middle, rfl, short, served, first, rest⟩ :=
        run.responds delay (fun waits step => served_or_closer positive waits step) waits
          (by omega)
      have conserved := congrArg List.length (pending_of_run (ScheduledCycle.busRun first))
      have progress : 1 ≤ ((earlier ++ [cycle]).flatMap BusTrace.executed).length := by
        rw [List.flatMap_append, List.length_append, List.flatMap_singleton]
        have one := List.length_pos_iff.mpr served
        omega
      simp only [List.length_append] at conserved long
      rw [List.append_cons, List.flatMap_append, List.length_append]
      by_cases enough : count ≤ ((earlier ++ [cycle]).flatMap BusTrace.executed).length
      · omega
      · have fewer := induction
          (count - ((earlier ++ [cycle]).flatMap BusTrace.executed).length) (by omega) rest
          (ScheduledCycle.firingsLeft_le_of_run positive first bound) (by omega)
          (by
            have less : (count - ((earlier ++ [cycle]).flatMap BusTrace.executed).length) *
                (n + 3) ≤ (count - 1) * (n + 3) := Nat.mul_le_mul_right _ (by omega)
            rw [Nat.sub_one_mul] at less
            rw [List.length_cons] at long
            omega)
        omega

theorem served_prefix (positive : 1 ≤ n) (count : ℕ)
    (run : Execution (ScheduledCycle arith outside) before trace after)
    (bound : before.kk.firingsLeft ≤ n + 1) (long : count * (n + 3) ≤ trace.length) :
    before.pending.take count <+: trace.flatMap BusTrace.executed := by
  have conserved := pending_of_run (ScheduledCycle.busRun run)
  have shorter : min count before.pending.length ≤ (trace.flatMap BusTrace.executed).length :=
    served_within positive _ run bound (Nat.min_le_right _ _)
      ((Nat.mul_le_mul_right _ (Nat.min_le_left _ _)).trans long)
  refine List.prefix_of_prefix_length_le ?_ ⟨after.pending, conserved.symm⟩ ?_
  · exact (List.take_prefix _ _).trans (List.prefix_append _ _)
  · rwa [List.length_take]

theorem pending_prefix (positive : 1 ≤ n)
    (run : Execution (ScheduledCycle arith outside) before trace after)
    (bound : before.kk.firingsLeft ≤ n + 1) (long : 3 * (n + 3) ≤ trace.length) :
    before.pending <+: trace.flatMap BusTrace.executed := by
  have all := served_prefix positive 3 run bound long
  rwa [List.take_of_length_le before.length_pending_le] at all

/-- Whatever the master drives, a cycle can be scheduled. -/
theorem exists_scheduledCycle (arith : Arith (BitVec 32))
    (outside : Matrix (Fin n) (Fin n) (BitVec 32) → BitVec 32 → BitVec 32 → BitVec 32)
    (before : KKAvalonSlave n) (wires : SlaveWires 18 32) :
    ∃ cycle after, ScheduledCycle arith outside before cycle after ∧ cycle.wires = wires ∧
      cycle.waitrequest = !before.reqFIFO.notFull := by
  let rules := BusRule.rule arith outside before.reqFIFO.notFull (wires.request 0)
  have guards (label : BusRule)
      (turn : label.takes before.reqFIFO.first?.isSome before.cliReq = true) :
      (rules label).guard before.beginCycle = true := by
    cases label with
    | connection | processRead | processWrite => exact turn
    | produceRequest | kk rule => contradiction
  obtain ⟨taken, middle, executed, distinct, turns, complete⟩ :=
    BusRule.exists_taken (fun _ => false) guards
  obtain ⟨fired, final, run, distinct', produced, kept⟩ :=
    BusRule.exists_produced executed distinct (fun member => by cases turns _ member) rfl
  have fires (label : BusRule)
      (turn : label.takes before.reqFIFO.first?.isSome before.cliReq = true) : label ∈ fired :=
    kept ((complete label turn).resolve_left Bool.false_ne_true)
  have scheduled : Scheduled before fired :=
    ⟨fun offered vacant => fires .connection (by rw [BusRule.takes, offered, vacant]; rfl),
      fires .processRead, fun write => .inl (fires .processWrite write)⟩
  exact ⟨_, _, .intro wires 0 scheduled distinct' produced run, rfl, rfl⟩

theorem exists_scheduledRun (arith : Arith (BitVec 32))
    (outside : Matrix (Fin n) (Fin n) (BitVec 32) → BitVec 32 → BitVec 32 → BitVec 32)
    (before : KKAvalonSlave n) (length : ℕ) :
    ∃ trace after, Execution (ScheduledCycle arith outside) before trace after ∧
      trace.length = length := by
  induction length generalizing before with
  | zero => exact ⟨[], before, .nil before, rfl⟩
  | succ length induction =>
      obtain ⟨cycle, middle, step, -⟩ := exists_scheduledCycle arith outside before quiet
      obtain ⟨trace, after, rest, counted⟩ := induction middle
      exact ⟨cycle :: trace, after, .cons step rest, congrArg (· + 1) counted⟩

theorem two_le_pending_of_waitrequest (step : ScheduledCycle arith outside before cycle after)
    (waits : cycle.waitrequest = true) : 2 ≤ before.pending.length := by
  cases step with
  | intro => exact two_le_length_pending (by simpa using waits)

theorem accepted_eq_nil (waits : ∀ cycle ∈ trace, cycle.waitrequest = true) :
    trace.flatMap BusTrace.accepted = [] := by
  rw [List.flatMap_eq_nil_iff]
  intro cycle member
  rw [BusTrace.accepted, if_pos (waits cycle member)]

theorem length_pending_le_one (positive : 1 ≤ n)
    (run : Execution (ScheduledCycle arith outside) before trace after)
    (bound : before.kk.firingsLeft ≤ n + 1) (long : 2 * (n + 3) ≤ trace.length)
    (waits : ∀ cycle ∈ trace, cycle.waitrequest = true) : after.pending.length ≤ 1 := by
  have room := before.length_pending_le
  have conserved := congrArg List.length (pending_of_run (ScheduledCycle.busRun run))
  rw [accepted_eq_nil waits, List.append_nil, List.length_append] at conserved
  have held : 2 ≤ before.pending.length := by
    cases run with
    | nil => simp at long
    | cons step _ => exact two_le_pending_of_waitrequest step (waits _ List.mem_cons_self)
  have served := served_within positive 2 run bound held long
  omega

theorem ready_of_blocked {middle : KKAvalonSlave n} (positive : 1 ≤ n)
    (run : Execution (ScheduledCycle arith outside) before trace middle)
    (bound : before.kk.firingsLeft ≤ n + 1) (long : 2 * (n + 3) ≤ trace.length)
    (waits : ∀ cycle ∈ trace, cycle.waitrequest = true)
    (step : ScheduledCycle arith outside middle cycle after) : cycle.waitrequest = false := by
  have blocked := length_pending_le_one positive run bound long waits
  refine Bool.eq_false_of_not_eq_true fun waiting => ?_
  have held := two_le_pending_of_waitrequest step waiting
  omega

theorem length_accepted_le (cycle : BusTrace) : cycle.accepted.length ≤ 1 := by
  rw [BusTrace.accepted]
  split
  · exact Nat.zero_le 1
  · cases cycle.wires.request cycle.unspecified <;> simp

theorem length_pending_le_succ (step : ScheduledCycle arith outside before cycle after) :
    after.pending.length ≤ before.pending.length + 1 := by
  have conserved := congrArg List.length (pending_of_cycle step.busCycle)
  have single := length_accepted_le cycle
  simp only [List.length_append] at conserved
  omega

/-- The master does not have to wait for ever. -/
theorem exists_ready (positive : 1 ≤ n)
    (run : Execution (ScheduledCycle arith outside) before trace after)
    (bound : before.kk.firingsLeft ≤ n + 1) (long : 2 * (n + 3) < trace.length) :
    ∃ cycle ∈ trace, cycle.waitrequest = false := by
  by_contra ready
  have waits (cycle : BusTrace) (member : cycle ∈ trace) : cycle.waitrequest = true :=
    Bool.eq_true_of_not_eq_false fun free => ready ⟨cycle, member, free⟩
  rw [← List.take_append_drop (2 * (n + 3)) trace] at run waits
  obtain ⟨middle, first, second⟩ := run.split
  cases rest : trace.drop (2 * (n + 3)) with
  | nil =>
      rw [List.drop_eq_nil_iff] at rest
      omega
  | cons cycle others =>
      rw [rest] at second waits
      cases second with
      | cons step _ =>
          have free := ready_of_blocked positive first bound (by rw [List.length_take]; omega)
            (fun cycle member => waits cycle (List.mem_append_left _ member)) step
          have waiting := waits cycle (List.mem_append_right _ List.mem_cons_self)
          exact Bool.false_ne_true (free.symm.trans waiting)

end KKAvalonSlave

/-- However the compiler prefers writes to the rules of a run or the other way round: of the
requests that wait at some time, the first `count` have been carried out after `count * (n + 3)`
more cycles; so every accepted request has been after `3 * (n + 3)`; the master never has to wait
for more than `2 * (n + 3)` cycles; and there is always a next cycle. -/
theorem service_within (arith : Arith (BitVec 32))
    (outside : Matrix (Fin n) (Fin n) (BitVec 32) → BitVec 32 → BitVec 32 → BitVec 32)
    (positive : 1 ≤ n) {kk : KKIteration n (BitVec 32)} (idle : kk.isRunning = false)
    {earlier later : List BusTrace} {before after : KKAvalonSlave n}
    (reached : Execution (ScheduledCycle arith outside) (.reset kk) earlier before)
    (continued : Execution (ScheduledCycle arith outside) before later after) :
    (∀ count, count * (n + 3) ≤ later.length →
      before.pending.take count <+: later.flatMap BusTrace.executed) ∧
    (3 * (n + 3) ≤ later.length →
      earlier.flatMap BusTrace.accepted <+: (earlier ++ later).flatMap BusTrace.executed) ∧
    (2 * (n + 3) < later.length → ∃ cycle ∈ later, cycle.waitrequest = false) ∧
    ∀ wires, ∃ cycle next, ScheduledCycle arith outside after cycle next ∧
      cycle.wires = wires := by
  have bound := ScheduledCycle.firingsLeft_le_of_run positive reached
    (KKIteration.firingsLeft_of_idle idle)
  refine ⟨fun count => KKAvalonSlave.served_prefix positive count continued bound, fun long => ?_,
    fun long => ?_, fun wires => ?_⟩
  · have all := KKAvalonSlave.pending_prefix positive continued bound long
    have accepted := KKAvalonSlave.pending_of_run (ScheduledCycle.busRun reached)
    change [] ++ _ = _ at accepted
    rw [← List.nil_append (earlier.flatMap _), accepted, List.flatMap_append]
    exact (List.prefix_append_right_inj _).mpr all
  · exact KKAvalonSlave.exists_ready positive continued bound long
  · obtain ⟨cycle, next, step, driven, -⟩ :=
      KKAvalonSlave.exists_scheduledCycle arith outside after wires
    exact ⟨cycle, next, step, driven⟩

/-- A read of the running status, with time to answer it. -/
theorem service_within_status :
    ∃ earlier later after,
      Execution (ScheduledCycle fixed16 fun _ _ _ => 0)
        (.reset (loadedRegisters (0 : Matrix (Fin 2) (Fin 2) (BitVec 32)))) (earlier ++ later)
        after ∧
      (earlier.flatMap BusTrace.accepted).map AvalonRequest.addr = [0x10001] ∧
      earlier.flatMap BusTrace.accepted <+: (earlier ++ later).flatMap BusTrace.executed := by
  let slave : KKAvalonSlave 2 := .reset (loadedRegisters 0)
  have scheduled : Scheduled slave [.produceRequest] :=
    ⟨fun some => by contradiction, fun read => by contradiction, fun write => by contradiction⟩
  have accept : ScheduledCycle fixed16 (fun _ _ _ => 0) slave _ _ :=
    .intro readStatus 0 scheduled (by decide) (by decide)
      (.single (fires_action rfl))
  obtain ⟨later, after, continued, long⟩ := KKAvalonSlave.exists_scheduledRun fixed16
    (fun _ _ _ => 0) _ 15
  have reached := Execution.single accept
  exact ⟨_, later, after, reached.append continued, rfl,
    (service_within fixed16 _ (by omega) (loadedRegisters_idle 0) reached continued).2.1 long.ge⟩

end KKAccel
