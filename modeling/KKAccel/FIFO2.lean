import KKAccel.Foundation.AtomicRules
import KKAccel.Foundation.BoundedQueue

/-!
# The FIFO of depth two

`FIFO2.v`, to which the request queue of the slave is compiled: two flags, two data registers and
masks which load them at an edge of the clock. As long as it displays no warning the module is a
queue of two places, in which an item may be put and another taken in the same cycle.
-/

namespace KKAccel

open AtomicRules

variable {width : ℕ}

/-- The registers of `FIFO2`. -/
structure FIFO2 (width : ℕ) where
  /-- Low when both places are taken. -/
  fullReg : Bool
  /-- Low when no place is taken. -/
  emptyReg : Bool
  data0Reg : BitVec width
  data1Reg : BitVec width

namespace FIFO2

/-- The inputs at an edge of the clock. Reset is active low. -/
structure Inputs (width : ℕ) where
  rst : Bool
  dIn : BitVec width
  enq : Bool
  deq : Bool
  clr : Bool

/-- One bit in every place of a word: `{width{bit}}`. -/
def fill (width : ℕ) (bit : Bool) : BitVec width := if bit then BitVec.allOnes width else 0

/-- The registers after an edge of the clock. -/
def clockEdge (fifo : FIFO2 width) (inputs : Inputs width) : FIFO2 width :=
  let d0di := (inputs.enq && !fifo.emptyReg) || (inputs.enq && inputs.deq && fifo.fullReg)
  let d0d1 := inputs.deq && !fifo.fullReg
  let d0h := (!inputs.deq && !inputs.enq) || (!inputs.deq && fifo.emptyReg) ||
    (!inputs.enq && fifo.fullReg)
  let d1di := inputs.enq && fifo.emptyReg
  let flags : Bool × Bool :=
    if inputs.rst = false then (false, true)
    else if inputs.clr then (false, true)
    else if inputs.enq && !inputs.deq then (true, !fifo.emptyReg)
    else if inputs.deq && !inputs.enq then (!fifo.fullReg, true)
    else (fifo.emptyReg, fifo.fullReg)
  { emptyReg := flags.1
    fullReg := flags.2
    data0Reg := (fill width d0di &&& inputs.dIn) ||| (fill width d0d1 &&& fifo.data1Reg) |||
      (fill width d0h &&& fifo.data0Reg)
    data1Reg := if d1di then inputs.dIn else fifo.data1Reg }

/-- The warning about dequeuing from an empty FIFO. -/
def deqError (fifo : FIFO2 width) (inputs : Inputs width) : Bool :=
  inputs.rst && (!fifo.emptyReg && inputs.deq)

/-- The warning about enqueuing to a full FIFO. The parameter decides whether it is also displayed
when an item is taken at the same edge. -/
def enqError (guarded : Bool) (fifo : FIFO2 width) (inputs : Inputs width) : Bool :=
  inputs.rst && (!fifo.fullReg && inputs.enq && (!inputs.deq || guarded))

/-- What can be observed of one cycle: the inputs, the outputs and the warnings. -/
structure Cycle (width : ℕ) extends Inputs width where
  fullN : Bool
  emptyN : Bool
  dOut : BitVec width
  deqError : Bool
  enqError : Bool

/-- The cycle with given inputs. -/
def observe (guarded : Bool) (fifo : FIFO2 width) (inputs : Inputs width) : Cycle width where
  toInputs := inputs
  fullN := fifo.fullReg
  emptyN := fifo.emptyReg
  dOut := fifo.data0Reg
  deqError := fifo.deqError inputs
  enqError := fifo.enqError guarded inputs

/-- One cycle of the module. -/
inductive Edge (guarded : Bool) : FIFO2 width → Cycle width → FIFO2 width → Prop
  | intro (fifo : FIFO2 width) (inputs : Inputs width) :
      Edge guarded fifo (fifo.observe guarded inputs) (fifo.clockEdge inputs)

/-- The items which the registers hold, the oldest first. -/
def contents (fifo : FIFO2 width) : List (BitVec width) :=
  if fifo.emptyReg then
    if fifo.fullReg then [fifo.data0Reg] else [fifo.data0Reg, fifo.data1Reg]
  else
    []

/-- The registers hold the items of a queue; a full FIFO is not empty. -/
structure Represents (fifo : FIFO2 width) (queue : BoundedQueue (BitVec width) 2) : Prop where
  contents_eq : fifo.contents = queue.items
  valid : fifo.emptyReg = true ∨ fifo.fullReg = true

namespace Cycle

/-- No warning is displayed. -/
def Silent (cycle : Cycle width) : Prop := cycle.deqError = false ∧ cycle.enqError = false

instance (cycle : Cycle width) : Decidable cycle.Silent :=
  inferInstanceAs (Decidable (_ ∧ _))

/-- The contents are discarded. -/
def discards (cycle : Cycle width) : Bool := !cycle.rst || cycle.clr

/-- The item which enters. -/
def enqueued (cycle : Cycle width) : List (BitVec width) := if cycle.enq then [cycle.dIn] else []

/-- The item which leaves. -/
def dequeued (cycle : Cycle width) : List (BitVec width) := if cycle.deq then [cycle.dOut] else []

end Cycle

/-- One cycle of a queue of two places. Unless the contents are discarded, an item is taken only if
there is one, and put only into a place which is free or becomes free. -/
inductive QueueCycle :
    BoundedQueue (BitVec width) 2 → Cycle width → BoundedQueue (BitVec width) 2 → Prop
  | discard {before after : BoundedQueue (BitVec width) 2} {cycle : Cycle width} :
      cycle.discards = true →
      after.items = [] →
      cycle.fullN = before.notFull →
      cycle.emptyN = before.first?.isSome →
      QueueCycle before cycle after
  | move {before after : BoundedQueue (BitVec width) 2} {cycle : Cycle width} :
      cycle.discards = false →
      cycle.fullN = before.notFull →
      cycle.emptyN = before.first?.isSome →
      (∀ item, before.first? = some item → cycle.dOut = item) →
      (cycle.deq = true → cycle.emptyN = true) →
      (cycle.enq = true → cycle.fullN = true ∨ cycle.deq = true) →
      before.items ++ cycle.enqueued = cycle.dequeued ++ after.items →
      QueueCycle before cycle after

/-- What is displayed no warning about: an item is taken only if there is one, and put only if
there is room or, without the guard, if room is made at the same edge. -/
def Permits (guarded : Bool) (queue : BoundedQueue (BitVec width) 2) (cycle : Cycle width) : Prop :=
  (cycle.deq = true → queue.items ≠ []) ∧
    (cycle.enq = true → queue.items.length < 2 ∨ cycle.deq = true ∧ guarded = false)

section Fill

variable (word : BitVec width)

@[simp]
theorem fill_true_and : fill width true &&& word = word := by
  simp [fill]

@[simp]
theorem fill_false_and : fill width false &&& word = 0 := by
  simp [fill]

end Fill

variable {fifo after : FIFO2 width} {queue : BoundedQueue (BitVec width) 2}
  {inputs : Inputs width} {guarded : Bool}

theorem Represents.fullReg_eq (represents : fifo.Represents queue) :
    fifo.fullReg = queue.notFull := by
  have valid := represents.valid
  rw [BoundedQueue.notFull, ← represents.contents_eq, contents]
  cases empty : fifo.emptyReg <;> cases full : fifo.fullReg <;> simp_all

theorem Represents.emptyReg_eq (represents : fifo.Represents queue) :
    fifo.emptyReg = queue.first?.isSome := by
  rw [BoundedQueue.first?, ← represents.contents_eq, contents]
  cases fifo.emptyReg <;> cases fifo.fullReg <;> rfl

theorem Represents.data0Reg_eq (represents : fifo.Represents queue) {item : BitVec width}
    (first : queue.first? = some item) : fifo.data0Reg = item := by
  rw [BoundedQueue.first?, ← represents.contents_eq, contents] at first
  revert first
  cases fifo.emptyReg <;> cases fifo.fullReg <;> simp

theorem contents_length_le (fifo : FIFO2 width) : fifo.contents.length ≤ 2 := by
  rw [contents]
  split_ifs <;> simp

theorem contents_length_lt (room : fifo.fullReg = true) : fifo.contents.length < 2 := by
  rw [contents, if_pos room]
  split_ifs <;> simp

theorem exists_contents_eq (nonempty : fifo.emptyReg = true) :
    ∃ rest, fifo.contents = fifo.data0Reg :: rest := by
  rw [contents, if_pos nonempty]
  split_ifs
  · exact ⟨_, rfl⟩
  · exact ⟨_, rfl⟩

/-- A reset or a clear empties the FIFO, whatever its registers held. -/
theorem represents_of_discards (fifo : FIFO2 width)
    (discards : (!inputs.rst || inputs.clr) = true) :
    (fifo.clockEdge inputs).Represents .empty := by
  rw [Bool.or_eq_true, Bool.not_eq_true'] at discards
  rcases discards with reset | clear
  · constructor <;> simp [clockEdge, contents, reset, BoundedQueue.empty]
  · constructor <;> cases inputs.rst <;> simp [clockEdge, contents, clear, BoundedQueue.empty]

/-- An edge moves the items of a FIFO in which no item is taken from an empty place or put into
one that is taken. -/
theorem contents_clockEdge (valid : fifo.emptyReg = true ∨ fifo.fullReg = true)
    (discards : (!inputs.rst || inputs.clr) = false)
    (takes : inputs.deq = true → fifo.emptyReg = true)
    (puts : inputs.enq = true → fifo.fullReg = true ∨ inputs.deq = true) :
    fifo.contents ++ (if inputs.enq then [inputs.dIn] else []) =
        (if inputs.deq then [fifo.data0Reg] else []) ++ (fifo.clockEdge inputs).contents ∧
      ((fifo.clockEdge inputs).emptyReg = true ∨ (fifo.clockEdge inputs).fullReg = true) := by
  rw [Bool.or_eq_false_iff, Bool.not_eq_false'] at discards
  obtain ⟨running, kept⟩ := discards
  obtain ⟨fullReg, emptyReg, data0Reg, data1Reg⟩ := fifo
  cases enq : inputs.enq <;> cases deq : inputs.deq <;> cases emptyReg <;> cases fullReg <;>
    simp_all [contents, clockEdge]

theorem guards_of_silent (silent : (fifo.observe guarded inputs).Silent)
    (discards : (!inputs.rst || inputs.clr) = false) :
    (inputs.deq = true → fifo.emptyReg = true) ∧
      (inputs.enq = true → fifo.fullReg = true ∨ inputs.deq = true) := by
  obtain ⟨deqError, enqError⟩ := silent
  rw [Bool.or_eq_false_iff, Bool.not_eq_false'] at discards
  simp only [observe, FIFO2.deqError, FIFO2.enqError, discards.1, Bool.true_and]
    at deqError enqError
  constructor
  · intro deq
    simpa [deq] using deqError
  · intro enq
    cases full : fifo.fullReg
    · exact .inr (by simp_all)
    · exact .inl rfl

/-- A cycle without a warning is one of the queue. -/
theorem Represents.edge {cycle : Cycle width} (represents : fifo.Represents queue)
    (edge : Edge guarded fifo cycle after) (silent : cycle.Silent) :
    ∃ next, QueueCycle queue cycle next ∧ after.Represents next := by
  obtain ⟨inputs⟩ := edge
  cases discards : !inputs.rst || inputs.clr with
  | true =>
      refine ⟨.empty, .discard discards rfl represents.fullReg_eq represents.emptyReg_eq, ?_⟩
      exact represents_of_discards fifo discards
  | false =>
      obtain ⟨takes, puts⟩ := guards_of_silent silent discards
      obtain ⟨moved, valid⟩ := contents_clockEdge represents.valid discards takes puts
      refine ⟨⟨_, contents_length_le _⟩, ?_, rfl, valid⟩
      rw [represents.contents_eq] at moved
      exact .move discards represents.fullReg_eq represents.emptyReg_eq
        (fun _ => represents.data0Reg_eq) takes puts moved

theorem Represents.run {trace : List (Cycle width)} (represents : fifo.Represents queue)
    (run : Execution (Edge guarded) fifo trace after) (silent : ∀ cycle ∈ trace, cycle.Silent) :
    ∃ final, Execution QueueCycle queue trace final ∧ after.Represents final := by
  induction run generalizing queue with
  | nil => exact ⟨queue, .nil queue, represents⟩
  | cons edge _ induction =>
      obtain ⟨next, moved, represented⟩ := represents.edge edge (silent _ List.mem_cons_self)
      obtain ⟨final, rest, holds⟩ :=
        induction represented fun cycle member => silent cycle (List.mem_cons_of_mem _ member)
      exact ⟨final, .cons moved rest, holds⟩

theorem QueueCycle.conserved {final : BoundedQueue (BitVec width) 2} {trace : List (Cycle width)}
    (run : Execution QueueCycle queue trace final)
    (kept : ∀ cycle ∈ trace, cycle.discards = false) :
    queue.items ++ trace.flatMap Cycle.enqueued =
      trace.flatMap Cycle.dequeued ++ final.items := by
  induction run with
  | nil => simp
  | cons step _ induction =>
      obtain ⟨first, rest⟩ := List.forall_mem_cons.mp kept
      cases step with
      | discard discards => exact absurd discards (by simp [first])
      | move _ _ _ _ _ _ moved =>
          rw [List.flatMap_cons, List.flatMap_cons, ← List.append_assoc, moved, List.append_assoc,
            induction rest, List.append_assoc]

theorem Represents.emptyReg_eq_true_iff (represents : fifo.Represents queue) :
    fifo.emptyReg = true ↔ queue.items ≠ [] := by
  rw [represents.emptyReg_eq, BoundedQueue.first?, List.isSome_head?]

theorem Represents.fullReg_eq_true_iff (represents : fifo.Represents queue) :
    fifo.fullReg = true ↔ queue.items.length < 2 := by
  rw [represents.fullReg_eq, BoundedQueue.notFull, decide_eq_true_iff]

/-- A cycle displays no warning exactly if the queue permits it or the reset is active. -/
theorem Represents.silent_iff {cycle : Cycle width} (represents : fifo.Represents queue)
    (edge : Edge guarded fifo cycle after) :
    cycle.Silent ↔ cycle.rst = false ∨ Permits guarded queue cycle := by
  obtain ⟨inputs⟩ := edge
  rw [Permits, ← represents.emptyReg_eq_true_iff, ← represents.fullReg_eq_true_iff]
  obtain ⟨rst, dIn, enq, deq, clr⟩ := inputs
  simp only [Cycle.Silent, observe, FIFO2.deqError, FIFO2.enqError]
  cases rst
  · simp
  · cases deq <;> cases enq <;> cases fifo.emptyReg <;> cases fifo.fullReg <;> simp

theorem Represents.permits_iff {cycle : Cycle width} (represents : fifo.Represents queue)
    (edge : Edge false fifo cycle after) (kept : cycle.discards = false) :
    Permits false queue cycle ↔ ∃ next, QueueCycle queue cycle next := by
  have running : ¬ cycle.rst = false := by
    intro reset
    simp [Cycle.discards, reset] at kept
  constructor
  · intro permits
    obtain ⟨next, moved, -⟩ :=
      represents.edge edge ((represents.silent_iff edge).mpr (.inr permits))
    exact ⟨next, moved⟩
  · rintro ⟨next, moved⟩
    obtain ⟨inputs⟩ := edge
    cases moved with
    | discard discards => exact absurd discards (by simp [kept])
    | move _ _ _ _ takes puts =>
        rw [Permits, ← represents.emptyReg_eq_true_iff, ← represents.fullReg_eq_true_iff]
        exact ⟨takes, fun enq => (puts enq).imp id fun deq => ⟨deq, rfl⟩⟩

/-- After a reset or a clear, every run without a warning is one of a queue of two places, with the
flags and the data output of that queue in every cycle; and while the contents are kept, the items
taken are the items put, each once and in order, except those still held. Unless the reset is active
the next cycle displays a warning exactly when the queue does not permit it, which without the guard
and while the contents are kept means that the queue cannot make it. -/
theorem refines_queue (guarded : Bool) {first : Cycle width} {trace : List (Cycle width)}
    (discarded : first.discards = true) (silent : ∀ cycle ∈ trace, cycle.Silent)
    (run : Execution (Edge guarded) fifo (first :: trace) after) :
    ∃ final : BoundedQueue (BitVec width) 2,
      Execution QueueCycle .empty trace final ∧ after.Represents final ∧
      ((∀ cycle ∈ trace, cycle.discards = false) →
        trace.flatMap Cycle.enqueued = trace.flatMap Cycle.dequeued ++ final.items) ∧
      ∀ cycle next, Edge guarded after cycle next →
        (cycle.Silent ↔ cycle.rst = false ∨ Permits guarded final cycle) ∧
        (guarded = false → cycle.discards = false →
          (Permits guarded final cycle ↔ ∃ later, QueueCycle final cycle later)) := by
  cases run with
  | cons edge rest =>
      obtain ⟨inputs⟩ := edge
      obtain ⟨final, moved, represents⟩ :=
        (represents_of_discards fifo discarded).run rest silent
      refine ⟨final, moved, represents, QueueCycle.conserved moved, fun cycle next edge =>
        ⟨represents.silent_iff edge, ?_⟩⟩
      rintro rfl
      exact represents.permits_iff edge

/-- A guarded FIFO with two items warns of a third one, even if an item is taken at the same
edge. -/
theorem refines_queue_full :
    ∃ (trace : List (Cycle 8)) (final : BoundedQueue (BitVec 8) 2) (cycle : Cycle 8),
      Execution QueueCycle .empty trace final ∧ final.items = [1, 2] ∧
      cycle.enqueued = [3] ∧ cycle.dequeued = [1] ∧ ¬ cycle.Silent := by
  let used : FIFO2 8 := ⟨false, false, 7, 7⟩
  let reset : Inputs 8 := ⟨false, 0, true, true, false⟩
  let put (item : BitVec 8) (deq : Bool) : Inputs 8 := ⟨true, item, true, deq, false⟩
  let full := ((used.clockEdge reset).clockEdge (put 1 false)).clockEdge (put 2 false)
  have run := Execution.cons (@Edge.intro 8 true used reset)
    (.cons (.intro _ (put 1 false)) (.single (.intro _ (put 2 false))))
  obtain ⟨final, moved, -, conserved, warnings⟩ := refines_queue true rfl (by decide) run
  have items : [1, 2] = final.items := conserved (by decide)
  have warning := (warnings _ _ (.intro full (put 3 true))).1
  refine ⟨_, final, full.observe true (put 3 true), moved, items.symm, by decide, by decide,
    fun silent => ?_⟩
  rcases warning.mp silent with reset | ⟨-, puts⟩
  · contradiction
  · rcases puts rfl with room | ⟨-, unguarded⟩
    · simp [← items] at room
    · contradiction

end FIFO2

end KKAccel
