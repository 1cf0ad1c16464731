import Mathlib.Algebra.Ring.Nat
import Mathlib.Data.List.Basic
import Mathlib.Order.Monotone.Basic

/-!
# Guarded atomic rules and labelled executions

A design is a family of guarded rules on one state. Under the one-rule-at-a-time semantics an
execution fires enabled rules one after another; in one clock cycle a schedule fires, in its
order, the rules that are enabled when the cycle begins.
-/

namespace AtomicRules

section Execution

variable {σ τ ι : Type*} {step : σ → ι → σ → Prop} {before middle after : σ}
  {trace first second : List ι}

/-- A finite execution together with the labels of its steps. -/
inductive Execution (step : σ → ι → σ → Prop) : σ → List ι → σ → Prop
  | nil (state : σ) : Execution step state [] state
  | cons {before middle after : σ} {label : ι} {trace : List ι} :
      step before label middle →
      Execution step middle trace after →
      Execution step before (label :: trace) after

namespace Execution

theorem single {label : ι} (fired : step before label after) :
    Execution step before [label] after :=
  .cons fired (.nil after)

theorem append (left : Execution step before first middle)
    (right : Execution step middle second after) :
    Execution step before (first ++ second) after := by
  induction left with
  | nil => exact right
  | cons fired _ induction => exact .cons fired (induction right)

theorem split (run : Execution step before (first ++ second) after) :
    ∃ middle, Execution step before first middle ∧ Execution step middle second after := by
  induction first generalizing before with
  | nil => exact ⟨before, .nil before, run⟩
  | cons label first induction =>
      cases run with
      | cons fired rest =>
          obtain ⟨middle, left, right⟩ := induction rest
          exact ⟨middle, .cons fired left, right⟩

theorem forall_labels {invariant : σ → Prop} {property : ι → Prop}
    (preserved : ∀ {source label target}, invariant source → step source label target →
      invariant target)
    (established : ∀ {source label target}, invariant source → step source label target →
      property label)
    (run : Execution step before trace after) (initially : invariant before) :
    ∀ label ∈ trace, property label := by
  induction run with
  | nil => exact fun label member => (List.not_mem_nil member).elim
  | cons fired _ induction =>
      exact List.forall_mem_cons.mpr
        ⟨established initially fired, induction (preserved initially fired)⟩

/-- A property preserved by every step holds at the end of every execution which starts in it. -/
theorem invariant {property : σ → Prop}
    (preserved : ∀ {source label target}, property source → step source label target →
      property target)
    (run : Execution step before trace after) (initially : property before) : property after := by
  induction run with
  | nil => exact initially
  | cons fired _ induction => exact induction (preserved initially fired)

/-- A counted property which every step advances by the weight of its label. -/
theorem weighted {property : ℕ → σ → Prop} (weight : ι → ℕ)
    (advanced : ∀ {count source label target}, property count source →
      step source label target → property (count + weight label) target)
    {count : ℕ} (run : Execution step before trace after) (initially : property count before) :
    property (count + (trace.map weight).sum) after := by
  induction run generalizing count with
  | nil => simpa using initially
  | cons fired _ induction =>
      simpa [Nat.add_assoc] using induction (advanced initially fired)

/-- A quantity from which every step takes the weight of its label. -/
theorem balance (remaining : σ → ℕ) (weight : ι → ℕ)
    (balanced : ∀ {source label target}, step source label target →
      remaining target + weight label = remaining source)
    (run : Execution step before trace after) :
    remaining after + (trace.map weight).sum = remaining before := by
  induction run with
  | nil => rfl
  | cons fired _ induction =>
      have first := balanced fired
      rw [List.map_cons, List.sum_cons]
      omega

/-- If every step in which an awaited event does not happen brings it closer, it happens within a
bounded number of steps. -/
theorem responds {event : ι → Prop} {waiting : σ → Prop} (rank : σ → ℕ)
    (closer : ∀ {source label target}, waiting source → step source label target →
      event label ∨ (waiting target ∧ rank target < rank source))
    (run : Execution step before trace after) (initially : waiting before)
    (long : rank before < trace.length) :
    ∃ earlier label later middle, trace = earlier ++ label :: later ∧
      earlier.length ≤ rank before ∧ event label ∧
      Execution step before (earlier ++ [label]) middle ∧ Execution step middle later after := by
  induction run with
  | nil => exact absurd long (Nat.not_lt_zero _)
  | @cons before middle after label trace fired rest induction =>
      rcases closer initially fired with happens | ⟨waits, smaller⟩
      · exact ⟨[], label, trace, middle, rfl, Nat.zero_le _, happens, .single fired, rest⟩
      · rw [List.length_cons] at long
        obtain ⟨earlier, label', later, reached, rfl, bound, happens, first, second⟩ :=
          induction waits (by omega)
        refine ⟨label :: earlier, label', later, reached, rfl, ?_, happens, .cons fired first,
          second⟩
        rw [List.length_cons]
        omega

/-- Transport an execution along a map of states and labels which preserves steps. -/
theorem map {κ : Type*} {target : τ → κ → τ → Prop} (mapState : σ → τ) (mapLabel : ι → κ)
    (mapStep : ∀ {source label next}, step source label next →
      target (mapState source) (mapLabel label) (mapState next))
    (run : Execution step before trace after) :
    Execution target (mapState before) (trace.map mapLabel) (mapState after) := by
  induction run with
  | nil => exact .nil _
  | cons fired _ induction => exact .cons (mapStep fired) induction

end Execution

/-- An execution without end, by its states and the labels of its steps. -/
def InfiniteExecution (step : σ → ι → σ → Prop) (states : ℕ → σ) (labels : ℕ → ι) : Prop :=
  ∀ time, step (states time) (labels time) (states (time + 1))

namespace InfiniteExecution

variable {states : ℕ → σ} {labels : ℕ → ι}

theorem take (run : InfiniteExecution step states labels) (time : ℕ) :
    Execution step (states 0) ((List.range time).map labels) (states time) := by
  induction time with
  | zero => exact .nil _
  | succ time induction =>
      rw [List.range_succ, List.map_append]
      exact induction.append (.single (run time))

theorem reaches (run : InfiniteExecution step states labels) (goal : σ → Prop)
    (remaining : σ → ℕ) (weight : ι → ℕ)
    (balanced : ∀ {source label target}, step source label target →
      remaining target + weight label = remaining source)
    (recurring : ∀ time, ¬ goal (states time) → ∃ later, time ≤ later ∧ 0 < weight (labels later)) :
    ∃ time, goal (states time) := by
  have decreasing : Antitone fun time => remaining (states time) :=
    antitone_nat_of_succ_le fun time => Nat.le_of_add_right_le (balanced (run time)).le
  -- By induction on what remains at some point of time.
  suffices reached : ∀ left time, remaining (states time) = left →
      ∃ time, goal (states time) from reached _ 0 rfl
  intro left
  induction left using Nat.strong_induction_on with
  | _ left induction =>
      intro time equality
      by_cases done : goal (states time)
      · exact ⟨time, done⟩
      · obtain ⟨later, ordered, taken⟩ := recurring time done
        have smaller := decreasing ordered
        have step := balanced (run later)
        simp only [equality] at smaller
        exact induction (remaining (states (later + 1))) (by omega) (later + 1) rfl

end InfiniteExecution

end Execution

/-- A rule: the condition under which it may fire, and its effect. -/
structure Rule (σ : Type*) where
  /-- The rule may fire. -/
  guard : σ → Bool
  /-- The state after the rule has fired. -/
  action : σ → σ

section Rules

variable {σ ι : Type*}

/-- One rule of the family fires. -/
def Fires (rules : ι → Rule σ) (before : σ) (label : ι) (after : σ) : Prop :=
  (rules label).guard before = true ∧ after = (rules label).action before

theorem fires_action {rules : ι → Rule σ} {state : σ} {label : ι}
    (enabled : (rules label).guard state = true) :
    Fires rules state label ((rules label).action state) :=
  ⟨enabled, rfl⟩

/-- The rules of a schedule that are enabled when the cycle begins. -/
def enabled (rules : ι → Rule σ) (schedule : List ι) (state : σ) : List ι :=
  schedule.filter fun label => (rules label).guard state

/-- One clock cycle: the enabled rules take effect in the order of the schedule. -/
def clockCycle (rules : ι → Rule σ) (schedule : List ι) (state : σ) : σ :=
  (enabled rules schedule state).foldl (fun current label => (rules label).action current) state

/-- Clock cycles until the design is idle; the list holds the states in which a cycle began. -/
inductive RunsUntilIdle (running : σ → Bool) (cycle : σ → σ) : σ → List σ → σ → Prop
  | idle {state : σ} : running state = false → RunsUntilIdle running cycle state [] state
  | cycle {state final : σ} {visited : List σ} :
      running state = true →
      RunsUntilIdle running cycle (cycle state) visited final →
      RunsUntilIdle running cycle state (state :: visited) final

/-- No rule of the list disables a later one. -/
def StayEnabled (rules : ι → Rule σ) : List ι → σ → Prop
  | [], _ => True
  | label :: labels, state =>
      (rules label).guard state = true ∧ StayEnabled rules labels ((rules label).action state)

/-- Rules which stay enabled until their turn form an execution one rule at a time. -/
theorem execution_of_stayEnabled {rules : ι → Rule σ} {labels : List ι} {state : σ}
    (stay : StayEnabled rules labels state) :
    Execution (Fires rules) state labels
      (labels.foldl (fun current label => (rules label).action current) state) := by
  induction labels generalizing state with
  | nil => exact .nil state
  | cons label labels induction => exact .cons ⟨stay.1, rfl⟩ (induction stay.2)

end Rules

end AtomicRules
