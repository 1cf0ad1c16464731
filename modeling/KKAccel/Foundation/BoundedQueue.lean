import Mathlib.Data.List.Basic

/-!
# Bounded queues

A first-in first-out queue of a fixed capacity. The bound is part of the queue, and putting an item
into a full queue or taking one from an empty queue has no effect.
-/

/-- An order-preserving queue of at most `capacity` items. -/
structure BoundedQueue (α : Type*) (capacity : ℕ) where
  /-- The items, the oldest first. -/
  items : List α
  bounded : items.length ≤ capacity

namespace BoundedQueue

variable {α : Type*} {capacity : ℕ}

/-- The queue without items. -/
def empty : BoundedQueue α capacity := ⟨[], Nat.zero_le capacity⟩

/-- There is room for one more item. -/
def notFull (queue : BoundedQueue α capacity) : Bool := decide (queue.items.length < capacity)

/-- The oldest item. -/
def first? (queue : BoundedQueue α capacity) : Option α := queue.items.head?

/-- Put an item at the end. -/
def enq (queue : BoundedQueue α capacity) (item : α) : BoundedQueue α capacity :=
  if room : queue.items.length < capacity then
    ⟨queue.items ++ [item], List.length_append ▸ Nat.succ_le_of_lt room⟩
  else
    queue

/-- Take the oldest item away. -/
def deq (queue : BoundedQueue α capacity) : BoundedQueue α capacity :=
  ⟨queue.items.tail, Nat.le_trans (List.length_tail ▸ Nat.sub_le _ 1) queue.bounded⟩

theorem items_enq {queue : BoundedQueue α capacity} (room : queue.notFull = true) (item : α) :
    (queue.enq item).items = queue.items ++ [item] := by
  rw [notFull, decide_eq_true_iff] at room
  rw [enq, dif_pos room]

theorem items_deq {queue : BoundedQueue α capacity} {item : α} (first : queue.first? = some item) :
    queue.items = item :: queue.deq.items :=
  (List.cons_head?_tail first).symm

theorem items_eq_toList (queue : BoundedQueue α 1) : queue.items = queue.first?.toList := by
  obtain ⟨items, bounded⟩ := queue
  match items, bounded with
  | [], _ => rfl
  | [item], _ => rfl

theorem items_deq_eq_nil (queue : BoundedQueue α 1) : queue.deq.items = [] := by
  rw [← List.length_eq_zero_iff, deq, List.length_tail]
  have bounded := queue.bounded
  omega

end BoundedQueue
