import KKAccel.KKIterations
import KKAccel.Refinement

/-!
# The accelerated program

`the_algorithm` of the program which leaves the KK iterations to the accelerator: it reads the two
result matrices back into the scratchpad, whose indexes are fixed by the size, and then performs
the final iteration as the other program does.
-/

namespace KKAccel

open CellLoop

universe u

variable {n : ℕ} {α : Type u}

/-- The declarations `next = (N + 2) % 3, prev = N % 3, curr = (N + 1) % 3`. -/
def Pad.accelerated (scratch : Fin 3 → Matrix (Fin n) (Fin n) α) : Pad n α where
  matrixK := scratch
  next := slotOf (n + 2)
  prev := slotOf n
  curr := slotOf (n + 1)

/-- Get elements: both result matrices, position by position. -/
def getElements (intElem detElem : Fin n → Fin n → α) (pad : Pad n α) :
    Except (DivFault n) (Pad n α) :=
  forCells
    (fun pad i j => do
      let pad := pad.store pad.prev i j (intElem i j)
      return pad.store pad.curr i j (detElem i j))
    pad

/-- The stages from the end of the accelerator's run to the inverted matrix. -/
def invertFromElements (arith : Arith α) (faulty : α → Bool)
    (scratch : Fin 3 → Matrix (Fin n) (Fin n) α) (intElem detElem : Fin n → Fin n → α) :
    Except (DivFault n) (Pad n α) := do
  let pad ← getElements intElem detElem (Pad.accelerated scratch)
  finalIteration arith faulty pad

theorem Pad.accelerated_rotating (scratch : Fin 3 → Matrix (Fin n) (Fin n) α) :
    (Pad.accelerated scratch).Rotating := by
  constructor
  · rw [Pad.accelerated, slotOf_add_two, nextSlot_nextSlot_nextSlot]
  · rw [Pad.accelerated, slotOf_add_two, nextSlot_nextSlot_nextSlot, slotOf_add_one]

theorem Pad.store_comm {pad : Pad n α} {first second : Fin 3} (different : first ≠ second)
    (i j row column : Fin n) (entry other : α) :
    (pad.store second i j entry).store first row column other =
      (pad.store first row column other).store second i j entry := by
  simp only [Pad.store, storeCell_comm different]

/-- Reading back replaces the matrices of both selected slots. -/
theorem getElements_ok {pad : Pad n α} (rotating : pad.Rotating)
    (intElem detElem : Matrix (Fin n) (Fin n) α) :
    getElements intElem detElem pad =
      .ok ((pad.replace pad.prev intElem).replace pad.curr detElem) := by
  have independent : Independent (fun _ : Pad n α => True)
      (fun _ (position : Fin n × Fin n) =>
        (.ok (intElem position.1 position.2, detElem position.1 position.2) :
          Except (DivFault n) (α × α)))
      fun pad position entries =>
        (pad.store pad.prev position.1 position.2 entries.1).store pad.curr position.1 position.2
          entries.2 :=
    ⟨fun _ => trivial, fun _ => rfl⟩
  have executed : getElements intElem detElem pad = _ :=
    forCells_storeStep_ok independent trivial (fun i j => (intElem i j, detElem i j))
      fun _ _ => rfl
  have split := foldl_split Pad.Rotating
    (fun (current : Pad n α) (position : Fin n × Fin n) =>
      current.store current.prev position.1 position.2 (intElem position.1 position.2))
    (fun current position =>
      current.store current.curr position.1 position.2 (detElem position.1 position.2))
    (fun _ valid => ⟨valid.prev_eq, valid.curr_eq⟩)
    (fun _ valid => ⟨valid.prev_eq, valid.curr_eq⟩)
    (fun earlier later valid => Pad.store_comm valid.prev_ne_curr earlier.1 earlier.2 later.1
      later.2 (detElem earlier.1 earlier.2) (intElem later.1 later.2))
    (cells n) rotating
  rw [executed]
  refine congrArg _ (split.trans ?_)
  rw [Pad.foldl_store_cells Pad.prev (fun _ _ _ _ _ => rfl),
    Pad.foldl_store_cells Pad.curr (fun _ _ _ _ _ => rfl)]
  rfl

theorem invertFromElements_ok (arith : Arith α) (faulty : α → Bool)
    (scratch : Fin 3 → Matrix (Fin n) (Fin n) α) (intElem detElem : Matrix (Fin n) (Fin n) α)
    (sound : ∀ i j, faulty (detElem i j) = false) :
    ∃ pad, invertFromElements arith faulty scratch intElem detElem = .ok pad ∧
      pad.matrixK pad.next = finalQuotient arith intElem detElem := by
  have rotating := Pad.accelerated_rotating scratch
  generalize equality : Pad.accelerated scratch = start at rotating
  let filled := (start.replace start.prev intElem).replace start.curr detElem
  have curr_eq : filled.matrixK filled.curr = detElem := Pad.replace_matrixK_self _ _ _
  have prev_eq : filled.matrixK filled.prev = intElem :=
    (Pad.replace_matrixK_of_ne rotating.prev_ne_curr detElem).trans
      (Pad.replace_matrixK_self start start.prev intElem)
  have final : finalIteration arith faulty filled =
      .ok (filled.replace filled.next (finalQuotient arith intElem detElem)) := by
    have rotating' : filled.Rotating := ⟨rotating.prev_eq, rotating.curr_eq⟩
    rw [← curr_eq] at sound
    rw [finalIteration_ok rotating' sound, curr_eq, prev_eq]
  refine ⟨_, ?_, Pad.replace_matrixK_self filled filled.next _⟩
  change getElements intElem detElem (Pad.accelerated scratch) >>= finalIteration arith faulty = _
  rw [equality, getElements_ok rotating]
  exact final

theorem invertFromElements_fault (arith : Arith α) (faulty : α → Bool)
    (scratch : Fin 3 → Matrix (Fin n) (Fin n) α) (intElem detElem : Matrix (Fin n) (Fin n) α)
    (unsound : ∃ i j, faulty (detElem i j) = true) :
    ∃ i j, invertFromElements arith faulty scratch intElem detElem = .error (.final i j) := by
  have rotating := Pad.accelerated_rotating scratch
  generalize equality : Pad.accelerated scratch = start at rotating
  let filled := (start.replace start.prev intElem).replace start.curr detElem
  have curr_eq : filled.matrixK filled.curr = detElem := Pad.replace_matrixK_self _ _ _
  have rotating' : filled.Rotating := ⟨rotating.prev_eq, rotating.curr_eq⟩
  rw [← curr_eq] at unsound
  obtain ⟨i, j, stopped⟩ := @finalIteration_fault _ _ arith faulty _ rotating' unsound
  refine ⟨i, j, ?_⟩
  change getElements intElem detElem (Pad.accelerated scratch) >>= finalIteration arith faulty = _
  rw [equality, getElements_ok rotating]
  exact stopped

end KKAccel
