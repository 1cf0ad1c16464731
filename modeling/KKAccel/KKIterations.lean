import KKAccel.PCProgram

/-!
# What the KK iterations compute

After `k` iterations the scratchpad holds the condensation matrices of orders `k` and `k + 1` in
`matrix_K[prev]` and `matrix_K[curr]`. The loop continues as long as no divisor is faulty, and
stops in the first iteration in which one is.
-/

namespace KKAccel

open CellLoop

universe u

variable {n : ℕ} {α : Type u}

namespace Pad

/-- The indexes are three consecutive slots, so they are pairwise distinct. -/
structure Rotating (pad : Pad n α) : Prop where
  prev_eq : pad.prev = nextSlot pad.next
  curr_eq : pad.curr = nextSlot (nextSlot pad.next)

theorem initial_rotating (scratch : Fin 3 → Matrix (Fin n) (Fin n) α) :
    (initial scratch).Rotating := ⟨rfl, rfl⟩

theorem Rotating.refresh {pad : Pad n α} (rotating : pad.Rotating) : pad.refresh.Rotating := by
  constructor
  · simp only [Pad.refresh, rotating.prev_eq]
  · simp only [Pad.refresh, rotating.curr_eq]

theorem Rotating.prev_ne_next {pad : Pad n α} (rotating : pad.Rotating) :
    pad.prev ≠ pad.next := by
  rw [rotating.prev_eq]
  exact nextSlot_ne _

theorem Rotating.curr_ne_next {pad : Pad n α} (rotating : pad.Rotating) :
    pad.curr ≠ pad.next := by
  rw [rotating.curr_eq]
  exact nextSlot_nextSlot_ne _

theorem Rotating.prev_ne_curr {pad : Pad n α} (rotating : pad.Rotating) :
    pad.prev ≠ pad.curr := by
  rw [rotating.prev_eq, rotating.curr_eq]
  exact (nextSlot_ne _).symm

theorem Rotating.curr_refresh {pad : Pad n α} (rotating : pad.Rotating) :
    pad.refresh.curr = pad.next := by
  rw [Pad.refresh, rotating.curr_eq]
  exact nextSlot_nextSlot_nextSlot _

theorem Rotating.prev_refresh {pad : Pad n α} (rotating : pad.Rotating) :
    pad.refresh.prev = pad.curr := by
  rw [Pad.refresh, rotating.prev_eq, rotating.curr_eq]

theorem store_matrixK_of_ne {pad : Pad n α} {slot other : Fin 3} (different : other ≠ slot)
    (i j : Fin n) (entry : α) :
    (pad.store slot i j entry).matrixK other = pad.matrixK other :=
  storeCell_of_ne different i j entry

@[simp]
theorem replace_matrixK_self (pad : Pad n α) (slot : Fin 3)
    (entries : Matrix (Fin n) (Fin n) α) : (pad.replace slot entries).matrixK slot = entries := by
  simp [replace]

theorem replace_matrixK_of_ne {pad : Pad n α} {slot other : Fin 3} (different : other ≠ slot)
    (entries : Matrix (Fin n) (Fin n) α) :
    (pad.replace slot entries).matrixK other = pad.matrixK other := by
  simp [replace, different]

private theorem foldl_store (select : Pad n α → Fin 3)
    (stable : ∀ pad slot i j entry, select (pad.store slot i j entry) = select pad)
    (entries : Matrix (Fin n) (Fin n) α) (positions : List (Fin n × Fin n)) (pad : Pad n α) :
    positions.foldl
        (fun current position =>
          current.store (select current) position.1 position.2
            (entries position.1 position.2)) pad =
      { pad with
        matrixK := positions.foldl
          (fun bank position =>
            storeCell bank (select pad) position.1 position.2 (entries position.1 position.2))
          pad.matrixK } := by
  induction positions generalizing pad with
  | nil => rfl
  | cons position positions induction =>
      rw [List.foldl_cons, induction, stable]
      rfl

theorem foldl_store_cells (select : Pad n α → Fin 3)
    (stable : ∀ pad slot i j entry, select (pad.store slot i j entry) = select pad)
    (entries : Matrix (Fin n) (Fin n) α) (pad : Pad n α) :
    (cells n).foldl
        (fun current position =>
          current.store (select current) position.1 position.2
            (entries position.1 position.2)) pad =
      pad.replace (select pad) entries := by
  rw [foldl_store select stable, foldl_storeCell]
  rfl

end Pad

/-- A loop which stores into `matrix_K[next]` what it divides out of the other two slots. -/
private theorem independent_next
    {value : Pad n α → Fin n × Fin n → Except (DivFault n) α}
    (reads : ∀ {before after : Pad n α}, after.prev = before.prev → after.curr = before.curr →
      after.matrixK before.prev = before.matrixK before.prev →
      after.matrixK before.curr = before.matrixK before.curr → value after = value before) :
    Independent Pad.Rotating value
      fun pad position entry => pad.store pad.next position.1 position.2 entry where
  valid_store rotating := ⟨rotating.prev_eq, rotating.curr_eq⟩
  value_store rotating :=
    reads rfl rfl (Pad.store_matrixK_of_ne rotating.prev_ne_next _ _ _)
      (Pad.store_matrixK_of_ne rotating.curr_ne_next _ _ _)

theorem divide_of_sound {arith : Arith α} {faulty : α → Bool} {place : DivFault n}
    {dividend divisor : α} (sound : faulty divisor = false) :
    divide arith faulty place dividend divisor = .ok (arith.div dividend divisor) := by
  simp [divide, sound]

theorem divide_eq_error_iff {arith : Arith α} {faulty : α → Bool} {place fault : DivFault n}
    {dividend divisor : α} :
    divide arith faulty place dividend divisor = .error fault ↔
      faulty divisor = true ∧ place = fault := by
  cases verdict : faulty divisor <;> simp [divide, verdict]

section Stages

variable {arith : Arith α} {faulty : α → Bool} {A : Matrix (Fin n) (Fin n) α} {pad : Pad n α}
  {k : ℕ}

theorem transferMatrix_ok (A : Matrix (Fin n) (Fin n) α) (pad : Pad n α) :
    transferMatrix A pad = .ok (pad.replace pad.curr A) := by
  have independent : Independent (fun _ : Pad n α => True)
      (fun _ (position : Fin n × Fin n) =>
        (.ok (A position.1 position.2) : Except (DivFault n) α))
      fun pad position entry => pad.store pad.curr position.1 position.2 entry :=
    ⟨fun _ => trivial, fun _ => rfl⟩
  rw [← Pad.foldl_store_cells Pad.curr (fun _ _ _ _ _ => rfl)]
  exact forCells_storeStep_ok independent trivial A fun _ _ => rfl

/-- The scratchpad after `k` iterations on `A`. -/
structure Iterated (arith : Arith α) (A : Matrix (Fin n) (Fin n) α) (k : ℕ) (pad : Pad n α) :
    Prop where
  rotating : pad.Rotating
  curr_eq : pad.matrixK pad.curr = arith.condense A (k + 1)
  prev_eq : 0 < k → pad.matrixK pad.prev = arith.condense A k

/-- No entry of the matrix of order `k` is a faulty divisor. -/
def SoundDivisors (arith : Arith α) (faulty : α → Bool) (A : Matrix (Fin n) (Fin n) α) (k : ℕ) :
    Prop :=
  ∀ i j, faulty (arith.condense A k i j) = false

theorem soundDivisors_total (arith : Arith α) (A : Matrix (Fin n) (Fin n) α) (k : ℕ) :
    SoundDivisors arith (fun _ => false) A k :=
  fun _ _ => rfl

theorem Iterated.divisor_eq (iterated : Iterated arith A k pad) (i j : Fin n) :
    kkDivisor arith k pad i j = arith.condense A k (i.wrapAdd 1) (j.wrapAdd 1) := by
  rcases Nat.eq_zero_or_pos k with rfl | positive
  · simp [kkDivisor]
  · rw [kkDivisor, if_pos positive.ne', iterated.prev_eq positive]

/-- The value which iteration `k` computes for one cell. -/
private def kkValue (arith : Arith α) (faulty : α → Bool) (k : ℕ) (pad : Pad n α)
    (position : Fin n × Fin n) : Except (DivFault n) α :=
  divide arith faulty (.iteration k position.1 position.2)
    (arith.crossDifference (pad.matrixK pad.curr) position.1 position.2)
    (kkDivisor arith k pad position.1 position.2)

private theorem kkValue_independent :
    Independent Pad.Rotating (kkValue arith faulty k)
      fun (pad : Pad n α) position entry => pad.store pad.next position.1 position.2 entry := by
  apply independent_next
  intro before after prev_eq curr_eq prevMatrix currMatrix
  funext position
  simp only [kkValue, kkDivisor, prev_eq, curr_eq, prevMatrix, currMatrix]

theorem Iterated.step (iterated : Iterated arith A k pad)
    (sound : SoundDivisors arith faulty A k) :
    ∃ after, kkIteration arith faulty k pad = .ok after ∧ Iterated arith A (k + 1) after := by
  have computed (i j : Fin n) :
      kkValue arith faulty k pad (i, j) = .ok (arith.condense A (k + 2) i j) := by
    rw [kkValue, iterated.divisor_eq, divide_of_sound (sound _ _), iterated.curr_eq]
    rfl
  have filled : forCells (kkCell arith faulty k) pad =
      .ok (pad.replace pad.next (arith.condense A (k + 2))) := by
    rw [← Pad.foldl_store_cells Pad.next (fun _ _ _ _ _ => rfl)]
    exact forCells_storeStep_ok kkValue_independent iterated.rotating _ computed
  refine ⟨(pad.replace pad.next (arith.condense A (k + 2))).refresh, ?_, ?_⟩
  · rw [kkIteration, filled]
    rfl
  · have rotating : (pad.replace pad.next (arith.condense A (k + 2))).Rotating :=
      ⟨iterated.rotating.prev_eq, iterated.rotating.curr_eq⟩
    refine ⟨rotating.refresh, ?_, fun _ => ?_⟩
    · rw [rotating.curr_refresh]
      exact Pad.replace_matrixK_self pad pad.next _
    · rw [rotating.prev_refresh]
      exact (Pad.replace_matrixK_of_ne iterated.rotating.curr_ne_next _).trans iterated.curr_eq

theorem Iterated.fault (iterated : Iterated arith A k pad)
    (unsound : ¬ SoundDivisors arith faulty A k) :
    ∃ i j, kkIteration arith faulty k pad = .error (.iteration k i j) := by
  have failing : ∃ i j fault, kkValue arith faulty k pad (i, j) = .error fault := by
    simp only [SoundDivisors, not_forall, Bool.not_eq_false] at unsound
    obtain ⟨row, column, bad⟩ := unsound
    -- The divisor is read one place further on, and every place is read.
    obtain ⟨i, rfl⟩ := Fin.wrapAdd_surjective 1 row
    obtain ⟨j, rfl⟩ := Fin.wrapAdd_surjective 1 column
    refine ⟨i, j, .iteration k i j, ?_⟩
    rw [kkValue, divide_eq_error_iff, iterated.divisor_eq]
    exact ⟨bad, rfl⟩
  obtain ⟨i, j, fault, failed, stopped⟩ :=
    forCells_storeStep_error kkValue_independent iterated.rotating failing
  obtain ⟨-, rfl⟩ := divide_eq_error_iff.mp failed
  refine ⟨i, j, ?_⟩
  change (forCells (kkCell arith faulty k) pad >>= _) = _
  rw [show forCells (kkCell arith faulty k) pad = .error (.iteration k i j) from stopped]
  rfl

theorem kkLoop_succ (count : ℕ) (pad : Pad n α) :
    kkLoop arith faulty (count + 1) pad =
      kkLoop arith faulty count pad >>= kkIteration arith faulty count := by
  simp [kkLoop, List.range_succ]

theorem Iterated.loop (iterated : Iterated arith A 0 pad) (count : ℕ)
    (sound : ∀ k < count, SoundDivisors arith faulty A k) :
    ∃ after, kkLoop arith faulty count pad = .ok after ∧ Iterated arith A count after := by
  induction count with
  | zero => exact ⟨pad, rfl, iterated⟩
  | succ count induction =>
      obtain ⟨middle, executed, holds⟩ := induction fun k bound => sound k (by omega)
      obtain ⟨after, executedLast, holdsLast⟩ := holds.step (sound count (by omega))
      refine ⟨after, ?_, holdsLast⟩
      rw [kkLoop_succ, executed]
      exact executedLast

/-- The loop stops in the first iteration that has a faulty divisor. -/
theorem Iterated.loop_fault (iterated : Iterated arith A 0 pad) {count first : ℕ}
    (bound : first < count) (sound : ∀ k < first, SoundDivisors arith faulty A k)
    (unsound : ¬ SoundDivisors arith faulty A first) :
    ∃ i j, kkLoop arith faulty count pad = .error (.iteration first i j) := by
  induction count with
  | zero => omega
  | succ count induction =>
      rcases Nat.lt_succ_iff_lt_or_eq.mp bound with earlier | rfl
      · obtain ⟨i, j, stopped⟩ := induction earlier
        refine ⟨i, j, ?_⟩
        rw [kkLoop_succ, stopped]
        rfl
      · obtain ⟨middle, executed, holds⟩ := iterated.loop first sound
        obtain ⟨i, j, stopped⟩ := holds.fault unsound
        refine ⟨i, j, ?_⟩
        rw [kkLoop_succ, executed]
        exact stopped

theorem transferMatrix_iterated (arith : Arith α) (A : Matrix (Fin n) (Fin n) α)
    (scratch : Fin 3 → Matrix (Fin n) (Fin n) α) :
    ∃ pad, transferMatrix A (Pad.initial scratch) = .ok pad ∧ Iterated arith A 0 pad := by
  have rotating := Pad.initial_rotating scratch
  refine ⟨_, transferMatrix_ok A _, ⟨rotating.prev_eq, rotating.curr_eq⟩, ?_, ?_⟩
  · exact Pad.replace_matrixK_self _ _ _
  · intro impossible
    exact absurd impossible (lt_irrefl 0)

theorem transferAndIterate_ok (scratch : Fin 3 → Matrix (Fin n) (Fin n) α)
    (sound : ∀ k < n - 1, SoundDivisors arith faulty A k) :
    ∃ pad, transferAndIterate arith faulty scratch A = .ok pad ∧ Iterated arith A (n - 1) pad := by
  obtain ⟨start, transferred, initially⟩ := transferMatrix_iterated arith A scratch
  obtain ⟨pad, executed, holds⟩ := initially.loop (n - 1) sound
  refine ⟨pad, ?_, holds⟩
  rw [transferAndIterate, transferred]
  exact executed

theorem transferAndIterate_fault (scratch : Fin 3 → Matrix (Fin n) (Fin n) α) {first : ℕ}
    (bound : first < n - 1) (sound : ∀ k < first, SoundDivisors arith faulty A k)
    (unsound : ¬ SoundDivisors arith faulty A first) :
    ∃ i j, transferAndIterate arith faulty scratch A = .error (.iteration first i j) := by
  obtain ⟨start, transferred, initially⟩ := transferMatrix_iterated arith A scratch
  obtain ⟨i, j, stopped⟩ := initially.loop_fault bound sound unsound
  refine ⟨i, j, ?_⟩
  rw [transferAndIterate, transferred]
  exact stopped

private def finalValue (arith : Arith α) (faulty : α → Bool) (pad : Pad n α)
    (position : Fin n × Fin n) : Except (DivFault n) α :=
  divide arith faulty (.final position.1 position.2)
    (pad.matrixK pad.prev (position.2.wrapAdd 1) (position.1.wrapAdd 1))
    (pad.matrixK pad.curr position.1 position.2)

private theorem finalValue_independent :
    Independent Pad.Rotating (finalValue arith faulty)
      fun (pad : Pad n α) position entry => pad.store pad.next position.1 position.2 entry := by
  apply independent_next
  intro before after prev_eq curr_eq prevMatrix currMatrix
  funext position
  simp only [finalValue, prev_eq, curr_eq, prevMatrix, currMatrix]

/-- The quotients of the final iteration; the dividend is read with row and column exchanged. -/
def finalQuotient (arith : Arith α) (prev curr : Matrix (Fin n) (Fin n) α) :
    Matrix (Fin n) (Fin n) α :=
  fun i j => arith.div (prev (j.wrapAdd 1) (i.wrapAdd 1)) (curr i j)

theorem finalIteration_ok (rotating : pad.Rotating)
    (sound : ∀ i j, faulty (pad.matrixK pad.curr i j) = false) :
    finalIteration arith faulty pad =
      .ok (pad.replace pad.next
        (finalQuotient arith (pad.matrixK pad.prev) (pad.matrixK pad.curr))) := by
  rw [← Pad.foldl_store_cells Pad.next (fun _ _ _ _ _ => rfl)]
  exact forCells_storeStep_ok finalValue_independent rotating _ fun i j =>
    divide_of_sound (sound i j)

theorem finalIteration_fault (rotating : pad.Rotating)
    (unsound : ∃ i j, faulty (pad.matrixK pad.curr i j) = true) :
    ∃ i j, finalIteration arith faulty pad = .error (.final i j) := by
  obtain ⟨row, column, bad⟩ := unsound
  have failing : ∃ i j fault, finalValue arith faulty pad (i, j) = .error fault :=
    ⟨row, column, .final row column, divide_eq_error_iff.mpr ⟨bad, rfl⟩⟩
  obtain ⟨i, j, fault, failed, stopped⟩ :=
    forCells_storeStep_error finalValue_independent rotating failing
  obtain ⟨-, rfl⟩ := divide_eq_error_iff.mp failed
  exact ⟨i, j, stopped⟩

/-- With a total divider the program always ends, with the quotients of the two highest orders. -/
theorem invertMatrix_total (arith : Arith α) (scratch : Fin 3 → Matrix (Fin n) (Fin n) α)
    (A : Matrix (Fin n) (Fin n) α) (two_le : 2 ≤ n) :
    ∃ pad, invertMatrix arith (fun _ => false) scratch A = .ok pad ∧
      pad.matrixK pad.next =
        finalQuotient arith (arith.condense A (n - 1)) (arith.condense A n) := by
  obtain ⟨pad, executed, iterated⟩ :=
    transferAndIterate_ok scratch fun k _ => soundDivisors_total arith A k
  have curr_eq := iterated.curr_eq
  rw [Nat.sub_add_cancel (by omega)] at curr_eq
  refine ⟨_, ?_, Pad.replace_matrixK_self pad pad.next _⟩
  rw [invertMatrix, executed, ← iterated.prev_eq (by omega), ← curr_eq]
  exact finalIteration_ok iterated.rotating fun _ _ => rfl

end Stages

end KKAccel
