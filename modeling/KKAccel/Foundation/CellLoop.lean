import Mathlib.Algebra.BigOperators.Fin
import Mathlib.Data.List.FinRange
import Mathlib.Data.List.ProdSigma
import Mathlib.LinearAlgebra.Matrix.Defs

/-!
# Nested loops which fill matrix cells

A nested loop over all positions of a square matrix computes one value per position and stores
it. When the stores do not touch what the values are computed from, the sequential loop succeeds
exactly when every value is computed, and then acts on all cells at once.
-/

namespace CellLoop

universe u

section Positions

variable {ι ε : Type*} {σ β : Type u}

/-- Loop body which computes one value and stores it at the current position. -/
def storeStep (value : σ → ι → Except ε β) (store : σ → ι → β → σ) (state : σ) (position : ι) :
    Except ε σ := do
  let result ← value state position
  return store state position result

/-- From a valid state, the stores keep the state valid and leave every value that is still to be
computed unchanged. -/
structure Independent (valid : σ → Prop) (value : σ → ι → Except ε β) (store : σ → ι → β → σ) :
    Prop where
  valid_store : ∀ {state position result}, valid state → valid (store state position result)
  value_store : ∀ {state position result}, valid state →
    value (store state position result) = value state

variable {valid : σ → Prop} {value : σ → ι → Except ε β} {store : σ → ι → β → σ}

theorem foldlM_storeStep_ok (independent : Independent valid value store) (result : ι → β)
    (positions : List ι) {state : σ} (initially : valid state)
    (computed : ∀ position ∈ positions, value state position = .ok (result position)) :
    positions.foldlM (storeStep value store) state =
      .ok (positions.foldl (fun current position => store current position (result position))
        state) := by
  induction positions generalizing state with
  | nil => rfl
  | cons position positions induction =>
      have first : storeStep value store state position =
          .ok (store state position (result position)) := by
        simp only [storeStep, computed position List.mem_cons_self]
        rfl
      rw [List.foldlM_cons, first]
      apply induction (independent.valid_store initially)
      intro later member
      rw [independent.value_store initially]
      exact computed later (List.mem_cons_of_mem position member)

/-- A value that cannot be computed stops the loop at some position whose value cannot be
computed from the initial state. -/
theorem foldlM_storeStep_error (independent : Independent valid value store)
    (positions : List ι) {state : σ} (initially : valid state)
    (failing : ∃ position ∈ positions, ∃ fault, value state position = .error fault) :
    ∃ position ∈ positions, ∃ fault, value state position = .error fault ∧
      positions.foldlM (storeStep value store) state = .error fault := by
  induction positions generalizing state with
  | nil =>
      obtain ⟨position, member, -⟩ := failing
      exact (List.not_mem_nil member).elim
  | cons position positions induction =>
      cases first : value state position with
      | error fault =>
          refine ⟨position, List.mem_cons_self, fault, first, ?_⟩
          simp only [List.foldlM_cons, storeStep, first]
          rfl
      | ok result =>
          have unchanged : value (store state position result) = value state :=
            independent.value_store initially
          have remaining : ∃ later ∈ positions, ∃ fault,
              value (store state position result) later = .error fault := by
            obtain ⟨later, member, fault, failed⟩ := failing
            rcases List.mem_cons.mp member with rfl | member
            · rw [first] at failed
              contradiction
            · exact ⟨later, member, fault, by rw [unchanged]; exact failed⟩
          obtain ⟨later, member, fault, failed, stopped⟩ :=
            induction (independent.valid_store initially) remaining
          refine ⟨later, List.mem_cons_of_mem position member, fault, ?_, ?_⟩
          · rw [unchanged] at failed
            exact failed
          · simp only [List.foldlM_cons, storeStep, first]
            exact stopped

/-- A loop whose body makes two stores that do not disturb each other splits into two loops. -/
theorem foldl_split (valid : σ → Prop) (first second : σ → ι → σ)
    (valid_first : ∀ {state} position, valid state → valid (first state position))
    (valid_second : ∀ {state} position, valid state → valid (second state position))
    (commute : ∀ {state} earlier later, valid state →
      first (second state earlier) later = second (first state later) earlier)
    (positions : List ι) {state : σ} (initially : valid state) :
    positions.foldl (fun current position => second (first current position) position) state =
      positions.foldl second (positions.foldl first state) := by
  have delayed (earlier : ι) (positions : List ι) {state : σ} (initially : valid state) :
      positions.foldl first (second state earlier) =
        second (positions.foldl first state) earlier := by
    induction positions generalizing state with
    | nil => rfl
    | cons later positions induction =>
        rw [List.foldl_cons, commute earlier later initially,
          induction (valid_first later initially)]
        rfl
  induction positions generalizing state with
  | nil => rfl
  | cons position positions induction =>
      have stored := valid_first position initially
      rw [List.foldl_cons, induction (valid_second position stored),
        delayed position positions stored]
      rfl

end Positions

section Cells

variable {n : ℕ} {ε : Type*} {σ β : Type u}

/-- The nested loop `for i, for j` over all positions of an `n`-by-`n` matrix. -/
def forCells (body : σ → Fin n → Fin n → Except ε σ) (state : σ) : Except ε σ :=
  (List.finRange n).foldlM
    (fun current i => (List.finRange n).foldlM (fun current j => body current i j) current) state

/-- All positions in the order of the nested loop. -/
def cells (n : ℕ) : List (Fin n × Fin n) :=
  List.finRange n ×ˢ List.finRange n

@[simp]
theorem mem_cells (position : Fin n × Fin n) : position ∈ cells n := by
  obtain ⟨i, j⟩ := position
  exact List.pair_mem_product.mpr ⟨List.mem_finRange i, List.mem_finRange j⟩

private theorem foldlM_product {ι κ : Type*} (body : σ → ι → κ → Except ε σ) (rows : List ι)
    (columns : List κ) (state : σ) :
    rows.foldlM (fun current i => columns.foldlM (fun current j => body current i j) current)
        state =
      (rows ×ˢ columns).foldlM (fun current position => body current position.1 position.2)
        state := by
  induction rows generalizing state with
  | nil => rfl
  | cons row rows induction =>
      rw [List.foldlM_cons, List.product_cons, List.foldlM_append, List.foldlM_map]
      congr 1
      funext current
      exact induction current

theorem forCells_eq_foldlM (body : σ → Fin n → Fin n → Except ε σ) (state : σ) :
    forCells body state =
      (cells n).foldlM (fun current position => body current position.1 position.2) state :=
  foldlM_product body _ _ state

variable {valid : σ → Prop} {value : σ → Fin n × Fin n → Except ε β}
  {store : σ → Fin n × Fin n → β → σ} {state : σ}

theorem forCells_storeStep_ok (independent : Independent valid value store)
    (initially : valid state) (entries : Fin n → Fin n → β)
    (computed : ∀ i j, value state (i, j) = .ok (entries i j)) :
    forCells (fun current i j => storeStep value store current (i, j)) state =
      .ok ((cells n).foldl
        (fun current position => store current position (entries position.1 position.2))
        state) := by
  rw [forCells_eq_foldlM]
  exact foldlM_storeStep_ok independent (fun position => entries position.1 position.2) (cells n)
    initially fun position _ => computed position.1 position.2

theorem forCells_storeStep_error (independent : Independent valid value store)
    (initially : valid state) (failing : ∃ i j fault, value state (i, j) = .error fault) :
    ∃ i j fault, value state (i, j) = .error fault ∧
      forCells (fun current i j => storeStep value store current (i, j)) state = .error fault := by
  obtain ⟨row, column, failure, failed⟩ := failing
  obtain ⟨⟨i, j⟩, -, fault, stopped⟩ :=
    foldlM_storeStep_error independent (cells n) initially
      ⟨(row, column), mem_cells _, failure, failed⟩
  refine ⟨i, j, fault, stopped.1, ?_⟩
  rw [forCells_eq_foldlM]
  exact stopped.2

end Cells

section Bank

variable {n : ℕ} {κ α : Type*} [DecidableEq κ]

/-- Overwrite one cell of one matrix in a bank of matrices. -/
def storeCell (bank : κ → Matrix (Fin n) (Fin n) α) (slot : κ) (i j : Fin n) (entry : α) :
    κ → Matrix (Fin n) (Fin n) α :=
  fun other a b => if other = slot ∧ a = i ∧ b = j then entry else bank other a b

theorem storeCell_of_ne {bank : κ → Matrix (Fin n) (Fin n) α} {slot other : κ}
    (different : other ≠ slot) (i j : Fin n) (entry : α) :
    storeCell bank slot i j entry other = bank other := by
  funext a b
  simp [storeCell, different]

theorem storeCell_comm {bank : κ → Matrix (Fin n) (Fin n) α} {first second : κ}
    (different : first ≠ second) (i j row column : Fin n) (entry other : α) :
    storeCell (storeCell bank second i j entry) first row column other =
      storeCell (storeCell bank first row column other) second i j entry := by
  funext slot a b
  simp only [storeCell]
  by_cases isFirst : slot = first
  · have notSecond : slot ≠ second := isFirst ▸ different
    simp [notSecond]
  · simp [isFirst]

private theorem foldl_storeCell_apply (entries : Matrix (Fin n) (Fin n) α) (slot : κ)
    (positions : List (Fin n × Fin n)) (bank : κ → Matrix (Fin n) (Fin n) α) (other : κ)
    (i j : Fin n) :
    positions.foldl
        (fun current position =>
          storeCell current slot position.1 position.2 (entries position.1 position.2))
        bank other i j =
      if other = slot ∧ (i, j) ∈ positions then entries i j else bank other i j := by
  induction positions generalizing bank with
  | nil => simp
  | cons position positions induction =>
      rw [List.foldl_cons, induction]
      simp only [storeCell, List.mem_cons, Prod.ext_iff]
      by_cases target : other = slot <;> by_cases later : (i, j) ∈ positions <;>
        by_cases row : i = position.1 <;> by_cases column : j = position.2 <;>
        simp [target, later, row, column]

/-- Storing at every position replaces one matrix of the bank. -/
theorem foldl_storeCell (entries : Matrix (Fin n) (Fin n) α) (slot : κ)
    (bank : κ → Matrix (Fin n) (Fin n) α) :
    (cells n).foldl
        (fun current position =>
          storeCell current slot position.1 position.2 (entries position.1 position.2)) bank =
      Function.update bank slot entries := by
  funext other i j
  rw [foldl_storeCell_apply]
  by_cases target : other = slot
  · subst target
    simp
  · simp [target]

end Bank

section Accumulator

variable {n : ℕ} {M : Type*} [AddCommMonoid M]

theorem foldl_add (value : Fin n → M) (start : M) :
    (List.finRange n).foldl (fun total position => total + value position) start =
      start + ∑ position, value position := by
  have accumulated (positions : List (Fin n)) (start : M) :
      positions.foldl (fun total position => total + value position) start =
        start + (positions.map value).sum := by
    induction positions generalizing start with
    | nil => simp
    | cons position positions induction =>
        rw [List.foldl_cons, induction, List.map_cons, List.sum_cons, add_assoc]
  rw [accumulated, Fin.sum_univ_def]

theorem foldl_foldl_add (value : Fin n → Fin n → M) (start : M) :
    (List.finRange n).foldl
        (fun total i => (List.finRange n).foldl (fun total j => total + value i j) total) start =
      start + ∑ i, ∑ j, value i j := by
  simp only [foldl_add]

end Accumulator

section Order

variable {n : ℕ} {β : Type*}

theorem foldl_foldl_eq_cells (step : β → Fin n × Fin n → β) (start : β) :
    (List.finRange n).foldl
        (fun current i => (List.finRange n).foldl (fun current j => step current (i, j)) current)
        start =
      (cells n).foldl step start := by
  simp only [cells, SProd.sprod, List.product, List.foldl_flatMap, List.foldl_map]

theorem sum_cells {M : Type*} [AddCommMonoid M] (value : Fin n × Fin n → M) :
    ((cells n).map value).sum = ∑ i, ∑ j, value (i, j) := by
  simp only [cells, SProd.sprod, List.product, List.flatMap_def, List.map_flatten,
    List.sum_flatten, List.map_map, Fin.sum_univ_def, Function.comp_def]

theorem length_cells (n : ℕ) : (cells n).length = n * n := by
  rw [cells, List.length_product, List.length_finRange]

private theorem getElem?_product {ι κ : Type*} (rows : List ι) (columns : List κ) {row : ι}
    {column : κ} {i j : ℕ} (rowAt : rows[i]? = some row) (columnAt : columns[j]? = some column) :
    (rows ×ˢ columns)[i * columns.length + j]? = some (row, column) := by
  obtain ⟨bound, -⟩ := List.getElem?_eq_some_iff.mp columnAt
  induction rows generalizing i with
  | nil => simp at rowAt
  | cons first rows induction =>
      rw [List.product_cons]
      cases i with
      | zero =>
          obtain rfl : first = row := by simpa using rowAt
          rw [Nat.zero_mul, Nat.zero_add, List.getElem?_append_left (by simpa using bound),
            List.getElem?_map, columnAt]
          rfl
      | succ i =>
          have shifted : (i + 1) * columns.length + j - (columns.map (first, ·)).length =
              i * columns.length + j := by
            rw [List.length_map, Nat.succ_mul]
            omega
          rw [List.getElem?_append_right (by rw [List.length_map, Nat.succ_mul]; omega), shifted]
          exact induction (by simpa using rowAt)

theorem getElem?_cells (i j : Fin n) : (cells n)[i * n + j]? = some (i, j) := by
  have rowAt : (List.finRange n)[(i : ℕ)]? = some i := by simp
  have columnAt : (List.finRange n)[(j : ℕ)]? = some j := by simp
  have found := getElem?_product (List.finRange n) (List.finRange n) rowAt columnAt
  rwa [List.length_finRange] at found

end Order

end CellLoop
