import Mathlib.Data.List.Basic
import Mathlib.Tactic.Common

/-!
# Allocated blocks

The cells of a block are not initialised until they are stored to. A store outside the
block is nothing.
-/

namespace Busybox.Memory

variable {α : Type*}

/-- The cells of an allocated block. -/
abbrev Block (α : Type*) := List (Option α)

/-- A new block of so many cells. -/
def alloc (count : Nat) : Block α := List.replicate count none

/-- A store to consecutive cells. -/
def store (block : Block α) (offset : Nat) (values : List α) : Option (Block α) :=
  if offset + values.length ≤ block.length then
    some (block.take offset ++ values.map some ++ block.drop (offset + values.length))
  else none

/-- A store over cells of its own length. -/
theorem store_append (front old back : Block α) (values : List α) {offset : Nat}
    (size : old.length = values.length) (place : offset = front.length) :
    store (front ++ (old ++ back)) offset values = some (front ++ (values.map some ++ back)) := by
  subst place
  rw [store, if_pos (by simp; omega), ← size, ← List.append_assoc front old,
    List.drop_left' (by simp), List.append_assoc front old, List.take_left' rfl, List.append_assoc]

/-- A store to the first cell behind some others. -/
theorem store_cell (front back : Block α) (old : Option α) (value : α) {offset : Nat}
    (place : offset = front.length) :
    store (front ++ old :: back) offset [value] = some (front ++ some value :: back) :=
  store_append front [old] back [value] rfl place

end Busybox.Memory

/-!
## Linked blocks of a heap

Blocks are named in the order of their allocation, and a name is not used again. Some of them
hold the name of another one.
-/

namespace Busybox.LinkedHeap

variable {α : Type*}

/-- The blocks in the order of their allocation, without those that have been freed. -/
abbrev Heap (α : Type*) := List (Option α)

def get (heap : Heap α) (id : Nat) : Option α := heap[id]?.join

/-- A new block, whose name is the length of the heap. -/
def alloc (heap : Heap α) (block : α) : Heap α := heap ++ [some block]

def modify (heap : Heap α) (id : Nat) (f : α → α) : Heap α := List.modify heap id (Option.map f)

def free (heap : Heap α) (id : Nat) : Heap α := List.set heap id none

/-- How many blocks have not been freed. -/
def live (heap : Heap α) : Nat := heap.countP Option.isSome

variable {heap heap' : Heap α} {id id' n : Nat} {block : α} {f : α → α} {ids ids' : List Nat}

theorem get_lt (found : get heap id = some block) : id < heap.length := by
  apply Nat.lt_of_not_le
  intro beyond
  rw [get, List.getElem?_eq_none beyond] at found
  cases found

@[simp] theorem alloc_length (heap : Heap α) (block : α) :
    (alloc heap block).length = heap.length + 1 := by
  simp [alloc]

theorem get_alloc (heap : Heap α) (block : α) (id : Nat) :
    get (alloc heap block) id = if id = heap.length then some block else get heap id := by
  unfold get alloc
  rcases Nat.lt_trichotomy id heap.length with before | rfl | after
  · rw [List.getElem?_append_left before, if_neg (by omega)]
  · simp
  · rw [List.getElem?_eq_none (by simp; omega), List.getElem?_eq_none (by omega),
      if_neg (by omega)]

@[simp] theorem modify_length (heap : Heap α) (id : Nat) (f : α → α) :
    (modify heap id f).length = heap.length := by
  simp [modify]

theorem get_modify (heap : Heap α) (id id' : Nat) (f : α → α) :
    get (modify heap id f) id' = if id = id' then (get heap id').map f else get heap id' := by
  unfold get modify
  rw [List.getElem?_modify]
  cases heap[id']? with
  | none => simp
  | some block => split <;> simp

@[simp] theorem free_length (heap : Heap α) (id : Nat) : (free heap id).length = heap.length := by
  simp [free]

theorem get_free_other (other : id' ≠ id) : get (free heap id) id' = get heap id' := by
  unfold get free
  rw [List.getElem?_set_ne (Ne.symm other)]

theorem live_free (found : get heap id = some block) : live (free heap id) < live heap := by
  have inside := get_lt found
  unfold live free
  rw [List.countP_set inside]
  have here : heap[id].isSome = true := by
    rw [get, List.getElem?_eq_getElem inside] at found
    simp only [Option.join_some] at found
    rw [found]
    rfl
  have := List.countP_pos_iff.mpr ⟨_, List.getElem_mem inside, here⟩
  simp only [here, if_true, Option.isSome_none, Bool.false_eq_true, if_false]
  omega

section Links

variable (next : α → Option Nat)

/-- Frees a block and those behind it, or fails at one that is not live. -/
def freeAll (heap : Heap α) : Option Nat → Option (Heap α)
  | none => some heap
  | some id =>
    match _found : get heap id with
    | none => none
    | some block => freeAll (free heap id) (next block)
termination_by live heap
decreasing_by exact live_free _found

/-- The live blocks from one name to the end of their list, each of them once. -/
inductive Chain (heap : Heap α) : Option Nat → List Nat → Prop
  | nil : Chain heap none []
  | cons {id : Nat} {block : α} {ids : List Nat} (found : get heap id = some block)
      (rest : Chain heap (next block) ids) (once : id ∉ ids) : Chain heap (some id) (id :: ids)

variable {next} {start : Option Nat}

theorem Chain.live (chain : Chain next heap start ids) (inside : id ∈ ids) :
    ∃ block, get heap id = some block := by
  induction chain with
  | nil => cases inside
  | cons found _ _ ih =>
    rcases List.mem_cons.mp inside with rfl | inside
    · exact ⟨_, found⟩
    · exact ih inside

theorem Chain.lt (chain : Chain next heap start ids) (inside : id ∈ ids) : id < heap.length := by
  obtain ⟨block, found⟩ := chain.live inside
  exact get_lt found

/-- A list is the same in a heap with the same links. -/
theorem Chain.congr (chain : Chain next heap start ids) (heap' : Heap α)
    (same : ∀ id ∈ ids, (get heap' id).map next = (get heap id).map next) :
    Chain next heap' start ids := by
  induction chain with
  | nil => exact .nil
  | @cons id block ids found _ once ih =>
    have here := same id (by simp)
    rw [found, Option.map_some, Option.map_eq_some_iff] at here
    obtain ⟨block', found', link⟩ := here
    refine .cons found' ?_ once
    rw [link]
    exact ih fun id inside => same id (by simp [inside])

/-- A list can be freed, and no other block goes with it. -/
theorem Chain.freed (chain : Chain next heap start ids) :
    ∃ heap', freeAll next heap start = some heap' ∧ heap'.length = heap.length ∧
      ∀ id, id ∉ ids → get heap' id = get heap id := by
  induction ids generalizing heap start with
  | nil =>
    cases chain
    rw [freeAll]
    exact ⟨heap, rfl, rfl, fun _ _ => rfl⟩
  | cons id ids ih =>
    cases chain with
    | cons found rest once =>
      have rest' := rest.congr (free heap id) fun id' inside => by
        rw [get_free_other (ne_of_mem_of_not_mem inside once)]
      obtain ⟨heap', freed, length, others⟩ := ih rest'
      refine ⟨heap', ?_, length.trans (free_length heap id), ?_⟩
      · rw [freeAll]
        split
        next missing => rw [found] at missing; cases missing
        next block' found' =>
          rw [found] at found'
          cases found'
          exact freed
      · intro id' outside
        rw [List.mem_cons, not_or] at outside
        rw [others id' outside.2, get_free_other outside.1]

/-- A stretch of blocks, each of which links to the one behind it. -/
theorem chain_range {count : Nat} (start : Nat)
    (links : ∀ k < count + 1, ∃ block, get heap (start + k) = some block ∧
      next block = if k < count then some (start + k + 1) else none) :
    Chain next heap (some start) (List.range' start (count + 1)) := by
  induction count generalizing start with
  | zero =>
    obtain ⟨block, found, last⟩ := links 0 (by omega)
    exact .cons found (last ▸ .nil) (by simp)
  | succ count ih =>
    obtain ⟨block, found, link⟩ := links 0 (by omega)
    rw [List.range'_succ]
    refine .cons found ?_ (by rw [List.mem_range'_1]; omega)
    rw [link, if_pos (by omega)]
    apply ih
    intro k inside
    obtain ⟨block', found', link'⟩ := links (k + 1) (by omega)
    refine ⟨block', ?_, ?_⟩
    · rw [← found']
      congr 1
      omega
    · rw [link']
      split <;> split <;> first | omega | rfl | (congr 1; omega)

end Links

end Busybox.LinkedHeap

/-!
## Cells that own blocks

Each cell of a table is empty or holds the name of an allocated block, which no other cell holds.
-/

namespace Busybox.LinkedHeap

variable {α : Type*} {cells cells' : List (Option Nat)} {heap : Heap α} {i id : Nat} {block : α}
  {f : α → α}

structure Owned (cells : List (Option Nat)) (heap : Heap α) : Prop where
  live : ∀ ⦃i id : Nat⦄, cells[i]? = some (some id) → ∃ block, get heap id = some block
  unique : ∀ ⦃i j id : Nat⦄, cells[i]? = some (some id) → cells[j]? = some (some id) → i = j

theorem owned_empty (count : Nat) (heap : Heap α) : Owned (List.replicate count none) heap := by
  have vacant (i id : Nat) : (List.replicate count (none : Option Nat))[i]? ≠ some (some id) := by
    rw [List.getElem?_replicate]
    split
    · exact fun same => nomatch same
    · exact fun same => nomatch same
  exact ⟨fun i id held => absurd held (vacant i id), fun i _ id held => absurd held (vacant i id)⟩

/-- What is in a cell that has been written to, or in another one. -/
theorem getElem?_set_cases {new : Option Nat} {j : Nat}
    (held : (cells.set i new)[j]? = some (some id)) :
    (j = i ∧ new = some id) ∨ (j ≠ i ∧ cells[j]? = some (some id)) := by
  rcases eq_or_ne j i with rfl | other
  · rw [List.getElem?_set_self'] at held
    cases old : cells[j]? with
    | none => rw [old] at held; cases held
    | some p =>
      rw [old] at held
      exact .inl ⟨rfl, Option.some.inj held⟩
  · rw [List.getElem?_set_ne other.symm] at held
    exact .inr ⟨other, held⟩

theorem Owned.clear (owned : Owned cells heap) (i : Nat) : Owned (cells.set i none) heap := by
  constructor
  · intro j id held
    rcases getElem?_set_cases held with ⟨-, absurdity⟩ | ⟨-, held⟩
    · cases absurdity
    · exact owned.live held
  · intro j k id held held'
    rcases getElem?_set_cases held with ⟨-, absurdity⟩ | ⟨-, held⟩
    · cases absurdity
    rcases getElem?_set_cases held' with ⟨-, absurdity⟩ | ⟨-, held'⟩
    · cases absurdity
    exact owned.unique held held'

/-- The block of a cell is freed, and the cell is cleared. -/
theorem Owned.release (owned : Owned cells heap) (held : cells[i]? = some (some id)) :
    Owned (cells.set i none) (free heap id) := by
  refine ⟨fun j id' held' => ?_, (owned.clear i).unique⟩
  rcases getElem?_set_cases held' with ⟨-, absurdity⟩ | ⟨other, held'⟩
  · cases absurdity
  · obtain ⟨block, found⟩ := owned.live held'
    refine ⟨block, (get_free_other fun same => ?_).trans found⟩
    exact other (owned.unique (same ▸ held') held)

/-- A new block is put into a cell. -/
theorem Owned.alloc (owned : Owned (cells.set i none) heap) (block : α) :
    Owned (cells.set i (some heap.length)) (alloc heap block) := by
  have old {j id : Nat} (other : j ≠ i) (held : cells[j]? = some (some id)) :
      (cells.set i none)[j]? = some (some id) := by
    rwa [List.getElem?_set_ne other.symm]
  have used {j id : Nat} (other : j ≠ i) (held : cells[j]? = some (some id)) :
      id < heap.length := by
    obtain ⟨block, found⟩ := owned.live (old other held)
    exact get_lt found
  constructor
  · intro j id held
    rcases getElem?_set_cases held with ⟨-, new⟩ | ⟨other, held⟩
    · cases new
      exact ⟨block, by rw [get_alloc, if_pos rfl]⟩
    · obtain ⟨block', found⟩ := owned.live (old other held)
      exact ⟨block', by rw [get_alloc, if_neg (Nat.ne_of_lt (used other held)), found]⟩
  · intro j k id held held'
    rcases getElem?_set_cases held with ⟨here, new⟩ | ⟨other, held⟩
    · cases new
      rcases getElem?_set_cases held' with ⟨here', -⟩ | ⟨other', held'⟩
      · rw [here, here']
      · exact absurd (used other' held') (Nat.lt_irrefl _)
    · rcases getElem?_set_cases held' with ⟨-, new⟩ | ⟨other', held'⟩
      · cases new
        exact absurd (used other held) (Nat.lt_irrefl _)
      · exact owned.unique (old other held) (old other' held')

/-- The names are moved, each to one cell at most. -/
theorem Owned.remap (owned : Owned cells heap) (source : Nat → Nat)
    (moved : ∀ ⦃i id⦄, cells'[i]? = some (some id) → cells[source i]? = some (some id))
    (once : ∀ ⦃i j id⦄, cells'[i]? = some (some id) → cells'[j]? = some (some id) →
      source i = source j → i = j) : Owned cells' heap := by
  constructor
  · intro i id held
    exact owned.live (moved held)
  · intro i j id held held'
    exact once held held' (owned.unique (moved held) (moved held'))

end Busybox.LinkedHeap
