import Mathlib.Data.List.Basic

/-!
# Feeding a stream in blocks

`absorb size step state stream` steps once for each whole block of the stream,
and `rest size stream` is what remains after them. `absorb_append` and
`rest_append` say that only the rest has to be kept between two pieces of a
stream.
-/

namespace Busybox.Blocks

variable {σ α : Type*} {size : Nat}

/-- Step once for each of the first `count` blocks. -/
def absorbCount (size : Nat) (step : σ → List α → σ) : Nat → σ → List α → σ
  | 0, state, _ => state
  | count + 1, state, stream =>
    absorbCount size step count (step state (stream.take size)) (stream.drop size)

/-- Step once for each whole block of the stream. -/
def absorb (size : Nat) (step : σ → List α → σ) (state : σ) (stream : List α) : σ :=
  absorbCount size step (stream.length / size) state stream

/-- What is left of the stream after its whole blocks. -/
def rest (size : Nat) (stream : List α) : List α := stream.drop (stream.length / size * size)

theorem rest_length (stream : List α) : (rest size stream).length = stream.length % size := by
  rw [rest, List.length_drop, Nat.mod_eq_sub_div_mul]

theorem absorb_of_short (step : σ → List α → σ) (state : σ) {stream : List α}
    (short : stream.length < size) : absorb size step state stream = state := by
  rw [absorb, Nat.div_eq_of_lt short, absorbCount]

theorem rest_of_short {stream : List α} (short : stream.length < size) :
    rest size stream = stream := by
  rw [rest, Nat.div_eq_of_lt short, Nat.zero_mul, List.drop_zero]

private theorem block_div (positive : 0 < size) {block : List α} (whole : block.length = size)
    (stream : List α) : (block ++ stream).length / size = stream.length / size + 1 := by
  rw [List.length_append, whole, Nat.add_div_left _ positive]

theorem absorb_block (step : σ → List α → σ) (state : σ) (positive : 0 < size)
    {block : List α} (whole : block.length = size) (stream : List α) :
    absorb size step state (block ++ stream) = absorb size step (step state block) stream := by
  rw [absorb, block_div positive whole, absorbCount, absorb, List.take_left' whole,
    List.drop_left' whole]

theorem rest_block (positive : 0 < size) {block : List α} (whole : block.length = size)
    (stream : List α) : rest size (block ++ stream) = rest size stream := by
  rw [rest, block_div positive whole, Nat.succ_mul, Nat.add_comm, ← List.drop_drop,
    List.drop_left' whole, rest]

theorem rest_nil : rest size ([] : List α) = [] := List.drop_nil

/-- A list is its first block and the remainder, or shorter than a block. -/
theorem block_cases (size : Nat) (stream : List α) :
    stream.length < size ∨ ∃ block remainder, block.length = size ∧
      stream = block ++ remainder ∧ remainder.length = stream.length - size := by
  by_cases short : stream.length < size
  · exact .inl short
  · refine .inr ⟨stream.take size, stream.drop size, ?_, ?_, ?_⟩
    · exact List.length_take_of_le (Nat.not_lt.mp short)
    · exact (List.take_append_drop size stream).symm
    · exact List.length_drop

/-- A list is whole blocks and less than one more. -/
theorem exists_blocks (positive : 0 < size) (stream : List α) :
    ∃ (blocks : List (List α)) (tail : List α), stream = blocks.flatten ++ tail ∧
      (∀ block ∈ blocks, block.length = size) ∧ tail.length < size ∧
        blocks.length * size ≤ stream.length := by
  induction length : stream.length using Nat.strongRecOn generalizing stream with
  | _ count ih =>
    rcases block_cases size stream with short | ⟨first, behind, whole, rfl, fewer⟩
    · exact ⟨[], stream, rfl, by simp, short, by simp⟩
    · rw [List.length_append] at length
      obtain ⟨blocks, tail, rfl, sizes, short, many⟩ := ih behind.length (by omega) behind rfl
      refine ⟨first :: blocks, tail, by simp, ?_, short, ?_⟩
      · simpa using ⟨whole, sizes⟩
      · rw [List.length_cons, Nat.succ_mul]
        omega

/-- Only the rest of a stream matters to what follows it. -/
theorem absorb_append (step : σ → List α → σ) (state : σ) (positive : 0 < size)
    (stream next : List α) :
    absorb size step state (stream ++ next)
      = absorb size step (absorb size step state stream) (rest size stream ++ next) := by
  induction length : stream.length using Nat.strongRecOn generalizing state stream with
  | _ count ih =>
    rcases block_cases size stream with short | ⟨block, remainder, whole, rfl, fewer⟩
    · rw [absorb_of_short step state short, rest_of_short short]
    · rw [List.append_assoc, absorb_block step state positive whole,
        absorb_block step state positive whole, rest_block positive whole]
      rw [List.length_append] at length
      exact ih remainder.length (by omega) (step state block) remainder rfl

theorem rest_append (positive : 0 < size) (stream next : List α) :
    rest size (stream ++ next) = rest size (rest size stream ++ next) := by
  induction length : stream.length using Nat.strongRecOn generalizing stream with
  | _ count ih =>
    rcases block_cases size stream with short | ⟨block, remainder, whole, rfl, fewer⟩
    · rw [rest_of_short short]
    · rw [List.append_assoc, rest_block positive whole, rest_block positive whole]
      rw [List.length_append] at length
      exact ih remainder.length (by omega) remainder rfl

/-- Steps that agree on whole blocks agree on a stream. -/
theorem absorb_map {τ : Type*} {step : σ → List α → σ} {step' : τ → List α → τ} (f : τ → σ)
    (each : ∀ state block, block.length = size → step (f state) block = f (step' state block))
    (state : τ) (stream : List α) :
    absorb size step (f state) stream = f (absorb size step' state stream) := by
  have blocks (count : Nat) : ∀ state stream, count * size ≤ stream.length →
      absorbCount size step count (f state) stream =
        f (absorbCount size step' count state stream) := by
    induction count with
    | zero => exact fun _ _ _ => rfl
    | succ count ih =>
      intro state stream long
      rw [Nat.succ_mul] at long
      have whole : (stream.take size).length = size := List.length_take_of_le (by omega)
      rw [absorbCount, each _ _ whole]
      exact ih _ _ (by rw [List.length_drop]; omega)
  exact blocks _ _ _ (Nat.div_mul_le_self _ _)

end Busybox.Blocks
