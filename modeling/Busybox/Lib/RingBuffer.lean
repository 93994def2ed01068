import Mathlib.Data.List.Basic
import Mathlib.Data.List.TakeDrop
import Mathlib.Tactic.Common

/-!
# A stream in a ring

A ring of cells keeps the last items of a stream: `window size blank stream` are
these, with blanks before a short stream, and `Holds` says how they lie in the ring,
the oldest at the tail.
-/

namespace Busybox.RingBuffer

variable {α : Type*} {size tail : Nat} {blank : α} {cells kept items stream : List α}

/-- The last items of a stream that begins with blanks. -/
def window (size : Nat) (blank : α) (stream : List α) : List α :=
  (List.replicate size blank ++ stream).drop stream.length

theorem window_length : (window size blank stream).length = size := by
  rw [window, List.length_drop, List.length_append, List.length_replicate]
  omega

theorem window_append (fits : items.length ≤ size) :
    window size blank (stream ++ items) = (window size blank stream).drop items.length ++ items := by
  have reached : stream.length ≤ (List.replicate size blank ++ stream).length := by
    rw [List.length_append]
    omega
  rw [window, ← List.append_assoc, List.length_append, ← List.drop_drop,
    List.drop_append_of_le_length reached, ← window, List.drop_append_of_le_length]
  rw [window_length]
  exact fits

/-- The ring keeps items, the oldest at the tail. -/
structure Holds (size tail : Nat) (cells kept : List α) : Prop where
  inside : tail < size
  full : cells.length = size
  kept : kept = cells.drop tail ++ cells.take tail

theorem Holds.length (holds : Holds size tail cells kept) : kept.length = size := by
  have full := holds.full
  have inside := holds.inside
  rw [holds.kept, List.length_append, List.length_drop, List.length_take]
  omega

/-- What is in a cell, counted from the oldest one. -/
theorem Holds.cell {o : Nat} (holds : Holds size tail cells kept) (inside : o < size) :
    cells[(tail + o) % size]? = kept[o]? := by
  have full := holds.full
  have before := holds.inside
  have older : (cells.drop tail).length = size - tail := by rw [List.length_drop, full]
  rw [holds.kept]
  by_cases front : tail + o < size
  · rw [Nat.mod_eq_of_lt front, List.getElem?_append_left (by omega), List.getElem?_drop]
  · rw [Nat.mod_eq_sub_mod (by omega), Nat.mod_eq_of_lt (by omega),
      List.getElem?_append_right (by omega), older, List.getElem?_take_of_lt (by omega)]
    congr 1
    omega

theorem Holds.oldest {item : α} (holds : Holds size tail cells (item :: kept)) :
    cells[tail]? = some item := by
  have first := holds.cell (Nat.zero_lt_of_lt holds.inside)
  rwa [Nat.add_zero, Nat.mod_eq_of_lt holds.inside] at first

/-- Items written from the tail on, up to the end at most, take the place of the
oldest ones. -/
theorem Holds.write (holds : Holds size tail cells kept) (fits : tail + items.length ≤ size) :
    Holds size (if tail + items.length = size then 0 else tail + items.length)
      (cells.take tail ++ items ++ cells.drop (tail + items.length))
      (kept.drop items.length ++ items) := by
  have inside := holds.inside
  have full := holds.full
  have front : (cells.take tail).length = tail := List.length_take_of_le (by omega)
  have whole : (cells.take tail ++ items ++ cells.drop (tail + items.length)).length = size := by
    rw [List.length_append, List.length_append, front, List.length_drop]
    omega
  have older : kept.drop items.length = cells.drop (tail + items.length) ++ cells.take tail := by
    rw [holds.kept, List.drop_append_of_le_length (by rw [List.length_drop]; omega),
      List.drop_drop]
  have newer : (cells.take tail ++ items).length = tail + items.length := by
    rw [List.length_append, front]
  refine ⟨by split <;> omega, whole, ?_⟩
  rw [older]
  split
  · next atEnd =>
    rw [atEnd, ← full, List.drop_length, List.append_nil, List.nil_append, List.drop_zero,
      List.take_zero, List.append_nil]
  · rw [← newer, List.drop_left, List.take_left, List.append_assoc]

/-- One item takes the place of the oldest one. -/
theorem Holds.put {item : α} (holds : Holds size tail cells (item :: kept)) (newest : α) :
    Holds size (if tail + 1 = size then 0 else tail + 1) (cells.set tail newest)
      (kept ++ [newest]) := by
  have inside := holds.inside
  have fits : tail + [newest].length ≤ size := inside
  have written := holds.write fits
  have cell : cells.take tail ++ [newest] ++ cells.drop (tail + [newest].length) =
      cells.set tail newest := by
    rw [List.set_eq_take_append_cons_drop, if_pos (holds.full ▸ inside)]
    simp
  rwa [cell] at written

/-- Reading from so far behind the tail on, in two pieces where the end comes between. -/
theorem Holds.read (holds : Holds size tail cells kept) (offset : Nat) :
    (if tail + offset < size then cells.drop (tail + offset) ++ cells.take tail
      else (cells.drop (tail + offset - size)).take (tail - (tail + offset - size)))
      = kept.drop offset := by
  have inside := holds.inside
  have full := holds.full
  rw [holds.kept]
  split
  · rw [List.drop_append_of_le_length (by rw [List.length_drop]; omega), List.drop_drop]
  · have older : (cells.drop tail).length = size - tail := by rw [List.length_drop, full]
    have newer : (cells.drop tail ++ cells.take tail).drop offset
        = (cells.take tail).drop (tail + offset - size) := by
      rw [List.drop_append, List.drop_eq_nil_of_le (by omega), List.nil_append, older,
        show offset - (size - tail) = tail + offset - size by omega]
    rw [newer, List.drop_take]

end Busybox.RingBuffer

/-!
## A queue in a circle of cells

The items of a queue lie in the cells from the tail on, and go on at the first cell where the last
one is reached. The first of them, up to the last cell, are the front of the queue, which can be
looked at in one piece.
-/

namespace Busybox.CircularBuffer

variable {α : Type*} {size head tail count : ℕ} {cells items new : List α}

/-- The cells from `index` on are overwritten. -/
def overwrite (cells : List α) (index : ℕ) (new : List α) : List α :=
  cells.take index ++ new ++ cells.drop (index + new.length)

theorem overwrite_length (fits : head + new.length ≤ cells.length) :
    (overwrite cells head new).length = cells.length := by
  unfold overwrite
  rw [List.length_append, List.length_append, List.length_take_of_le (by omega), List.length_drop]
  omega

theorem overwrite_take_through (fits : head ≤ cells.length) :
    (overwrite cells head new).take (head + new.length) = cells.take head ++ new := by
  unfold overwrite
  refine List.take_left' ?_
  rw [List.length_append, List.length_take_of_le fits]

/-- What lies behind is as it was. -/
theorem overwrite_drop (behind : head + new.length ≤ count) (fits : count ≤ cells.length) :
    (overwrite cells head new).drop count = cells.drop count := by
  unfold overwrite
  have front : (cells.take head ++ new).length = head + new.length := by
    rw [List.length_append, List.length_take_of_le (by omega)]
  rw [← Nat.add_sub_cancel' behind, ← List.drop_drop, List.drop_left' front, List.drop_drop]

theorem overwrite_getElem? (fits : head ≤ cells.length) (within : count < new.length) :
    (overwrite cells head new)[head + count]? = new[count]? := by
  have length : (cells.take head).length = head := List.length_take_of_le fits
  unfold overwrite
  rw [List.append_assoc, List.getElem?_append_right (by omega), length, Nat.add_sub_cancel_left,
    List.getElem?_append_left within]

/-- The queue `items` lies in the cells from `tail` to `head`. -/
structure Holds (size : ℕ) (cells : List α) (head tail : ℕ) (items : List α) : Prop where
  full : cells.length = size
  inside : tail < size
  fits : items.length ≤ size
  head : head = (tail + items.length) % size
  front : (cells.drop tail).take items.length = items.take (size - tail)
  back : cells.take (tail + items.length - size) = items.drop (size - tail)

/-- How many items there are in one piece. -/
def run (size tail count : ℕ) : ℕ := min (size - tail) count

namespace Holds

theorem head_lt (holds : Holds size cells head tail items) : head < size := by
  have inside := holds.inside
  rw [holds.head]
  exact Nat.mod_lt _ (by omega)

/-- The front of the queue, or a part of it, is a piece of the cells. -/
theorem piece (holds : Holds size cells head tail items)
    (inFront : count ≤ run size tail items.length) :
    (cells.drop tail).take count = items.take count := by
  unfold run at inFront
  calc (cells.drop tail).take count
      = ((cells.drop tail).take items.length).take count := by
        rw [List.take_take, Nat.min_eq_left (by omega)]
    _ = (items.take (size - tail)).take count := by rw [holds.front]
    _ = items.take count := by rw [List.take_take, Nat.min_eq_left (by omega)]

/-- Items of the front are taken out. -/
theorem advance (holds : Holds size cells head tail items)
    (inFront : count ≤ run size tail items.length) :
    Holds size cells head (if size ≤ tail + count then 0 else tail + count) (items.drop count) := by
  have full := holds.full
  have inside := holds.inside
  have fits := holds.fits
  unfold run at inFront
  have length : (items.drop count).length = items.length - count := List.length_drop
  by_cases wraps : size ≤ tail + count
  · have exactly : tail + count = size := by omega
    have whole : count = size - tail := by omega
    rw [if_pos wraps]
    refine ⟨full, by omega, by omega, ?_, ?_, ?_⟩
    · have same : tail + items.length = 0 + (items.drop count).length + size := by omega
      rw [holds.head, same, Nat.add_mod_right]
    · have rest : tail + items.length - size = items.length - count := by omega
      have all : (items.drop count).take size = items.drop count :=
        List.take_of_length_le (by omega)
      rw [List.drop_zero, Nat.sub_zero, all, length, ← rest, holds.back, whole]
    · have none : 0 + (items.drop count).length - size = 0 := by omega
      have beyond : (items.drop count).drop (size - 0) = [] := List.drop_of_length_le (by omega)
      rw [none, List.take_zero, beyond]
  · rw [if_neg wraps]
    refine ⟨full, by omega, by omega, ?_, ?_, ?_⟩
    · rw [holds.head, length]
      congr 1
      omega
    · have front := congrArg (List.drop count) holds.front
      rw [List.drop_take, List.drop_take, List.drop_drop] at front
      rw [length, front]
      congr 1
      omega
    · rw [length, List.drop_drop]
      have same : tail + count + (items.length - count) - size = tail + items.length - size := by
        omega
      have behind : count + (size - (tail + count)) = size - tail := by omega
      rw [same, behind]
      exact holds.back

/-- An empty queue may lie anywhere. -/
theorem empty (full : cells.length = size) (inside : tail < size) :
    Holds size cells tail tail ([] : List α) := by
  refine ⟨full, inside, Nat.zero_le _, ?_, ?_, ?_⟩
  · exact (Nat.mod_eq_of_lt inside).symm
  · rw [List.length_nil, List.take_zero, List.take_nil]
  · have none : tail + ([] : List α).length - size = 0 := by
      rw [List.length_nil]
      omega
    rw [none, List.take_zero, List.drop_nil]

/-- Items are put in behind the others, up to the last cell. -/
theorem append (holds : Holds size cells head tail items) (room : head + new.length ≤ size)
    (free : items.length + new.length ≤ size) :
    Holds size (overwrite cells head new)
      (if size ≤ head + new.length then 0 else head + new.length) tail (items ++ new) := by
  have full := holds.full
  have inside := holds.inside
  have fits := holds.fits
  have headEq := holds.head
  have below := holds.head_lt
  have length : (items ++ new).length = items.length + new.length := List.length_append
  have next : (if size ≤ head + new.length then 0 else head + new.length) =
      (tail + (items ++ new).length) % size := by
    rw [length, ← Nat.add_assoc, Nat.add_mod, ← headEq, Nat.add_mod_mod]
    split
    · next wraps =>
      rw [Nat.le_antisymm room wraps, Nat.mod_self]
    · next inside =>
      exact (Nat.mod_eq_of_lt (Nat.lt_of_not_le inside)).symm
  have through : (overwrite cells head new).take (head + new.length) = cells.take head ++ new :=
    overwrite_take_through (by omega)
  by_cases straight : tail + items.length < size
  · have same : head = tail + items.length := headEq.trans (Nat.mod_eq_of_lt straight)
    refine ⟨(overwrite_length (by omega)).trans full, inside, by omega, next, ?_, ?_⟩
    · have whole : (cells.drop tail).take items.length = items :=
        holds.front.trans (List.take_of_length_le (by omega))
      have count : (items ++ new).length = head + new.length - tail := by omega
      have older : head - tail = items.length := by omega
      have all : (items ++ new).take (size - tail) = items ++ new :=
        List.take_of_length_le (by omega)
      rw [count, ← List.drop_take, through,
        List.drop_append_of_le_length (by rw [List.length_take_of_le (by omega)]; omega),
        List.drop_take, older, whole, all]
    · have none : tail + (items ++ new).length - size = 0 := by omega
      rw [none, List.take_zero, List.drop_of_length_le (by omega)]
  · have same : head + size = tail + items.length := by
      rw [headEq, Nat.mod_eq_sub_mod (Nat.le_of_not_lt straight), Nat.mod_eq_of_lt (by omega)]
      omega
    have front : (cells.drop tail).take items.length = cells.drop tail :=
      List.take_of_length_le (by rw [List.length_drop]; omega)
    refine ⟨(overwrite_length (by omega)).trans full, inside, by omega, next, ?_, ?_⟩
    · rw [overwrite_drop (by omega) (by omega), List.take_append_of_le_length (by omega),
        ← holds.front, front]
      exact List.take_of_length_le (by rw [List.length_drop]; omega)
    · have before : tail + (items ++ new).length - size = head + new.length := by omega
      have older : tail + items.length - size = head := by omega
      rw [before, through, List.drop_append_of_le_length (by omega), ← holds.back, older]

/-- The last items are taken back. -/
theorem shorten (holds : Holds size cells head tail items) (within : count ≤ items.length) :
    Holds size cells ((tail + count) % size) tail (items.take count) := by
  have fits := holds.fits
  have inside := holds.inside
  have length : (items.take count).length = count := List.length_take_of_le within
  refine ⟨holds.full, holds.inside, by omega, by rw [length], ?_, ?_⟩
  · have front := congrArg (List.take count) holds.front
    rw [List.take_take, List.take_take, Nat.min_eq_left within] at front
    rw [length, front, List.take_take, Nat.min_comm]
  · have back := congrArg (List.take (tail + count - size)) holds.back
    rw [List.take_take, Nat.min_eq_left (by omega)] at back
    rw [length, back, List.drop_take]
    congr 1
    omega

/-- Items are put in behind the others, and only the first of them are kept. -/
theorem append_take (holds : Holds size cells head tail items) (room : head + new.length ≤ size)
    (free : items.length + new.length ≤ size) (within : count ≤ new.length) :
    Holds size (overwrite cells head new) (if size ≤ head + count then 0 else head + count)
      tail (items ++ new.take count) := by
  have fewer : items.length + count ≤ (items ++ new).length := by
    rw [List.length_append]
    omega
  have shorter := (holds.append room free).shorten fewer
  have next : (if size ≤ head + count then 0 else head + count) =
      (tail + (items.length + count)) % size := by
    rw [← Nat.add_assoc, Nat.add_mod, ← holds.head, Nat.add_mod_mod]
    split
    · next wraps =>
      rw [Nat.le_antisymm (by omega) wraps, Nat.mod_self]
    · next inside =>
      exact (Nat.mod_eq_of_lt (Nat.lt_of_not_le inside)).symm
  rw [List.take_length_add_append] at shorter
  rw [next]
  exact shorter

/-- A queue in one piece is moved to the first cells. -/
theorem move (holds : Holds size cells head tail items) (straight : tail + items.length ≤ size)
    (before : tail ≠ 0) :
    Holds size (overwrite cells 0 items) items.length 0 items := by
  have full := holds.full
  have inside := holds.inside
  have through : (overwrite cells 0 items).take (0 + items.length) = cells.take 0 ++ items :=
    overwrite_take_through (Nat.zero_le _)
  rw [Nat.zero_add, List.take_zero, List.nil_append] at through
  refine ⟨(overwrite_length (by omega)).trans full, by omega, by omega, ?_, ?_, ?_⟩
  · rw [Nat.zero_add, Nat.mod_eq_of_lt (by omega)]
  · rw [List.drop_zero, through, List.take_of_length_le (by omega)]
  · have none : 0 + items.length - size = 0 := by omega
    rw [none, List.take_zero, List.drop_of_length_le (by omega)]

end Holds

end Busybox.CircularBuffer
