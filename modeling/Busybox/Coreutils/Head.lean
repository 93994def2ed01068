import Busybox.Lib.RingBuffer
import Busybox.Libbb.GetLine

/-!
# `head`

`coreutils/head.c` prints the first bytes or lines of its input, or all but the last ones. For these
a ring keeps one more than the number that is not printed, which is counted as an `unsigned`.
-/

namespace Busybox.Coreutils.Head

open RingBuffer

/-- `print_first_N` -/
def printFirstN (countBytes : Bool) : Nat → List UInt8 → List UInt8
  | _, [] => []
  | count, c :: rest =>
    if count = 0 then []
    else c :: printFirstN countBytes (if countBytes ∨ c = 10 then count - 1 else count) rest

/-- The array, whose elements are not set at first, and the index of the next one. -/
structure Circle (α : Type*) where
  circle : List (Option α)
  head : Nat

variable {α : Type*}

/-- `circle[head++] = c`, unless the index is outside of the array. -/
def Circle.put (state : Circle α) (c : α) : Option (Circle α) :=
  if state.head < state.circle.length then
    some ⟨state.circle.set state.head (some c), state.head + 1⟩
  else none

/-- The first loop: the input that is left once the array is full, if it gets full. -/
def fill (count : Nat) : List α → Circle α → Option (Circle α × Option (List α))
  | [], state => some (state, none)
  | c :: rest, state => do
    let state ← state.put c
    if state.head = count then return (state, some rest) else fill count rest state

/-- The second loop: the array afterwards, and what was printed. -/
def rotate (count : Nat) : List α → Circle α → Option (Circle α × List α)
  | [], state => do
    let head := if state.head = count then 0 else state.head
    let oldest ← state.circle[head]?
    return (state, oldest.toList)
  | c :: rest, state => do
    let head := if state.head = count then 0 else state.head
    let oldest ← state.circle[head]?
    let (state, printed) ← rotate count rest (← { state with head }.put c)
    return (state, oldest.toList ++ printed)

/-- Both loops, over an array of so many elements. -/
def exceptLast (count : Nat) (items : List α) : Option (Circle α × List α) := do
  match ← fill count items ⟨List.replicate count none, 0⟩ with
  | (state, none) => return (state, [])
  | (state, some rest) => rotate count rest state

/-- `print_except_N_last_bytes` -/
def printExceptNLastBytes (count : UInt32) (input : List UInt8) : Option (List UInt8) := do
  let (_, printed) ← exceptLast (count + 1).toNat input
  return printed

/-- `for(;;) { free(circle[head++]); if (head == count) break; }` -/
def freeLoop (count : Nat) (circle : List (Option α)) (head : Nat) : Option Unit :=
  if head < circle.length then
    if head + 1 = count then some () else freeLoop count circle (head + 1)
  else none
termination_by circle.length - head

/-- `print_except_N_last_lines`. A line is printed up to its NUL. -/
def printExceptNLastLines (count : UInt32) (input : List UInt8) : Option (List UInt8) := do
  let (state, printed) ← exceptLast (count + 1).toNat (Libbb.fgets [] input)
  freeLoop (count + 1).toNat state.circle 0
  return (printed.map (·.takeWhile (· ≠ 0))).flatten

/-- What is printed of a file, `none` where an index is outside of the array. A count that is too
big is complained about, but used. -/
def printFile (negativeN countBytes : Bool) (count : UInt64) (input : List UInt8) :
    Option (List UInt8) :=
  if negativeN then
    if countBytes then printExceptNLastBytes count.toUInt32 input
    else printExceptNLastLines count.toUInt32 input
  else some (printFirstN countBytes count.toNat input)

/-! ## All but the last items -/

variable {count head : Nat} {circle : List (Option α)} {kept items rest : List α}

/-- The array once so many items were put into it. -/
theorem fill_items (count : Nat) (front items : List α) (room : front.length < count) :
    fill count items
        ⟨front.map some ++ List.replicate (count - front.length) none, front.length⟩ =
      if items.length < count - front.length then
        some (⟨(front ++ items).map some ++
          List.replicate (count - (front ++ items).length) none, (front ++ items).length⟩, none)
      else some (⟨((front ++ items).take count).map some, count⟩,
        some (items.drop (count - front.length))) := by
  induction items generalizing front with
  | nil =>
    have short : ([] : List α).length < count - front.length := by
      rw [List.length_nil]
      omega
    rw [fill, if_pos short, List.append_nil]
  | cons c rest ih =>
    have cells : (front.map some ++ List.replicate (count - front.length) none).set front.length
        (some c) =
        (front ++ [c]).map some ++ List.replicate (count - (front ++ [c]).length) none := by
      obtain ⟨more, isMore⟩ : ∃ more, count - front.length = more + 1 :=
        ⟨count - front.length - 1, by omega⟩
      have fewer : count - (front ++ [c]).length = more := by simp; omega
      rw [isMore, fewer, List.replicate_succ, List.set_append_right _ _ (by simp)]
      simp
    have put : Circle.put ⟨front.map some ++ List.replicate (count - front.length) none,
        front.length⟩ c = some ⟨(front ++ [c]).map some ++
          List.replicate (count - (front ++ [c]).length) none, (front ++ [c]).length⟩ := by
      rw [Circle.put, if_pos (by simp; omega), cells]
      simp
    rw [fill, put, Option.bind_eq_bind, Option.bind_some]
    by_cases full : (front ++ [c]).length = count
    · have long : ¬(c :: rest).length < count - front.length := by
        simp at full ⊢
        omega
      have one : count - front.length = 1 := by
        simp at full
        omega
      rw [if_pos full, if_neg long, one, full, Nat.sub_self, List.replicate_zero, List.append_nil]
      have taken : (front ++ c :: rest).take count = front ++ [c] := by
        rw [List.append_cons, ← full, List.take_left]
      rw [taken]
      rfl
    · have further : (front ++ [c]).length < count := by
        simp at full ⊢
        omega
      have same : rest.length < count - (front ++ [c]).length ↔
          (c :: rest).length < count - front.length := by
        simp
        omega
      have left : (c :: rest).drop (count - front.length) =
          rest.drop (count - (front ++ [c]).length) := by
        obtain ⟨more, isMore⟩ : ∃ more, count - front.length = more + 1 :=
          ⟨count - front.length - 1, by omega⟩
        rw [isMore, List.drop_succ_cons]
        congr 1
        simp
        omega
      rw [if_neg full, ih (front ++ [c]) further, left, List.append_assoc, List.singleton_append]
      simp only [same]

/-- The second loop prints the oldest item and puts the next one in its place. -/
theorem rotate_holds {head' : Nat} (here : (if head' = count then 0 else head') = head)
    (holds : Holds count head circle (kept.map some)) :
    ∃ state, rotate count rest ⟨circle, head'⟩ =
        some (state, (kept ++ rest).take (rest.length + 1)) ∧ state.circle.length = count := by
  induction rest generalizing circle head head' kept with
  | nil =>
    have long := holds.length
    have inside := holds.inside
    rw [List.length_map] at long
    obtain ⟨oldest, newer, rfl⟩ := List.exists_cons_of_length_pos (by omega : 0 < kept.length)
    refine ⟨⟨circle, head'⟩, ?_, holds.full⟩
    rw [rotate]
    simp only [here, holds.oldest, Option.bind_eq_bind, Option.bind_some]
    rfl
  | cons c rest ih =>
    have long := holds.length
    have inside := holds.inside
    have full := holds.full
    rw [List.length_map] at long
    obtain ⟨oldest, newer, rfl⟩ := List.exists_cons_of_length_pos (by omega : 0 < kept.length)
    have written := holds.put (some c)
    have kept' : newer.map some ++ [some c] = (newer ++ [c]).map some := by simp
    rw [kept'] at written
    obtain ⟨state, ran, size⟩ := ih rfl written
    have put : Circle.put ⟨circle, head⟩ c = some ⟨circle.set head (some c), head + 1⟩ :=
      if_pos (full.symm ▸ inside)
    refine ⟨state, ?_, size⟩
    rw [rotate]
    simp only [here, holds.oldest, Option.bind_eq_bind, Option.bind_some, put, ran]
    simp [pure]

/-- With room for one item at least, the loops print all but the last ones. -/
theorem exceptLast_take (positive : 0 < count) (items : List α) :
    ∃ state, exceptLast count items =
        some (state, items.take (items.length - (count - 1))) ∧ state.circle.length = count := by
  have filled := fill_items count [] items positive
  simp only [List.map_nil, List.nil_append, List.length_nil, Nat.sub_zero] at filled
  rw [exceptLast, filled]
  by_cases short : items.length < count
  · have none : items.length - (count - 1) = 0 := by omega
    rw [if_pos short, none]
    refine ⟨_, rfl, ?_⟩
    simp
    omega
  · have started : Holds count 0 ((items.take count).map some) ((items.take count).map some) :=
      ⟨positive, by simp; omega, by simp⟩
    obtain ⟨state, ran, size⟩ := rotate_holds (if_pos rfl) started
    rw [if_neg short, Option.bind_eq_bind, Option.bind_some]
    refine ⟨state, ran.trans ?_, size⟩
    have length : (items.drop count).length + 1 = items.length - (count - 1) := by
      rw [List.length_drop]
      omega
    rw [length, List.take_append_drop]

/-- Without an element the first item is put outside of the array. -/
theorem exceptLast_empty (c : α) (items : List α) : exceptLast 0 (c :: items) = none := rfl

theorem freeLoop_ends {index : Nat} (inside : index < circle.length) :
    freeLoop circle.length circle index = some () := by
  unfold freeLoop
  rw [if_pos inside]
  split
  · rfl
  · exact freeLoop_ends (by omega)
termination_by circle.length - index

theorem freeLoop_empty (index : Nat) : freeLoop count ([] : List (Option α)) index = none := by
  rw [freeLoop]
  exact if_neg (Nat.not_lt_zero _)

/-! ## The two functions -/

variable {n : UInt32}

/-- `++count`, where it does not wrap around. -/
theorem toNat_succ (counted : n + 1 ≠ 0) : (n + 1).toNat = n.toNat + 1 := by
  have notZero : (n + 1).toNat ≠ 0 := fun zero => counted (UInt32.toNat_inj.mp zero)
  have below := UInt32.toNat_lt n
  rw [UInt32.toNat_add, UInt32.toNat_one] at notZero ⊢
  omega

/-- All but so many bytes. -/
theorem printExceptNLastBytes_take (counted : n + 1 ≠ 0) (input : List UInt8) :
    printExceptNLastBytes n input = some (input.take (input.length - n.toNat)) := by
  have positive : 0 < n.toNat + 1 := Nat.succ_pos _
  obtain ⟨state, ran, -⟩ := exceptLast_take positive input
  rw [printExceptNLastBytes, toNat_succ counted, ran]
  rfl

/-- All but so many lines. -/
theorem printExceptNLastLines_take (counted : n + 1 ≠ 0) (input : List UInt8) :
    printExceptNLastLines n input =
      some (((Libbb.fgets [] input).take ((Libbb.fgets [] input).length - n.toNat)).map
        (·.takeWhile (· ≠ 0))).flatten := by
  have positive : 0 < n.toNat + 1 := Nat.succ_pos _
  obtain ⟨state, ran, size⟩ := exceptLast_take positive (Libbb.fgets [] input)
  have inside : 0 < state.circle.length := size ▸ positive
  have freed := freeLoop_ends inside
  rw [size] at freed
  rw [printExceptNLastLines, toNat_succ counted, ran, Option.bind_eq_bind, Option.bind_some]
  simp only [freed]
  rfl

theorem printExceptNLastBytes_none (wraps : n + 1 = 0) (input : List UInt8) :
    printExceptNLastBytes n input = none ↔ input ≠ [] := by
  rw [printExceptNLastBytes, wraps]
  cases input with
  | nil => simp [exceptLast, fill]
  | cons c rest => simp [exceptLast_empty]

theorem printExceptNLastLines_none (wraps : n + 1 = 0) (input : List UInt8) :
    printExceptNLastLines n input = none := by
  rw [printExceptNLastLines, wraps]
  cases Libbb.fgets [] input with
  | nil =>
    have nothing : exceptLast (0 : UInt32).toNat ([] : List (List UInt8)) =
        some (⟨[], 0⟩, []) := rfl
    have outside : freeLoop (0 : UInt32).toNat ([] : List (Option (List UInt8))) 0 = none :=
      freeLoop_empty 0
    rw [nothing, Option.bind_eq_bind, Option.bind_some]
    simp only [outside]
    rfl
  | cons line lines => rfl

/-- Every index is inside of the array, unless the count wraps around and there is an item, or
a line to be freed. -/
theorem printFile_isSome (countBytes : Bool) (count : UInt64) (input : List UInt8) :
    (printFile true countBytes count input).isSome ↔
      count.toUInt32 + 1 ≠ 0 ∨ (countBytes = true ∧ input = []) := by
  rw [printFile, if_pos rfl]
  by_cases wraps : count.toUInt32 + 1 = 0
  · cases countBytes with
    | true =>
      have outside := printExceptNLastBytes_none wraps input
      rw [if_pos rfl, ← Option.ne_none_iff_isSome, ne_eq, outside, not_not]
      simp [wraps]
    | false => simp [wraps, printExceptNLastLines_none wraps input]
  · cases countBytes with
    | true => simp [wraps, printExceptNLastBytes_take wraps input]
    | false => simp [wraps, printExceptNLastLines_take wraps input]

end Busybox.Coreutils.Head
