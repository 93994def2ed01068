import Mathlib.Data.List.Basic
import Mathlib.Tactic.Common

/-!
# Reading lines

`xmalloc_fgetline` returns what is before the next newline or NUL.
-/

namespace Busybox.Libbb

variable {line lines text rest : List UInt8} {e : UInt8}

/-- The lines `xmalloc_fgetline` returns until the end of the file; the first argument is the line
that has been begun. -/
def fgetlines : List UInt8 → List UInt8 → List (List UInt8)
  | [], [] => []
  | line, [] => [line]
  | line, ch :: rest =>
    -- `bb_get_chunk_from_file` breaks at a NUL as at a newline
    if ch = 10 ∨ ch = 0 then line :: fgetlines [] rest else fgetlines (line ++ [ch]) rest

/-- The lines `xmalloc_fgets` returns, with their ends. -/
def fgets : List UInt8 → List UInt8 → List (List UInt8)
  | [], [] => []
  | line, [] => [line]
  | line, ch :: rest =>
    if ch = 10 ∨ ch = 0 then (line ++ [ch]) :: fgets [] rest else fgets (line ++ [ch]) rest

/-- A text that is empty or ends with the end of a line. -/
def Terminated (text : List UInt8) : Prop :=
  text = [] ∨ ∃ front e, text = front ++ [e] ∧ (e = 10 ∨ e = 0)

/-- Nothing in the line ends it. -/
def Unbroken (line : List UInt8) : Prop := ∀ ch ∈ line, ch ≠ 10 ∧ ch ≠ 0

instance Unbroken.decidable (line : List UInt8) : Decidable (Unbroken line) :=
  List.decidableBAll _ line

theorem fgetlines_end (ends : e = 10 ∨ e = 0) : fgetlines line (e :: rest) =
    line :: fgetlines [] rest := by
  rw [fgetlines, if_pos ends]

theorem fgetlines_unbroken (unbroken : Unbroken text) (line rest : List UInt8) :
    fgetlines line (text ++ rest) = fgetlines (line ++ text) rest := by
  induction text generalizing line with
  | nil => rw [List.nil_append, List.append_nil]
  | cons ch text ih =>
    have here := unbroken ch List.mem_cons_self
    rw [List.cons_append, fgetlines, if_neg (by rintro (h | h); exacts [here.1 h, here.2 h]),
      ih fun c mem => unbroken c (List.mem_cons_of_mem ch mem), List.append_assoc,
      List.singleton_append]

/-- What is behind the end of a line is read from its own start. -/
theorem fgetlines_append_end (ends : e = 10 ∨ e = 0) (line front rest : List UInt8) :
    fgetlines line (front ++ [e] ++ rest) = fgetlines line (front ++ [e]) ++ fgetlines [] rest := by
  induction front generalizing line with
  | nil =>
    rw [List.nil_append, List.singleton_append, fgetlines_end ends, fgetlines_end ends]
    rfl
  | cons ch front ih =>
    rw [List.cons_append, List.cons_append, fgetlines, fgetlines, ih, ih]
    split
    · rfl
    · rfl

theorem Terminated.fgetlines_append (terminated : Terminated text) (rest : List UInt8) :
    fgetlines [] (text ++ rest) = fgetlines [] text ++ fgetlines [] rest := by
  rcases terminated with rfl | ⟨front, e, rfl, ends⟩
  · rfl
  · exact fgetlines_append_end ends [] front rest

theorem Terminated.concat (text : List UInt8) : Terminated (text ++ [10]) :=
  .inr ⟨text, 10, rfl, .inl rfl⟩

theorem fgetlines_line (unbroken : Unbroken line) (rest : List UInt8) :
    fgetlines [] (line ++ 10 :: rest) = line :: fgetlines [] rest := by
  rw [fgetlines_unbroken unbroken, fgetlines_end (.inl rfl), List.nil_append]

/-- A line that is written behind a terminated text is read after its lines. -/
theorem Terminated.fgetlines_line (terminated : Terminated text) (unbroken : Unbroken line) :
    fgetlines [] (text ++ (line ++ [10])) = fgetlines [] text ++ [line] := by
  rw [terminated.fgetlines_append, Libbb.fgetlines_line unbroken]
  rfl

/-- The text that lines are written to. -/
def unlines (lines : List (List UInt8)) : List UInt8 := lines.flatMap (· ++ [10])

theorem unlines_terminated (lines : List (List UInt8)) : Terminated (unlines lines) := by
  rcases List.eq_nil_or_concat lines with rfl | ⟨front, line, rfl⟩
  · exact .inl rfl
  · unfold unlines
    rw [List.concat_eq_append, List.flatMap_append, List.flatMap_singleton, ← List.append_assoc]
    exact .concat _

/-- Lines that are written are read again. -/
theorem fgetlines_unlines {lines : List (List UInt8)} (unbroken : ∀ line ∈ lines, Unbroken line) :
    fgetlines [] (unlines lines) = lines := by
  induction lines with
  | nil => rfl
  | cons line lines ih =>
    unfold unlines at ih ⊢
    rw [List.flatMap_cons, List.append_assoc, List.singleton_append,
      fgetlines_line (unbroken line List.mem_cons_self),
      ih fun line mem => unbroken line (List.mem_cons_of_mem _ mem)]

/-- No line that is read has an end of a line in it. -/
theorem unbroken_of_mem_fgetlines (begun : Unbroken line) {read : List UInt8}
    (mem : read ∈ fgetlines line text) : Unbroken read := by
  have empty : Unbroken [] := fun ch mem => absurd mem List.not_mem_nil
  induction text generalizing line with
  | nil =>
    cases line with
    | nil => exact absurd mem List.not_mem_nil
    | cons ch line => exact List.mem_singleton.mp mem ▸ begun
  | cons ch text ih =>
    rw [fgetlines] at mem
    split at mem
    case isTrue ends =>
      rcases List.mem_cons.mp mem with rfl | later
      · exact begun
      · exact ih empty later
    case isFalse goes =>
      refine ih (fun c inside => ?_) mem
      rcases List.mem_append.mp inside with old | new
      · exact begun c old
      · rw [List.mem_singleton.mp new]
        exact not_or.mp goes

end Busybox.Libbb
