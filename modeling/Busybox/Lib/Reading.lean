import Mathlib.Data.List.Basic
import Mathlib.Tactic.Common

/-!
# Reads of a descriptor

What the reads of a descriptor will find is a list. Each read takes from its head, and it may
return less than it asks for.
-/

namespace Busybox.Reading

/-- What one read finds: bytes, of which it may leave some, or an error. -/
inductive Arrival
  | bytes (chunk : List UInt8)
  | error
deriving DecidableEq, Repr

abbrev Source := List Arrival

/-- `safe_read`. No list stands for the error, and no bytes for the end of the file. -/
def safeRead : Source → Nat → Option (List UInt8) × Source
  | [], _ => (some [], [])
  | .error :: source, _ => (none, source)
  | .bytes chunk :: source, len =>
    (some (chunk.take len),
      if chunk.length ≤ len then source else .bytes (chunk.drop len) :: source)

/-- The loop of `full_read`, which has read `total` and has room for `len` more. -/
def fullReadFrom (total : List UInt8) (source : Source) (len : Nat) :
    Option (List UInt8) × Source :=
  if len = 0 then (some total, source)
  else
    match safeRead source len with
    | (none, source) => (if total = [] then none else some total, source)
    | (some [], source) => (some total, source)
    | (some (c :: got), source) => fullReadFrom (total ++ c :: got) source (len - (got.length + 1))
termination_by len

/-- `full_read`. -/
def fullRead (source : Source) (len : Nat) : Option (List UInt8) × Source :=
  fullReadFrom [] source len

/-- The bytes that are still to come. -/
def content (source : Source) : List UInt8 :=
  source.flatMap fun
    | .bytes chunk => chunk
    | .error => []

@[simp] theorem content_nil : content [] = [] := rfl

@[simp] theorem content_bytes (chunk : List UInt8) (source : Source) :
    content (.bytes chunk :: source) = chunk ++ content source := rfl

@[simp] theorem content_error (source : Source) : content (.error :: source) = content source :=
  rfl

variable {source source' : Source} {len : Nat} {got total : List UInt8}

theorem safeRead_length (read : safeRead source len = (some got, source')) :
    got.length ≤ len := by
  cases source with
  | nil =>
    cases read
    exact Nat.zero_le _
  | cons arrival source =>
    cases arrival with
    | error => simp [safeRead] at read
    | bytes chunk =>
      simp only [safeRead, Prod.mk.injEq, Option.some.injEq] at read
      rw [← read.1, List.length_take]
      exact Nat.min_le_left _ _

/-- A read loses no byte: what it does not return is still to come. -/
theorem safeRead_content (read : safeRead source len = (some got, source')) :
    content source = got ++ content source' := by
  cases source with
  | nil => cases read; rfl
  | cons arrival source =>
    cases arrival with
    | error => simp [safeRead] at read
    | bytes chunk =>
      simp only [safeRead, Prod.mk.injEq, Option.some.injEq] at read
      obtain ⟨rfl, rfl⟩ := read
      split
      · rw [content_bytes, List.take_of_length_le (by assumption)]
      · rw [content_bytes, content_bytes, ← List.append_assoc, List.take_append_drop]

theorem safeRead_failed (read : safeRead source len = (none, source')) :
    content source = content source' := by
  cases source with
  | nil => cases read
  | cons arrival source =>
    cases arrival with
    | error => cases read; rfl
    | bytes chunk => simp [safeRead] at read

theorem fullReadFrom_length (read : fullReadFrom total source len = (some got, source')) :
    got.length ≤ total.length + len := by
  induction total, source, len using fullReadFrom.induct with
  | case1 total source =>
    rw [fullReadFrom, if_pos rfl] at read
    cases read
    exact Nat.le_refl _
  | case2 total source len room source'' failed =>
    rw [fullReadFrom, if_neg room, failed] at read
    simp only [Prod.mk.injEq] at read
    obtain ⟨returned, -⟩ := read
    split at returned <;> cases returned
    exact Nat.le_add_right _ _
  | case3 total source len room source'' ended =>
    rw [fullReadFrom, if_neg room, ended] at read
    cases read
    exact Nat.le_add_right _ _
  | case4 total source len room c more source'' got_some ih =>
    rw [fullReadFrom, if_neg room, got_some] at read
    have bound := safeRead_length got_some
    have := ih read
    simp only [List.length_append, List.length_cons] at this bound
    omega

theorem fullReadFrom_content (read : fullReadFrom total source len = (some got, source')) :
    total ++ content source = got ++ content source' := by
  induction total, source, len using fullReadFrom.induct with
  | case1 total source =>
    rw [fullReadFrom, if_pos rfl] at read
    cases read
    rfl
  | case2 total source len room source'' failed =>
    rw [fullReadFrom, if_neg room, failed] at read
    simp only [Prod.mk.injEq] at read
    obtain ⟨returned, rfl⟩ := read
    split at returned <;> cases returned
    rw [safeRead_failed failed]
  | case3 total source len room source'' ended =>
    rw [fullReadFrom, if_neg room, ended] at read
    cases read
    rw [safeRead_content ended, List.nil_append]
  | case4 total source len room c more source'' got_some ih =>
    rw [fullReadFrom, if_neg room, got_some] at read
    rw [← ih read, safeRead_content got_some, List.append_assoc]

/-! ## Files without errors -/

/-- Each arrival is bytes, and the file ends where the list does. -/
def Steady (source : Source) : Prop :=
  ∀ arrival ∈ source, ∃ c chunk, arrival = .bytes (c :: chunk)

theorem Steady.after_read (steady : Steady source) (len : Nat) : Steady (safeRead source len).2 := by
  cases source with
  | nil => exact steady
  | cons arrival source =>
    obtain ⟨c, chunk, rfl⟩ := steady arrival (by simp)
    have later : Steady source := fun arrival inside => steady arrival (by simp [inside])
    simp only [safeRead]
    split
    case isTrue => exact later
    case isFalse short =>
      intro arrival inside
      rcases List.mem_cons.mp inside with rfl | inside
      · have left : (c :: chunk).drop len ≠ [] := by simpa using short
        obtain ⟨c', chunk', rest⟩ := List.exists_cons_of_ne_nil left
        exact ⟨c', chunk', by rw [rest]⟩
      · exact later arrival inside

/-- Nothing is read only at the end of the file. -/
theorem Steady.of_empty (steady : Steady source) (room : len ≠ 0)
    (ended : (safeRead source len).1.getD [] = []) : source = [] := by
  cases source with
  | nil => rfl
  | cons arrival source =>
    obtain ⟨c, chunk, rfl⟩ := steady arrival (by simp)
    simp [safeRead, room] at ended

/-- A whole read of such a file is as long as it can be. -/
theorem Steady.fullReadFrom (steady : Steady source) (total : List UInt8) (len : Nat) :
    ∃ source', Reading.fullReadFrom total source len =
        (some (total ++ (content source).take len), source') ∧ Steady source' := by
  induction total, source, len using fullReadFrom.induct with
  | case1 total source =>
    rw [Reading.fullReadFrom, if_pos rfl]
    exact ⟨source, by simp, steady⟩
  | case2 total source len room source' failed =>
    obtain rfl := steady.of_empty room (by rw [failed]; rfl)
    cases failed
  | case3 total source len room source' ended =>
    obtain rfl := steady.of_empty room (by rw [ended]; rfl)
    rw [Reading.fullReadFrom, if_neg room, ended]
    cases ended
    exact ⟨[], by simp, steady⟩
  | case4 total source len room c more source' got_some ih =>
    have after : Steady source' := by
      have := steady.after_read len
      rwa [got_some] at this
    obtain ⟨end_, read, steady'⟩ := ih after
    have bound := safeRead_length got_some
    refine ⟨end_, ?_, steady'⟩
    rw [Reading.fullReadFrom, if_neg room, got_some]
    dsimp only
    rw [read, safeRead_content got_some, List.take_append, List.take_of_length_le bound,
      List.append_assoc]
    rfl

theorem Steady.fullRead (steady : Steady source) (len : Nat) :
    ∃ source', Reading.fullRead source len = (some ((content source).take len), source') ∧
      content source' = (content source).drop len ∧ Steady source' := by
  obtain ⟨source', read, after⟩ := steady.fullReadFrom [] len
  refine ⟨source', read, ?_, after⟩
  have bytes := fullReadFrom_content read
  rw [List.nil_append, List.nil_append] at bytes
  conv at bytes => lhs; rw [← List.take_append_drop len (content source)]
  exact (List.append_cancel_left bytes).symm

end Busybox.Reading
