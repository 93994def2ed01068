import Mathlib.Data.List.Basic
import Mathlib.Data.List.TakeWhile
import Mathlib.Tactic.Common

/-!
# Terminated records in a stream

`encode stop records` is the stream of records, each with a terminator behind it.
`afterStop` says where a reader that starts anywhere finds the next whole record, and
`split_encode` that the records are found again.
-/

namespace Busybox.Records

variable {α : Type*} {stop : α} {records : List (List α)}

/-- Records one after another, each with the terminator behind it. -/
def encode (stop : α) (records : List (List α)) : List α := records.flatMap (· ++ [stop])

@[simp] theorem encode_nil : encode stop ([] : List (List α)) = [] := rfl

@[simp] theorem encode_cons (record : List α) (records : List (List α)) :
    encode stop (record :: records) = record ++ stop :: encode stop records := by
  simp [encode]

theorem encode_append (left right : List (List α)) :
    encode stop (left ++ right) = encode stop left ++ encode stop right :=
  List.flatMap_append

/-- Records with a terminator behind each are records with terminators between them, and
one more. -/
theorem encode_eq_intercalate (record : List α) (records : List (List α)) :
    encode stop (record :: records) = [stop].intercalate (record :: records) ++ [stop] := by
  induction records generalizing record with
  | nil => simp
  | cons next records ih =>
    rw [encode_cons, ih, List.intercalate_cons_cons]
    simp

/-- Empty records are terminators only. -/
theorem encode_replicate (count : Nat) :
    encode stop (List.replicate count []) = List.replicate count stop := by
  induction count with
  | zero => rfl
  | succ count ih => rw [List.replicate_succ, encode_cons, ih, List.replicate_succ, List.nil_append]

/-- The stream ends with a terminator. -/
theorem stop_mem_drop {offset : Nat} (short : offset < (encode stop records).length) :
    stop ∈ (encode stop records).drop offset := by
  rcases List.eq_nil_or_concat records with rfl | ⟨front, last, rfl⟩
  · exact absurd short (Nat.not_lt_zero _)
  · rw [List.concat_eq_append, encode_append, encode_cons, encode_nil] at short ⊢
    rw [← List.append_assoc, List.drop_append_of_le_length]
    · exact List.mem_append_right _ (List.mem_singleton_self stop)
    · simp only [List.length_append, List.length_cons, List.length_nil] at short ⊢
      omega

section Split

variable [DecidableEq α]

/-- How many items there are before the first terminator. -/
def upTo (stop : α) (stream : List α) : Nat := (stream.takeWhile (· ≠ stop)).length

/-- The records of a stream, for at most so many turns. -/
def split (stop : α) : Nat → List α → List (List α)
  | 0, _ => []
  | _ + 1, [] => []
  | turns + 1, item :: stream =>
    (item :: stream).takeWhile (· ≠ stop) ::
      split stop turns ((item :: stream).drop (upTo stop (item :: stream) + 1))

theorem upTo_append_of_mem {left : List α} (member : stop ∈ left) (right : List α) :
    upTo stop (left ++ right) = upTo stop left := by
  induction left with
  | nil => cases member
  | cons item left ih =>
    unfold upTo
    rw [List.cons_append, List.takeWhile_cons, List.takeWhile_cons]
    split
    · next other =>
      have later : stop ∈ left := (List.mem_cons.mp member).resolve_left fun same => by
        simp [same] at other
      rw [List.length_cons, List.length_cons]
      exact congrArg Nat.succ (ih later)
    · rfl

theorem upTo_append_of_not_mem {left : List α} (free : stop ∉ left) (right : List α) :
    upTo stop (left ++ right) = left.length + upTo stop right := by
  rw [upTo, List.takeWhile_append_of_pos, List.length_append, upTo]
  intro item member
  simpa using fun same : item = stop => free (same ▸ member)

theorem upTo_lt {stream : List α} (member : stop ∈ stream) : upTo stop stream < stream.length := by
  obtain ⟨front, rest, rfl, free⟩ := List.eq_append_cons_of_mem member
  rw [upTo_append_of_not_mem free, upTo, List.takeWhile_cons, if_neg (by simp), List.length_append,
    List.length_nil, List.length_cons]
  omega

theorem takeWhile_record {record : List α} (free : stop ∉ record) (rest : List α) :
    (record ++ stop :: rest).takeWhile (· ≠ stop) = record := by
  rw [List.takeWhile_append_of_pos]
  · simp
  · intro item member
    simpa using fun same : item = stop => free (same ▸ member)

theorem upTo_record {record : List α} (free : stop ∉ record) (rest : List α) :
    upTo stop (record ++ stop :: rest) = record.length := by
  rw [upTo, takeWhile_record free]

/-- From any place of the stream on, what follows the next terminator is the stream
of the records that start later. -/
theorem afterStop (free : ∀ record ∈ records, stop ∉ record) {start : Nat}
    (short : start < (encode stop records).length) :
    ∃ skipped, (encode stop records).drop
        (start + upTo stop ((encode stop records).drop start) + 1)
        = encode stop (records.drop skipped) ∧
      ∀ index, start < (encode stop (records.take index)).length → skipped ≤ index := by
  induction records generalizing start with
  | nil => exact absurd short (Nat.not_lt_zero _)
  | cons record records ih =>
    have freeHere := free record (List.mem_cons_self ..)
    have freeLater := fun later member => free later (List.mem_cons_of_mem record member)
    rw [encode_cons] at short ⊢
    by_cases inside : start ≤ record.length
    · refine ⟨1, ?_, fun index reached => ?_⟩
      · have freeRest : stop ∉ record.drop start := fun member =>
          freeHere (List.mem_of_mem_drop member)
        rw [List.drop_append_of_le_length inside, upTo_record freeRest, List.length_drop,
          List.drop_append, List.drop_eq_nil_of_le (by omega), List.nil_append,
          show start + (record.length - start) + 1 - record.length = 1 by omega]
        rfl
      · cases index with
        | zero => exact absurd reached (Nat.not_lt_zero _)
        | succ index => exact Nat.succ_le_succ (Nat.zero_le index)
    · obtain ⟨later, rfl⟩ := Nat.exists_eq_add_of_lt (Nat.not_le.mp inside)
      have skipRecord : ∀ more, (record ++ stop :: encode stop records).drop
          (record.length + 1 + more) = (encode stop records).drop more := by
        intro more
        rw [List.drop_append, List.drop_eq_nil_of_le (by omega), List.nil_append,
          show record.length + 1 + more - record.length = more + 1 by omega, List.drop_succ_cons]
      have shorter : later < (encode stop records).length := by
        rw [List.length_append, List.length_cons] at short
        omega
      obtain ⟨skipped, rest, first⟩ := ih freeLater shorter
      have reassoc : ∀ count, record.length + later + 1 + count + 1
          = record.length + 1 + (later + count + 1) := by omega
      refine ⟨skipped + 1, ?_, fun index reached => ?_⟩
      · rw [reassoc, skipRecord, show record.length + later + 1 = record.length + 1 + later by omega,
          skipRecord, rest, List.drop_succ_cons]
      · cases index with
        | zero => exact absurd reached (Nat.not_lt_zero _)
        | succ index =>
          refine Nat.succ_le_succ (first index ?_)
          rw [List.take_succ_cons, encode_cons, List.length_append, List.length_cons] at reached
          omega

/-- With turns enough the records of a stream are found again. -/
theorem split_encode (free : ∀ record ∈ records, stop ∉ record) {turns : Nat}
    (enough : (encode stop records).length ≤ turns) :
    split stop turns (encode stop records) = records := by
  induction records generalizing turns with
  | nil => cases turns <;> rfl
  | cons record records ih =>
    have freeHere := free record (List.mem_cons_self ..)
    rw [encode_cons, List.length_append, List.length_cons] at enough
    obtain ⟨turns, rfl⟩ := Nat.exists_eq_succ_of_ne_zero (show turns ≠ 0 by omega)
    have behind : (record ++ stop :: encode stop records).drop
        (upTo stop (record ++ stop :: encode stop records) + 1) = encode stop records := by
      rw [upTo_record freeHere, List.drop_append, List.drop_eq_nil_of_le (by omega),
        List.nil_append, show record.length + 1 - record.length = 1 by omega]
      rfl
    have rest := ih (fun later member => free later (List.mem_cons_of_mem record member))
      (show _ ≤ turns by omega)
    rw [encode_cons]
    cases whole : record ++ stop :: encode stop records with
    | nil => simp at whole
    | cons item stream =>
      rw [split, ← whole, takeWhile_record freeHere, behind, rest]

end Split

end Busybox.Records
