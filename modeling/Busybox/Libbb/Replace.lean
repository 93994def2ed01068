import Busybox.Archival.UnsafePrefix
import Busybox.Lib.Fallible
import Busybox.Lib.Pieces

/-!
# Replacing a string in a string

`xmalloc_substitute_string` makes room for the occurrences that `count_strstr` has counted, and the
room is computed as an `int`.
-/

namespace Busybox.Libbb.Replace

open Archival Fallible Pieces

abbrev Str := List UInt8

/-- A product that is no `int`, a buffer that is left, or a loop without an end. -/
inductive Fault
  | overflow
  | overrun
  | endless
  deriving DecidableEq

/-- A number of another type as an `int` -/
def asInt (n : ℕ) : ℤ := Int.bmod n (2 ^ 32)

/-- The result of `int` arithmetic -/
def int (n : ℤ) : Except Fault ℤ :=
  if -2 ^ 31 ≤ n ∧ n < 2 ^ 31 then .ok n else .error .overflow

/-- What is behind a string that was found is shorter than the string it was found in. -/
theorem drop_strstr_lt {sub str found : Str} (nonempty : sub ≠ [])
    (isFound : strstr sub str = some found) : (found.drop sub.length).length < str.length := by
  obtain ⟨front, rest, rfl, rfl⟩ := strstr_some isFound
  have positive := List.length_pos_of_ne_nil nonempty
  rw [List.drop_left, List.length_append, List.length_append]
  omega

/-- The loop of `count_strstr`. -/
def countLoop {sub : Str} (nonempty : sub ≠ []) (str : Str) (count : ℕ) : ℕ :=
  match _found : strstr sub str with
  | none => count
  | some found => countLoop nonempty (found.drop sub.length) (count + 1)
termination_by str.length
decreasing_by exact drop_strstr_lt nonempty _found

/-- `count_strstr`. -/
def countStrstr (str sub : Str) : ℕ :=
  -- if sub is empty, avoid an infinite loop
  if nonempty : sub ≠ [] then countLoop nonempty str 0 else str.length + 1

/-- The loop of `xmalloc_substitute_string`, which fills a buffer of this size. -/
def substituteLoop (size : ℕ) (sub repl src dst : Str) : Except Fault Str :=
  match strstr sub src with
  | none => if dst.length + src.length < size then .ok (dst ++ src) else .error .overrun
  | some found =>
    let dst := dst ++ src.take (src.length - found.length) ++ repl
    if size < dst.length then .error .overrun
    else if _shorter : (found.drop sub.length).length < src.length then
      substituteLoop size sub repl (found.drop sub.length) dst
    -- an empty `sub` is found in the same place again
    else .error .endless
termination_by src.length
decreasing_by exact _shorter

/-- `xmalloc_substitute_string`. -/
def xmallocSubstituteString (src : Str) (count : ℤ) (sub repl : Str) : Except Fault Str := do
  let difference ← int (asInt repl.length - asInt sub.length)
  let growth ← int (count * difference)
  substituteLoop ((src.length + growth + 1) % 2 ^ 64).toNat sub repl src []

/-! ## What is counted and replaced -/

variable {sub : Str}

theorem strstr_eq (sub str : Str) :
    strstr sub str = (cut sub str).map fun parts => sub ++ parts.2 := by
  induction str with
  | nil =>
    rw [strstr, cut]
    cases sub with
    | nil => rfl
    | cons c sub => rfl
  | cons c str ih =>
    rw [strstr, cut]
    by_cases isPrefix : sub.isPrefixOf (c :: str)
    · obtain ⟨rest, split⟩ := List.isPrefixOf_iff_prefix.mp isPrefix
      rw [if_pos isPrefix, if_pos isPrefix, ← split, List.drop_left]
      rfl
    · rw [if_neg isPrefix, if_neg isPrefix, ih, Option.map_map]
      rfl

theorem countLoop_eq (nonempty : sub ≠ []) (str : Str) (count : ℕ) :
    countLoop nonempty str count + 1 = count + (piecesOf nonempty str).length := by
  induction str using piecesOf.induct nonempty generalizing count with
  | case1 str missing =>
    rw [countLoop, piecesOf_none nonempty missing]
    split
    · rfl
    case h_2 found =>
      rw [strstr_eq, missing] at found
      cases found
  | case2 str front behind isCut ih =>
    rw [countLoop, piecesOf_some nonempty isCut, List.length_cons]
    split
    case h_1 missing =>
      rw [strstr_eq, isCut] at missing
      cases missing
    case h_2 found =>
      rw [strstr_eq, isCut] at found
      cases found
      rw [List.drop_left, ih]
      omega

theorem countStrstr_eq (str sub : Str) : countStrstr str sub = occurrences sub str := by
  unfold countStrstr occurrences pieces
  split_ifs with nonempty
  · have counted := countLoop_eq nonempty str 0
    omega
  · simp

/-- Everything is replaced if the result and its NUL fit into the buffer. -/
theorem substituteLoop_eq (size : ℕ) (nonempty : sub ≠ []) (repl src dst : Str) :
    substituteLoop size sub repl src dst =
      if (dst ++ repl.intercalate (piecesOf nonempty src)).length < size then
        .ok (dst ++ repl.intercalate (piecesOf nonempty src))
      else .error .overrun := by
  induction src using piecesOf.induct nonempty generalizing dst with
  | case1 src missing =>
    rw [substituteLoop, strstr_eq, missing, piecesOf_none nonempty missing,
      List.intercalate_singleton, List.length_append]
    rfl
  | case2 src front behind isCut ih =>
    have shorter := cut_shorter nonempty isCut
    have before : src.length - (sub ++ behind).length = front.length := by
      rw [cut_eq_some isCut, List.length_append, Nat.add_sub_cancel]
    have copied : src.take front.length = front := by rw [cut_eq_some isCut, List.take_left]
    rw [substituteLoop, strstr_eq, isCut, piecesOf_some nonempty isCut,
      List.intercalate_cons_of_ne_nil (piecesOf_ne_nil nonempty behind), Option.map_some]
    dsimp only
    rw [before, copied, List.drop_left, dif_pos shorter, ih, List.append_assoc, List.append_assoc,
      List.append_assoc]
    by_cases left : size < (dst ++ (front ++ repl)).length
    · rw [if_pos left, if_neg]
      rw [List.length_append] at left ⊢
      rw [List.length_append] at left ⊢
      rw [List.length_append]
      omega
    · rw [if_neg left]

/-- The loop does not end when there is nothing to look for. -/
theorem substituteLoop_empty (size : ℕ) (repl src dst : Str) :
    ∃ fault, substituteLoop size [] repl src dst = .error fault := by
  have found : strstr [] src = some src := by
    cases src with
    | nil => rfl
    | cons c src => rfl
  rw [substituteLoop, found]
  dsimp only
  split
  · exact ⟨_, rfl⟩
  · rw [dif_neg (by rw [List.length_nil, List.drop_zero]; exact lt_irrefl _)]
    exact ⟨_, rfl⟩

theorem asInt_eq {n : ℕ} (small : n < 2 ^ 31) : asInt n = n :=
  Int.bmod_eq_of_le_mul_two (by omega) (by omega)

theorem int_eq {n : ℤ} (least : -2 ^ 31 ≤ n) (most : n < 2 ^ 31) : int n = .ok n :=
  if_pos ⟨least, most⟩

theorem occurrences_mul_le (sub str : Str) : occurrences sub str * sub.length ≤ str.length := by
  have whole := length_intercalate sub (pieces_ne_nil sub str)
  rw [intercalate_pieces] at whole
  unfold occurrences
  omega

/-- The string is found somewhere in strings of which no length is too large for an `int`. What
the result is longer by has to be an `int` as well. -/
theorem xmallocSubstituteString_eq {src sub repl : Str} (nonempty : sub ≠ [])
    (found : 0 < occurrences sub src) (source : src.length < 2 ^ 31)
    (replacement : repl.length < 2 ^ 31) :
    xmallocSubstituteString src (occurrences sub src) sub repl =
      if (occurrences sub src * (repl.length - sub.length) : ℤ) < 2 ^ 31 then
        .ok (replaced sub repl src)
      else .error .overflow := by
  have removed := occurrences_mul_le sub src
  have inside : sub.length ≤ src.length := (Nat.le_mul_of_pos_left _ found).trans removed
  have grown := length_replaced sub repl src
  have product : (occurrences sub src * (repl.length - sub.length) : ℤ) =
      ((occurrences sub src * repl.length : ℕ) : ℤ) - (occurrences sub src * sub.length : ℕ) := by
    push_cast
    ring
  unfold xmallocSubstituteString
  rw [asInt_eq replacement, asInt_eq (inside.trans_lt source), int_eq (by omega) (by omega),
    ok_bind]
  by_cases small : (occurrences sub src * (repl.length - sub.length) : ℤ) < 2 ^ 31
  · have size : ((src.length + occurrences sub src * (repl.length - sub.length) + 1 : ℤ) %
        2 ^ 64).toNat = (replaced sub repl src).length + 1 := by
      rw [product] at small ⊢
      omega
    rw [if_pos small, int_eq (by rw [product]; omega) small, ok_bind, size,
      substituteLoop_eq _ nonempty, List.nil_append]
    unfold replaced pieces
    rw [dif_pos nonempty, if_pos (Nat.lt_succ_self _)]
  · rw [if_neg small]
    unfold int
    rw [if_neg fun range => small range.2]
    rfl

theorem xmallocSubstituteString_empty (src repl : Str) (count : ℤ) :
    ∃ fault, xmallocSubstituteString src count [] repl = .error fault := by
  unfold xmallocSubstituteString
  cases int (asInt repl.length - asInt ([] : Str).length) with
  | error fault => exact ⟨fault, rfl⟩
  | ok difference =>
    rw [ok_bind]
    cases int (count * difference) with
    | error fault => exact ⟨fault, rfl⟩
    | ok growth => exact substituteLoop_empty _ repl src []

end Busybox.Libbb.Replace
