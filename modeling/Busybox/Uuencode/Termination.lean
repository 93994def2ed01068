import Busybox.Lib.Loops
import Busybox.Uuencode.Stream

/-!
# Streams on which `read_base64` ends

`decode_base64` hands a group that is begun and not finished back whole, with the
characters in and before it that are none of the table's. When such a group fills the
buffer, nothing is read any more and nothing is decoded. `fits` follows the pending text
through a stream, one character at a time, and is true when that never happens.
-/

namespace Busybox.Uuencode

open Loops

/-- A pass of the outer loop of `read_base64`, over `in_buf` and the stream: nothing
where the function returns or dies. -/
def pass (flags : BitVec 32) (state : List UInt8 × List UInt8) :
    Option (List UInt8 × List UInt8) :=
  match fillBuffer (exitChar flags) state.1 state.2 with
  | .exit => none
  | .terminated _ => none
  | .partly inBuf stream =>
    if uuStyleEnd flags ∧ inBuf = ascii "====" then none
    else some ((decodeBase64 inBuf).2, stream)

/-! ## The undecoded part -/

/-- The group that a text ends in, as far as it is there: all its characters, and how many
6-bit values are among them. -/
def lastGroup (text : List UInt8) : List UInt8 × Nat → List UInt8 × Nat :=
  text.foldl fun (begun, values) ch =>
    match tablePtr ch with
    | none => (begun ++ [ch], values)
    | some index =>
      -- the termination character and the fourth value finish a group
      if index = 64 ∨ values = 3 then ([], 0) else (begun ++ [ch], values + 1)

/-- What stays undecoded: the last group, if it has a value and is not finished. -/
def undecoded (text : List UInt8) : List UInt8 :=
  if (lastGroup text ([], 0)).2 = 0 then [] else (lastGroup text ([], 0)).1

theorem fetch_group (sixBit : List Nat) (room : sixBit.length < 4) (begun src : List UInt8) :
    match fetch sixBit src with
    | .nul six => lastGroup src (begun, sixBit.length) = (begun ++ src, six.length)
    | .values _ rest => lastGroup src (begun, sixBit.length) = lastGroup rest ([], 0) := by
  induction src generalizing sixBit begun with
  | nil => simp [fetch, room, lastGroup]
  | cons ch src ih =>
    rw [fetch, if_pos room]
    cases found : tablePtr ch with
    | none => simpa [lastGroup, found] using ih sixBit room (begun ++ [ch])
    | some index =>
      by_cases terminator : index = 64
      · simp [lastGroup, found, terminator]
      · simp only [terminator, if_false]
        by_cases last : sixBit.length = 3
        · rw [fetch_full (by simp [last])]
          simp [lastGroup, found, last]
        · simpa [lastGroup, found, terminator, last] using
            ih (sixBit ++ [index]) (by simp; omega) (begun ++ [ch])

theorem decodeBase64_undecoded (text : List UInt8) : (decodeBase64 text).2 = undecoded text := by
  induction text using decodeBase64.induct with
  | case1 text six fetched =>
    have groups := fetch_group [] (by decide) [] text
    rw [fetched] at groups
    rw [decodeBase64_nul fetched, undecoded]
    simp only [List.length_nil, List.nil_append] at groups
    simp [groups]
  | case2 text six rest fetched shorter ih =>
    have groups := fetch_group [] (by decide) [] text
    rw [fetched] at groups
    rw [decodeBase64_values fetched, undecoded]
    simp only [List.length_nil] at groups
    rw [groups]
    exact ih

theorem undecoded_suffix (text : List UInt8) : undecoded text <:+ text := by
  rw [← decodeBase64_undecoded]
  induction text using decodeBase64.induct with
  | case1 text six fetched =>
    rw [decodeBase64_nul fetched]
    split
    · exact List.nil_suffix
    · exact List.suffix_refl text
  | case2 text six rest fetched shorter ih =>
    rw [decodeBase64_values fetched]
    exact ih.trans (fetch_values_append fetched []).2

/-! ## The pending text -/

/-- The pending text after one more character. What ends a piece is not kept, and
where a piece ends or the buffer is full, what can be decoded is. -/
def pending (inBuf : List UInt8) (ch : UInt8) : List UInt8 :=
  if ch ≤ 32 then undecoded inBuf
  else if inBuf.length + 1 < bufferSize then inBuf ++ [ch]
  else undecoded (inBuf ++ [ch])

/-- The pending text never fills the buffer, up to the exit character, the line "====" or
the end of the stream. -/
def fits (flags : BitVec 32) (inBuf : List UInt8) : List UInt8 → Bool
  | [] => true
  | ch :: stream =>
    if (ch.toNat : Int) = exitChar flags then true
    else if ch ≤ 32 ∧ uuStyleEnd flags ∧ inBuf = ascii "====" then true
    else (pending inBuf ch).length < bufferSize && fits flags (pending inBuf ch) stream

variable {flags : BitVec 32} {inBuf stream : List UInt8} {ch : UInt8}

theorem pass_end (room : inBuf.length < bufferSize) : pass flags (inBuf, []) = none := by
  simp only [pass, fillBuffer, if_pos room]
  split <;> rename_i filled <;> split at filled <;> cases filled <;> rfl

theorem pass_exit (room : inBuf.length < bufferSize) (exit : (ch.toNat : Int) = exitChar flags) :
    pass flags (inBuf, ch :: stream) = none := by
  simp only [pass, fillBuffer, if_pos room, if_pos exit]
  split <;> rename_i filled <;> split at filled <;> cases filled <;> rfl

theorem pass_blank (stream : List UInt8) (room : inBuf.length < bufferSize) (other : (ch.toNat : Int) ≠ exitChar flags)
    (blank : ch ≤ 32) :
    pass flags (inBuf, ch :: stream) =
      if uuStyleEnd flags ∧ inBuf = ascii "====" then none else some (undecoded inBuf, stream) := by
  simp only [pass, fillBuffer, if_pos room, if_neg other, if_pos blank, decodeBase64_undecoded]

/-- A character that is kept could have been in the buffer already. -/
theorem pass_char (room : inBuf.length < bufferSize) (other : (ch.toNat : Int) ≠ exitChar flags)
    (kept : ¬ ch ≤ 32) :
    pass flags (inBuf, ch :: stream) = pass flags (inBuf ++ [ch], stream) := by
  simp only [pass, fillBuffer, if_pos room, if_neg other, if_neg kept]

theorem pass_full (full : inBuf.length = bufferSize) :
    pass flags (inBuf, stream) = some (undecoded inBuf, stream) := by
  have long : inBuf ≠ ascii "====" := by
    rintro rfl
    exact absurd full (by decide)
  simp only [pass, fillBuffer_full (Nat.le_of_eq full.symm), decodeBase64_undecoded, long, and_false, if_false]

/-- A full buffer that stays full is never left. -/
theorem not_halts_full (flags : BitVec 32) (stream : List UInt8)
    (full : inBuf.length = bufferSize) (stays : bufferSize ≤ (undecoded inBuf).length) :
    ¬ Halts (pass flags) (inBuf, stream) := by
  have same : undecoded inBuf = inBuf :=
    (undecoded_suffix inBuf).eq_of_length_le (full ▸ stays)
  apply not_halts_of_fixed
  rw [pass_full full, same]

/-- From a buffer that is not full, `read_base64` ends exactly when the pending text fits. -/
theorem halts_iff_fits (room : inBuf.length < bufferSize) :
    Halts (pass flags) (inBuf, stream) ↔ fits flags inBuf stream = true := by
  induction stream generalizing inBuf with
  | nil => exact ⟨fun _ => rfl, fun _ => .left (pass_end room)⟩
  | cons ch stream ih =>
    rw [fits]
    by_cases exit : (ch.toNat : Int) = exitChar flags
    · rw [if_pos exit]
      exact ⟨fun _ => rfl, fun _ => .left (pass_exit room exit)⟩
    rw [if_neg exit, pending]
    by_cases blank : ch ≤ 32
    · have turn := pass_blank stream room exit blank
      by_cases stop : uuStyleEnd flags ∧ inBuf = ascii "===="
      · rw [if_pos ⟨blank, stop⟩]
        rw [if_pos stop] at turn
        exact ⟨fun _ => rfl, fun _ => .left turn⟩
      · have fewer := Nat.lt_of_le_of_lt (undecoded_suffix inBuf).length_le room
        rw [if_neg stop] at turn
        rw [if_neg fun both => stop both.2, if_pos blank, halts_iff_next turn, ih fewer]
        simp [fewer]
    · rw [if_neg fun both => blank both.1, if_neg blank, halts_congr (pass_char room exit blank)]
      by_cases more : inBuf.length + 1 < bufferSize
      · have short : (inBuf ++ [ch]).length < bufferSize := by simpa using more
        rw [if_pos more, ih short]
        simp [more]
      · have full : (inBuf ++ [ch]).length = bufferSize := by
          rw [List.length_append, List.length_singleton]
          omega
        rw [if_neg more]
        by_cases fewer : (undecoded (inBuf ++ [ch])).length < bufferSize
        · rw [halts_iff_next (pass_full full), ih fewer]
          simp [fewer]
        · have stuck := not_halts_full flags stream full
            (Nat.le_of_not_lt fewer)
          simp [fewer, stuck]

/-- `read_base64` ends exactly on the streams whose pending text never fills the buffer. -/
theorem readBase64_ends_iff (flags : BitVec 32) (stream : List UInt8) :
    Halts (pass flags) ([], stream) ↔ fits flags [] stream = true :=
  halts_iff_fits (by decide)

/-- A character of the table and 63 that are not in it. -/
def lone : List UInt8 := 65 :: List.replicate 63 35

/-- `base64 -d` never ends on them. -/
theorem readBase64_spins : ¬ ∀ flags stream, Halts (pass flags) ([], stream) := by
  intro ends
  have fitting := (halts_iff_fits (by decide)).mp (ends (-1) lone)
  exact absurd fitting (by decide +kernel)

end Busybox.Uuencode
