import Busybox.Hash.Standard

/-!
# The buffering loop

`feed_absorbs` is the loop of the three `hash` functions: with any `put` and
`process` that keep a relation between a context, a chaining value and the bytes
that wait, it absorbs the whole blocks and keeps the rest. Beside it stand the
facts about buffers and counters that MD5, SHA and SHA-512 share.
-/

namespace Busybox.Hash

open Blocks

section Feed

variable {σ η : Type} (size : UInt32) {put : σ → Nat → List UInt8 → σ} {process : σ → σ}
  {step : η → List UInt8 → η} {Holds : σ → η → List UInt8 → Prop}

/-- Position arithmetic: within a block the counter cannot wrap, so it is zero
after the subtraction exactly when the block is full. -/
theorem bufpos_eq {pending remaining : Nat} (within : pending + remaining ≤ size.toNat) :
    (UInt32.ofNat pending + UInt32.ofNat remaining - size = 0 ↔
      pending + remaining = size.toNat) ∧
    (UInt32.ofNat pending + UInt32.ofNat remaining - size + size).toNat
      = pending + remaining := by
  have bound := size.toNat_lt
  have sum : (UInt32.ofNat pending + UInt32.ofNat remaining).toNat = pending + remaining := by
    rw [← UInt32.ofNat_add, UInt32.toNat_ofNat', Nat.mod_eq_of_lt (by omega)]
  refine ⟨?_, ?_⟩
  · have same : UInt32.ofNat pending + UInt32.ofNat remaining - size = 0 ↔
        UInt32.ofNat pending + UInt32.ofNat remaining = size := by
      refine ⟨fun zero => ?_, fun equal => equal ▸ UInt32.sub_self _⟩
      have restored := UInt32.sub_add_cancel (UInt32.ofNat pending + UInt32.ofNat remaining) size
      rwa [zero, UInt32.zero_add, eq_comm] at restored
    rw [same, ← UInt32.toNat_inj, sum]
  · rw [UInt32.sub_add_cancel, sum]

theorem space_eq {pending : Nat} (short : pending < size.toNat) :
    (UInt32.ofNat pending).toNat = pending ∧
      (size - UInt32.ofNat pending).toNat = size.toNat - pending := by
  have bound := size.toNat_lt
  have position : (UInt32.ofNat pending).toNat = pending := by
    rw [UInt32.toNat_ofNat', Nat.mod_eq_of_lt (by omega)]
  refine ⟨position, ?_⟩
  rw [UInt32.toNat_sub_of_le _ _ (UInt32.le_iff_toNat_le.mpr (by omega)), position]

/-- Bytes that do not fill the buffer are put into it. -/
theorem feed_short {turns pending : Nat} {ctx : σ} {buffer : List UInt8}
    (short : pending + buffer.length < size.toNat) :
    feed size put process turns ctx (UInt32.ofNat pending) buffer =
      (put ctx pending buffer, UInt32.ofNat pending + UInt32.ofNat buffer.length - size) := by
  have room : pending < size.toNat := by omega
  obtain ⟨position, space⟩ := space_eq size room
  have all : min (size.toNat - pending) buffer.length = buffer.length := by omega
  have unfilled := (bufpos_eq size (Nat.le_of_lt short)).1
  rw [feed.eq_def]
  simp only [position, space, all, List.take_length]
  rw [if_pos]
  intro zero
  exact absurd (unfilled.mp zero) (by omega)

/-- Bytes that fill the buffer are processed with it. -/
theorem feed_full {turns pending : Nat} {ctx : σ} {buffer : List UInt8}
    (short : pending < size.toNat) (full : size.toNat ≤ pending + buffer.length) :
    feed size put process (turns + 1) ctx (UInt32.ofNat pending) buffer =
      feed size put process turns
        (process (put ctx pending (buffer.take (size.toNat - pending)))) (UInt32.ofNat 0)
        (buffer.drop (size.toNat - pending)) := by
  obtain ⟨position, space⟩ := space_eq size short
  have part : min (size.toNat - pending) buffer.length = size.toNat - pending := by omega
  have exactly : pending + (size.toNat - pending) = size.toNat := by omega
  have filled := (bufpos_eq size (Nat.le_of_eq exactly)).1.mpr exactly
  rw [feed.eq_def]
  simp only [position, space, part, filled, ne_eq, not_true_eq_false, if_false]
  rfl

/-- The loop absorbs the whole blocks of the waiting bytes and the buffer, and
keeps the rest. -/
theorem feed_absorbs
    (putHolds : ∀ {ctx value pending} bytes, Holds ctx value pending →
      pending.length + bytes.length ≤ size.toNat →
      Holds (put ctx pending.length bytes) value (pending ++ bytes))
    (processHolds : ∀ {ctx value block}, Holds ctx value block → block.length = size.toNat →
      Holds (process ctx) (step value block) [])
    {turns : Nat} {ctx : σ} {value : η} {pending buffer : List UInt8}
    (holds : Holds ctx value pending) (short : pending.length < size.toNat)
    (enough : buffer.length ≤ turns) :
    Holds (feed size put process turns ctx (UInt32.ofNat pending.length) buffer).1
      (absorb size.toNat step value (pending ++ buffer))
      (rest size.toNat (pending ++ buffer)) ∧
    ((feed size put process turns ctx (UInt32.ofNat pending.length) buffer).2 + size).toNat
      = (rest size.toNat (pending ++ buffer)).length := by
  induction turns generalizing ctx value pending buffer with
  | zero =>
    have fits : pending.length + buffer.length < size.toNat := by omega
    have shorter : (pending ++ buffer).length < size.toNat := by rwa [List.length_append]
    rw [feed_short size fits, absorb_of_short step value shorter, rest_of_short shorter]
    refine ⟨putHolds buffer holds (Nat.le_of_lt fits), ?_⟩
    rw [(bufpos_eq size (Nat.le_of_lt fits)).2, List.length_append]
  | succ turns ih =>
    by_cases fits : pending.length + buffer.length < size.toNat
    · have shorter : (pending ++ buffer).length < size.toNat := by rwa [List.length_append]
      rw [feed_short size fits, absorb_of_short step value shorter, rest_of_short shorter]
      refine ⟨putHolds buffer holds (Nat.le_of_lt fits), ?_⟩
      rw [(bufpos_eq size (Nat.le_of_lt fits)).2, List.length_append]
    · have full : size.toNat ≤ pending.length + buffer.length := Nat.not_lt.mp fits
      have positive : 0 < size.toNat := Nat.zero_lt_of_lt short
      have part : (buffer.take (size.toNat - pending.length)).length
          = size.toNat - pending.length := List.length_take_of_le (by omega)
      have whole : (pending ++ buffer.take (size.toNat - pending.length)).length
          = size.toNat := by
        rw [List.length_append, part]
        omega
      have split : pending ++ buffer = (pending ++ buffer.take (size.toNat - pending.length))
          ++ buffer.drop (size.toNat - pending.length) := by
        rw [List.append_assoc, List.take_append_drop]
      have put := putHolds (buffer.take (size.toNat - pending.length)) holds
        (by rw [part]; omega)
      have fewer : (buffer.drop (size.toNat - pending.length)).length ≤ turns := by
        rw [List.length_drop]
        omega
      have next := ih (processHolds put whole) positive fewer
      rw [feed_full size short full, split, absorb_block step value positive whole,
        rest_block positive whole]
      exact next

end Feed

section Memory

theorem memcpy_length {destination source : List UInt8} {position : Nat}
    (within : position + source.length ≤ destination.length) :
    (memcpy destination position source).length = destination.length := by
  simp only [memcpy, List.length_append, List.length_take, List.length_drop]
  omega

theorem take_memcpy {destination source : List UInt8} {position : Nat}
    (within : position ≤ destination.length) :
    (memcpy destination position source).take (position + source.length)
      = destination.take position ++ source := by
  have front : (destination.take position ++ source).length = position + source.length := by
    rw [List.length_append, List.length_take_of_le within]
  rw [memcpy, List.take_left' front]

/-- A copy up to the end of the buffer settles all of it. -/
theorem memcpy_end {destination source : List UInt8} {position : Nat}
    (ends : position + source.length = destination.length) :
    memcpy destination position source = destination.take position ++ source := by
  rw [memcpy, ends, List.drop_length, List.append_nil]

/-- Two copies, the first one right behind the second, are one. -/
theorem memcpy_memcpy {destination : List UInt8} (position : Nat) (left right : List UInt8)
    (within : position + left.length + right.length ≤ destination.length) :
    memcpy (memcpy destination (position + left.length) right) position left
      = memcpy destination position (left ++ right) := by
  have front : (destination.take (position + left.length)).length = position + left.length :=
    List.length_take_of_le (by omega)
  have kept : (memcpy destination (position + left.length) right).take position
      = destination.take position := by
    rw [memcpy, List.append_assoc, List.take_append_of_le_length (by omega), List.take_take,
      Nat.min_eq_left (Nat.le_add_right _ _)]
  have behind : (memcpy destination (position + left.length) right).drop
      (position + left.length)
      = right ++ destination.drop (position + left.length + right.length) := by
    rw [memcpy, List.append_assoc, List.drop_left' front]
  rw [memcpy, kept, behind, memcpy, List.length_append]
  simp only [List.append_assoc, Nat.add_assoc]

/-- A buffer of the block size that holds the bytes that wait. -/
structure Waits (size : Nat) (buffer pending : List UInt8) : Prop where
  size : buffer.length = size
  waiting : buffer.take pending.length = pending

namespace Waits

variable {size : Nat} {buffer pending : List UInt8}

theorem store (waits : Waits size buffer pending) (bytes : List UInt8)
    (within : pending.length + bytes.length ≤ size) :
    Waits size (memcpy buffer pending.length bytes) (pending ++ bytes) where
  size := by rw [memcpy_length (waits.size ▸ within), waits.size]
  waiting := by
    rw [List.length_append, take_memcpy (by rw [waits.size]; omega), waits.waiting]

theorem full (waits : Waits size buffer pending) (whole : pending.length = size) :
    buffer = pending := by
  have waiting := waits.waiting
  rwa [whole, ← waits.size, List.take_length] at waiting

theorem none (sized : buffer.length = size) : Waits size buffer [] := ⟨sized, rfl⟩

/-- Zeros up to the end of the block. -/
theorem zeros (waits : Waits size buffer pending) (short : pending.length ≤ size) :
    memcpy buffer pending.length (List.replicate (size - pending.length) 0)
      = pending ++ List.replicate (size - pending.length) 0 := by
  refine (waits.store _ ?_).full ?_
  · rw [List.length_replicate]
    omega
  · rw [List.length_append, List.length_replicate]
    omega

/-- The counter behind the zeros completes the block. -/
theorem complete (waits : Waits size buffer pending) {counter : Nat} {bits : List UInt8}
    (width : bits.length = counter) (fits : pending.length + counter ≤ size) :
    memcpy (memcpy buffer pending.length (List.replicate (size - pending.length) 0))
      (size - counter) bits
      = pending ++ List.replicate (size - (pending.length + counter)) 0 ++ bits := by
  have whole : (pending ++ List.replicate (size - pending.length) (0 : UInt8)).length = size := by
    rw [List.length_append, List.length_replicate]
    omega
  rw [waits.zeros (by omega), memcpy_end (by rw [whole, width]; omega), List.take_append,
    List.take_of_length_le (by omega), List.take_replicate]
  congr 3
  omega

end Waits

end Memory

section Encoding

theorem littleEndian_length (width value : Nat) : (littleEndian width value).length = width := by
  induction width generalizing value with
  | zero => rfl
  | succ width ih => rw [littleEndian, List.length_cons, ih]

theorem bigEndian_length (width value : Nat) : (bigEndian width value).length = width := by
  rw [bigEndian, List.length_reverse, littleEndian_length]

/-- Only the low-order bytes of a number are spelled. -/
theorem littleEndian_mod (width value : Nat) :
    littleEndian width (value % 256 ^ width) = littleEndian width value := by
  induction width generalizing value with
  | zero => rfl
  | succ width ih =>
    have digit : UInt8.ofNat (value % 256 ^ (width + 1)) = UInt8.ofNat value := by
      rw [← UInt8.toNat_inj, UInt8.toNat_ofNat', UInt8.toNat_ofNat']
      exact Nat.mod_mod_of_dvd _ (Nat.dvd_of_pow_dvd (Nat.succ_pos width) (Nat.dvd_refl _))
    have higher : value % 256 ^ (width + 1) / 256 = value / 256 % 256 ^ width := by
      rw [Nat.pow_succ', Nat.mod_mul_right_div_self]
    rw [littleEndian, littleEndian, digit, higher, ih]

theorem littleEndian_add (width width' value : Nat) :
    littleEndian (width + width') value
      = littleEndian width value ++ littleEndian width' (value / 256 ^ width) := by
  induction width generalizing value with
  | zero => simp [littleEndian]
  | succ width ih =>
    rw [Nat.succ_add, littleEndian, ih, littleEndian, List.cons_append, Nat.pow_succ',
      Nat.div_div_eq_div_mul]

theorem bigEndian_add (width width' value : Nat) :
    bigEndian (width + width') value
      = bigEndian width' (value / 256 ^ width) ++ bigEndian width value := by
  rw [bigEndian, littleEndian_add, List.reverse_append, bigEndian, bigEndian]

theorem bigEndian_mod (width value : Nat) :
    bigEndian width (value % 256 ^ width) = bigEndian width value := by
  rw [bigEndian, littleEndian_mod, bigEndian]

/-- The position in the buffer is what the counter leaves modulo the block. -/
theorem mask_eq (width length : Nat) (narrow : width ≤ 7) :
    (UInt64.ofNat length &&& UInt64.ofNat (2 ^ width - 1)).toNat = length % 2 ^ width := by
  have small : 2 ^ width - 1 < 2 ^ 64 :=
    Nat.lt_of_le_of_lt (Nat.sub_le _ _) (Nat.pow_lt_pow_right (by decide) (by omega))
  rw [UInt64.toNat_and, UInt64.toNat_ofNat', UInt64.toNat_ofNat', Nat.mod_eq_of_lt small,
    Nat.and_two_pow_sub_one_eq_mod]
  exact Nat.mod_mod_of_dvd _ (Nat.pow_dvd_pow 2 (by omega))

theorem toUInt32_eq (value : UInt64) : value.toUInt32 = UInt32.ofNat value.toNat := by
  rw [← UInt32.toNat_inj, UInt64.toNat_toUInt32, UInt32.toNat_ofNat']

/-- The counter of the context spells the number of bits. -/
theorem bits_toNat (length : Nat) :
    (UInt64.ofNat length <<< 3).toNat = 8 * length % 256 ^ 8 := by
  rw [UInt64.toNat_shiftLeft, UInt64.toNat_ofNat']
  simp [Nat.shiftLeft_eq]
  omega

end Encoding

end Busybox.Hash
