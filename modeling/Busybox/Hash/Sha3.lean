import Busybox.Hash.Feed

/-!
# SHA-3 piece by piece

Bytes that wait are already combined with the state; `StandsSha3` says which
message the context has been given so far.
-/

namespace Busybox.Hash

open Blocks

section Xor

variable {state bytes : List UInt8} {position : Nat}

theorem xorAt_length (within : position + bytes.length ≤ state.length) :
    (xorAt state position bytes).length = state.length := by
  simp only [xorAt, List.length_append, List.length_take, List.length_zipWith, List.length_drop]
  omega

/-- Byte by byte, the bytes are combined with those of the state from the
position on. -/
theorem xorAt_getD (within : position + bytes.length ≤ state.length) (index : Nat) :
    (xorAt state position bytes).getD index 0 =
      state.getD index 0 ^^^ (if position ≤ index then bytes.getD (index - position) 0 else 0) := by
  have front : (state.take position).length = position := List.length_take_of_le (by omega)
  have middle : (List.zipWith (· ^^^ ·) (state.drop position) bytes).length = bytes.length := by
    rw [List.length_zipWith, List.length_drop]
    omega
  rw [xorAt, List.append_assoc]
  by_cases before : index < position
  · rw [List.getD_append _ _ _ _ (by omega), if_neg (by omega), UInt8.xor_zero]
    simp [List.getD, before]
  · rw [List.getD_append_right _ _ _ _ (by omega), front, if_pos (by omega)]
    by_cases inside : index - position < bytes.length
    · rw [List.getD_append _ _ _ _ (by omega), List.getD_eq_getElem _ _ (by omega),
        List.getD_eq_getElem _ _ inside, List.getD_eq_getElem state _ (by omega)]
      simp only [List.getElem_zipWith, List.getElem_drop]
      congr 2
      omega
    · rw [List.getD_append_right _ _ _ _ (by omega), middle,
        List.getD_eq_default bytes _ (by omega), UInt8.xor_zero]
      simp only [List.getD, List.getElem?_drop]
      congr 2
      omega

theorem xorAt_nil (state : List UInt8) (position : Nat) : xorAt state position [] = state := by
  simp [xorAt]

theorem eq_of_getD {left right : List UInt8} (length : left.length = right.length)
    (same : ∀ index < left.length, left.getD index 0 = right.getD index 0) : left = right := by
  refine List.ext_getElem length fun index inLeft inRight => ?_
  have here := same index inLeft
  rwa [List.getD_eq_getElem _ _ inLeft, List.getD_eq_getElem _ _ inRight] at here

/-- Bytes that follow one another are combined together. -/
theorem xorAt_append (left right : List UInt8)
    (within : position + left.length + right.length ≤ state.length) :
    xorAt (xorAt state position left) (position + left.length) right
      = xorAt state position (left ++ right) := by
  have first : (xorAt state position left).length = state.length := xorAt_length (by omega)
  have both : (xorAt state position (left ++ right)).length = state.length :=
    xorAt_length (by rw [List.length_append]; omega)
  refine eq_of_getD ?_ fun index _ => ?_
  · rw [xorAt_length (by omega), first, both]
  · rw [xorAt_getD (by omega), xorAt_getD (by omega),
      xorAt_getD (by rw [List.length_append]; omega), UInt8.xor_assoc]
    congr 1
    by_cases before : index < position
    · rw [if_neg (by omega), if_neg (by omega), if_neg (by omega), UInt8.xor_zero]
    · have reached : position ≤ index := Nat.not_lt.mp before
      simp only [if_pos reached]
      by_cases inside : index - position < left.length
      · rw [if_neg (by omega), UInt8.xor_zero, List.getD_append _ _ _ _ inside]
      · rw [if_pos (by omega), List.getD_eq_default left _ (by omega), UInt8.zero_xor,
          List.getD_append_right _ _ _ _ (by omega), Nat.sub_sub]

end Xor

section Permutation

/-- The permutation keeps the number of lanes, and so the size of the state. -/
theorem sha3ProcessBlock72_length (state : List UInt8) :
    (sha3ProcessBlock72 state).length = 200 := by
  have round : ∀ index lanes, (iota index (chi (rhoPi (theta lanes)))).length
      = lanes.length := by
    intro index lanes
    have moved : ∀ (steps : List (Nat × UInt64)) (pair : List UInt64 × UInt64),
        (steps.foldl (fun moved step =>
          (moved.1.set step.1 (rotl64 moved.2 step.2), moved.1.getD step.1 0)) pair).1.length
          = pair.1.length := by
      intro steps
      induction steps with
      | nil => exact fun pair => rfl
      | cons step steps ih =>
        intro pair
        rw [List.foldl_cons, ih, List.length_set]
    rw [iota, List.length_modifyHead, chi, List.length_mapIdx, rhoPi, moved, theta,
      List.length_mapIdx]
  have rounds : ∀ (indices : List Nat) (lanes : List UInt64),
      (indices.foldl (fun lanes index => iota index (chi (rhoPi (theta lanes)))) lanes).length
        = lanes.length := by
    intro indices
    induction indices with
    | nil => exact fun lanes => rfl
    | cons index indices ih =>
      intro lanes
      rw [List.foldl_cons, ih, round]
  have spelled : ∀ lanes : List UInt64,
      (lanes.flatMap fun lane => littleEndian 8 lane.toNat).length = 8 * lanes.length := by
    intro lanes
    induction lanes with
    | nil => rfl
    | cons lane lanes ih =>
      rw [List.flatMap_cons, List.length_append, ih, littleEndian_length, List.length_cons]
      omega
  rw [sha3ProcessBlock72, spelled, rounds, List.length_map, List.length_range]

end Permutation

/-- The context has permuted the state up to a value, into which the bytes that
wait are combined. -/
structure BuffersSha3 (rate : Rate) (ctx : Sha3Ctx) (value pending : List UInt8) : Prop where
  size : value.length = 200
  state : ctx.state = xorAt value 0 pending
  rate : ctx.inputBlockBytes = UInt32.ofNat rate.bytes

variable {rate : Rate} {ctx : Sha3Ctx} {value message : List UInt8}

theorem BuffersSha3.store {pending : List UInt8} (buffers : BuffersSha3 rate ctx value pending)
    (bytes : List UInt8) (within : pending.length + bytes.length ≤ rate.bytes) :
    BuffersSha3 rate (ctx.xorBytes pending.length bytes) value (pending ++ bytes) where
  size := buffers.size
  state := by
    have room := rate.within
    have fits : 0 + pending.length + bytes.length ≤ value.length := by
      rw [buffers.size]
      omega
    have both := xorAt_append pending bytes fits
    rw [Nat.zero_add] at both
    rw [Sha3Ctx.xorBytes, buffers.state, both]
  rate := buffers.rate

theorem BuffersSha3.process {block : List UInt8} (buffers : BuffersSha3 rate ctx value block) :
    BuffersSha3 rate ctx.process (spongeStep value block) [] := by
  have sized : (spongeStep value block).length = 200 := by
    simp only [spongeStep, sha3ProcessBlock72_length]
  have permuted : ctx.process.state = xorAt (spongeStep value block) 0 [] := by
    simp only [Sha3Ctx.process, buffers.state, xorAt_nil, spongeStep]
  have kept : ctx.process.inputBlockBytes = UInt32.ofNat rate.bytes := by
    simp only [Sha3Ctx.process, buffers.rate]
  exact ⟨sized, permuted, kept⟩

theorem Rate.toNat (rate : Rate) : (UInt32.ofNat rate.bytes).toNat = rate.bytes := by
  have within := rate.within
  rw [UInt32.toNat_ofNat', Nat.mod_eq_of_lt (by omega)]

/-- The context stands for the message passed in so far. -/
structure StandsSha3 (rate : Rate) (ctx : Sha3Ctx) (message : List UInt8) : Prop where
  buffers : BuffersSha3 rate ctx
    (absorb rate.bytes spongeStep (List.replicate 200 0) message) (rest rate.bytes message)
  queued : ctx.bytesQueued = UInt32.ofNat (rest rate.bytes message).length

theorem rest_lt (rate : Rate) (message : List UInt8) :
    (rest rate.bytes message).length < rate.bytes := by
  rw [rest_length]
  exact Nat.mod_lt _ rate.positive

/-- One more piece of the message. -/
theorem StandsSha3.next (stands : StandsSha3 rate ctx message) (piece : Piece) :
    StandsSha3 rate (sha3Hash ctx piece) (message ++ piece.bytes) := by
  have sized := rate.toNat
  have fed := feed_absorbs (UInt32.ofNat rate.bytes)
    (fun bytes buffers within => buffers.store bytes (sized ▸ within))
    (fun buffers _ => BuffersSha3.process buffers) stands.buffers
    (by rw [sized]; exact rest_lt rate message) (Nat.le_refl piece.bytes.length)
  have enough : (rest rate.bytes (message ++ piece.bytes)).length < 2 ^ 32 := by
    have short := rest_lt rate (message ++ piece.bytes)
    have within := rate.within
    omega
  rw [sized, ← absorb_append spongeStep _ rate.positive, ← rest_append rate.positive,
    ← stands.queued, ← stands.buffers.rate] at fed
  refine ⟨⟨fed.1.size, fed.1.state, fed.1.rate⟩, ?_⟩
  rw [← UInt32.toNat_inj, UInt32.toNat_ofNat', Nat.mod_eq_of_lt enough, ← fed.2, sha3Hash]

/-- The padding behind the bytes that wait. -/
def sha3Tail (rate waiting : Nat) : List UInt8 :=
  if rate - waiting = 1 then [0x86] else 0x06 :: List.replicate (rate - waiting - 2) 0 ++ [0x80]

theorem sha3Tail_length {rate waiting : Nat} (short : waiting < rate) :
    (sha3Tail rate waiting).length = rate - waiting := by
  rw [sha3Tail]
  split
  · next last => rw [last, List.length_singleton]
  · simp only [List.length_append, List.length_cons, List.length_replicate, List.length_nil]
    omega

/-- Byte by byte: 6 in front, 0x80 at the end, both in one byte if there is only
one. -/
theorem sha3Tail_getD {rate waiting : Nat} (short : waiting < rate) (index : Nat) :
    (sha3Tail rate waiting).getD index 0 =
      [(6 : UInt8)].getD index 0 ^^^
        (if rate - waiting - 1 ≤ index then
          [(0x80 : UInt8)].getD (index - (rate - waiting - 1)) 0 else 0) := by
  rw [sha3Tail]
  split
  · next last =>
    rw [last]
    cases index with
    | zero => rfl
    | succ index => simp
  · next longer =>
    cases index with
    | zero =>
      rw [if_neg (by omega)]
      rfl
    | succ index =>
      rw [List.cons_append, List.getD_cons_succ, List.getD_cons_succ, List.getD_nil,
        UInt8.zero_xor]
      by_cases inside : index < rate - waiting - 2
      · rw [List.getD_append _ _ _ _ (by rw [List.length_replicate]; exact inside),
          List.getD_replicate _ inside, if_neg (by omega)]
      · rw [List.getD_append_right _ _ _ _ (by rw [List.length_replicate]; omega),
          List.length_replicate, if_pos (by omega)]
        congr 1
        omega

/-- The two bytes of `sha3_end` are the padding. -/
theorem xor_pad {waiting : List UInt8} (sized : value.length = 200)
    (short : waiting.length < rate.bytes) :
    xorAt (xorAt (xorAt value 0 waiting) waiting.length [6]) (rate.bytes - 1) [0x80]
      = xorAt value 0 (waiting ++ sha3Tail rate.bytes waiting.length) := by
  have within := rate.within
  have tail := sha3Tail_length short
  have first : (xorAt value 0 waiting).length = 200 := by
    rw [xorAt_length (by omega), sized]
  have second : (xorAt (xorAt value 0 waiting) waiting.length [6]).length = 200 := by
    rw [xorAt_length (by rw [first, List.length_singleton]; omega), first]
  have third : waiting.length + (sha3Tail rate.bytes waiting.length).length
      ≤ (xorAt value 0 waiting).length := by omega
  refine eq_of_getD ?_ fun index _ => ?_
  · rw [xorAt_length (by rw [second, List.length_singleton]; omega), second,
      xorAt_length (by rw [List.length_append]; omega), sized]
  · have both := xorAt_append waiting (sha3Tail rate.bytes waiting.length)
      (by rwa [Nat.zero_add, sized, ← first])
    rw [Nat.zero_add] at both
    rw [← both, xorAt_getD (by rw [second, List.length_singleton]; omega),
      xorAt_getD (by rw [first, List.length_singleton]; omega),
      xorAt_getD third, UInt8.xor_assoc]
    congr 1
    by_cases before : index < waiting.length
    · rw [if_neg (by omega), if_neg (by omega), UInt8.xor_zero]
      simp only [Nat.not_le.mpr before, if_false]
    · have reached : waiting.length ≤ index := Nat.not_lt.mp before
      simp only [if_pos reached]
      rw [sha3Tail_getD short]
      congr 1
      by_cases last : rate.bytes - 1 ≤ index
      · rw [if_pos last, if_pos (by omega)]
        congr 1
        omega
      · rw [if_neg last, if_neg (by omega)]

theorem StandsSha3.end (stands : StandsSha3 rate ctx message) :
    sha3End ctx = sha3Digest rate.bytes message := by
  have short := rest_lt rate message
  have buffers := stands.buffers
  have within := rate.within
  have queued : ctx.bytesQueued.toNat = (rest rate.bytes message).length := by
    rw [stands.queued, UInt32.toNat_ofNat', Nat.mod_eq_of_lt (by omega)]
  have padded : sha3Pad rate.bytes message
      = message ++ sha3Tail rate.bytes (rest rate.bytes message).length := by
    rw [sha3Pad, sha3Tail, rest_length]
  have whole : (rest rate.bytes message
      ++ sha3Tail rate.bytes (rest rate.bytes message).length).length = rate.bytes := by
    rw [List.length_append, sha3Tail_length short]
    omega
  have last : absorb rate.bytes spongeStep (List.replicate 200 0) (sha3Pad rate.bytes message)
      = spongeStep (absorb rate.bytes spongeStep (List.replicate 200 0) message)
        (rest rate.bytes message
          ++ sha3Tail rate.bytes (rest rate.bytes message).length) := by
    have absorbed := absorb_block spongeStep
      (absorb rate.bytes spongeStep (List.replicate 200 0) message) rate.positive whole []
    rw [List.append_nil] at absorbed
    rw [padded, absorb_append spongeStep _ rate.positive, absorbed]
    exact absorb_of_short spongeStep _ rate.positive
  rw [sha3End, sha3Digest, last, buffers.state, queued, buffers.rate, rate.toNat,
    xor_pad buffers.size short, spongeStep]

/-- The pieces in turn stand for their concatenation. -/
theorem StandsSha3.pieces (stands : StandsSha3 rate ctx message) (pieces : List Piece) :
    StandsSha3 rate (pieces.foldl sha3Hash ctx) (message ++ pieces.flatMap Piece.bytes) := by
  induction pieces generalizing ctx message with
  | nil => simpa using stands
  | cons piece pieces ih =>
    rw [List.foldl_cons, List.flatMap_cons, ← List.append_assoc]
    exact ih (stands.next piece)

end Busybox.Hash
