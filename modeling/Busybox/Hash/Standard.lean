import Mathlib
import Busybox.Hash.Rounds
import Busybox.Lib.Blocks

/-!
# The hash contexts

`begin`, `hash` and `end` for MD5, SHA-1 and SHA-256, which share one context,
for SHA-512 and for SHA-3. The three `hash` functions run the same loop over
a buffer of the block size; `feed` is that loop, with `put` for what they do with
the bytes that fit.
-/

namespace Busybox.Hash

/-- What a call of a `hash` function is given: `len` is a `size_t`. -/
structure Piece where
  bytes : List UInt8
  fits : bytes.length < 2 ^ 64

def memcpy (destination : List UInt8) (position : Nat) (source : List UInt8) : List UInt8 :=
  destination.take position ++ source ++ destination.drop (position + source.length)

/-- The loop that fills the buffer and processes it whenever it is full; `bufpos`
is an `unsigned` that wraps below zero when the buffer is not full yet. A turn
that does not end the loop takes a byte or more, so `turns` is the number of
bytes at most. -/
def feed {σ : Type} (size : UInt32) (put : σ → Nat → List UInt8 → σ) (process : σ → σ) :
    Nat → σ → UInt32 → List UInt8 → σ × UInt32
  | turns, ctx, bufpos, buffer =>
    let remaining := min (size - bufpos).toNat buffer.length
    let filled := put ctx bufpos.toNat (buffer.take remaining)
    let bufpos := bufpos + UInt32.ofNat remaining - size
    if bufpos ≠ 0 then (filled, bufpos)
    else
      match turns with
      | 0 => (filled, bufpos)
      | turns + 1 => feed size put process turns (process filled) bufpos (buffer.drop remaining)

/-- The function that `process_block` points to. -/
inductive Kind
  | md5 | sha1 | sha256
  deriving DecidableEq, Repr

def Kind.processBlock : Kind → List UInt32 → List UInt8 → List UInt32
  | .md5 => md5ProcessBlock64
  | .sha1 => sha1ProcessBlock64
  | .sha256 => sha256ProcessBlock64

/-- `md5_ctx_t`, also used as `sha1_ctx_t` and `sha256_ctx_t`. -/
structure Md5Ctx where
  wbuffer : List UInt8
  processBlock : Kind
  total64 : UInt64
  hash : List UInt32

namespace Md5Ctx

def process (ctx : Md5Ctx) : Md5Ctx :=
  { ctx with hash := ctx.processBlock.processBlock ctx.hash ctx.wbuffer }

def store (ctx : Md5Ctx) (position : Nat) (bytes : List UInt8) : Md5Ctx :=
  { ctx with wbuffer := memcpy ctx.wbuffer position bytes }

end Md5Ctx

/-- `common64_hash`. -/
def common64Hash (ctx : Md5Ctx) (piece : Piece) : Md5Ctx :=
  let bufpos := (ctx.total64 &&& 63).toUInt32
  let ctx := { ctx with total64 := ctx.total64 + UInt64.ofNat piece.bytes.length }
  (feed 64 Md5Ctx.store Md5Ctx.process piece.bytes.length ctx bufpos piece.bytes).1

/-- The padding loop of `common64_end`, from the position after 0x80: the second
turn finds room for the counter. -/
def common64Pad (swapNeeded : Bool) : Nat → Md5Ctx → Nat → Md5Ctx
  | 0, ctx, _ => ctx
  | turns + 1, ctx, bufpos =>
    let remaining := 64 - bufpos
    let ctx := ctx.store bufpos (List.replicate remaining 0)
    if remaining ≥ 8 then
      let bits := (ctx.total64 <<< 3).toNat
      (ctx.store (64 - 8) (if swapNeeded then bigEndian 8 bits else littleEndian 8 bits)).process
    else common64Pad swapNeeded turns ctx.process 0

/-- `common64_end`. -/
def common64End (ctx : Md5Ctx) (swapNeeded : Bool) : Md5Ctx :=
  let bufpos := (ctx.total64 &&& 63).toNat
  common64Pad swapNeeded 2 (ctx.store bufpos [0x80]) (bufpos + 1)

/-- Bytes of a buffer that nobody has written yet. -/
def unwritten (size : Nat) : List UInt8 := List.replicate size 0

def md5Begin : Md5Ctx where
  wbuffer := unwritten 64
  processBlock := .md5
  total64 := 0
  hash := [0x67452301, 0xefcdab89, 0x98badcfe, 0x10325476]

def sha1Begin : Md5Ctx where
  wbuffer := unwritten 64
  processBlock := .sha1
  total64 := 0
  hash := [0x67452301, 0xefcdab89, 0x98badcfe, 0x10325476, 0xc3d2e1f0]

def sha256Begin : Md5Ctx where
  wbuffer := unwritten 64
  processBlock := .sha256
  total64 := 0
  hash := init256

/-- `md5_hash`, also `sha1_hash` and `sha256_hash`. -/
def md5Hash (ctx : Md5Ctx) (piece : Piece) : Md5Ctx := common64Hash ctx piece

/-- `md5_end`: the words as they lie in memory. -/
def md5End (ctx : Md5Ctx) : List UInt8 :=
  ((common64End ctx false).hash.take 4).flatMap fun word => littleEndian 4 word.toNat

/-- `sha1_end`, also `sha256_end`. -/
def sha1End (ctx : Md5Ctx) : List UInt8 :=
  let hashSize := if ctx.processBlock = .sha1 then 5 else 8
  ((common64End ctx true).hash.take hashSize).flatMap fun word => bigEndian 4 word.toNat

/-- `sha512_ctx_t`; `total64` counts bytes in two words, the low one first. -/
structure Sha512Ctx where
  total64 : UInt64 × UInt64
  hash : List UInt64
  wbuffer : List UInt8

namespace Sha512Ctx

def process (ctx : Sha512Ctx) : Sha512Ctx :=
  { ctx with hash := sha512ProcessBlock128 ctx.hash ctx.wbuffer }

def store (ctx : Sha512Ctx) (position : Nat) (bytes : List UInt8) : Sha512Ctx :=
  { ctx with wbuffer := memcpy ctx.wbuffer position bytes }

end Sha512Ctx

def sha512Begin : Sha512Ctx where
  total64 := (0, 0)
  hash := (init256.zip init512Lo).map fun (high, low) => (high.toUInt64 <<< 32) + low.toUInt64
  wbuffer := unwritten 128

/-- `sha512_hash`. -/
def sha512Hash (ctx : Sha512Ctx) (piece : Piece) : Sha512Ctx :=
  let bufpos := (ctx.total64.1 &&& 127).toUInt32
  let len := UInt64.ofNat piece.bytes.length
  let low := ctx.total64.1 + len
  let high := if low < len then ctx.total64.2 + 1 else ctx.total64.2
  let ctx := { ctx with total64 := (low, high) }
  (feed 128 Sha512Ctx.store Sha512Ctx.process piece.bytes.length ctx bufpos piece.bytes).1

/-- The padding loop of `sha512_end`. -/
def sha512Pad : Nat → Sha512Ctx → Nat → Sha512Ctx
  | 0, ctx, _ => ctx
  | turns + 1, ctx, bufpos =>
    let remaining := 128 - bufpos
    let ctx := ctx.store bufpos (List.replicate remaining 0)
    if remaining ≥ 16 then
      let low := ctx.total64.1 <<< 3
      let high := (ctx.total64.2 <<< 3) ||| (ctx.total64.1 >>> 61)
      let ctx := ctx.store (128 - 8) (bigEndian 8 low.toNat)
      (ctx.store (128 - 16) (bigEndian 8 high.toNat)).process
    else sha512Pad turns ctx.process 0

/-- `sha512_end`. -/
def sha512End (ctx : Sha512Ctx) : List UInt8 :=
  let bufpos := (ctx.total64.1 &&& 127).toNat
  (sha512Pad 2 (ctx.store bufpos [0x80]) (bufpos + 1)).hash.flatMap fun word =>
    bigEndian 8 word.toNat

/-- A block size that leaves room in the 200 bytes of the state. -/
structure Rate where
  bytes : Nat
  positive : 0 < bytes
  within : bytes ≤ 200

/-- `sha3_ctx_t`; `state` is the memory of its 25 words. -/
structure Sha3Ctx where
  state : List UInt8
  bytesQueued : UInt32
  inputBlockBytes : UInt32

/-- Bytes are combined with those of the state from a position on. -/
def xorAt (state : List UInt8) (position : Nat) (bytes : List UInt8) : List UInt8 :=
  state.take position ++ List.zipWith (· ^^^ ·) (state.drop position) bytes
    ++ state.drop (position + bytes.length)

namespace Sha3Ctx

def process (ctx : Sha3Ctx) : Sha3Ctx := { ctx with state := sha3ProcessBlock72 ctx.state }

def xorBytes (ctx : Sha3Ctx) (position : Nat) (bytes : List UInt8) : Sha3Ctx :=
  { ctx with state := xorAt ctx.state position bytes }

end Sha3Ctx

/-- `sha3_begin`, with the block size that the user may put in place of the 72
bytes of SHA3-512. -/
def sha3Begin (rate : Rate) : Sha3Ctx where
  state := List.replicate 200 0
  bytesQueued := 0
  inputBlockBytes := UInt32.ofNat rate.bytes

/-- SHA3-512. -/
def sha3Rate512 : Rate := ⟨(1600 - 512 * 2) / 8, by decide, by decide⟩

/-- `sha3_hash`. -/
def sha3Hash (ctx : Sha3Ctx) (piece : Piece) : Sha3Ctx :=
  let fed := feed ctx.inputBlockBytes Sha3Ctx.xorBytes Sha3Ctx.process piece.bytes.length ctx
    ctx.bytesQueued piece.bytes
  { fed.1 with bytesQueued := fed.2 + ctx.inputBlockBytes }

/-- `sha3_end`. -/
def sha3End (ctx : Sha3Ctx) : List UInt8 :=
  let padded := xorAt (xorAt ctx.state ctx.bytesQueued.toNat [6])
    (ctx.inputBlockBytes.toNat - 1) [0x80]
  (sha3ProcessBlock72 padded).take 64

/-!
## The standard constructions

What RFC 1321, FIPS 180 and FIPS 202 make of a whole message with the block
functions of the code: the message is padded, and the block function is folded
over its blocks.
-/

open Blocks

/-- The fewest zeros that complete a block together with 0x80 and the counter. -/
def zeroCount (size counter length : Nat) : Nat :=
  (size - (length + 1 + counter) % size) % size

/-- The padding of MD5 and SHA: 0x80, zeros, and the number of bits of the
message, of which the counter holds the low-order bytes. -/
def strengthen (size counter : Nat) (encode : Nat → Nat → List UInt8) (message : List UInt8) :
    List UInt8 :=
  message ++ [0x80] ++ List.replicate (zeroCount size counter message.length) 0
    ++ encode counter (8 * message.length)

/-- RFC 1321. -/
def md5Digest (message : List UInt8) : List UInt8 :=
  ((absorb 64 md5ProcessBlock64 [0x67452301, 0xefcdab89, 0x98badcfe, 0x10325476]
    (strengthen 64 8 littleEndian message)).take 4).flatMap fun word => littleEndian 4 word.toNat

/-- FIPS 180, SHA-1. -/
def sha1Digest (message : List UInt8) : List UInt8 :=
  ((absorb 64 sha1ProcessBlock64
    [0x67452301, 0xefcdab89, 0x98badcfe, 0x10325476, 0xc3d2e1f0]
    (strengthen 64 8 bigEndian message)).take 5).flatMap fun word => bigEndian 4 word.toNat

/-- FIPS 180, SHA-256. -/
def sha256Digest (message : List UInt8) : List UInt8 :=
  ((absorb 64 sha256ProcessBlock64 init256
    (strengthen 64 8 bigEndian message)).take 8).flatMap fun word => bigEndian 4 word.toNat

/-- FIPS 180, SHA-512. -/
def sha512Digest (message : List UInt8) : List UInt8 :=
  (absorb 128 sha512ProcessBlock128 sha512Begin.hash
    (strengthen 128 16 bigEndian message)).flatMap fun word => bigEndian 8 word.toNat

/-- The padding of SHA-3: the suffix bits 01 and the pattern 10*1. -/
def sha3Pad (rate : Nat) (message : List UInt8) : List UInt8 :=
  let missing := rate - message.length % rate
  message ++
    if missing = 1 then [0x86] else 0x06 :: List.replicate (missing - 2) 0 ++ [0x80]

/-- A block is combined with the state, then the state is permuted. -/
def spongeStep (state block : List UInt8) : List UInt8 := sha3ProcessBlock72 (xorAt state 0 block)

/-- FIPS 202, with 64 bytes of output. -/
def sha3Digest (rate : Nat) (message : List UInt8) : List UInt8 :=
  (absorb rate spongeStep (List.replicate 200 0) (sha3Pad rate message)).take 64

section Padding

variable {σ : Type} {size counter : Nat}

theorem zeroCount_mod (length : Nat) :
    zeroCount size counter (length % size) = zeroCount size counter length := by
  rw [zeroCount, zeroCount, Nat.add_assoc, Nat.add_assoc, Nat.mod_add_mod]

theorem zeroCount_fits {length : Nat} (fits : length + 1 + counter ≤ size) :
    zeroCount size counter length = size - (length + 1 + counter) := by
  rw [zeroCount]
  rcases Nat.lt_or_eq_of_le fits with less | equal
  · rw [Nat.mod_eq_of_lt less, Nat.mod_eq_of_lt (by omega)]
  · rw [equal, Nat.mod_self, Nat.sub_zero, Nat.mod_self, Nat.sub_self]

theorem zeroCount_overflows {length : Nat} (short : length < size) (room : counter < size)
    (overflows : size < length + 1 + counter) :
    zeroCount size counter length = size - (length + 1) + (size - counter) := by
  have reduced : (length + 1 + counter) % size = length + 1 + counter - size := by
    rw [Nat.mod_eq_sub_mod (Nat.le_of_lt overflows), Nat.mod_eq_of_lt (by omega)]
  rw [zeroCount, reduced, Nat.mod_eq_of_lt (by omega)]
  omega

/-- The padded message ends in one block when the counter fits behind the rest
of the message, and in two otherwise. -/
theorem absorb_strengthen (step : σ → List UInt8 → σ) (init : σ) {encode : Nat → Nat → List UInt8}
    (room : counter < size) (width : ∀ value, (encode counter value).length = counter)
    (message : List UInt8) :
    absorb size step init (strengthen size counter encode message) =
      let value := absorb size step init message
      let first := rest size message ++ [0x80]
      let bits := encode counter (8 * message.length)
      if first.length + counter ≤ size then
        step value (first ++ List.replicate (size - (first.length + counter)) 0 ++ bits)
      else
        step (step value (first ++ List.replicate (size - first.length) 0))
          (List.replicate (size - counter) 0 ++ bits) := by
  have positive : 0 < size := Nat.zero_lt_of_lt room
  have short : (rest size message).length < size := by
    rw [rest_length]
    exact Nat.mod_lt _ positive
  have whole : absorb size step init (strengthen size counter encode message) =
      absorb size step (absorb size step init message)
        (rest size message ++ ([0x80] ++
          List.replicate (zeroCount size counter (rest size message).length) 0 ++
          encode counter (8 * message.length))) := by
    rw [rest_length, zeroCount_mod, ← absorb_append step init positive, strengthen]
    simp only [List.append_assoc]
  have last : ∀ value block, List.length block = size →
      absorb size step value block = step value block := by
    intro value block full
    have absorbed := absorb_block step value positive full []
    have nothing : absorb size step (step value block) [] = step value block :=
      absorb_of_short step _ positive
    rwa [List.append_nil, nothing] at absorbed
  rw [whole]
  dsimp only
  simp only [List.length_append, List.length_singleton]
  split
  · next fits =>
    rw [zeroCount_fits fits, last]
    · simp only [List.append_assoc]
    · simp only [List.length_append, List.length_singleton, List.length_replicate, width]
      omega
  · next overflows =>
    rw [zeroCount_overflows short room (Nat.not_le.mp overflows), List.replicate_add]
    have split : ∀ zeros zeros' bits : List UInt8,
        rest size message ++ ([0x80] ++ (zeros ++ zeros') ++ bits)
          = (rest size message ++ [0x80] ++ zeros) ++ (zeros' ++ bits) := by
      intro zeros zeros' bits
      simp only [List.append_assoc]
    rw [split, absorb_block step _ positive, last]
    · simp only [List.length_append, List.length_replicate, width]
      omega
    · simp only [List.length_append, List.length_singleton, List.length_replicate]
      omega

end Padding

end Busybox.Hash
