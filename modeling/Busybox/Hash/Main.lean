import Busybox.Hash.Sha3

/-!
# MD5, SHA-1 and SHA-256 piece by piece

The three share a context; `Stands` says which message it has been given so far.
-/

namespace Busybox.Hash

open Blocks

/-- The context has processed blocks up to a chaining value and holds the bytes
that wait; the counter is not the loop's business. -/
structure Buffers (kind : Kind) (total : UInt64) (ctx : Md5Ctx) (value : List UInt32)
    (pending : List UInt8) : Prop where
  kind : ctx.processBlock = kind
  total : ctx.total64 = total
  hash : ctx.hash = value
  waits : Waits 64 ctx.wbuffer pending

/-- The context stands for the message passed in so far. -/
def Stands (kind : Kind) (init : List UInt32) (ctx : Md5Ctx) (message : List UInt8) : Prop :=
  Buffers kind (UInt64.ofNat message.length) ctx
    (absorb 64 kind.processBlock init message) (rest 64 message)

theorem Buffers.store {kind : Kind} {total : UInt64} {ctx : Md5Ctx} {value : List UInt32}
    {pending : List UInt8} (buffers : Buffers kind total ctx value pending) (bytes : List UInt8)
    (within : pending.length + bytes.length ≤ 64) :
    Buffers kind total (ctx.store pending.length bytes) value (pending ++ bytes) :=
  ⟨buffers.kind, buffers.total, buffers.hash, buffers.waits.store bytes within⟩

theorem Buffers.process {kind : Kind} {total : UInt64} {ctx : Md5Ctx} {value : List UInt32}
    {block : List UInt8} (buffers : Buffers kind total ctx value block)
    (whole : block.length = 64) :
    Buffers kind total ctx.process (kind.processBlock value block) [] where
  kind := buffers.kind
  total := buffers.total
  hash := by rw [Md5Ctx.process, buffers.kind, buffers.hash, buffers.waits.full whole]
  waits := .none buffers.waits.size

theorem bufpos64 (length : Nat) : (UInt64.ofNat length &&& 63).toNat = length % 64 :=
  mask_eq 6 length (by decide)

/-- One more piece of the message. -/
theorem Stands.next {kind : Kind} {init : List UInt32} {ctx : Md5Ctx} {message : List UInt8}
    (stands : Stands kind init ctx message) (piece : Piece) :
    Stands kind init (md5Hash ctx piece) (message ++ piece.bytes) := by
  have buffers : Buffers kind (UInt64.ofNat message.length) ctx
      (absorb 64 kind.processBlock init message) (rest 64 message) := stands
  have position : (ctx.total64 &&& 63).toUInt32 = UInt32.ofNat (rest 64 message).length := by
    rw [buffers.total, toUInt32_eq, bufpos64, rest_length]
  have counted : Buffers kind (UInt64.ofNat (message ++ piece.bytes).length)
      { ctx with total64 := ctx.total64 + UInt64.ofNat piece.bytes.length }
      (absorb 64 kind.processBlock init message) (rest 64 message) := by
    refine ⟨buffers.kind, ?_, buffers.hash, buffers.waits⟩
    rw [List.length_append, UInt64.ofNat_add, buffers.total]
  have short : (rest 64 message).length < (64 : UInt32).toNat := by
    rw [rest_length]
    exact Nat.mod_lt _ (by decide)
  have fed := feed_absorbs 64
    (fun bytes buffers within => buffers.store bytes within)
    (fun buffers whole => buffers.process whole) counted short (Nat.le_refl piece.bytes.length)
  rw [md5Hash, common64Hash, position, Stands]
  rw [absorb_append kind.processBlock init (by decide), rest_append (by decide)]
  exact fed.1

/-- The padding loop of `common64_end` processes one block or two. -/
theorem common64Pad_hash {kind : Kind} {total : UInt64} {ctx : Md5Ctx} {value : List UInt32}
    {first bits : List UInt8} (buffers : Buffers kind total ctx value first)
    (short : first.length ≤ 64) (swapNeeded : Bool)
    (counter : bits = if swapNeeded then bigEndian 8 (total <<< 3).toNat
      else littleEndian 8 (total <<< 3).toNat) (width : bits.length = 8) :
    (common64Pad swapNeeded 2 ctx first.length).hash =
      if first.length + 8 ≤ 64 then
        kind.processBlock value (first ++ List.replicate (64 - (first.length + 8)) 0 ++ bits)
      else
        kind.processBlock (kind.processBlock value (first ++ List.replicate (64 - first.length) 0))
          (List.replicate (64 - 8) 0 ++ bits) := by
  have last : ∀ turns {ctx value} {first : List UInt8}, Buffers kind total ctx value first →
      first.length + 8 ≤ 64 → (common64Pad swapNeeded (turns + 1) ctx first.length).hash =
        kind.processBlock value
          (first ++ List.replicate (64 - (first.length + 8)) 0 ++ bits) := by
    intro turns ctx value first buffers fits
    rw [common64Pad, if_pos (by omega)]
    have stored : (ctx.store first.length (List.replicate (64 - first.length) 0)).total64
        = total := buffers.total
    dsimp only
    rw [stored, ← counter]
    show ctx.processBlock.processBlock ctx.hash (memcpy (memcpy ctx.wbuffer _ _) _ _) = _
    rw [buffers.waits.complete width fits, buffers.kind, buffers.hash]
  split
  · next fits => exact last 1 buffers fits
  · next overflows =>
    rw [common64Pad, if_neg (by omega)]
    have zeros := buffers.store (List.replicate (64 - first.length) 0)
      (by rw [List.length_replicate]; omega)
    have whole : (first ++ List.replicate (64 - first.length) (0 : UInt8)).length = 64 := by
      rw [List.length_append, List.length_replicate]
      omega
    have second := last 0 (zeros.process whole) (by simp)
    simpa using second

theorem Stands.end {kind : Kind} {init : List UInt32} {ctx : Md5Ctx} {message : List UInt8}
    (stands : Stands kind init ctx message) (swapNeeded : Bool) :
    (common64End ctx swapNeeded).hash = absorb 64 kind.processBlock init
      (strengthen 64 8 (if swapNeeded then bigEndian else littleEndian) message) := by
  have buffers : Buffers kind (UInt64.ofNat message.length) ctx
      (absorb 64 kind.processBlock init message) (rest 64 message) := stands
  have short : (rest 64 message).length < 64 := by
    rw [rest_length]
    exact Nat.mod_lt _ (by decide)
  have position : (ctx.total64 &&& 63).toNat = (rest 64 message).length := by
    rw [buffers.total, bufpos64, rest_length]
  have first := buffers.store [0x80] short
  have firstLength : (rest 64 message ++ [(0x80 : UInt8)]).length
      = (rest 64 message).length + 1 := List.length_append
  have width : ∀ value, ((if swapNeeded then bigEndian else littleEndian) 8 value).length = 8 := by
    intro value
    cases swapNeeded
    · exact littleEndian_length 8 value
    · exact bigEndian_length 8 value
  have bits : (if swapNeeded then bigEndian else littleEndian) 8 (8 * message.length)
      = if swapNeeded then bigEndian 8 (UInt64.ofNat message.length <<< 3).toNat
        else littleEndian 8 (UInt64.ofNat message.length <<< 3).toNat := by
    rw [bits_toNat, bigEndian_mod, littleEndian_mod]
    cases swapNeeded <;> rfl
  have padded := common64Pad_hash first (by omega) swapNeeded bits (width _)
  rw [absorb_strengthen kind.processBlock init (by decide) width]
  rw [common64End, position, ← firstLength]
  exact padded

/-- The pieces in turn stand for their concatenation. -/
theorem Stands.pieces {kind : Kind} {init : List UInt32} {ctx : Md5Ctx} {message : List UInt8}
    (stands : Stands kind init ctx message) (pieces : List Piece) :
    Stands kind init (pieces.foldl md5Hash ctx) (message ++ pieces.flatMap Piece.bytes) := by
  induction pieces generalizing ctx message with
  | nil => simpa using stands
  | cons piece pieces ih =>
    rw [List.foldl_cons, List.flatMap_cons, ← List.append_assoc]
    exact ih (stands.next piece)

/-!
## SHA-512 piece by piece

The context of SHA-512 counts bytes in two words; `Stands512` says which message
it has been given so far.
-/

/-- The context of SHA-512 has processed blocks up to a chaining value and holds
the bytes that wait. -/
structure Buffers512 (total : UInt64 × UInt64) (ctx : Sha512Ctx) (value : List UInt64)
    (pending : List UInt8) : Prop where
  total : ctx.total64 = total
  hash : ctx.hash = value
  waits : Waits 128 ctx.wbuffer pending

variable {total : UInt64 × UInt64} {ctx : Sha512Ctx} {value : List UInt64}

theorem Buffers512.store {pending : List UInt8} (buffers : Buffers512 total ctx value pending)
    (bytes : List UInt8) (within : pending.length + bytes.length ≤ 128) :
    Buffers512 total (ctx.store pending.length bytes) value (pending ++ bytes) :=
  ⟨buffers.total, buffers.hash, buffers.waits.store bytes within⟩

theorem Buffers512.process {block : List UInt8} (buffers : Buffers512 total ctx value block)
    (whole : block.length = 128) :
    Buffers512 total ctx.process (sha512ProcessBlock128 value block) [] where
  total := buffers.total
  hash := by rw [Sha512Ctx.process, buffers.hash, buffers.waits.full whole]
  waits := .none buffers.waits.size

/-- The two words of the counter of bytes. -/
def total512 (length : Nat) : UInt64 × UInt64 :=
  (UInt64.ofNat length, UInt64.ofNat (length / 2 ^ 64))

/-- The context stands for the message passed in so far. -/
def Stands512 (ctx : Sha512Ctx) (message : List UInt8) : Prop :=
  Buffers512 (total512 message.length) ctx
    (absorb 128 sha512ProcessBlock128 sha512Begin.hash message) (rest 128 message)

/-- The carry into the high word: the low word wraps exactly when it ends below
what was added. -/
theorem total512_add (length : Nat) {added : Nat} (fits : added < 2 ^ 64) :
    (UInt64.ofNat length + UInt64.ofNat added,
      if UInt64.ofNat length + UInt64.ofNat added < UInt64.ofNat added
        then UInt64.ofNat (length / 2 ^ 64) + 1 else UInt64.ofNat (length / 2 ^ 64))
      = total512 (length + added) := by
  have carry : UInt64.ofNat (length + added) < UInt64.ofNat added ↔
      (length + added) / 2 ^ 64 = length / 2 ^ 64 + 1 := by
    rw [UInt64.lt_iff_toNat_lt, UInt64.toNat_ofNat', UInt64.toNat_ofNat']
    omega
  rw [total512, ← UInt64.ofNat_add]
  congr 1
  split
  · next wraps =>
    rw [carry.mp wraps, UInt64.ofNat_add]
    rfl
  · next stays =>
    congr 1
    rw [carry] at stays
    omega

theorem bufpos128 (length : Nat) : (UInt64.ofNat length &&& 127).toNat = length % 128 :=
  mask_eq 7 length (by decide)

/-- One more piece of the message. -/
theorem Stands512.next {message : List UInt8} (stands : Stands512 ctx message) (piece : Piece) :
    Stands512 (sha512Hash ctx piece) (message ++ piece.bytes) := by
  have buffers : Buffers512 (total512 message.length) ctx
      (absorb 128 sha512ProcessBlock128 sha512Begin.hash message) (rest 128 message) := stands
  have low : ctx.total64.1 = UInt64.ofNat message.length := by rw [buffers.total, total512]
  have high : ctx.total64.2 = UInt64.ofNat (message.length / 2 ^ 64) := by
    rw [buffers.total, total512]
  have position : (ctx.total64.1 &&& 127).toUInt32
      = UInt32.ofNat (rest 128 message).length := by
    rw [low, toUInt32_eq, bufpos128, rest_length]
  have counted : Buffers512 (total512 (message ++ piece.bytes).length)
      { ctx with total64 := total512 (message ++ piece.bytes).length }
      (absorb 128 sha512ProcessBlock128 sha512Begin.hash message) (rest 128 message) :=
    ⟨rfl, buffers.hash, buffers.waits⟩
  have short : (rest 128 message).length < (128 : UInt32).toNat := by
    rw [rest_length]
    exact Nat.mod_lt _ (by decide)
  have fed := feed_absorbs 128
    (fun bytes buffers within => buffers.store bytes within)
    (fun buffers whole => buffers.process whole) counted short (Nat.le_refl piece.bytes.length)
  rw [sha512Hash, position, Stands512]
  rw [low, high, total512_add message.length piece.fits, ← List.length_append]
  rw [absorb_append sha512ProcessBlock128 _ (by decide), rest_append (by decide)]
  exact fed.1

/-- The counter of sha512_end: the high word first. -/
def bits512 (total : UInt64 × UInt64) : List UInt8 :=
  bigEndian 8 ((total.2 <<< 3) ||| (total.1 >>> 61)).toNat ++ bigEndian 8 (total.1 <<< 3).toNat

theorem bits512_length (total : UInt64 × UInt64) : (bits512 total).length = 16 := by
  rw [bits512, List.length_append, bigEndian_length, bigEndian_length]

/-- The padding loop of `sha512_end` processes one block or two. -/
theorem sha512Pad_hash {first : List UInt8} (buffers : Buffers512 total ctx value first)
    (short : first.length ≤ 128) :
    (sha512Pad 2 ctx first.length).hash =
      if first.length + 16 ≤ 128 then
        sha512ProcessBlock128 value
          (first ++ List.replicate (128 - (first.length + 16)) 0 ++ bits512 total)
      else
        sha512ProcessBlock128
          (sha512ProcessBlock128 value (first ++ List.replicate (128 - first.length) 0))
          (List.replicate (128 - 16) 0 ++ bits512 total) := by
  have last : ∀ turns {ctx value} {first : List UInt8}, Buffers512 total ctx value first →
      first.length + 16 ≤ 128 → (sha512Pad (turns + 1) ctx first.length).hash =
        sha512ProcessBlock128 value
          (first ++ List.replicate (128 - (first.length + 16)) 0 ++ bits512 total) := by
    intro turns ctx value first buffers fits
    have sized : (memcpy ctx.wbuffer first.length
        (List.replicate (128 - first.length) 0)).length = 128 := by
      rw [memcpy_length, buffers.waits.size]
      rw [buffers.waits.size, List.length_replicate]
      omega
    have words := memcpy_memcpy (128 - 16)
      (bigEndian 8 ((total.2 <<< 3) ||| (total.1 >>> 61)).toNat)
      (bigEndian 8 (total.1 <<< 3).toNat)
      (Nat.le_of_eq (by rw [sized, bigEndian_length, bigEndian_length]))
    rw [sha512Pad, if_pos (by omega)]
    dsimp only
    show sha512ProcessBlock128 ctx.hash (memcpy (memcpy (memcpy ctx.wbuffer _ _) _
      (bigEndian 8 (ctx.total64.1 <<< 3).toNat)) _
      (bigEndian 8 ((ctx.total64.2 <<< 3) ||| (ctx.total64.1 >>> 61)).toNat)) = _
    rw [bigEndian_length] at words
    rw [buffers.total, words, ← bits512, buffers.waits.complete (bits512_length total) fits,
      buffers.hash]
  split
  · next fits => exact last 1 buffers fits
  · next overflows =>
    rw [sha512Pad, if_neg (by omega)]
    have zeros := buffers.store (List.replicate (128 - first.length) 0)
      (by rw [List.length_replicate]; omega)
    have whole : (first ++ List.replicate (128 - first.length) (0 : UInt8)).length = 128 := by
      rw [List.length_append, List.length_replicate]
      omega
    have second := last 0 (zeros.process whole) (by simp)
    simpa using second

theorem bits512_eq (length : Nat) : bits512 (total512 length) = bigEndian 16 (8 * length) := by
  have low : (UInt64.ofNat length <<< 3).toNat = 8 * length % 256 ^ 8 := bits_toNat length
  have high : ((UInt64.ofNat (length / 2 ^ 64) <<< 3) ||| (UInt64.ofNat length >>> 61)).toNat
      = 8 * length / 256 ^ 8 % 256 ^ 8 := by
    have shifted : (UInt64.ofNat length >>> 61).toNat = length % 2 ^ 64 / 2 ^ 61 := by
      rw [UInt64.toNat_shiftRight, UInt64.toNat_ofNat']
      simp [Nat.shiftRight_eq_div_pow]
    have moved : 8 * (length / 2 ^ 64) % 256 ^ 8 = 2 ^ 3 * (length / 2 ^ 64 % 2 ^ 61) := by omega
    have carried : length % 2 ^ 64 / 2 ^ 61 < 2 ^ 3 := by omega
    rw [UInt64.toNat_or, bits_toNat, shifted, moved, ← Nat.two_pow_add_eq_or_of_lt carried]
    omega
  rw [show (16 : Nat) = 8 + 8 from rfl, bigEndian_add, bits512, total512]
  dsimp only
  rw [low, high, bigEndian_mod, bigEndian_mod]

theorem Stands512.end {message : List UInt8} (stands : Stands512 ctx message) :
    sha512End ctx = sha512Digest message := by
  have buffers : Buffers512 (total512 message.length) ctx
      (absorb 128 sha512ProcessBlock128 sha512Begin.hash message) (rest 128 message) := stands
  have short : (rest 128 message).length < 128 := by
    rw [rest_length]
    exact Nat.mod_lt _ (by decide)
  have low : ctx.total64.1 = UInt64.ofNat message.length := by rw [buffers.total, total512]
  have position : (ctx.total64.1 &&& 127).toNat = (rest 128 message).length := by
    rw [low, bufpos128, rest_length]
  have first := buffers.store [0x80] short
  have firstLength : (rest 128 message ++ [(0x80 : UInt8)]).length
      = (rest 128 message).length + 1 := List.length_append
  have padded := sha512Pad_hash first (by omega)
  rw [bits512_eq] at padded
  rw [sha512Digest, absorb_strengthen sha512ProcessBlock128 _ (by decide) (bigEndian_length 16)]
  rw [sha512End, position, ← firstLength]
  exact congrArg _ padded

/-- The pieces in turn stand for their concatenation. -/
theorem Stands512.pieces {ctx : Sha512Ctx} {message : List UInt8} (stands : Stands512 ctx message)
    (pieces : List Piece) :
    Stands512 (pieces.foldl sha512Hash ctx) (message ++ pieces.flatMap Piece.bytes) := by
  induction pieces generalizing ctx message with
  | nil => simpa using stands
  | cons piece pieces ih =>
    rw [List.foldl_cons, List.flatMap_cons, ← List.append_assoc]
    exact ih (stands.next piece)

end Busybox.Hash

/-!
## The digest of a message that arrives in pieces

The contexts start out standing for the empty message, each piece extends the
message they stand for, and `end` gives the digest of the whole message.
-/

namespace Busybox.Hash

open Blocks

theorem Stands.begin (ctx : Md5Ctx) (empty : ctx.total64 = 0) (sized : ctx.wbuffer.length = 64) :
    Stands ctx.processBlock ctx.hash ctx [] where
  kind := rfl
  total := empty
  hash := (absorb_of_short _ _ (by decide)).symm
  waits := .none sized

theorem Stands512.begin : Stands512 sha512Begin [] where
  total := by
    rw [total512]
    rfl
  hash := (absorb_of_short _ _ (by decide)).symm
  waits := .none (by rw [sha512Begin, unwritten, List.length_replicate])

theorem StandsSha3.begin (rate : Rate) : StandsSha3 rate (sha3Begin rate) [] := by
  have nothing : absorb rate.bytes spongeStep (List.replicate 200 0) [] = List.replicate 200 0 :=
    absorb_of_short _ _ rate.positive
  refine ⟨?_, ?_⟩
  · rw [nothing, rest_nil]
    refine ⟨List.length_replicate, ?_, rfl⟩
    rw [xorAt_nil, sha3Begin]
  · rw [rest_nil]
    rfl

/-- The context of MD5, SHA-1 and SHA-256 after all pieces. -/
theorem common64_pieces (ctx : Md5Ctx) (empty : ctx.total64 = 0)
    (sized : ctx.wbuffer.length = 64) (pieces : List Piece) :
    Stands ctx.processBlock ctx.hash (pieces.foldl md5Hash ctx) (pieces.flatMap Piece.bytes) := by
  have stands := (Stands.begin ctx empty sized).pieces pieces
  rwa [List.nil_append] at stands

/-- However a message is cut into pieces, the digest is that of the whole. -/
theorem digest_pieces (pieces : List Piece) :
    md5End (pieces.foldl md5Hash md5Begin) = md5Digest (pieces.flatMap Piece.bytes) ∧
    sha1End (pieces.foldl md5Hash sha1Begin) = sha1Digest (pieces.flatMap Piece.bytes) ∧
    sha1End (pieces.foldl md5Hash sha256Begin) = sha256Digest (pieces.flatMap Piece.bytes) ∧
    sha512End (pieces.foldl sha512Hash sha512Begin) = sha512Digest (pieces.flatMap Piece.bytes) ∧
    ∀ rate, sha3End (pieces.foldl sha3Hash (sha3Begin rate))
      = sha3Digest rate.bytes (pieces.flatMap Piece.bytes) := by
  refine ⟨?_, ?_, ?_, ?_, ?_⟩
  · have stands := common64_pieces md5Begin rfl rfl pieces
    rw [md5End, stands.end false, md5Digest]
    rfl
  · have stands := common64_pieces sha1Begin rfl rfl pieces
    rw [sha1End, stands.end true, sha1Digest, stands.kind]
    rfl
  · have stands := common64_pieces sha256Begin rfl rfl pieces
    rw [sha1End, stands.end true, sha256Digest, stands.kind]
    rfl
  · have stands := Stands512.begin.pieces pieces
    rw [List.nil_append] at stands
    exact stands.end
  · intro rate
    have stands := (StandsSha3.begin rate).pieces pieces
    rw [List.nil_append] at stands
    exact stands.end

end Busybox.Hash
