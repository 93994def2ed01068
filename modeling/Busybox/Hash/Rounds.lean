import Mathlib.Data.List.Basic

/-!
# The block functions

What one call of `process_block` does to the chaining value, as compiled for a
little-endian machine with MD5_SMALL=1 and SHA3_SMALL=1. A block is read as
words from the bytes of the context's buffer.
-/

namespace Busybox.Hash

/-- The bytes of a number, least significant first. -/
def littleEndian : Nat → Nat → List UInt8
  | 0, _ => []
  | width + 1, value => UInt8.ofNat value :: littleEndian width (value / 256)

/-- The bytes of a number, most significant first. -/
def bigEndian (width value : Nat) : List UInt8 := (littleEndian width value).reverse

/-- The number that bytes spell, least significant first. -/
def ofLittleEndian : List UInt8 → Nat
  | [] => 0
  | byte :: bytes => byte.toNat + 256 * ofLittleEndian bytes

/-- The word at an index of a buffer: as the machine reads it, or after SWAP_BE. -/
def wordLE (width : Nat) (buffer : List UInt8) (index : Nat) : Nat :=
  ofLittleEndian ((buffer.drop (width * index)).take width)

def wordBE (width : Nat) (buffer : List UInt8) (index : Nat) : Nat :=
  ofLittleEndian ((buffer.drop (width * index)).take width).reverse

def rotl32 (x : UInt32) (n : UInt32) : UInt32 := (x <<< n) ||| (x >>> (32 - n))
def rotr32 (x : UInt32) (n : UInt32) : UInt32 := (x >>> n) ||| (x <<< (32 - n))
def rotr64 (x : UInt64) (n : UInt64) : UInt64 := (x >>> n) ||| (x <<< (64 - n))
def rotl64 (x : UInt64) (n : UInt64) : UInt64 := (x <<< n) ||| (x >>> (64 - n))

/-- Word by word addition to the chaining value. -/
def addWords32 (hash words : List UInt32) : List UInt32 :=
  hash.mapIdx fun index word => word + words.getD index 0

def addWords64 (hash words : List UInt64) : List UInt64 :=
  hash.mapIdx fun index word => word + words.getD index 0

section Md5

/-- `C_array`. -/
def md5Constants : List UInt32 := [
  0xd76aa478, 0xe8c7b756, 0x242070db, 0xc1bdceee,
  0xf57c0faf, 0x4787c62a, 0xa8304613, 0xfd469501,
  0x698098d8, 0x8b44f7af, 0xffff5bb1, 0x895cd7be,
  0x6b901122, 0xfd987193, 0xa679438e, 0x49b40821,
  0xf61e2562, 0xc040b340, 0x265e5a51, 0xe9b6c7aa,
  0xd62f105d, 0x02441453, 0xd8a1e681, 0xe7d3fbc8,
  0x21e1cde6, 0xc33707d6, 0xf4d50d87, 0x455a14ed,
  0xa9e3e905, 0xfcefa3f8, 0x676f02d9, 0x8d2a4c8a,
  0xfffa3942, 0x8771f681, 0x6d9d6122, 0xfde5380c,
  0xa4beea44, 0x4bdecfa9, 0xf6bb4b60, 0xbebfbc70,
  0x289b7ec6, 0xeaa127fa, 0xd4ef3085, 0x4881d05,
  0xd9d4d039, 0xe6db99e5, 0x1fa27cf8, 0xc4ac5665,
  0xf4292244, 0x432aff97, 0xab9423a7, 0xfc93a039,
  0x655b59c3, 0x8f0ccc92, 0xffeff47d, 0x85845dd1,
  0x6fa87e4f, 0xfe2ce6e0, 0xa3014314, 0x4e0811a1,
  0xf7537e82, 0xbd3af235, 0x2ad7d2bb, 0xeb86d391]

/-- `P_array`, after the first round's identity. -/
def md5Order : List Nat := [
  0, 1, 2, 3, 4, 5, 6, 7, 8, 9, 10, 11, 12, 13, 14, 15,
  1, 6, 11, 0, 5, 10, 15, 4, 9, 14, 3, 8, 13, 2, 7, 12,
  5, 8, 11, 14, 1, 4, 7, 10, 13, 0, 3, 6, 9, 12, 15, 2,
  0, 7, 14, 5, 12, 3, 10, 1, 8, 15, 6, 13, 4, 11, 2, 9]

/-- The rotations of the four operations of each round. -/
def md5Shifts : List UInt32 := [7, 12, 17, 22, 5, 9, 14, 20, 4, 11, 16, 23, 6, 10, 15, 21]

/-- FF, FG, FH and FI. -/
def md5Mix (round : Nat) (b c d : UInt32) : UInt32 :=
  match round with
  | 0 => d ^^^ (b &&& (c ^^^ d))
  | 1 => c ^^^ (d &&& (b ^^^ c))
  | 2 => b ^^^ c ^^^ d
  | _ => c ^^^ (b ||| ~~~d)

/-- One OP: the names A, B, C, D move on by one, so the word that the operation
changes is always the first. -/
def md5Operation (block : List UInt8) (words : UInt32 × UInt32 × UInt32 × UInt32)
    (index : Nat) : UInt32 × UInt32 × UInt32 × UInt32 :=
  let (a, b, c, d) := words
  let sum := a + md5Mix (index / 16) b c d
    + UInt32.ofNat (wordLE 4 block (md5Order.getD index 0)) + md5Constants.getD index 0
  (d, rotl32 sum (md5Shifts.getD (index / 16 * 4 + index % 4) 0) + b, b, c)

def md5ProcessBlock64 (hash : List UInt32) (block : List UInt8) : List UInt32 :=
  let (a, b, c, d) := (List.range 64).foldl (md5Operation block)
    (hash.getD 0 0, hash.getD 1 0, hash.getD 2 0, hash.getD 3 0)
  addWords32 hash [a, b, c, d]

end Md5

section Sha1

def sha1Constants : List UInt32 := [0x5A827999, 0x6ED9EBA1, 0x8F1BBCDC, 0xCA62C1D6]

/-- One of the eighty operations: `w` holds the last sixteen words of `W`. -/
def sha1Operation (state : List UInt32 × List UInt32) (index : Nat) :
    List UInt32 × List UInt32 :=
  let (w, words) := state
  let a := words.getD 0 0
  let b := words.getD 1 0
  let c := words.getD 2 0
  let d := words.getD 3 0
  let e := words.getD 4 0
  let scheduled :=
    if index < 16 then w.getD 0 0
    else rotl32 (w.getD 13 0 ^^^ w.getD 8 0 ^^^ w.getD 2 0 ^^^ w.getD 0 0) 1
  let mixed :=
    match index / 20 with
    | 0 => ((c ^^^ d) &&& b) ^^^ d
    | 2 => ((b ||| c) &&& d) ||| (b &&& c)
    | _ => (c ^^^ d) ^^^ b
  let work := mixed + scheduled + e + rotl32 a 5 + sha1Constants.getD (index / 20) 0
  (w.tail ++ [scheduled], [work, a, rotl32 b 30, c, d])

def sha1ProcessBlock64 (hash : List UInt32) (block : List UInt8) : List UInt32 :=
  let w := (List.range 16).map fun index => UInt32.ofNat (wordBE 4 block index)
  addWords32 hash ((List.range 80).foldl sha1Operation (w, hash.take 5)).2

end Sha1

section Sha2

/-- `sha_K`: SHA-256 uses the upper halves of the first 64. -/
def shaK : List UInt64 := [
  0x428a2f98d728ae22, 0x7137449123ef65cd, 0xb5c0fbcfec4d3b2f, 0xe9b5dba58189dbbc,
  0x3956c25bf348b538, 0x59f111f1b605d019, 0x923f82a4af194f9b, 0xab1c5ed5da6d8118,
  0xd807aa98a3030242, 0x12835b0145706fbe, 0x243185be4ee4b28c, 0x550c7dc3d5ffb4e2,
  0x72be5d74f27b896f, 0x80deb1fe3b1696b1, 0x9bdc06a725c71235, 0xc19bf174cf692694,
  0xe49b69c19ef14ad2, 0xefbe4786384f25e3, 0x0fc19dc68b8cd5b5, 0x240ca1cc77ac9c65,
  0x2de92c6f592b0275, 0x4a7484aa6ea6e483, 0x5cb0a9dcbd41fbd4, 0x76f988da831153b5,
  0x983e5152ee66dfab, 0xa831c66d2db43210, 0xb00327c898fb213f, 0xbf597fc7beef0ee4,
  0xc6e00bf33da88fc2, 0xd5a79147930aa725, 0x06ca6351e003826f, 0x142929670a0e6e70,
  0x27b70a8546d22ffc, 0x2e1b21385c26c926, 0x4d2c6dfc5ac42aed, 0x53380d139d95b3df,
  0x650a73548baf63de, 0x766a0abb3c77b2a8, 0x81c2c92e47edaee6, 0x92722c851482353b,
  0xa2bfe8a14cf10364, 0xa81a664bbc423001, 0xc24b8b70d0f89791, 0xc76c51a30654be30,
  0xd192e819d6ef5218, 0xd69906245565a910, 0xf40e35855771202a, 0x106aa07032bbd1b8,
  0x19a4c116b8d2d0c8, 0x1e376c085141ab53, 0x2748774cdf8eeb99, 0x34b0bcb5e19b48a8,
  0x391c0cb3c5c95a63, 0x4ed8aa4ae3418acb, 0x5b9cca4f7763e373, 0x682e6ff3d6b2b8a3,
  0x748f82ee5defb2fc, 0x78a5636f43172f60, 0x84c87814a1f0ab72, 0x8cc702081a6439ec,
  0x90befffa23631e28, 0xa4506cebde82bde9, 0xbef9a3f7b2c67915, 0xc67178f2e372532b,
  0xca273eceea26619c, 0xd186b8c721c0c207, 0xeada7dd6cde0eb1e, 0xf57d4f7fee6ed178,
  0x06f067aa72176fba, 0x0a637dc5a2c898a6, 0x113f9804bef90dae, 0x1b710b35131c471b,
  0x28db77f523047d84, 0x32caab7b40c72493, 0x3c9ebe0a15c9bebc, 0x431d67c49c100d4c,
  0x4cc5d4becb3e42b6, 0x597f299cfc657e2a, 0x5fcb6fab3ad6faec, 0x6c44198c4a475817]

/-- The message schedule, last word first: `next` combines the words 2, 7, 15
and 16 places back. -/
def schedule {α : Type} (next : α → α → α → α → α) (zero : α) : Nat → List α → List α
  | 0, words => words
  | count + 1, words =>
    schedule next zero count
      (next (words.getD 1 zero) (words.getD 6 zero) (words.getD 14 zero) (words.getD 15 zero)
        :: words)

def sha256Round (words : List UInt32) (scheduled : UInt32 × UInt64) : List UInt32 :=
  let a := words.getD 0 0
  let b := words.getD 1 0
  let c := words.getD 2 0
  let d := words.getD 3 0
  let e := words.getD 4 0
  let f := words.getD 5 0
  let g := words.getD 6 0
  let h := words.getD 7 0
  let t1 := h + (rotr32 e 6 ^^^ rotr32 e 11 ^^^ rotr32 e 25) + ((e &&& f) ^^^ (~~~e &&& g))
    + (scheduled.2 >>> 32).toUInt32 + scheduled.1
  let t2 := (rotr32 a 2 ^^^ rotr32 a 13 ^^^ rotr32 a 22)
    + ((a &&& b) ^^^ (a &&& c) ^^^ (b &&& c))
  [t1 + t2, a, b, c, d + t1, e, f, g]

def sha256ProcessBlock64 (hash : List UInt32) (block : List UInt8) : List UInt32 :=
  let first := (List.range 16).map fun index => UInt32.ofNat (wordBE 4 block index)
  let next (w2 w7 w15 w16 : UInt32) : UInt32 :=
    (rotr32 w2 17 ^^^ rotr32 w2 19 ^^^ (w2 >>> 10)) + w7
      + (rotr32 w15 7 ^^^ rotr32 w15 18 ^^^ (w15 >>> 3)) + w16
  let w := (schedule next 0 48 first.reverse).reverse
  addWords32 hash ((w.zip shaK).foldl sha256Round hash)

def sha512Round (words : List UInt64) (scheduled : UInt64 × UInt64) : List UInt64 :=
  let a := words.getD 0 0
  let b := words.getD 1 0
  let c := words.getD 2 0
  let d := words.getD 3 0
  let e := words.getD 4 0
  let f := words.getD 5 0
  let g := words.getD 6 0
  let h := words.getD 7 0
  let t1 := h + (rotr64 e 14 ^^^ rotr64 e 18 ^^^ rotr64 e 41) + ((e &&& f) ^^^ (~~~e &&& g))
    + scheduled.2 + scheduled.1
  let t2 := (rotr64 a 28 ^^^ rotr64 a 34 ^^^ rotr64 a 39)
    + ((a &&& b) ^^^ (a &&& c) ^^^ (b &&& c))
  [t1 + t2, a, b, c, d + t1, e, f, g]

def sha512ProcessBlock128 (hash : List UInt64) (block : List UInt8) : List UInt64 :=
  let first := (List.range 16).map fun index => UInt64.ofNat (wordBE 8 block index)
  let next (w2 w7 w15 w16 : UInt64) : UInt64 :=
    (rotr64 w2 19 ^^^ rotr64 w2 61 ^^^ (w2 >>> 6)) + w7
      + (rotr64 w15 1 ^^^ rotr64 w15 8 ^^^ (w15 >>> 7)) + w16
  let w := (schedule next 0 64 first.reverse).reverse
  addWords64 hash ((w.zip shaK).foldl sha512Round hash)

/-- `init256`, without the two zeros that clear `total64`. -/
def init256 : List UInt32 := [
  0x6a09e667, 0xbb67ae85, 0x3c6ef372, 0xa54ff53a,
  0x510e527f, 0x9b05688c, 0x1f83d9ab, 0x5be0cd19]

/-- `init512_lo`, without the zeros. -/
def init512Lo : List UInt32 := [
  0xf3bcc908, 0x84caa73b, 0xfe94f82b, 0x5f1d36f1,
  0xade682d1, 0x2b3e6c1f, 0xfb41bd6b, 0x137e2179]

end Sha2

section Keccak

/-- `IOTA_CONST`: the bits 63 and 31 come from two words of their own. -/
def iotaConst : List UInt64 := [
  0x0001, 0x8082, 0x808a, 0x8000, 0x808b, 0x0001, 0x8081, 0x8009,
  0x008a, 0x0088, 0x8009, 0x000a, 0x808b, 0x008b, 0x8089, 0x8003,
  0x8002, 0x0080, 0x800a, 0x000a, 0x8081, 0x8080, 0x0001, 0x8008]

def iotaConstBit63 : UInt32 := 0x3307dd00
def iotaConstBit31 : UInt32 := 0x16381b00

def rotConst : List UInt64 := [
  1, 3, 6, 10, 15, 21, 28, 36, 45, 55, 2, 14,
  27, 41, 56, 8, 25, 43, 62, 18, 39, 61, 20, 44]

def piLane : List Nat := [
  10, 7, 11, 17, 18, 3, 5, 16, 8, 21, 24, 4,
  15, 23, 19, 13, 12, 2, 20, 14, 22, 9, 6, 1]

def theta (state : List UInt64) : List UInt64 :=
  let lane (index : Nat) : UInt64 := state.getD index 0
  let column (x : Nat) : UInt64 :=
    lane x ^^^ lane (x + 5) ^^^ lane (x + 10) ^^^ lane (x + 15) ^^^ lane (x + 20)
  state.mapIdx fun index word =>
    word ^^^ (column ((index + 4) % 5) ^^^ rotl64 (column ((index + 1) % 5)) 1)

def rhoPi (state : List UInt64) : List UInt64 :=
  ((piLane.zip rotConst).foldl
    (fun moved step => (moved.1.set step.1 (rotl64 moved.2 step.2), moved.1.getD step.1 0))
    (state, state.getD 1 0)).1

def chi (state : List UInt64) : List UInt64 :=
  state.mapIdx fun index word =>
    let row := index / 5 * 5
    word ^^^ (~~~(state.getD (row + (index + 1) % 5) 0) &&& state.getD (row + (index + 2) % 5) 0)

def iota (round : Nat) (state : List UInt64) : List UInt64 :=
  let shift := UInt32.ofNat round
  let constant := iotaConst.getD round 0
    ||| ((iotaConstBit31 <<< shift) &&& 0x80000000).toUInt64
    ||| ((iotaConstBit63 <<< shift) &&& 0x80000000).toUInt64 <<< 32
  state.modifyHead (· ^^^ constant)

/-- `sha3_process_block72` on the 200 bytes of the state. -/
def sha3ProcessBlock72 (state : List UInt8) : List UInt8 :=
  let lanes := (List.range 25).map fun index => UInt64.ofNat (wordLE 8 state index)
  ((List.range 24).foldl (fun lanes round => iota round (chi (rhoPi (theta lanes)))) lanes).flatMap
    fun lane => littleEndian 8 lane.toNat

end Keccak

end Busybox.Hash
