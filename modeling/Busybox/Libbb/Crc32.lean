import Busybox.Lib.BitPolynomials

/-!
# CRC-32

`crc32.c` computes a checksum byte by byte with a table, in both orders of the bits, and `cksum`
prints that of a file with its size behind it. The checksum is a remainder of polynomials.
-/

namespace Busybox.Libbb.Crc32

open Polynomial BitPolynomials

/-- One bit of an entry of the table. -/
def turn (endian : Bool) (c : BitVec 32) : BitVec 32 :=
  let polynomial : BitVec 32 := if endian then 0x04c11db7 else 0xedb88320
  if endian then
    if c &&& 0x80000000 ≠ 0 then (c <<< 1) ^^^ polynomial else c <<< 1
  else
    if c &&& 1 ≠ 0 then (c >>> 1) ^^^ polynomial else c >>> 1

/-- `crc32_filltable` -/
def crc32Filltable (endian : Bool) : Vector (BitVec 32) 256 :=
  .ofFn fun i =>
    (turn endian)^[8] (if endian then BitVec.ofNat 32 i <<< 24 else BitVec.ofNat 32 i)

/-- `crc32_block_endian1`; the index is that of a byte. -/
def crc32BlockEndian1 (val : BitVec 32) (buf : List (BitVec 8))
    (crcTable : Vector (BitVec 32) 256) : BitVec 32 :=
  buf.foldl (fun val b => (val <<< 8) ^^^ crcTable[((val >>> 24).setWidth 8 ^^^ b).toFin]) val

/-- `crc32_block_endian0` -/
def crc32BlockEndian0 (val : BitVec 32) (buf : List (BitVec 8))
    (crcTable : Vector (BitVec 32) 256) : BitVec 32 :=
  buf.foldl (fun val b => crcTable[(val.setWidth 8 ^^^ b).toFin] ^^^ (val >>> 8)) val

/-- The bytes of a size, the low one first. -/
def sizeBytes (t : ℕ) : List (BitVec 8) := (Nat.digits 256 t).map (BitVec.ofNat 8)

/-- What `cksum` prints of a file that it reads in blocks. -/
def cksum (blocks : List (List (BitVec 8))) : BitVec 32 × ℕ :=
  let table := crc32Filltable true
  let read := blocks.foldl (fun (crc, filesize) block =>
    (crc32BlockEndian1 crc block table, filesize + block.length)) (0, 0)
  (~~~crc32BlockEndian1 read.1 (sizeBytes read.2) table, read.2)

/-! ## Remainders -/

/-- The generator without its leading bit. -/
def generator : Generator 32 := ⟨0x04c11db7, by decide, by decide⟩

/-- The number that a buffer is, its first byte the highest. -/
def number (buf : List (BitVec 8)) : ℕ := buf.foldl (fun n b => 2 ^ 8 * n + b.toNat) 0

theorem number_concat (buf : List (BitVec 8)) (b : BitVec 8) :
    number (buf ++ [b]) = 2 ^ 8 * number buf + b.toNat := by
  rw [number, List.foldl_append]
  rfl

/-- What a shift drops is above the leading bit. -/
theorem poly_shiftLeft (c : BitVec 32) {k : ℕ} (most : k ≤ 32) :
    X ^ k * poly c.toNat = poly (c <<< k).toNat + X ^ 32 * poly (c >>> (32 - k)).toNat := by
  have dropped : 2 ^ k * c.toNat / 2 ^ 32 = c.toNat / 2 ^ (32 - k) := by
    have powers : 2 ^ 32 = 2 ^ k * 2 ^ (32 - k) := by
      rw [← pow_add, Nat.add_sub_cancel' most]
    rw [powers, Nat.mul_div_mul_left _ _ (Nat.two_pow_pos k)]
  rw [← poly_two_pow_mul, BitVec.toNat_shiftLeft, BitVec.toNat_ushiftRight, Nat.shiftLeft_eq,
    Nat.shiftRight_eq_div_pow, ← dropped, Nat.mul_comm c.toNat, add_comm,
    ← poly_two_pow_mul_add _ (Nat.mod_lt _ (Nat.two_pow_pos 32)), Nat.div_add_mod]

theorem top_bit (c : BitVec 32) : (c >>> 31).toNat = if c &&& 0x80000000 ≠ 0 then 1 else 0 := by
  have masked : c &&& 0x80000000 = if c.getLsbD 31 then 0x80000000 else 0 :=
    BitVec.and_twoPow c 31
  have bit := BitVec.testBit_toNat c (i := 31)
  rw [Nat.testBit_eq_decide_div_mod_eq] at bit
  have below := c.isLt
  rw [BitVec.toNat_ushiftRight, Nat.shiftRight_eq_div_pow, masked, ← bit]
  by_cases set : c.toNat / 2 ^ 31 % 2 = 1
  · rw [decide_eq_true set, if_pos rfl, if_pos (by decide)]
    omega
  · rw [decide_eq_false set, if_neg (by decide)]
    omega

/-- A turn is the product with `X`, up to the generator. -/
theorem dvd_turn (c : BitVec 32) :
    generator.divisor ∣ poly (turn true c).toNat - X * poly c.toNat := by
  have shifted := poly_shiftLeft c (show 1 ≤ 32 by decide)
  rw [pow_one, top_bit] at shifted
  rw [shifted, turn]
  by_cases set : c &&& 0x80000000 ≠ 0
  · simp only [if_true, if_pos set, BitVec.toNat_xor, poly_xor, poly_one, mul_one]
    refine ⟨1, ?_⟩
    have two : (2 : (ZMod 2)[X]) = 0 := CharTwo.two_eq_zero
    have low : generator.divisor = X ^ 32 + poly (0x04c11db7 : BitVec 32).toNat := rfl
    rw [low]
    linear_combination -X ^ 32 * two
  · simp only [if_true, if_neg set, poly_zero, mul_zero, add_zero, sub_self, dvd_zero]

theorem dvd_turns (c : BitVec 32) (n : ℕ) :
    generator.divisor ∣ poly ((turn true)^[n] c).toNat - X ^ n * poly c.toNat := by
  induction n with
  | zero => simp
  | succ n ih =>
    rw [Function.iterate_succ_apply']
    have last := dvd_turn ((turn true)^[n] c)
    have sum := dvd_add last (Dvd.dvd.mul_left ih X)
    convert sum using 1
    ring

/-- An entry of the table is the remainder of a byte above the leading bit. -/
theorem dvd_entry (i : BitVec 8) :
    generator.divisor ∣ poly (crc32Filltable true)[i.toFin].toNat - X ^ 32 * poly i.toNat := by
  have below := i.isLt
  have place : poly (BitVec.ofNat 32 i.toNat <<< 24).toNat = X ^ 24 * poly i.toNat := by
    rw [← poly_two_pow_mul, BitVec.toNat_shiftLeft, BitVec.toNat_ofNat, Nat.shiftLeft_eq]
    exact congrArg poly (by omega)
  have entry : (crc32Filltable true)[i.toFin] =
      (turn true)^[8] (BitVec.ofNat 32 i.toNat <<< 24) := by
    simp [crc32Filltable]
  have turned := dvd_turns (BitVec.ofNat 32 i.toNat <<< 24) 8
  rw [place, ← mul_assoc, ← pow_add] at turned
  rwa [entry]

/-- A byte of the buffer. -/
theorem dvd_byte (val : BitVec 32) (b : BitVec 8) :
    generator.divisor ∣
      poly ((val <<< 8) ^^^ (crc32Filltable true)[((val >>> 24).setWidth 8 ^^^ b).toFin]).toNat -
        (X ^ 8 * poly val.toNat + X ^ 32 * poly b.toNat) := by
  have top : ((val >>> 24).setWidth 8).toNat = (val >>> 24).toNat := by
    have below := val.isLt
    rw [BitVec.toNat_setWidth, BitVec.toNat_ushiftRight, Nat.shiftRight_eq_div_pow]
    omega
  have entry := dvd_entry ((val >>> 24).setWidth 8 ^^^ b)
  rw [BitVec.toNat_xor, poly_xor, top] at entry
  rw [BitVec.toNat_xor, poly_xor, poly_shiftLeft val (show 8 ≤ 32 by decide)]
  convert entry using 1
  ring

theorem dvd_buffer (val : BitVec 32) (buf : List (BitVec 8)) :
    generator.divisor ∣ poly (crc32BlockEndian1 val buf (crc32Filltable true)).toNat -
      (X ^ (8 * buf.length) * poly val.toNat + X ^ 32 * poly (number buf)) := by
  induction buf using List.reverseRecOn with
  | nil => simp [crc32BlockEndian1, number]
  | append_singleton buf b ih =>
    have last := dvd_byte (crc32BlockEndian1 val buf (crc32Filltable true)) b
    have sum := dvd_add last (Dvd.dvd.mul_left ih (X ^ 8))
    rw [number_concat, poly_two_pow_mul_add _ b.isLt, List.length_append, crc32BlockEndian1,
      List.foldl_append]
    convert sum using 1
    simp only [List.length_singleton, List.foldl_cons, List.foldl_nil, crc32BlockEndian1]
    ring

/-- The checksum is the remainder of what was there before it, followed by the buffer. -/
theorem crc32BlockEndian1_mod (val : BitVec 32) (buf : List (BitVec 8)) :
    poly (crc32BlockEndian1 val buf (crc32Filltable true)).toNat =
      (X ^ (8 * buf.length) * poly val.toNat + X ^ 32 * poly (number buf)) %ₘ generator.divisor :=
  generator.eq_mod (BitVec.isLt _) (dvd_buffer val buf)

/-! ## Files -/

theorem crc32BlockEndian1_append (val : BitVec 32) (buf more : List (BitVec 8))
    (crcTable : Vector (BitVec 32) 256) :
    crc32BlockEndian1 val (buf ++ more) crcTable =
      crc32BlockEndian1 (crc32BlockEndian1 val buf crcTable) more crcTable :=
  List.foldl_append

theorem number_append (buf more : List (BitVec 8)) :
    number (buf ++ more) = 2 ^ (8 * more.length) * number buf + number more ∧
      number more < 2 ^ (8 * more.length) := by
  induction more using List.reverseRecOn with
  | nil => simp [number]
  | append_singleton more b ih =>
    have below := b.isLt
    have power : 2 ^ (8 * (more ++ [b]).length) = 2 ^ 8 * 2 ^ (8 * more.length) := by
      rw [List.length_append, List.length_singleton, Nat.mul_add, pow_add, mul_comm]
    rw [← List.append_assoc, number_concat, number_concat, ih.1, power]
    have less := ih.2
    constructor
    · ring
    · omega

/-- The blocks of a file are one buffer. -/
theorem cksum_eq (blocks : List (List (BitVec 8))) :
    cksum blocks = (~~~crc32BlockEndian1 0 (blocks.flatten ++ sizeBytes blocks.flatten.length)
      (crc32Filltable true), blocks.flatten.length) := by
  have read (val : BitVec 32) (size : ℕ) :
      blocks.foldl (fun (crc, filesize) block =>
        (crc32BlockEndian1 crc block (crc32Filltable true), filesize + block.length)) (val, size) =
        (crc32BlockEndian1 val blocks.flatten (crc32Filltable true),
          size + blocks.flatten.length) := by
    induction blocks generalizing val size with
    | nil => rfl
    | cons block blocks ih =>
      rw [List.foldl_cons, ih, List.flatten_cons, crc32BlockEndian1_append, List.length_append,
        Nat.add_assoc]
  rw [cksum, read, Nat.zero_add, crc32BlockEndian1_append]

/-- `cksum` prints the complement of a remainder: that of the file with its size behind it. -/
theorem cksum_remainder (blocks : List (List (BitVec 8))) :
    (cksum blocks).2 = blocks.flatten.length ∧
      poly (~~~(cksum blocks).1).toNat =
        X ^ 32 * poly (number (blocks.flatten ++ sizeBytes blocks.flatten.length)) %ₘ
          generator.divisor := by
  rw [cksum_eq, BitVec.not_not, crc32BlockEndian1_mod]
  simp

/-- Files of one size that differ in a burst of at most 32 bits have different checksums. -/
theorem cksum_burst {blocks blocks' : List (List (BitVec 8))}
    (size : blocks.flatten.length = blocks'.flatten.length) {burst shift : ℕ}
    (differ : number blocks.flatten ^^^ number blocks'.flatten = 2 ^ shift * burst)
    (nonzero : 0 < burst) (few : burst < 2 ^ 32) : (cksum blocks).1 ≠ (cksum blocks').1 := by
  intro same
  rw [cksum_eq, cksum_eq, ← size] at same
  have crcs := congrArg (fun c : BitVec 32 => poly (~~~c).toNat) same
  simp only [BitVec.not_not] at crcs
  generalize sizeBytes blocks.flatten.length = more at crcs
  have left := dvd_buffer 0 (blocks.flatten ++ more)
  have right := dvd_buffer 0 (blocks'.flatten ++ more)
  rw [crcs, (number_append _ more).1, poly_two_pow_mul_add _ (number_append [] more).2] at left
  rw [(number_append _ more).1, poly_two_pow_mul_add _ (number_append [] more).2] at right
  have bits := congrArg poly differ
  rw [poly_xor, poly_two_pow_mul] at bits
  have difference := dvd_sub right left
  refine generator.not_dvd (by decide) nonzero few (32 + 8 * more.length + shift) ?_
  rw [pow_add _ _ shift, mul_assoc, ← bits]
  convert difference using 1
  have two : (2 : (ZMod 2)[X]) = 0 := CharTwo.two_eq_zero
  simp only [List.length_append, size]
  linear_combination
    X ^ (32 + 8 * more.length) * poly (number blocks'.flatten) * two

theorem cksum_burst_byte : (cksum [[1]]).1 ≠ (cksum [[2]]).1 :=
  @cksum_burst [[1]] [[2]] rfl 3 0 (by decide) (by decide) (by decide)

/-! ## The other order of the bits -/

theorem reverse_xor {w : ℕ} (a b : BitVec w) : (a ^^^ b).reverse = a.reverse ^^^ b.reverse := by
  ext i
  simp [BitVec.getElem_reverse]

theorem reverse_shiftLeft (c : BitVec 32) (k : ℕ) : (c <<< k).reverse = c.reverse >>> k := by
  ext i below
  rw [BitVec.getElem_reverse, BitVec.getElem_ushiftRight, BitVec.getMsbD_shiftLeft,
    BitVec.getLsbD_reverse, Nat.add_comm]

theorem turn_reverse (c : BitVec 32) : turn false c.reverse = (turn true c).reverse := by
  have mask : c &&& 0x80000000 = if c.getLsbD 31 then 0x80000000 else 0 := BitVec.and_twoPow c 31
  have mirrored : c.reverse &&& 1 = if c.getLsbD 31 then 1 else 0 := by
    have first : c.reverse.getLsbD 0 = c.getLsbD 31 := BitVec.getLsbD_reverse
    rw [← first]
    exact BitVec.and_twoPow c.reverse 0
  have polynomial : (0x04c11db7#32).reverse = 0xedb88320#32 := by decide +kernel
  rw [turn, turn, mask, mirrored]
  cases c.getLsbD 31
  · exact (reverse_shiftLeft c 1).symm
  · change c.reverse >>> 1 ^^^ 0xedb88320#32 = (c <<< 1 ^^^ 0x04c11db7#32).reverse
    rw [reverse_xor, reverse_shiftLeft, polynomial]

theorem entry_reverse (i : BitVec 8) :
    (crc32Filltable false)[i.reverse.toFin] = (crc32Filltable true)[i.toFin].reverse := by
  have place : BitVec.ofNat 32 i.reverse.toNat = (BitVec.ofNat 32 i.toNat <<< 24).reverse := by
    ext j below
    rw [reverse_shiftLeft, BitVec.getElem_ushiftRight, BitVec.getLsbD_reverse, BitVec.ofNat_toNat,
      BitVec.ofNat_toNat, BitVec.getElem_setWidth, BitVec.getLsbD_reverse, BitVec.getMsbD_setWidth]
    simp
  have mirrored : Function.Semiconj BitVec.reverse (turn true) (turn false) := fun c =>
    (turn_reverse c).symm
  have turns := mirrored.iterate_right 8 (BitVec.ofNat 32 i.toNat <<< 24)
  rw [← place] at turns
  rw [crc32Filltable, crc32Filltable]
  simp only [Fin.getElem_fin, Vector.getElem_ofFn]
  exact turns.symm

theorem blocks_reverse {little big : Vector (BitVec 32) 256}
    (entry : ∀ i : BitVec 8, little[i.reverse.toFin] = big[i.toFin].reverse) (val : BitVec 32)
    (buf : List (BitVec 8)) :
    crc32BlockEndian0 val.reverse (buf.map BitVec.reverse) little =
      (crc32BlockEndian1 val buf big).reverse := by
  induction buf generalizing val with
  | nil => rfl
  | cons b buf ih =>
    have low : val.reverse.setWidth 8 = ((val >>> 24).setWidth 8).reverse := by
      ext j below
      rw [BitVec.getElem_setWidth, BitVec.getLsbD_reverse, BitVec.getElem_reverse,
        BitVec.getMsbD_eq_getLsbD, BitVec.getMsbD_eq_getLsbD, BitVec.getLsbD_setWidth,
        BitVec.getLsbD_ushiftRight]
      have place : 24 + (8 - 1 - j) = 32 - 1 - j := by omega
      simp only [place, below, show j < 32 by omega, show 8 - 1 - j < 8 by omega, decide_true,
        Bool.true_and]
    have index : val.reverse.setWidth 8 ^^^ b.reverse =
        ((val >>> 24).setWidth 8 ^^^ b).reverse := by
      rw [low]
      exact (reverse_xor _ b).symm
    have next : little[(val.reverse.setWidth 8 ^^^ b.reverse).toFin] ^^^ (val.reverse >>> 8) =
        ((val <<< 8) ^^^ big[((val >>> 24).setWidth 8 ^^^ b).toFin]).reverse := by
      rw [reverse_xor, ← entry, reverse_shiftLeft, BitVec.xor_comm]
      exact congrArg (fun i => val.reverse >>> 8 ^^^ little[i.toFin]) index
    rw [List.map_cons, crc32BlockEndian0, List.foldl_cons, next]
    exact ih _

/-- The checksum of `gzip` is that of `cksum` with the bytes and the words mirrored. -/
theorem crc32BlockEndian0_reverse (val : BitVec 32) (buf : List (BitVec 8)) :
    crc32BlockEndian0 val.reverse (buf.map BitVec.reverse) (crc32Filltable false) =
      (crc32BlockEndian1 val buf (crc32Filltable true)).reverse :=
  blocks_reverse entry_reverse val buf

end Busybox.Libbb.Crc32
