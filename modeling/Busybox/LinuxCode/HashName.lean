import Busybox.LinuxCode.FindNextBit

/-!
# `hash_name`

`c++knowledge/count_masked_bytes/main.c` hashes a name up to its first slash or NUL, a word of eight
bytes at a time. A byte that is zero is found by a subtraction whose borrow may spoil the bytes
above it.
-/

namespace Busybox.LinuxCode

/-- `REPEAT_BYTE` -/
def repeatByte (x : BitVec 64) : BitVec 64 := BitVec.allOnes 64 / 0xff * x

/-- `one_bits` and `high_bits` of `WORD_AT_A_TIME_CONSTANTS`. -/
def oneBits : BitVec 64 := repeatByte 0x01

def highBits : BitVec 64 := repeatByte 0x80

/-- `rol64` -/
def rol64 (word : BitVec 64) (shift : Nat) : BitVec 64 :=
  word <<< (shift % 64) ||| word >>> ((2 ^ 32 - shift) % 64)

/-- `HASH_MIX` -/
def hashMix (x y a : BitVec 64) : BitVec 64 × BitVec 64 :=
  let x := x ^^^ a
  let y := y ^^^ x
  let x := rol64 x 12
  let x := x + y
  let y := rol64 y 45
  (x, y * 9)

/-- `GOLDEN_RATIO_64` -/
def goldenRatio64 : BitVec 64 := 0x61C8864680B583EB

/-- `fold_hash` -/
def foldHash (x y : BitVec 64) : BitVec 32 :=
  let y := y ^^^ x * goldenRatio64
  let y := y * goldenRatio64
  (y >>> 32).setWidth 32

/-- `has_zero` -/
def hasZero (a : BitVec 64) : BitVec 64 := (a - oneBits) &&& ~~~a &&& highBits

/-- `create_zero_mask` -/
def createZeroMask (bits : BitVec 64) : BitVec 64 := ((bits - 1) &&& ~~~bits) >>> 7

/-- `count_masked_bytes`. The product is shifted as a `long`. -/
def countMaskedBytes (mask : BitVec 64) : BitVec 64 := (mask * 0x0001020304050608).sshiftRight 56

/-- The number that bytes are, the lowest one first. -/
def value : List (BitVec 8) → Nat
  | [] => 0
  | b :: bytes => b.toNat + 2 ^ 8 * value bytes

/-- `load_unaligned_zeropad` -/
def loadUnalignedZeropad (name : Nat → BitVec 8) (len : Nat) : BitVec 64 :=
  BitVec.ofNat 64 (value ((List.range 8).map fun i => name (len + i)))

/-! ## Bytes of a word -/

variable {b : BitVec 8} {bytes : List (BitVec 8)} {a bits : BitVec 64} {i k p : Nat}

theorem value_lt (bytes : List (BitVec 8)) : value bytes < 2 ^ (8 * bytes.length) := by
  induction bytes with
  | nil => exact Nat.one_pos
  | cons b bytes ih =>
    have low := b.isLt
    rw [value, List.length_cons, Nat.mul_succ, Nat.pow_add]
    omega

theorem testBit_value_cons (b : BitVec 8) (bytes : List (BitVec 8)) (j : Nat) :
    (value (b :: bytes)).testBit j =
      if j < 8 then b.getLsbD j else (value bytes).testBit (j - 8) := by
  rw [value, Nat.add_comm, Nat.testBit_two_pow_mul_add _ b.isLt]
  rfl

/-- Operations on the bits are operations on the bytes. -/
theorem value_map_xor (bytes : List (BitVec 8)) (slash : BitVec 8) :
    value bytes ^^^ value (bytes.map fun _ => slash) = value (bytes.map (· ^^^ slash)) := by
  induction bytes with
  | nil => exact Nat.xor_self 0
  | cons b bytes ih =>
    refine Nat.eq_of_testBit_eq fun j => ?_
    rw [Nat.testBit_xor, List.map_cons, List.map_cons, testBit_value_cons, testBit_value_cons,
      testBit_value_cons, ← ih, Nat.testBit_xor, BitVec.getLsbD_xor]
    split <;> rfl

theorem value_take (bytes : List (BitVec 8)) (k : Nat) :
    value bytes % 2 ^ (8 * k) = value (bytes.take k) := by
  induction bytes generalizing k with
  | nil => rw [List.take_nil, value, Nat.zero_mod]
  | cons b bytes ih =>
    cases k with
    | zero => rw [Nat.mul_zero, Nat.pow_zero, Nat.mod_one]; rfl
    | succ k =>
      refine Nat.eq_of_testBit_eq fun j => ?_
      rw [Nat.testBit_mod_two_pow, List.take_succ_cons, testBit_value_cons, testBit_value_cons,
        ← ih, Nat.testBit_mod_two_pow]
      by_cases low : j < 8
      · have below : j < 8 * (k + 1) := by omega
        simp [low, below]
      · have same : j < 8 * (k + 1) ↔ j - 8 < 8 * k := by omega
        simp [low, same]

/-! ## Bytes that are zero -/

/-- The difference, before it is cut down to a word. -/
def minusOnes (bytes : List (BitVec 8)) : Nat :=
  2 ^ (8 * bytes.length) - value (List.replicate bytes.length 1) + value bytes

theorem minusOnes_cons (b : BitVec 8) (bytes : List (BitVec 8)) :
    ∃ rest, minusOnes (b :: bytes) = 2 ^ 8 * rest + (b - 1).toNat ∧
      (b ≠ 0 → rest = minusOnes bytes) := by
  have ones := value_lt (List.replicate bytes.length 1)
  have one : (1 : BitVec 8).toNat = 1 := rfl
  have low := b.isLt
  have power : 2 ^ (8 * (bytes.length + 1)) = 2 ^ 8 * 2 ^ (8 * bytes.length) := by
    rw [Nat.mul_succ, Nat.pow_add, Nat.mul_comm]
  have total : minusOnes (b :: bytes) + 1 = 2 ^ 8 * minusOnes bytes + b.toNat := by
    rw [minusOnes, minusOnes, List.length_cons, List.replicate_succ, value, value, power, one]
    rw [List.length_replicate] at ones
    omega
  by_cases zero : b = 0
  · have positive : 0 < minusOnes bytes := by
      rw [minusOnes]
      rw [List.length_replicate] at ones
      omega
    refine ⟨minusOnes bytes - 1, ?_, fun nonzero => absurd zero nonzero⟩
    have least : (b - 1).toNat = 255 := by rw [zero]; rfl
    have none : b.toNat = 0 := by rw [zero]; rfl
    omega
  · have some : b.toNat ≠ 0 := fun none => zero (BitVec.eq_of_toNat_eq none)
    have less : (b - 1).toNat = b.toNat - 1 := by
      rw [BitVec.toNat_sub, one]
      omega
    exact ⟨minusOnes bytes, by omega, fun _ => rfl⟩

/-- Behind bytes that are not zero there is no borrow. -/
theorem testBit_minusOnes (inside : i < bytes.length) (before : ∀ b ∈ bytes.take i, b ≠ 0) :
    (minusOnes bytes).testBit (8 * i + 7) = (bytes[i] - 1).getLsbD 7 := by
  induction bytes generalizing i with
  | nil => exact absurd inside (Nat.not_lt_zero i)
  | cons b bytes ih =>
    obtain ⟨rest, is, unspoilt⟩ := minusOnes_cons b bytes
    rw [is, Nat.testBit_two_pow_mul_add _ (b - 1).isLt]
    cases i with
    | zero => rw [if_pos (by decide)]; rfl
    | succ i =>
      have nonzero := before b List.mem_cons_self
      have shifted : 8 * (i + 1) + 7 - 8 = 8 * i + 7 := by omega
      rw [if_neg (by omega), shifted, unspoilt nonzero]
      exact ih (Nat.lt_of_succ_lt_succ inside) fun c mem => before c (List.mem_cons_of_mem b mem)

theorem testBit_value (inside : i < bytes.length) :
    (value bytes).testBit (8 * i + 7) = bytes[i].getLsbD 7 := by
  induction bytes generalizing i with
  | nil => exact absurd inside (Nat.not_lt_zero i)
  | cons b bytes ih =>
    rw [testBit_value_cons]
    cases i with
    | zero => rw [if_pos (by decide)]; rfl
    | succ i =>
      have shifted : 8 * (i + 1) + 7 - 8 = 8 * i + 7 := by omega
      rw [if_neg (by omega), shifted]
      exact ih (Nat.lt_of_succ_lt_succ inside)

/-- Only a zero has no high bit and gets one by a borrow. -/
theorem high_of_zero : ∀ b : BitVec 8, ((b - 1).getLsbD 7 && !b.getLsbD 7) = decide (b = 0) := by
  decide

/-- A word of eight bytes. -/
structure Word (bytes : List (BitVec 8)) (a : BitVec 64) : Prop where
  length : bytes.length = 8
  value : a.toNat = value bytes

theorem oneBits_toNat : oneBits.toNat = value (List.replicate 8 1) := by decide

theorem highBits_getLsbD : ∀ j < 64, highBits.getLsbD j = decide (j % 8 = 7) := by decide

/-- The high bits of `has_zero` below the first zero are clear, and the one of this byte is set. -/
theorem hasZero_getLsbD (word : Word bytes a) (inside : i < bytes.length)
    (before : ∀ b ∈ bytes.take i, b ≠ 0) :
    (hasZero a).getLsbD (8 * i + 7) = decide (bytes[i] = 0) := by
  have small : 8 * i + 7 < 64 := by
    have length := word.length
    omega
  have difference : (a - oneBits).getLsbD (8 * i + 7) = (minusOnes bytes).testBit (8 * i + 7) := by
    have bound : 2 ^ (8 * 8) = 2 ^ 64 := rfl
    rw [← BitVec.testBit_toNat, BitVec.toNat_sub, oneBits_toNat, word.value, minusOnes, word.length,
      bound, Nat.testBit_mod_two_pow, decide_eq_true small, Bool.true_and]
  have plain : a.getLsbD (8 * i + 7) = bytes[i].getLsbD 7 := by
    rw [← BitVec.testBit_toNat, word.value, testBit_value inside]
  have high : highBits.getLsbD (8 * i + 7) = true := by
    rw [highBits_getLsbD _ small]
    exact decide_eq_true (by omega)
  rw [hasZero, BitVec.getLsbD_and, BitVec.getLsbD_and, BitVec.getLsbD_not, difference, plain, high,
    testBit_minusOnes inside before, decide_eq_true small, Bool.true_and, Bool.and_true,
    high_of_zero]

/-! ## The first slash or NUL -/

/-- The byte ends a name. -/
def IsEnd (b : BitVec 8) : Prop := b = 0 ∨ b = 0x2f

instance IsEnd.decidable (b : BitVec 8) : Decidable (IsEnd b) := instDecidableOr

/-- Both detectors of the loop. -/
def detectors (a : BitVec 64) : BitVec 64 := hasZero a ||| hasZero (a ^^^ repeatByte 0x2f)

theorem Word.slashes (word : Word bytes a) :
    Word (bytes.map (· ^^^ 0x2f)) (a ^^^ repeatByte 0x2f) where
  length := by rw [List.length_map, word.length]
  value := by
    have repeated : (repeatByte 0x2f).toNat = LinuxCode.value (bytes.map fun _ => 0x2f) := by
      rw [List.map_const', word.length]
      decide
    rw [BitVec.toNat_xor, word.value, repeated, value_map_xor]

theorem hasZero_low (a : BitVec 64) {j : Nat} (other : j % 8 ≠ 7) :
    (hasZero a).getLsbD j = false := by
  by_cases small : j < 64
  · rw [hasZero, BitVec.getLsbD_and, highBits_getLsbD j small, decide_eq_false other, Bool.and_false]
  · exact BitVec.getLsbD_of_ge _ _ (Nat.not_lt.mp small)

theorem detectors_getLsbD (word : Word bytes a) (inside : i < bytes.length)
    (before : ∀ b ∈ bytes.take i, ¬IsEnd b) :
    (detectors a).getLsbD (8 * i + 7) = decide (IsEnd bytes[i]) := by
  have zero := hasZero_getLsbD word inside fun b mem isZero => before b mem (.inl isZero)
  have inside' : i < (bytes.map (· ^^^ 0x2f)).length := by rwa [List.length_map]
  have slash := hasZero_getLsbD word.slashes inside' (by
    intro c mem isZero
    rw [← List.map_take] at mem
    obtain ⟨b, here, rfl⟩ := List.mem_map.mp mem
    exact before b here (.inr (BitVec.xor_eq_zero_iff.mp isZero)))
  rw [detectors, BitVec.getLsbD_or, zero, slash, List.getElem_map, Bool.eq_iff_iff,
    Bool.or_eq_true, decide_eq_true_iff, decide_eq_true_iff, decide_eq_true_iff]
  exact or_congr Iff.rfl BitVec.xor_eq_zero_iff

/-- The lowest bit of the detectors belongs to the first slash or NUL. -/
theorem detectors_first (word : Word bytes a) (inside : k < bytes.length) (isEnd : IsEnd bytes[k])
    (before : ∀ b ∈ bytes.take k, ¬IsEnd b) : IsFirst (detectors a) (8 * k + 7) := by
  constructor
  · rw [detectors_getLsbD word inside before, decide_eq_true isEnd]
  · intro j below
    by_cases high : j % 8 = 7
    · obtain ⟨i, rfl⟩ : ∃ i, j = 8 * i + 7 := ⟨j / 8, by omega⟩
      have earlier : i < k := by omega
      have here : bytes[i] ∈ bytes.take k := List.mem_take_iff_getElem.mpr
        ⟨i, by omega, rfl⟩
      rw [detectors_getLsbD word (by omega) fun b mem => before b
        ((List.take_prefix_take_left earlier.le).subset mem), decide_eq_false (before _ here)]
    · rw [detectors, BitVec.getLsbD_or, hasZero_low a high, hasZero_low _ high, Bool.or_false]

theorem detectors_none (word : Word bytes a) (none : ∀ b ∈ bytes, ¬IsEnd b) : detectors a = 0 := by
  refine BitVec.eq_of_getLsbD_eq fun j small => ?_
  refine Eq.trans ?_ BitVec.getLsbD_zero.symm
  by_cases high : j % 8 = 7
  · obtain ⟨i, rfl⟩ : ∃ i, j = 8 * i + 7 := ⟨j / 8, by omega⟩
    have inside : i < bytes.length := by
      rw [word.length]
      omega
    rw [detectors_getLsbD word inside fun b mem => none b (List.mem_of_mem_take mem),
      decide_eq_false (none _ (List.getElem_mem inside))]
  · rw [detectors, BitVec.getLsbD_or, hasZero_low a high, hasZero_low _ high, Bool.or_false]

/-! ## The mask -/

/-- Below the lowest bit everything is set. -/
theorem createZeroMask_first (first : IsFirst bits (p + 7)) :
    createZeroMask bits = BitVec.ofNat 64 (2 ^ p - 1) := by
  have small : p + 7 < 64 := by
    by_contra beyond
    have none := BitVec.getLsbD_of_ge bits (p + 7) (by omega)
    exact Bool.false_ne_true (none.symm.trans first.1)
  have low : bits.toNat % 2 ^ (p + 8) = 2 ^ (p + 7) := by
    refine Nat.eq_of_testBit_eq fun j => ?_
    rw [Nat.testBit_mod_two_pow, BitVec.testBit_toNat, Nat.testBit_two_pow]
    by_cases here : p + 7 = j
    · subst here
      simp [first.1]
    · by_cases below : j < p + 7
      · rw [first.2 j below]
        simp [here]
      · have above : ¬j < p + 8 := by omega
        simp [here, above]
  obtain ⟨high, isHigh⟩ : ∃ high, bits.toNat = 2 ^ (p + 8) * high + 2 ^ (p + 7) :=
    ⟨bits.toNat / 2 ^ (p + 8), by rw [← low, Nat.div_add_mod]⟩
  have power : 2 ^ (p + 8) = 2 * 2 ^ (p + 7) := by rw [Nat.pow_succ, Nat.mul_comm]
  have positive := Nat.two_pow_pos (p + 7)
  have less : (bits - 1).toNat = 2 ^ (p + 8) * high + (2 ^ (p + 7) - 1) := by
    have one : (1 : BitVec 64).toNat = 1 := rfl
    have below := bits.isLt
    rw [BitVec.toNat_sub, one]
    omega
  refine BitVec.eq_of_getLsbD_eq fun j inside => ?_
  rw [createZeroMask, BitVec.getLsbD_ushiftRight, BitVec.getLsbD_and, BitVec.getLsbD_not,
    getLsbD_lowMask p (by omega), ← BitVec.testBit_toNat, ← BitVec.testBit_toNat, less, isHigh,
    Nat.testBit_two_pow_mul_add _ (by omega), Nat.testBit_two_pow_mul_add _ (by omega),
    Nat.testBit_two_pow_sub_one, Nat.testBit_two_pow]
  by_cases below : j < p
  · have within : 7 + j < p + 8 := by omega
    have other : p + 7 ≠ 7 + j := by omega
    have inner : 7 + j < 64 := by omega
    have lower : 7 + j < p + 7 := by omega
    simp [below, within, other, inner, lower]
  · by_cases here : j = p
    · subst here
      have within : ¬j + 8 ≤ 7 + j := by omega
      have same : j + 7 = 7 + j := Nat.add_comm ..
      simp [same, within]
    · have beyond : ¬7 + j < p + 8 := by omega
      simp only [below, beyond, if_false, decide_false]
      cases high.testBit (7 + j - (p + 8)) <;> simp

/-- The product counts the bytes of the mask. -/
theorem countMaskedBytes_mask :
    ∀ k < 8, countMaskedBytes (BitVec.ofNat 64 (2 ^ (8 * k) - 1)) = BitVec.ofNat 64 k := by
  decide

/-! ## The loop -/

/-- A string with its NUL, and whatever lies behind it. -/
structure Name where
  byte : Nat → BitVec 8
  terminated : ∃ i, byte i = 0

variable {name name' : Name} {len : Nat}

/-- Where the name ends. -/
def Name.stop (name : Name) : Nat :=
  Nat.find (⟨_, Or.inl name.terminated.choose_spec⟩ : ∃ i, IsEnd (name.byte i))

theorem Name.isEnd_stop (name : Name) : IsEnd (name.byte name.stop) :=
  Nat.find_spec (⟨_, Or.inl name.terminated.choose_spec⟩ : ∃ i, IsEnd (name.byte i))

theorem Name.not_isEnd (before : i < name.stop) : ¬IsEnd (name.byte i) :=
  Nat.find_min (⟨_, Or.inl name.terminated.choose_spec⟩ : ∃ i, IsEnd (name.byte i)) before

/-- The bytes of a word of the name. -/
def Name.word (name : Name) (len : Nat) : List (BitVec 8) :=
  (List.range 8).map fun i => name.byte (len + i)

theorem Name.word_length (name : Name) (len : Nat) : (name.word len).length = 8 := by
  rw [Name.word, List.length_map, List.length_range]

theorem Name.word_load (name : Name) (len : Nat) :
    Word (name.word len) (loadUnalignedZeropad name.byte len) where
  length := name.word_length len
  value := by
    have below := value_lt (name.word len)
    rw [name.word_length] at below
    exact Nat.mod_eq_of_lt below

theorem Name.word_getElem (inside : i < (name.word len).length) :
    (name.word len)[i] = name.byte (len + i) := by
  simp [Name.word]

theorem Name.mem_word (mem : b ∈ (name.word len).take k) :
    ∃ i < k, b = name.byte (len + i) := by
  obtain ⟨i, inside, rfl⟩ := List.mem_take_iff_getElem.mp mem
  exact ⟨i, by omega, Name.word_getElem _⟩

/-- The loop goes on only behind a word that does not end the name. -/
theorem Name.goes_on (clear : detectors (loadUnalignedZeropad name.byte len) = 0)
    (before : len ≤ name.stop) : len + 8 ≤ name.stop := by
  by_contra within
  have small : name.stop - len < 8 := by omega
  have inside : name.stop - len < (name.word len).length := by rwa [name.word_length]
  have sum : len + (name.stop - len) = name.stop := by omega
  have first := detectors_first (name.word_load len) inside
    (by rw [Name.word_getElem, sum]; exact name.isEnd_stop) (by
      intro b mem
      obtain ⟨i, less, rfl⟩ := Name.mem_word mem
      exact Name.not_isEnd (by omega))
  rw [clear] at first
  exact Bool.false_ne_true (BitVec.getLsbD_zero.symm.trans first.1)

/-- What the function prints and returns: the hash, the length of the words before the last one and
the bytes of the last one that are hashed. -/
structure Outcome where
  hash : BitVec 32
  len : Nat
  res : BitVec 64

/-- The loop of `hash_name` and what is behind it. -/
def hashLoop (name : Name) (x y : BitVec 64) (len : Nat) (before : len ≤ name.stop) : Outcome :=
  let a := loadUnalignedZeropad name.byte len
  if clear : detectors a = 0 then
    let (x, y) := hashMix x y a
    hashLoop name x y (len + 8) (Name.goes_on clear before)
  else
    let mask := createZeroMask (detectors a)
    ⟨foldHash (x ^^^ (a &&& mask)) y, len, countMaskedBytes mask⟩
termination_by name.stop - len
decreasing_by
  have further := Name.goes_on clear before
  omega

/-- `hash_name` -/
def hashName (salt : BitVec 64) (name : Name) : Outcome :=
  hashLoop name 0 salt 0 (Nat.zero_le _)

/-! ## What is hashed -/

/-- The hash of the bytes of a name. -/
def hashBytes (x y : BitVec 64) (bytes : List (BitVec 8)) : BitVec 32 :=
  if bytes.length < 8 then foldHash (x ^^^ BitVec.ofNat 64 (value bytes)) y
  else
    let (x, y) := hashMix x y (BitVec.ofNat 64 (value (bytes.take 8)))
    hashBytes x y (bytes.drop 8)
termination_by bytes.length
decreasing_by
  rw [List.length_drop]
  omega

/-- The bytes of the name from there on. -/
def Name.rest (name : Name) (len : Nat) : List (BitVec 8) :=
  (List.range (name.stop - len)).map fun i => name.byte (len + i)

theorem Name.rest_length (name : Name) (len : Nat) : (name.rest len).length = name.stop - len := by
  rw [Name.rest, List.length_map, List.length_range]

/-- As far as the name goes, a word holds its bytes. -/
theorem Name.take_rest (small : k ≤ 8) (within : len + k ≤ name.stop) :
    (name.rest len).take k = (name.word len).take k := by
  rw [Name.rest, Name.word, ← List.map_take, ← List.map_take, List.take_range, List.take_range,
    Nat.min_eq_left small, Nat.min_eq_left (by omega)]

theorem Name.drop_rest (name : Name) (len : Nat) :
    (name.rest len).drop 8 = name.rest (len + 8) := by
  refine List.ext_getElem ?_ fun i _ _ => ?_
  · rw [List.length_drop, Name.rest_length, Name.rest_length]
    omega
  · simp [Name.rest]
    congr 1
    omega

/-- The bytes of the last word that are hashed. -/
theorem and_mask (word : Word bytes a) (k : Nat) :
    a &&& BitVec.ofNat 64 (2 ^ (8 * k) - 1) = BitVec.ofNat 64 (value (bytes.take k)) := by
  refine BitVec.eq_of_getLsbD_eq fun j small => ?_
  rw [BitVec.getLsbD_and, BitVec.getLsbD_ofNat, BitVec.getLsbD_ofNat, ← value_take, ← word.value,
    Nat.testBit_mod_two_pow, BitVec.testBit_toNat, Nat.testBit_two_pow_sub_one]
  simp only [small, decide_true, Bool.true_and]
  rw [Bool.and_comm]

/-- The last word. -/
theorem Name.last (within : len ≤ name.stop) (small : name.stop < len + 8) :
    createZeroMask (detectors (loadUnalignedZeropad name.byte len)) =
      BitVec.ofNat 64 (2 ^ (8 * (name.stop - len)) - 1) := by
  have inside : name.stop - len < (name.word len).length := by
    rw [name.word_length]
    omega
  have sum : len + (name.stop - len) = name.stop := by omega
  refine createZeroMask_first (detectors_first (name.word_load len) inside ?_ ?_)
  · rw [Name.word_getElem, sum]
    exact name.isEnd_stop
  · intro b mem
    obtain ⟨i, less, rfl⟩ := Name.mem_word mem
    exact Name.not_isEnd (by omega)

theorem Name.ends_here (within : name.stop < len + 8)
    (before : len ≤ name.stop) : detectors (loadUnalignedZeropad name.byte len) ≠ 0 := fun clear =>
  absurd (Name.goes_on clear before) (by omega)

theorem Name.clear (beyond : len + 8 ≤ name.stop) :
    detectors (loadUnalignedZeropad name.byte len) = 0 := by
  refine detectors_none (name.word_load len) fun b mem => ?_
  have all : (name.word len).take 8 = name.word len :=
    List.take_of_length_le (name.word_length len).le
  rw [← all] at mem
  obtain ⟨i, less, rfl⟩ := Name.mem_word mem
  exact Name.not_isEnd (by omega)

theorem toInt_small : ∀ k < 8, (BitVec.ofNat 64 k).toInt = k := by decide

/-- The loop stops at the end of the name, and hashes what is before it. -/
theorem hashLoop_stop (x y : BitVec 64) (before : len ≤ name.stop) :
    (hashLoop name x y len before).len + (hashLoop name x y len before).res.toInt = name.stop ∧
      (hashLoop name x y len before).hash = hashBytes x y (name.rest len) := by
  obtain ⟨left, isLeft⟩ : ∃ left, name.stop - len = left := ⟨_, rfl⟩
  induction left using Nat.strongRecOn generalizing x y len with
  | ind left ih =>
    rw [hashLoop, hashBytes, name.rest_length]
    by_cases more : len + 8 ≤ name.stop
    · have full : BitVec.ofNat 64 (value ((name.rest len).take 8)) =
          loadUnalignedZeropad name.byte len := by
        rw [Name.take_rest (Nat.le_refl 8) more, List.take_of_length_le (name.word_length len).le]
        rfl
      rw [dif_pos (Name.clear more), if_neg (by omega), full, name.drop_rest]
      exact ih _ (by omega) _ _ more rfl
    · have here : name.stop - len < 8 := by omega
      have hashed : loadUnalignedZeropad name.byte len &&&
          BitVec.ofNat 64 (2 ^ (8 * (name.stop - len)) - 1) =
            BitVec.ofNat 64 (value (name.rest len)) := by
        rw [and_mask (name.word_load len), ← Name.take_rest here.le (by omega),
          List.take_of_length_le (name.rest_length len).le]
      rw [dif_neg (Name.ends_here (by omega) before), if_pos here, Name.last before (by omega)]
      simp only [countMaskedBytes_mask _ here, hashed, toInt_small _ here]
      exact ⟨by omega, trivial⟩

/-- The loop stops at the first slash or NUL, and the hash is one of the salt and of the bytes
before it. -/
theorem hashName_stop (salt : BitVec 64) (name : Name) :
    (hashName salt name).len + (hashName salt name).res.toInt = name.stop ∧
      (hashName salt name).hash = hashBytes 0 salt (name.rest 0) :=
  hashLoop_stop 0 salt (Nat.zero_le _)

end Busybox.LinuxCode
