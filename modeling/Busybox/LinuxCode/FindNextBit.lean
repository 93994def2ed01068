import Mathlib.Data.List.Basic
import Mathlib.Data.Nat.Bitwise
import Mathlib.Data.Nat.Find
import Mathlib.Tactic.Common

/-!
# `FIND_NEXT_BIT`

The macro in `linuxCode/find_next_bit/main.c` looks for the next bit that is set in an array of
words. What it fetches of a word of the array is a parameter, and `MUNGE` does nothing.
-/

namespace Busybox.LinuxCode

/-- `num` and `word`, without the low half of the word if nothing is set there. -/
def lowHalf (mask : BitVec 64) (half : Nat) (state : Nat × BitVec 64) : Nat × BitVec 64 :=
  if state.2 &&& mask = 0 then (state.1 + half, state.2 >>> half) else state

/-- `generic___ffs` -/
def genericFfs (word : BitVec 64) : Nat :=
  let state := lowHalf 0xffffffff 32 (0, word)
  let state := lowHalf 0xffff 16 state
  let state := lowHalf 0xff 8 state
  let state := lowHalf 0xf 4 state
  let state := lowHalf 0x3 2 state
  if state.2 &&& 0x1 = 0 then state.1 + 1 else state.1

/-- `BITMAP_FIRST_WORD_MASK` -/
def bitmapFirstWordMask (start : BitVec 64) : BitVec 64 :=
  BitVec.allOnes 64 <<< (start &&& (64 - 1)).toNat

variable {α : Type} (fetch : α → BitVec 64) (addr : List α)

/-- The loop, and what is returned behind it; `none` where a word outside of the array is read. -/
def findLoop (sz : BitVec 64) (idx : Nat) (tmp : BitVec 64) : Option (BitVec 64) :=
  if tmp = 0 then
    if sz ≤ BitVec.ofNat 64 (idx + 1) * 64 then some sz
    else if inside : idx + 1 < addr.length then findLoop sz (idx + 1) (fetch addr[idx + 1])
    else none
  else
    let found := BitVec.ofNat 64 idx * 64 + BitVec.ofNat 64 (genericFfs tmp)
    some (if found < sz then found else sz)
termination_by addr.length - idx

/-- `FIND_NEXT_BIT` -/
def findNextBit (size start : BitVec 64) : Option (BitVec 64) :=
  if size ≤ start then some size
  else do
    let idx := start.toNat / 64
    let word ← addr[idx]?
    findLoop fetch addr size idx (fetch word &&& bitmapFirstWordMask start)

/-! ## The first bit of a word -/

variable {word mask : BitVec 64} {state : Nat × BitVec 64} {half i : Nat}

/-- The bit is set, and none below it. -/
def IsFirst (word : BitVec 64) (i : Nat) : Prop :=
  word.getLsbD i = true ∧ ∀ j < i, word.getLsbD j = false

theorem getLsbD_lowMask (half : Nat) (small : half ≤ 64) (j : Nat) :
    (BitVec.ofNat 64 (2 ^ half - 1)).getLsbD j = decide (j < half) := by
  rw [BitVec.getLsbD_ofNat, Nat.testBit_two_pow_sub_one]
  by_cases below : j < half
  · simp [below]
    omega
  · simp [below]

/-- Nothing is set in the low half only if the first bit is not in there. -/
theorem and_lowMask_eq_zero (small : half ≤ 64) (first : IsFirst word i) :
    word &&& BitVec.ofNat 64 (2 ^ half - 1) = 0 ↔ half ≤ i := by
  obtain ⟨set, clear⟩ := first
  constructor
  · intro zero
    by_contra below
    have bit := congrArg (BitVec.getLsbD · i) zero
    simp only [BitVec.getLsbD_and, getLsbD_lowMask half small, set, Nat.not_le.mp below] at bit
    simp at bit
  · intro above
    refine BitVec.eq_of_getLsbD_eq fun j _ => ?_
    rw [BitVec.getLsbD_and, getLsbD_lowMask half small]
    by_cases below : j < half
    · rw [clear j (by omega)]
      simp
    · simp [below]

/-- Half of the bits are left, and the first of them is the first of all. -/
theorem lowHalf_first (small : half ≤ 64) (first : IsFirst state.2 i) (within : i < 2 * half) :
    ∃ i', IsFirst (lowHalf (BitVec.ofNat 64 (2 ^ half - 1)) half state).2 i' ∧ i' < half ∧
      (lowHalf (BitVec.ofNat 64 (2 ^ half - 1)) half state).1 + i' = state.1 + i := by
  have masked := and_lowMask_eq_zero small first
  rw [lowHalf]
  by_cases above : half ≤ i
  · rw [if_pos (masked.mpr above)]
    have shifted : ∀ j, (state.2 >>> half).getLsbD j = state.2.getLsbD (half + j) := fun j =>
      BitVec.getLsbD_ushiftRight ..
    refine ⟨i - half, ⟨?_, fun j below => ?_⟩, by omega, by simp only; omega⟩
    · rw [shifted, Nat.add_sub_cancel' above, first.1]
    · rw [shifted, first.2 (half + j) (by omega)]
  · rw [if_neg fun zero => above (masked.mp zero)]
    exact ⟨i, first, by omega, rfl⟩

/-- The search for the first bit finds it. -/
theorem genericFfs_first (first : IsFirst word i) : genericFfs word = i := by
  have within : i < 2 * 32 := by
    by_contra beyond
    have none := BitVec.getLsbD_of_ge word i (by omega)
    exact Bool.false_ne_true (none.symm.trans first.1)
  obtain ⟨i₁, first₁, within₁, sum₁⟩ :=
    @lowHalf_first (0, word) 32 i (by decide) first within
  obtain ⟨i₂, first₂, within₂, sum₂⟩ := @lowHalf_first _ 16 i₁ (by decide) first₁ within₁
  obtain ⟨i₃, first₃, within₃, sum₃⟩ := @lowHalf_first _ 8 i₂ (by decide) first₂ within₂
  obtain ⟨i₄, first₄, within₄, sum₄⟩ := @lowHalf_first _ 4 i₃ (by decide) first₃ within₃
  obtain ⟨i₅, first₅, within₅, sum₅⟩ := @lowHalf_first _ 2 i₄ (by decide) first₄ within₄
  have last := @and_lowMask_eq_zero _ 1 i₅ (by decide) first₅
  have total : ∀ state : Nat × BitVec 64, state.1 + i₅ = i →
      (state.2 &&& 1 = 0 ↔ 1 ≤ i₅) → (if state.2 &&& 1 = 0 then state.1 + 1 else state.1) = i := by
    intro state sum last
    split
    case isTrue zero =>
      have one := last.mp zero
      omega
    case isFalse some =>
      have none : ¬1 ≤ i₅ := fun one => some (last.mpr one)
      omega
  refine total _ ?_ last
  calc _ = _ := sum₅
    _ = _ := sum₄
    _ = _ := sum₃
    _ = _ := sum₂
    _ = _ := sum₁
    _ = i := Nat.zero_add i

theorem exists_first (nonzero : word ≠ 0) : ∃ i, IsFirst word i := by
  have some : ∃ i, word.getLsbD i = true := by
    by_contra none
    refine nonzero (BitVec.eq_of_getLsbD_eq fun j _ => ?_)
    refine Eq.trans ?_ BitVec.getLsbD_zero.symm
    exact Bool.eq_false_iff.mpr fun set => none ⟨j, set⟩
  classical
  refine ⟨Nat.find some, Nat.find_spec some, fun j below => ?_⟩
  exact Bool.eq_false_iff.mpr (Nat.find_min some below)

/-! ## The first bit of the array -/

variable {fetch : α → BitVec 64} {addr : List α} {size start sz tmp : BitVec 64} {idx : Nat}

/-- The fetched bit. -/
def IsSet (fetch : α → BitVec 64) (addr : List α) (i : Nat) : Prop :=
  ∃ word ∈ addr[i / 64]?, (fetch word).getLsbD (i % 64) = true

/-- What the word that is looked at says about the bits of the array. -/
structure Reached (fetch : α → BitVec 64) (addr : List α) (start : Nat) (idx : Nat)
    (tmp : BitVec 64) : Prop where
  inside : idx < addr.length
  before : ∀ i, start ≤ i → i < 64 * idx → ¬IsSet fetch addr i
  here : ∀ j < 64, tmp.getLsbD j = true ↔ start ≤ 64 * idx + j ∧ IsSet fetch addr (64 * idx + j)

theorem isSet_word (inside : idx < addr.length) {j : Nat} (small : j < 64) :
    IsSet fetch addr (64 * idx + j) ↔ (fetch addr[idx]).getLsbD j = true := by
  have quotient : (64 * idx + j) / 64 = idx := by omega
  have remainder : (64 * idx + j) % 64 = j := by omega
  rw [IsSet, quotient, remainder, List.getElem?_eq_getElem inside]
  simp

/-- The first word is masked. -/
theorem reached_first (inside : start.toNat / 64 < addr.length) :
    Reached fetch addr start.toNat (start.toNat / 64)
      (fetch addr[start.toNat / 64] &&& bitmapFirstWordMask start) := by
  refine ⟨inside, fun i least below => by omega, fun j small => ?_⟩
  have shift : (start &&& (64 - 1)).toNat = start.toNat % 64 := by
    have low : (64 - 1 : BitVec 64) = BitVec.ofNat 64 (2 ^ 6 - 1) := rfl
    rw [low, BitVec.toNat_and, BitVec.toNat_ofNat, Nat.mod_eq_of_lt (by decide),
      Nat.and_two_pow_sub_one_eq_mod]
  have masked : (bitmapFirstWordMask start).getLsbD j = decide (start.toNat % 64 ≤ j) := by
    rw [bitmapFirstWordMask, shift, BitVec.getLsbD_shiftLeft, BitVec.getLsbD_allOnes]
    simp only [small, decide_true, Bool.true_and]
    by_cases below : j < start.toNat % 64
    · simp [below]
    · simp [below]
      omega
  rw [BitVec.getLsbD_and, masked, Bool.and_eq_true, decide_eq_true_eq, isSet_word inside small,
    and_comm]
  have same : start.toNat % 64 ≤ j ↔ start.toNat ≤ 64 * (start.toNat / 64) + j := by omega
  rw [same]

/-- No bit of the word is set from the start on. -/
theorem Reached.none (reached : Reached fetch addr start.toNat idx 0) {i : Nat}
    (least : start.toNat ≤ i) (below : i < 64 * (idx + 1)) : ¬IsSet fetch addr i := by
  by_cases earlier : i < 64 * idx
  · exact reached.before i least earlier
  · have here := reached.here (i - 64 * idx) (by omega)
    have sum : 64 * idx + (i - 64 * idx) = i := by omega
    rw [sum] at here
    exact fun set => Bool.false_ne_true (BitVec.getLsbD_zero.symm.trans (here.mpr ⟨least, set⟩))

/-- Nothing is set in this word, and the next one is looked at. -/
theorem Reached.next (reached : Reached fetch addr start.toNat idx 0)
    (inside : idx + 1 < addr.length) (least : start.toNat ≤ 64 * (idx + 1)) :
    Reached fetch addr start.toNat (idx + 1) (fetch addr[idx + 1]) := by
  refine ⟨inside, fun i from_ below => ?_, fun j small => ?_⟩
  · exact reached.none from_ below
  · rw [isSet_word inside small]
    exact ⟨fun set => ⟨by omega, set⟩, And.right⟩

/-- The first bit that is set from the start on and lies below the size, or the size. -/
def IsNext (fetch : α → BitVec 64) (addr : List α) (size start r : Nat) : Prop :=
  (∀ i, start ≤ i → i < r → i < size → ¬IsSet fetch addr i) ∧
    (start ≤ r ∧ r < size ∧ IsSet fetch addr r ∨ r = size)

/-- The array ends with the word that contains the last bit. -/
structure Ends (addr : List α) (size : Nat) : Prop where
  some : 64 * addr.length < size + 64
  all : size ≤ 64 * addr.length

/-- The loop comes to its bound, or to a bit before it. -/
def Stops (fetch : α → BitVec 64) (addr : List α) (size start : Nat) : Prop :=
  size ≤ 2 ^ 64 - 64 ∨ ∃ i, start ≤ i ∧ i < 64 * addr.length ∧ IsSet fetch addr i

theorem findLoop_found (ends : Ends addr size.toNat) (nonzero : tmp ≠ 0)
    (reached : Reached fetch addr start.toNat idx tmp) :
    ∃ r, findLoop fetch addr size idx tmp = some r ∧
      IsNext fetch addr size.toNat start.toNat r.toNat ∧
      Stops fetch addr size.toNat start.toNat := by
  obtain ⟨i, first⟩ := exists_first nonzero
  have small : i < 64 := by
    by_contra beyond
    have none := BitVec.getLsbD_of_ge tmp i (by omega)
    exact Bool.false_ne_true (none.symm.trans first.1)
  have inside := reached.inside
  have some := ends.some
  have below := size.isLt
  obtain ⟨least, set⟩ := (reached.here i small).mp first.1
  have number : (BitVec.ofNat 64 idx * 64 + BitVec.ofNat 64 (genericFfs tmp)).toNat =
      64 * idx + i := by
    have bits : (64 : BitVec 64).toNat = 64 := rfl
    rw [genericFfs_first first, BitVec.toNat_add, BitVec.toNat_mul, BitVec.toNat_ofNat,
      BitVec.toNat_ofNat, bits]
    omega
  have clear : ∀ j, start.toNat ≤ j → j < 64 * idx + i → ¬IsSet fetch addr j := by
    intro j from_ before
    by_cases earlier : j < 64 * idx
    · exact reached.before j from_ earlier
    · have here := reached.here (j - 64 * idx) (by omega)
      have sum : 64 * idx + (j - 64 * idx) = j := by omega
      rw [sum] at here
      have isClear := first.2 (j - 64 * idx) (by omega)
      exact fun set => Bool.false_ne_true (isClear.symm.trans (here.mpr ⟨from_, set⟩))
  rw [findLoop, if_neg nonzero]
  refine ⟨_, rfl, ?_, .inr ⟨_, least, by omega, set⟩⟩
  split
  case isTrue lower =>
    have lower := BitVec.lt_def.mp lower
    rw [number] at lower ⊢
    exact ⟨fun j from_ before _ => clear j from_ before, .inl ⟨least, lower, set⟩⟩
  case isFalse higher =>
    have higher := Nat.not_lt.mp fun less => higher (BitVec.lt_def.mpr less)
    rw [number] at higher
    exact ⟨fun j from_ _ before => clear j from_ (by omega), .inr rfl⟩

/-- The loop finds the next bit, unless it passes the last word. -/
theorem findLoop_next (ends : Ends addr size.toNat) (least : start.toNat ≤ 64 * (idx + 1))
    (reached : Reached fetch addr start.toNat idx tmp) :
    (∃ r, findLoop fetch addr size idx tmp = some r ∧
      IsNext fetch addr size.toNat start.toNat r.toNat ∧ Stops fetch addr size.toNat start.toNat) ∨
    findLoop fetch addr size idx tmp = none ∧ 2 ^ 64 - 64 < size.toNat ∧
      ∀ i, start.toNat ≤ i → i < 64 * addr.length → ¬IsSet fetch addr i := by
  obtain ⟨left, isLeft⟩ : ∃ left, addr.length - idx = left := ⟨_, rfl⟩
  induction left generalizing idx tmp with
  | zero =>
    have inside := reached.inside
    omega
  | succ left ih =>
    by_cases nonzero : tmp ≠ 0
    · exact .inl (findLoop_found ends nonzero reached)
    have zero : tmp = 0 := not_not.mp nonzero
    rw [zero] at reached ⊢
    have inside := reached.inside
    have some := ends.some
    have all := ends.all
    have below := size.isLt
    have limit : size ≤ BitVec.ofNat 64 (idx + 1) * 64 ↔
        size.toNat ≤ 64 * (idx + 1) % 2 ^ 64 := by
      have bits : (64 : BitVec 64).toNat = 64 := rfl
      rw [BitVec.le_def, BitVec.toNat_mul, BitVec.toNat_ofNat, bits, Nat.mod_mul_mod, Nat.mul_comm]
    rw [findLoop, if_pos rfl]
    by_cases last : idx + 1 < addr.length
    · rw [if_neg (by rw [limit]; omega), dif_pos last]
      exact ih (by omega) (reached.next last least) (by omega)
    · by_cases wraps : 64 * (idx + 1) = 2 ^ 64
      · right
        rw [if_neg (by rw [limit]; omega), dif_neg last]
        exact ⟨rfl, by omega, fun i from_ before => reached.none from_ (by omega)⟩
      · left
        rw [if_pos (by rw [limit]; omega)]
        exact ⟨size, rfl, ⟨fun i from_ before _ => reached.none from_ (by omega), .inr rfl⟩,
          .inl (by omega)⟩

/-! ## The whole array -/

variable {front more : List α}

theorem isSet_append {i : Nat} (below : i < 64 * front.length) :
    IsSet fetch (front ++ more) i ↔ IsSet fetch front i := by
  rw [IsSet, IsSet, List.getElem?_append_left (by omega)]

/-- What lies behind the words that are read does not matter. -/
theorem findLoop_append {r : BitVec 64} (found : findLoop fetch front sz idx tmp = some r)
    (inside : idx < front.length) : findLoop fetch (front ++ more) sz idx tmp = some r := by
  obtain ⟨left, isLeft⟩ : ∃ left, front.length - idx = left := ⟨_, rfl⟩
  induction left generalizing idx tmp with
  | zero => omega
  | succ left ih =>
    rw [findLoop] at found ⊢
    split at found
    case isTrue zero =>
      rw [if_pos zero]
      split at found
      case isTrue last => rwa [if_pos last]
      case isFalse goes =>
        rw [if_neg goes]
        split at found
        case isTrue next =>
          have next' : idx + 1 < (front ++ more).length := by
            rw [List.length_append]
            omega
          rw [dif_pos next', List.getElem_append_left next]
          exact ih found next (by omega)
        case isFalse => exact nomatch found
    case isFalse nonzero => rwa [if_neg nonzero]

theorem findNextBit_append {r : BitVec 64} (found : findNextBit fetch front size start = some r) :
    findNextBit fetch (front ++ more) size start = some r := by
  rw [findNextBit] at found ⊢
  split at found
  case isTrue done => rwa [if_pos done]
  case isFalse goes =>
    rw [if_neg goes]
    by_cases inside : start.toNat / 64 < front.length
    · simp only [List.getElem?_eq_getElem inside, List.getElem?_append_left inside] at found ⊢
      exact findLoop_append found inside
    · simp only [List.getElem?_eq_none (Nat.not_lt.mp inside)] at found
      exact nomatch found

/-- Over the words with bits below the size. -/
theorem findNextBit_next (ends : Ends addr size.toNat) :
    (∃ r, findNextBit fetch addr size start = some r ∧
      IsNext fetch addr size.toNat start.toNat r.toNat ∧
      (size ≤ start ∨ Stops fetch addr size.toNat start.toNat)) ∨
    findNextBit fetch addr size start = none ∧ 2 ^ 64 - 64 < size.toNat ∧ start < size ∧
      ∀ i, start.toNat ≤ i → i < 64 * addr.length → ¬IsSet fetch addr i := by
  rw [findNextBit]
  by_cases done : size ≤ start
  · have done' := BitVec.le_def.mp done
    rw [if_pos done]
    exact .inl ⟨size, rfl, ⟨fun i from_ _ before => by omega, .inr rfl⟩, .inl done⟩
  · have goes := BitVec.not_le.mp done
    have goes' := BitVec.lt_def.mp goes
    have all := ends.all
    have inside : start.toNat / 64 < addr.length := by omega
    rw [if_neg done]
    simp only [List.getElem?_eq_getElem inside]
    have first := @reached_first _ fetch addr start inside
    refine (findLoop_next ends (by omega) first).imp ?_ ?_
    · rintro ⟨r, found, next, stops⟩
      exact ⟨r, found, next, .inr stops⟩
    · rintro ⟨lost, large, clear⟩
      exact ⟨lost, large, goes, clear⟩

theorem isNext_append {size r : Nat} (all : size ≤ 64 * front.length)
    (next : IsNext fetch front size start.toNat r) :
    IsNext fetch (front ++ more) size start.toNat r := by
  refine ⟨fun i from_ before below => ?_, next.2.imp_left fun ⟨from_, below, set⟩ => ?_⟩
  · rw [isSet_append (by omega)]
    exact next.1 i from_ before below
  · exact ⟨from_, below, (isSet_append (by omega)).mpr set⟩

/-- The next bit is found without a read behind the word with the last bit, unless the size is so
large that the bound of the loop wraps around and no bit is set any more. -/
theorem findNextBit_iff (fetch : α → BitVec 64) (start : BitVec 64)
    (large : size.toNat ≤ 64 * addr.length) :
    (∃ r, findNextBit fetch (addr.take ((size.toNat + 63) / 64)) size start = some r ∧
        findNextBit fetch addr size start = some r ∧
        IsNext fetch addr size.toNat start.toNat r.toNat) ↔
      size.toNat ≤ 2 ^ 64 - 64 ∨ size ≤ start ∨
        ∃ i, start.toNat ≤ i ∧ i < 2 ^ 64 ∧ IsSet fetch addr i := by
  obtain ⟨front, more, rfl, words⟩ : ∃ front more, addr = front ++ more ∧
      front.length = (size.toNat + 63) / 64 := by
    refine ⟨_, _, (List.take_append_drop ((size.toNat + 63) / 64) addr).symm, ?_⟩
    rw [List.length_take]
    omega
  have ends : Ends front size.toNat := ⟨by omega, by omega⟩
  have below := size.isLt
  rw [← words, List.take_left]
  constructor
  · rintro ⟨r, found, -, -⟩
    rcases @findNextBit_next _ fetch front size start ends with ⟨_, _, _, stops⟩ | ⟨lost, -⟩
    · rcases stops with done | small | ⟨i, from_, before, set⟩
      · exact .inr (.inl done)
      · exact .inl small
      · exact .inr (.inr ⟨i, from_, by omega, (isSet_append before).mpr set⟩)
    · exact nomatch lost.symm.trans found
  · intro stops
    rcases @findNextBit_next _ fetch front size start ends with
      ⟨r, found, next, _⟩ | ⟨_, many, goes, clear⟩
    · exact ⟨r, found, findNextBit_append found, isNext_append ends.all next⟩
    · rcases stops with small | done | ⟨i, from_, before, set⟩
      · omega
      · exact absurd goes (BitVec.not_lt.mpr done)
      · have inside : i < 64 * front.length := by omega
        exact absurd ((isSet_append inside).mp set) (clear i from_ inside)

/-- The bit that is set in the second of two words. -/
theorem findNextBit_second :
    (∃ r, findNextBit id ([0, 4].take ((100 + 63) / 64)) 100 3 = some r ∧
        findNextBit id [0, 4] 100 3 = some r ∧ IsNext id [0, 4] 100 3 r.toNat) ↔
      100 ≤ 2 ^ 64 - 64 ∨ (100 : BitVec 64) ≤ 3 ∨
        ∃ i, 3 ≤ i ∧ i < 2 ^ 64 ∧ IsSet id [(0 : BitVec 64), 4] i :=
  @findNextBit_iff _ [0, 4] 100 id 3 (by decide)

theorem not_isSet_zeros (n i : Nat) : ¬IsSet id (List.replicate n 0) i := by
  rintro ⟨word, mem, set⟩
  have zero : word = 0 := List.eq_of_mem_replicate (List.mem_of_getElem? mem)
  rw [zero] at set
  exact Bool.false_ne_true (BitVec.getLsbD_zero.symm.trans set)

/-- In an array of zeros the word behind the last bit is read, where the size is the largest
number. -/
theorem findNextBit_outside :
    (0xffffffffffffffff : BitVec 64).toNat ≤ 64 * (List.replicate (2 ^ 58) (0 : BitVec 64)).length ∧
      findNextBit id (List.replicate (2 ^ 58) 0) 0xffffffffffffffff 0 = none := by
  have size : (0xffffffffffffffff : BitVec 64).toNat = 0xffffffffffffffff := rfl
  have ends : Ends (List.replicate (2 ^ 58) (0 : BitVec 64))
      (0xffffffffffffffff : BitVec 64).toNat := by
    constructor
    · simp only [size, List.length_replicate]
      omega
    · simp only [size, List.length_replicate]
      omega
  refine ⟨ends.all, ?_⟩
  rcases @findNextBit_next _ id _ 0xffffffffffffffff 0 ends with ⟨_, _, _, stops⟩ | ⟨lost, -⟩
  · rcases stops with done | small | ⟨i, _, _, set⟩
    · exact absurd done (by decide)
    · exact absurd small (by rw [size]; decide)
    · exact absurd set (not_isSet_zeros _ i)
  · exact lost

end Busybox.LinuxCode
