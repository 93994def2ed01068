import Mathlib
import Busybox.Libbb.Strings
import Busybox.Lib.Fallible

/-!
# Headers of tar archives

The header is a block of 512 bytes in which `getOctal` writes behind each field that it
reads. For a GNU 'L' or 'K' record the name is read into a buffer that has one byte more,
but the sizes are computed modulo 2^64, so a size of minus one has no such buffer.
-/

namespace Busybox.Archival.TarHeader

/-! ## Numbers -/

/-- `isspace` of the C locale. -/
def isspace (c : UInt8) : Bool := c == 32 || (9 ≤ c && c ≤ 13)

def isOctal (c : UInt8) : Bool := 48 ≤ c && c ≤ 55

def octalValue (digits : List UInt8) (value : Nat) : Nat :=
  digits.foldl (fun value c => value * 8 + (c.toNat - 48)) value

/-- `strtoull` with base 8: the value, and the string at `*end`. Out of range, it is the
largest value. -/
def strtoull (str : List UInt8) : Nat × List UInt8 :=
  let text := str.dropWhile isspace
  let minus := text.head? = some 45
  let number := if minus ∨ text.head? = some 43 then text.tail else text
  let digits := number.takeWhile isOctal
  if digits = [] then (0, str)
  else
    let value := octalValue digits 0
    (if 2 ^ 64 ≤ value then 2 ^ 64 - 1 else if minus then (2 ^ 64 - value) % 2 ^ 64 else value,
      number.dropWhile isOctal)

/-- The base-256 encoding: seven bits with their sign, and eight of each byte behind them. -/
def base256 (first : UInt8) (rest : List UInt8) : Nat :=
  let start := ((first.toBitVec.setWidth 7).signExtend 64).toNat
  rest.foldl (fun v c => (v * 256 + c.toNat) % 2 ^ 64) start

/-- `getOctal`, for a field behind which it has written a NUL. -/
def getOctal (field : List UInt8) : Except String Nat :=
  let (v, rest) := strtoull field
  if rest.headD 0 ≠ 0 ∧ rest.headD 0 ≠ 32 then
    let first := field.headD 0
    if first &&& 0x80 = 0 then .error "corrupted octal value in tar header"
    else .ok (base256 first field.tail)
  else .ok v

/-! ## The header -/

def slice (tar : List UInt8) (offset size : Nat) : List UInt8 := (tar.drop offset).take size

/-- `GET_OCTAL`: the number in a field, and the header with the NUL behind it. -/
def getOctalAt (tar : List UInt8) (offset size : Nat) : Except String (Nat × List UInt8) := do
  let v ← getOctal (slice tar offset size)
  .ok (v, tar.set (offset + size) 0)

/-- What `get_header_tar` goes on with. The sizes of a long name are those of the buffer
and of the read into it, and that of a pax header is what is passed on. -/
inductive Outcome
  | empty
  | autodetect
  | dies (message : String)
  | pax (size : Nat) (global : Bool)
  | longname (allocated asked : Nat)
  | linkname (allocated asked : Nat)
  | skipped (typeflag : UInt8)
  | member (typeflag : UInt8)
  | unknown (typeflag : UInt8)
deriving DecidableEq, Repr

/-- "ustar" is for the proper tar, five NULs are for the old tar format. -/
def validMagic (tar : List UInt8) : Bool :=
  slice tar 257 5 = ascii "ustar" || slice tar 257 5 = List.replicate 5 0

/-- The bytes that the checksum is over. -/
def summed (tar : List UInt8) : List UInt8 := tar.take 148 ++ slice tar 156 356

/-- The checksum of unsigned bytes, and that of signed ones. -/
def validSum (tar : List UInt8) (sum : BitVec 32) : Bool :=
  8 * 32 + ((summed tar).map fun c => (c.toNat : Int)).sum = sum.toInt ||
    8 * 32 + ((summed tar).map fun c => c.toInt8.toInt).sum = sum.toInt

/-- `xzalloc(size + 1)` and the size of the read behind it. -/
def nameSizes (size : Nat) : Nat × Nat := ((size + 1) % 2 ^ 64, size % 2 ^ 64)

/-- The device numbers, and the header as they leave it. -/
def readDevice (tar : List UInt8) : Except String (List UInt8) :=
  if tar.getD 329 0 ≠ 0 then do
    -- we trash prefix[0] here, but we DO need it later!
    let minor ← getOctalAt tar 337 8
    let major ← getOctalAt minor.2 329 8
    .ok (major.2.set 345 (tar.getD 345 0))
  else .ok tar

/-- The numbers of a header, read from the last field to the first: the size. -/
def readNumbers (tar : List UInt8) : Except String Nat := do
  let device ← readDevice tar
  let mtime ← getOctalAt device 136 12
  let size ← getOctalAt mtime.2 124 12
  let gid ← getOctalAt size.2 116 8
  let uid ← getOctalAt gid.2 108 8
  let _ ← getOctalAt uid.2 100 8
  .ok size.1

/-- The type of the header, when its numbers have been read. -/
def dispatch (typeflag : UInt8) (size : Nat) : Outcome :=
  let typeflag := if typeflag = 0 then 48 else typeflag
  if 48 ≤ typeflag ∧ typeflag ≤ 55 then .member typeflag
  else if typeflag = 103 ∨ typeflag = 120 then
    if 0xfffff < size then .skipped typeflag else .pax size (typeflag = 103)
  else if typeflag = 76 then .longname (nameSizes size).1 (nameSizes size).2
  else if typeflag = 75 then .linkname (nameSizes size).1 (nameSizes size).2
  else if typeflag = 86 then .skipped typeflag
  else .unknown typeflag

/-- `get_header_tar`, from the header block that it has read to the type of the header. -/
def getHeaderTar (longname : Bool) (tar : List UInt8) : Outcome :=
  if tar.getD 0 0 = 0 ∧ tar.getD 345 0 = 0 ∧ ¬ longname then .empty
  else if ¬ validMagic tar then .autodetect
  else
    match getOctalAt tar 148 8 with
    | .error message => .dies message
    | .ok (sum, trashed) =>
      if ¬ validSum tar (BitVec.ofNat 32 sum) then .dies "invalid tar header checksum"
      else
        match readNumbers trashed with
        | .error message => .dies message
        | .ok size => dispatch (tar.getD 156 0) size

/-! ## Sizes of minus one -/

/-- A size field that is read as minus one: in octal, with a minus sign, or in base 256,
where the bytes in front of the last eight are shifted out. -/
def MinusOne (field : List UInt8) : Prop :=
  (field.headD 0 &&& 0x80 ≠ 0 ∧ field.drop 4 = List.replicate 8 255) ∨
    ∃ blanks zeros rest, field = blanks ++ 45 :: (zeros ++ 49 :: rest) ∧
      (∀ c ∈ blanks, isspace c = true) ∧ (∀ c ∈ zeros, c = 48) ∧
      (rest.headD 0 = 0 ∨ rest.headD 0 = 32)

variable {field : List UInt8}

theorem le_octalValue (digits : List UInt8) (value : Nat) :
    value * 8 ^ digits.length ≤ octalValue digits value := by
  induction digits generalizing value with
  | nil => simp [octalValue]
  | cons c digits ih =>
    have more := ih (value * 8 + (c.toNat - 48))
    have step : value * 8 * 8 ^ digits.length ≤
        (value * 8 + (c.toNat - 48)) * 8 ^ digits.length :=
      Nat.mul_le_mul_right _ (Nat.le_add_right _ _)
    rw [List.length_cons, Nat.pow_succ', ← Nat.mul_assoc]
    exact Nat.le_trans step more

theorem isOctal_bounds {c : UInt8} (octal : isOctal c = true) : 48 ≤ c.toNat ∧ c.toNat ≤ 55 := by
  rw [isOctal, Bool.and_eq_true, decide_eq_true_iff, decide_eq_true_iff, UInt8.le_iff_toNat_le,
    UInt8.le_iff_toNat_le] at octal
  exact octal

theorem octalValue_lt {digits : List UInt8} (octal : ∀ c ∈ digits, isOctal c = true)
    (value : Nat) : octalValue digits value < (value + 1) * 8 ^ digits.length := by
  induction digits generalizing value with
  | nil => simp [octalValue]
  | cons c digits ih =>
    have digit := isOctal_bounds (octal c List.mem_cons_self)
    have more := ih (fun d member => octal d (List.mem_cons_of_mem c member))
      (value * 8 + (c.toNat - 48))
    have step : (value * 8 + (c.toNat - 48) + 1) * 8 ^ digits.length ≤
        ((value + 1) * 8) * 8 ^ digits.length :=
      Nat.mul_le_mul_right _ (by omega)
    rw [List.length_cons, Nat.pow_succ', ← Nat.mul_assoc]
    exact Nat.lt_of_lt_of_le more step

/-- Only zeros and a one behind them are read as one. -/
theorem octalValue_eq_one {digits : List UInt8} (octal : ∀ c ∈ digits, isOctal c = true) :
    octalValue digits 0 = 1 ↔ ∃ zeros, digits = zeros ++ [49] ∧ ∀ c ∈ zeros, c = 48 := by
  induction digits with
  | nil => simp [octalValue]
  | cons c digits ih =>
    have digit := isOctal_bounds (octal c List.mem_cons_self)
    have later := ih fun d member => octal d (List.mem_cons_of_mem c member)
    have unfolded : octalValue (c :: digits) 0 = octalValue digits (c.toNat - 48) := by
      simp [octalValue]
    rw [unfolded]
    by_cases zero : c = 48
    · subst zero
      rw [show (48 : UInt8).toNat - 48 = 0 from rfl, later]
      constructor
      · rintro ⟨zeros, rfl, all⟩
        exact ⟨48 :: zeros, rfl, List.forall_mem_cons.mpr ⟨rfl, all⟩⟩
      · rintro ⟨zeros, split, all⟩
        cases zeros with
        | nil => cases split
        | cons head zeros =>
          cases split
          exact ⟨zeros, rfl, fun d member => all d (List.mem_cons_of_mem _ member)⟩
    · have positive : c.toNat - 48 ≠ 0 := fun none =>
        zero (UInt8.toNat_inj.mp (by simp only [UInt8.reduceToNat]; omega))
      constructor
      · intro one
        have bound := le_octalValue digits (c.toNat - 48)
        have empty : digits = [] := by
          cases digits with
          | nil => rfl
          | cons d digits =>
            rw [one, List.length_cons, Nat.pow_succ] at bound
            have power := Nat.one_le_pow digits.length 8 (by decide)
            have large : 1 * 8 ≤ (c.toNat - 48) * (8 ^ digits.length * 8) :=
              Nat.mul_le_mul (Nat.one_le_iff_ne_zero.mpr positive) (by omega)
            omega
        subst empty
        have value : c.toNat - 48 = 1 := one
        exact ⟨[], by rw [List.nil_append, UInt8.toNat_inj.mp (show c.toNat = (49 : UInt8).toNat by
          simp only [UInt8.reduceToNat]; omega)], by simp⟩
      · rintro ⟨zeros, split, all⟩
        cases zeros with
        | nil =>
          cases split
          rfl
        | cons head zeros =>
          cases split
          exact absurd (all _ List.mem_cons_self) zero

/-- A number with a minus sign: its digits are read up to the first other character. -/
theorem strtoull_minus {blanks digits rest : List UInt8} (blank : ∀ c ∈ blanks, isspace c = true)
    (octal : ∀ c ∈ digits, isOctal c = true) (some_ : digits ≠ [])
    (stops : isOctal (rest.headD 0) = false) (small : octalValue digits 0 < 2 ^ 64) :
    strtoull (blanks ++ 45 :: (digits ++ rest)) =
      ((2 ^ 64 - octalValue digits 0) % 2 ^ 64, rest) := by
  have text : (blanks ++ 45 :: (digits ++ rest)).dropWhile isspace = 45 :: (digits ++ rest) := by
    rw [List.dropWhile_append_of_pos blank, List.dropWhile_cons_of_neg (by decide)]
  have ends : rest.takeWhile isOctal = [] ∧ rest.dropWhile isOctal = rest := by
    cases rest with
    | nil => exact ⟨rfl, rfl⟩
    | cons c rest =>
      have other : ¬ isOctal c = true := Bool.eq_false_iff.mp stops
      exact ⟨List.takeWhile_cons_of_neg other, List.dropWhile_cons_of_neg other⟩
  have taken : (digits ++ rest).takeWhile isOctal = digits := by
    rw [List.takeWhile_append_of_pos octal, ends.1, List.append_nil]
  have left : (digits ++ rest).dropWhile isOctal = rest := by
    rw [List.dropWhile_append_of_pos octal, ends.2]
  unfold strtoull
  simp only [text, List.head?_cons, List.tail_cons, true_or, if_true, taken, left, if_neg some_,
    if_neg (Nat.not_le.mpr small)]

/-- Only minus one is read as the largest value: a field is too short for that value itself. -/
theorem strtoull_largest (size : field.length ≤ 12)
    (largest : (strtoull field).1 = 2 ^ 64 - 1) :
    ∃ blanks zeros, field = blanks ++ 45 :: (zeros ++ 49 :: (strtoull field).2) ∧
      (∀ c ∈ blanks, isspace c = true) ∧ ∀ c ∈ zeros, c = 48 := by
  have whole := List.takeWhile_append_dropWhile (p := isspace) (l := field)
  have sizes := congrArg List.length whole
  rw [List.length_append] at sizes
  unfold strtoull at largest ⊢
  generalize field.dropWhile isspace = text at *
  dsimp only at largest ⊢
  generalize numbered : (if text.head? = some 45 ∨ text.head? = some 43 then text.tail else text) =
    number at *
  have short : number.length ≤ text.length := by
    rw [← numbered]
    split
    · rw [List.length_tail]
      omega
    · exact Nat.le_refl _
  have split := List.takeWhile_append_dropWhile (p := isOctal) (l := number)
  have octal : ∀ c ∈ number.takeWhile isOctal, isOctal c = true := fun c => List.mem_takeWhile_imp
  have few : (number.takeWhile isOctal).length ≤ 12 :=
    Nat.le_trans (List.takeWhile_prefix _).length_le (by omega)
  have bound : octalValue (number.takeWhile isOctal) 0 < 8 ^ 12 :=
    Nat.lt_of_lt_of_le (octalValue_lt octal 0)
      (by rw [Nat.zero_add, Nat.one_mul]; exact Nat.pow_le_pow_right (by decide) few)
  by_cases none : number.takeWhile isOctal = []
  · rw [if_pos none] at largest
    cases largest
  · rw [if_neg none] at largest ⊢
    rw [if_neg (by omega)] at largest
    by_cases minus : text.head? = some 45
    · obtain ⟨tail, rfl⟩ := List.head?_eq_some_iff.mp minus
      rw [if_pos minus] at largest
      rw [if_pos (.inl minus), List.tail_cons] at numbered
      obtain ⟨zeros, digits, all⟩ := (octalValue_eq_one octal).mp (by omega)
      refine ⟨field.takeWhile isspace, zeros, ?_, fun c => List.mem_takeWhile_imp, all⟩
      have number_eq : number = zeros ++ 49 :: number.dropWhile isOctal := by
        rw [digits, List.append_assoc, List.singleton_append] at split
        exact split.symm
      rw [← number_eq, ← numbered, whole]
    · rw [if_neg minus] at largest
      omega

/-- The value of bytes, the first one highest. -/
def bytesValue : List UInt8 → Nat
  | [] => 0
  | c :: bytes => c.toNat * 256 ^ bytes.length + bytesValue bytes

theorem base256_fold (bytes : List UInt8) (v : Nat) :
    bytes.foldl (fun v c => (v * 256 + c.toNat) % 2 ^ 64) v % 2 ^ 64 =
      (v * 256 ^ bytes.length + bytesValue bytes) % 2 ^ 64 := by
  induction bytes generalizing v with
  | nil => simp [bytesValue]
  | cons c bytes ih =>
    have regroup : v * 256 ^ (bytes.length + 1) + bytesValue (c :: bytes) =
        (v * 256 + c.toNat) * 256 ^ bytes.length + bytesValue bytes := by
      rw [bytesValue, Nat.pow_succ', ← Nat.add_assoc, ← Nat.mul_assoc, ← Nat.add_mul]
    rw [List.foldl_cons, ih, List.length_cons, regroup]
    exact (((Nat.mod_modEq _ _).mul_right _).add_right _)

theorem bytesValue_lt (bytes : List UInt8) : bytesValue bytes < 256 ^ bytes.length := by
  induction bytes with
  | nil => exact Nat.one_pos
  | cons c bytes ih =>
    have step := Nat.mul_le_mul_right (256 ^ bytes.length) (Nat.succ_le_of_lt c.toNat_lt)
    rw [bytesValue, List.length_cons, Nat.pow_succ']
    rw [Nat.succ_mul] at step
    omega

/-- Only bytes of ones have the largest value. -/
theorem bytesValue_largest (bytes : List UInt8) :
    bytesValue bytes + 1 = 256 ^ bytes.length ↔ bytes = List.replicate bytes.length 255 := by
  induction bytes with
  | nil => simp [bytesValue]
  | cons c bytes ih =>
    have bound := bytesValue_lt bytes
    rw [bytesValue, List.length_cons, Nat.pow_succ', List.replicate_succ, List.cons.injEq, ← ih]
    constructor
    · intro largest
      have full : c.toNat = 255 := by
        by_contra other
        have byte := c.toNat_lt
        have step := Nat.mul_le_mul_right (256 ^ bytes.length) (show c.toNat + 2 ≤ 256 by omega)
        rw [Nat.add_mul] at step
        omega
      exact ⟨UInt8.toNat_inj.mp full, by rw [full] at largest; omega⟩
    · rintro ⟨rfl, largest⟩
      rw [show (255 : UInt8).toNat = 255 from rfl]
      omega

theorem base256_lt (first : UInt8) (bytes : List UInt8) : base256 first bytes < 2 ^ 64 := by
  have kept : ∀ v, v < 2 ^ 64 →
      bytes.foldl (fun v c => (v * 256 + c.toNat) % 2 ^ 64) v < 2 ^ 64 := by
    induction bytes with
    | nil => exact fun _ bound => bound
    | cons c bytes ih => exact fun _ _ => ih _ (Nat.mod_lt _ (by decide))
  exact kept _ (BitVec.isLt _)

/-- The last eight bytes are all of the value in base 256. -/
theorem base256_minusOne (first : UInt8) (front : List UInt8) {back : List UInt8}
    (size : back.length = 8) :
    base256 first (front ++ back) = 2 ^ 64 - 1 ↔ back = List.replicate 8 255 := by
  have bound := bytesValue_lt back
  have largest := bytesValue_largest back
  have below := base256_lt first (front ++ back)
  have folded := base256_fold back
    (front.foldl (fun v c => (v * 256 + c.toNat) % 2 ^ 64)
      ((first.toBitVec.setWidth 7).signExtend 64).toNat)
  rw [size] at bound folded largest
  rw [← List.foldl_append] at folded
  change base256 first (front ++ back) % 2 ^ 64 = _ at folded
  rw [Nat.mod_eq_of_lt below, show 256 ^ 8 = 2 ^ 64 from rfl, Nat.mul_add_mod'] at folded
  rw [← largest]
  omega

theorem strtoull_lt (field : List UInt8) : (strtoull field).1 < 2 ^ 64 := by
  unfold strtoull
  generalize field.dropWhile isspace = text
  dsimp only
  generalize (if text.head? = some 45 ∨ text.head? = some 43 then text.tail else text) = number
  split_ifs <;> dsimp only <;> omega

theorem getOctal_lt {v : Nat} (ok : getOctal field = .ok v) : v < 2 ^ 64 := by
  unfold getOctal at ok
  dsimp only at ok
  split at ok
  · split at ok
    · cases ok
    · cases ok
      exact base256_lt _ _
  · cases ok
    exact strtoull_lt field

theorem high_byte : ∀ n < 256, UInt8.ofNat n &&& 0x80 ≠ 0 →
    isspace (UInt8.ofNat n) = false ∧ isOctal (UInt8.ofNat n) = false ∧
      UInt8.ofNat n ≠ 45 ∧ UInt8.ofNat n ≠ 43 ∧ UInt8.ofNat n ≠ 0 ∧ UInt8.ofNat n ≠ 32 := by
  decide +kernel

/-- A byte with the high bit begins no number. -/
theorem strtoull_high {first : UInt8} (rest : List UInt8) (high : first &&& 0x80 ≠ 0) :
    strtoull (first :: rest) = (0, first :: rest) ∧ first ≠ 0 ∧ first ≠ 32 := by
  have facts := high_byte first.toNat first.toNat_lt
  rw [UInt8.ofNat_toNat] at facts
  obtain ⟨visible, other, minus, plus, nul, blank⟩ := facts high
  have text : (first :: rest).dropWhile isspace = first :: rest :=
    List.dropWhile_cons_of_neg (Bool.eq_false_iff.mp visible)
  have digits : (first :: rest).takeWhile isOctal = [] :=
    List.takeWhile_cons_of_neg (Bool.eq_false_iff.mp other)
  refine ⟨?_, nul, blank⟩
  unfold strtoull
  simp only [text, List.head?_cons, Option.some.injEq, minus, plus, or_self, if_false, digits,
    if_true]

/-- The sizes that `getOctal` reads as minus one. -/
theorem getOctal_minusOne (size : field.length = 12) :
    getOctal field = .ok (2 ^ 64 - 1) ↔ MinusOne field := by
  unfold getOctal
  dsimp only
  constructor
  · intro largest
    split at largest
    case isTrue =>
      split at largest
      case isTrue => cases largest
      case isFalse high =>
        obtain ⟨first, rest, rfl⟩ := List.exists_cons_of_length_eq_add_one size
        have value := Except.ok.inj largest
        rw [List.tail_cons, ← List.take_append_drop 3 rest] at value
        have last : (rest.drop 3).length = 8 := by
          rw [List.length_drop]
          simp at size
          omega
        exact .inl ⟨high, (base256_minusOne _ _ last).mp value⟩
    case isFalse ends =>
      have value := Except.ok.inj largest
      obtain ⟨blanks, zeros, split, blank, all⟩ := strtoull_largest (Nat.le_of_eq size) value
      rw [not_and_or, not_not, not_not] at ends
      exact .inr ⟨blanks, zeros, _, split, blank, all, ends⟩
  · rintro (⟨high, ones⟩ | ⟨blanks, zeros, rest, rfl, blank, all, ends⟩)
    · obtain ⟨first, rest, rfl⟩ := List.exists_cons_of_length_eq_add_one size
      rw [List.headD_cons] at high
      obtain ⟨parsed, nul, blank⟩ := strtoull_high rest high
      have last : (rest.drop 3).length = 8 := by
        rw [List.length_drop]
        simp at size
        omega
      have value := (base256_minusOne first (rest.take 3) last).mpr ones
      rw [List.take_append_drop] at value
      simp only [parsed, List.headD_cons, List.tail_cons, ne_eq, nul, blank, not_false_eq_true,
        and_self, if_true, high, if_false, value]
    · have digits : ∀ c ∈ zeros ++ [49], isOctal c = true := by
        intro c member
        rcases List.mem_append.mp member with zero | one
        · rw [all c zero]
          decide
        · rw [List.mem_singleton.mp one]
          decide
      have one := (octalValue_eq_one digits).mpr ⟨zeros, rfl, all⟩
      have stops : isOctal (rest.headD 0) = false := by
        rcases ends with nul | blank
        · rw [nul]
          decide
        · rw [blank]
          decide
      have parsed := strtoull_minus blank digits (by simp) stops (by rw [one]; decide)
      rw [List.append_assoc, List.singleton_append, one] at parsed
      simp only [parsed]
      rw [if_neg fun both => ends.elim both.1 both.2]
      rfl

/-! ## The size in the header -/

/-- The size field is not trashed before it is read. -/
theorem slice_set {tar : List UInt8} {offset size i : Nat} (c : UInt8)
    (outside : i < offset ∨ offset + size ≤ i) :
    slice (tar.set i c) offset size = slice tar offset size := by
  apply List.ext_getElem?
  intro k
  unfold slice
  by_cases inside : k < size
  · rw [List.getElem?_take_of_lt inside, List.getElem?_take_of_lt inside, List.getElem?_drop,
      List.getElem?_drop, List.getElem?_set_ne (by omega)]
  · rw [List.getElem?_take_eq_none (Nat.le_of_not_lt inside),
      List.getElem?_take_eq_none (Nat.le_of_not_lt inside)]

theorem getOctalAt_eq {tar tar' : List UInt8} {offset size v : Nat}
    (ok : getOctalAt tar offset size = .ok (v, tar')) :
    getOctal (slice tar offset size) = .ok v ∧ tar' = tar.set (offset + size) 0 := by
  obtain ⟨v', number, ok⟩ := Fallible.bind_eq_ok.mp ok
  cases ok
  exact ⟨number, rfl⟩

theorem readDevice_size {tar device : List UInt8} (ok : readDevice tar = .ok device) :
    slice device 124 12 = slice tar 124 12 := by
  unfold readDevice at ok
  split at ok
  · obtain ⟨minor, first, ok⟩ := Fallible.bind_eq_ok.mp ok
    obtain ⟨major, second, ok⟩ := Fallible.bind_eq_ok.mp ok
    cases ok
    rw [slice_set _ (.inr (by decide)), (getOctalAt_eq second).2, slice_set _ (.inr (by decide)),
      (getOctalAt_eq first).2, slice_set _ (.inr (by decide))]
  · cases ok
    rfl

theorem readNumbers_size {tar : List UInt8} {size : Nat} (ok : readNumbers tar = .ok size) :
    getOctal (slice tar 124 12) = .ok size := by
  obtain ⟨device, before, ok⟩ := Fallible.bind_eq_ok.mp ok
  obtain ⟨mtime, first, ok⟩ := Fallible.bind_eq_ok.mp ok
  obtain ⟨number, second, ok⟩ := Fallible.bind_eq_ok.mp ok
  obtain ⟨gid, _, ok⟩ := Fallible.bind_eq_ok.mp ok
  obtain ⟨uid, _, ok⟩ := Fallible.bind_eq_ok.mp ok
  obtain ⟨mode, _, ok⟩ := Fallible.bind_eq_ok.mp ok
  cases ok
  have field := (getOctalAt_eq second).1
  rwa [(getOctalAt_eq first).2, slice_set 0 (.inr (by decide)), readDevice_size before] at field

/-- The record is for a GNU long name, with these sizes. -/
def LongName (outcome : Outcome) (allocated asked : Nat) : Prop :=
  outcome = .longname allocated asked ∨ outcome = .linkname allocated asked

theorem dispatch_longName {typeflag : UInt8} {size allocated asked : Nat}
    (record : LongName (dispatch typeflag size) allocated asked) :
    nameSizes size = (allocated, asked) := by
  unfold dispatch at record
  generalize (if typeflag = 0 then (48 : UInt8) else typeflag) = typeflag at record
  rcases record with record | record <;> dsimp only at record <;> split_ifs at record <;>
    cases record <;> rfl

/-- The sizes for a long name are those for the size field. -/
theorem getHeaderTar_longName {tar : List UInt8} {longname : Bool} {allocated asked : Nat}
    (record : LongName (getHeaderTar longname tar) allocated asked) :
    ∃ size, getOctal (slice tar 124 12) = .ok size ∧ nameSizes size = (allocated, asked) := by
  unfold getHeaderTar at record
  split at record
  · rcases record with record | record <;> cases record
  split at record
  · rcases record with record | record <;> cases record
  split at record
  case h_1 => rcases record with record | record <;> cases record
  case h_2 sum trashed summing =>
    split at record
    · rcases record with record | record <;> cases record
    split at record
    case h_1 => rcases record with record | record <;> cases record
    case h_2 size numbers =>
      refine ⟨size, ?_, dispatch_longName record⟩
      have field := readNumbers_size numbers
      rwa [(getOctalAt_eq summing).2, slice_set 0 (.inr (by decide))] at field

/-- For a GNU 'L' or 'K' record, fewer bytes are read than are allocated exactly when the
size field is not minus one. -/
theorem getHeaderTar_room {tar : List UInt8} (block : tar.length = 512) {longname : Bool}
    {allocated asked : Nat} (record : LongName (getHeaderTar longname tar) allocated asked) :
    asked < allocated ↔ ¬ MinusOne (slice tar 124 12) := by
  obtain ⟨size, number, sizes⟩ := getHeaderTar_longName record
  have width : (slice tar 124 12).length = 12 := by
    rw [slice, List.length_take, List.length_drop, block]
    rfl
  have bound := getOctal_lt number
  obtain ⟨rfl, rfl⟩ := Prod.mk.inj sizes
  rw [← getOctal_minusOne width, number, Except.ok.injEq]
  omega

/-- A header of type 'L' with this size field and this checksum. -/
def longLink (size chksum : List UInt8) : List UInt8 :=
  ascii "././@LongLink" ++ List.replicate 87 0 ++ ascii "0000644" ++ [0] ++
    ascii "0000000" ++ [0] ++ ascii "0000000" ++ [0] ++ size ++ ascii "00000000000" ++ [0] ++
    chksum ++ ascii "L" ++ List.replicate 100 0 ++ ascii "ustar  " ++ [0] ++ List.replicate 247 0

theorem getHeaderTar_room_ten :
    10 < 11 ↔ ¬ MinusOne (slice (longLink (ascii "00000000012" ++ [0]) (ascii "007764" ++ [0, 32]))
      124 12) :=
  getHeaderTar_room (by decide +kernel)
    (.inl (by decide +kernel : getHeaderTar false _ = .longname 11 10))

/-- With a size of `-1`, no byte is allocated and 2^64 - 1 are to be read. -/
theorem getHeaderTar_overrun :
    ¬ ∀ (tar : List UInt8) (longname : Bool) (allocated asked : Nat), tar.length = 512 →
      LongName (getHeaderTar longname tar) allocated asked → asked < allocated := by
  intro room
  have overrun := room (longLink (ascii "-1" ++ List.replicate 10 0) (ascii "007077" ++ [0, 32]))
    false 0 (2 ^ 64 - 1) (by decide +kernel) (.inl (by decide +kernel))
  exact absurd overrun (by decide)

end Busybox.Archival.TarHeader
