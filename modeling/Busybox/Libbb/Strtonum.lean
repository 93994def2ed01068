import Busybox.Libbb.Xatonum

/-!
# Numbers and `errno`

`bb_strtonum.c` reports by `errno` alone whether a text was a number. It sets it to 0 only for a
number, and only then.
-/

namespace Busybox.Libbb.Strtonum

open Xatonum (Text isspace)
open Strtol

abbrev Errno := Nat

def EINVAL : Errno := 22
def ERANGE : Errno := 34

/-- `bb_ascii_isalnum` -/
def isalnum (c : UInt8) : Bool := Xatonum.isDigit 36 c

/-- What a conversion of the library returns, with `errno` and what stands at `*endp`. -/
structure Converted where
  value : Int
  errno : Errno
  endp : Text
  deriving DecidableEq

/-- `strtoul` with `errno` 0 before. A negative number wraps around. -/
def strtoul (str : Text) : Converted :=
  let (negative, text) := sign (str.dropWhile isspace)
  let digits := text.takeWhile isdigit
  let value := digitsValue digits
  if digits = [] then ⟨0, 0, str⟩
  else if 2 ^ 64 ≤ value then ⟨2 ^ 64 - 1, ERANGE, text.dropWhile isdigit⟩
  else ⟨if negative then (-value) % 2 ^ 64 else value, 0, text.dropWhile isdigit⟩

/-- `strtol` with `errno` 0 before. -/
def strtolErrno (str : Text) : Converted :=
  let (negative, text) := sign (str.dropWhile isspace)
  let value := digitsValue (text.takeWhile isdigit)
  let (v, endp) := strtol str
  ⟨v, if if negative then 2 ^ 63 < value else 2 ^ 63 ≤ value then ERANGE else 0, endp⟩

/-- `ret_ERANGE`, as a signed and as an unsigned value of so many bits. -/
def retERANGE (allOnes : Int) : Int × Errno := (allOnes, ERANGE)

/-- `handle_errors` -/
def handleErrors (allOnes : Int) (converted : Converted) : Int × Errno :=
  match converted.endp with
  | [] => (converted.value, converted.errno)
  | nextCh :: _ =>
    if isalnum nextCh ∨ converted.errno ≠ 0 then retERANGE allOnes else (converted.value, EINVAL)

def UINT_MAX : Int := 2 ^ 32 - 1

/-- `bb_strtou` in base 10, and `errno` afterwards. -/
def bbStrtou (arg : Text) : Int × Errno :=
  if ¬arg.head?.any isalnum then retERANGE UINT_MAX
  else
    let converted := strtoul arg
    if UINT_MAX < converted.value then retERANGE UINT_MAX else handleErrors UINT_MAX converted

/-- `(arg[0] != '-' ? arg[0] : arg[1])` -/
def first (arg : Text) : Option UInt8 :=
  if arg.head? = some 45 then arg.tail.head? else arg.head?

/-- `bb_strtol` in base 10, and `errno` afterwards. -/
def bbStrtol (arg : Text) : Int × Errno :=
  if ¬(first arg).any isalnum then retERANGE (-1) else handleErrors (-1) (strtolErrno arg)

/-! ## The numbers -/

/-- Digits and nothing else. -/
def isNumber (text : Text) : Bool := text ≠ [] && text.all isdigit

/-- An `unsigned` in decimal. -/
def isUnsigned (text : Text) : Bool := isNumber text && digitsValue text < 2 ^ 32

/-- A `long` in decimal: its magnitude, and whether there is a minus sign in front of it. -/
def isLong : Text → Bool
  | 45 :: digits => isNumber digits && digitsValue digits ≤ 2 ^ 63
  | digits => isNumber digits && digitsValue digits < 2 ^ 63

/-- The value of a `long` in decimal. -/
def longValue : Text → Int
  | 45 :: digits => -digitsValue digits
  | digits => digitsValue digits

variable {text digits : Text} {allOnes : Int}

theorem isNumber_iff : isNumber text = true ↔ text ≠ [] ∧ ∀ c ∈ text, isdigit c = true := by
  simp [isNumber]

theorem isalnum_of_isdigit {c : UInt8} (digit : isdigit c = true) : isalnum c = true := by
  have bounds := isdigit_iff.mp digit
  have low : (48 : UInt8) ≤ c := UInt8.le_iff_toNat_le.mpr bounds.1
  have high : c ≤ 57 := UInt8.le_iff_toNat_le.mpr bounds.2
  rw [isalnum, Xatonum.isDigit, Xatonum.digitVal, if_pos ⟨low, high⟩]
  exact decide_eq_true (by omega)

/-- A text that starts with a letter or a digit has neither white space nor a sign in front. -/
theorem sign_alnum {c : UInt8} (alnum : isalnum c = true) (rest : Text) :
    sign ((c :: rest).dropWhile isspace) = (false, c :: rest) := by
  obtain ⟨notMinus, notPlus, notSpace⟩ := Xatonum.not_sign_of_digitVal (of_decide_eq_true alnum)
  rw [List.dropWhile_cons_of_neg (by rw [notSpace]; exact Bool.false_ne_true)]
  simp [sign, notMinus, notPlus]

theorem sign_minus (rest : Text) : sign ((45 :: rest).dropWhile isspace) = (true, rest) := rfl

/-- What was read is the whole text. -/
theorem isNumber_of_read (digits : text.takeWhile isdigit ≠ [])
    (ends : text.dropWhile isdigit = []) : isNumber text = true := by
  refine isNumber_iff.mpr ⟨?_, List.dropWhile_eq_nil_iff.mp ends⟩
  rintro rfl
  exact digits rfl

theorem takeWhile_number (number : isNumber text = true) :
    text.takeWhile isdigit = text ∧ text.dropWhile isdigit = [] := by
  obtain ⟨-, digits⟩ := isNumber_iff.mp number
  exact ⟨List.takeWhile_eq_self_iff.mpr digits, List.dropWhile_eq_nil_iff.mpr digits⟩

/-- A conversion succeeds where the whole text was read and the value was in range. -/
theorem handleErrors_zero {converted : Converted} :
    (handleErrors allOnes converted).2 = 0 ↔ converted.endp = [] ∧ converted.errno = 0 := by
  unfold handleErrors
  split
  case h_1 ends => simp [ends]
  case h_2 ends =>
    refine iff_of_false ?_ (by simp [ends])
    split
    · exact Nat.succ_ne_zero _
    · exact Nat.succ_ne_zero _

theorem handleErrors_ends {converted : Converted} (ends : converted.endp = []) :
    handleErrors allOnes converted = (converted.value, converted.errno) := by
  rw [handleErrors, ends]

theorem head_number (number : isNumber text = true) : text.head?.any isalnum = true := by
  obtain ⟨nonempty, digits⟩ := isNumber_iff.mp number
  obtain ⟨c, rest, rfl⟩ := List.exists_cons_of_ne_nil nonempty
  exact isalnum_of_isdigit (digits c List.mem_cons_self)

theorem exists_alnum {first : Option UInt8} (alnum : first.any isalnum = true) :
    ∃ c, first = some c ∧ isalnum c = true := by
  cases first with
  | none => cases alnum
  | some c => exact ⟨c, rfl, alnum⟩

theorem sign_number (number : isNumber text = true) :
    sign (text.dropWhile isspace) = (false, text) := by
  obtain ⟨c, first, alnum⟩ := exists_alnum (head_number number)
  obtain ⟨rest, rfl⟩ := List.head?_eq_some_iff.mp first
  exact sign_alnum alnum rest

/-! ## Unsigned numbers -/

theorem strtoul_number (number : isNumber text = true) (small : digitsValue text < 2 ^ 64) :
    strtoul text = ⟨digitsValue text, 0, []⟩ := by
  obtain ⟨taken, dropped⟩ := takeWhile_number number
  unfold strtoul
  rw [sign_number number]
  simp only [taken, dropped, if_neg (isNumber_iff.mp number).1, if_neg (Nat.not_le.mpr small)]
  rfl

theorem bbStrtou_unsigned (valid : isUnsigned text = true) :
    bbStrtou text = ((digitsValue text : Int), 0) := by
  obtain ⟨number, small⟩ : isNumber text = true ∧ digitsValue text < 2 ^ 32 := by
    simpa [isUnsigned] using valid
  have inRange : ¬UINT_MAX < (digitsValue text : Int) := by
    rw [UINT_MAX]
    omega
  unfold bbStrtou
  rw [if_neg (not_not.mpr (head_number number)), strtoul_number number (by omega)]
  exact (if_neg inRange).trans (handleErrors_ends rfl)

/-- `errno` is 0 afterwards exactly for a number. -/
theorem bbStrtou_zero : (bbStrtou text).2 = 0 ↔ isUnsigned text = true := by
  refine ⟨fun zero => ?_, fun valid => by rw [bbStrtou_unsigned valid]⟩
  unfold bbStrtou at zero
  split at zero
  · cases zero
  case isFalse alnum =>
    simp only at zero
    split at zero
    · cases zero
    case isFalse inRange =>
      obtain ⟨ends, noError⟩ := handleErrors_zero.mp zero
      obtain ⟨c, isFirst, letter⟩ := exists_alnum (not_not.mp alnum)
      obtain ⟨rest, rfl⟩ := List.head?_eq_some_iff.mp isFirst
      unfold strtoul at ends noError inRange
      rw [sign_alnum letter] at ends noError inRange
      simp only at ends noError inRange
      by_cases digits : (c :: rest).takeWhile isdigit = []
      · rw [if_pos digits] at ends
        cases ends
      rw [if_neg digits] at ends noError inRange
      by_cases large : 2 ^ 64 ≤ digitsValue ((c :: rest).takeWhile isdigit)
      · rw [if_pos large] at noError
        cases noError
      rw [if_neg large] at ends inRange
      have number := isNumber_of_read digits ends
      have small : ¬UINT_MAX < (digitsValue ((c :: rest).takeWhile isdigit) : Int) := inRange
      rw [(takeWhile_number number).1, UINT_MAX] at small
      simp only [isUnsigned, number, Bool.true_and]
      exact decide_eq_true (by omega)

/-! ## Signed numbers -/

/-- The magnitude of a number that fits. -/
def Fits (negative : Bool) (value : Nat) : Prop :=
  if negative then value ≤ 2 ^ 63 else value < 2 ^ 63

/-- What a number is, behind its sign. -/
theorem strtolErrno_sign {str : Text} {negative : Bool} (nonempty : str ≠ [])
    (signed : sign (str.dropWhile isspace) = (negative, text)) :
    (strtolErrno str).endp = [] ∧ (strtolErrno str).errno = 0 ↔
      isNumber text = true ∧ Fits negative (digitsValue text) := by
  unfold strtolErrno strtol Fits
  rw [signed]
  simp only
  constructor
  · rintro ⟨ends, noError⟩
    by_cases digits : text.takeWhile isdigit = []
    · rw [if_pos digits] at ends
      exact absurd ends nonempty
    rw [if_neg digits] at ends
    have number := isNumber_of_read digits ends
    rw [(takeWhile_number number).1] at noError
    refine ⟨number, ?_⟩
    cases negative with
    | false => simpa [ERANGE] using noError
    | true => simpa [ERANGE] using noError
  · rintro ⟨number, small⟩
    obtain ⟨taken, dropped⟩ := takeWhile_number number
    rw [taken, dropped, if_neg (isNumber_iff.mp number).1]
    refine ⟨rfl, ?_⟩
    cases negative with
    | false => simpa [ERANGE] using small
    | true => simpa [ERANGE] using small

theorem strtolErrno_value {str : Text} {negative : Bool}
    (signed : sign (str.dropWhile isspace) = (negative, text)) (number : isNumber text = true)
    (small : Fits negative (digitsValue text)) :
    (strtolErrno str).value = if negative then -(digitsValue text : Int) else digitsValue text := by
  unfold strtolErrno strtol
  rw [signed]
  simp only [(takeWhile_number number).1, if_neg (isNumber_iff.mp number).1]
  unfold Fits at small
  cases negative with
  | false =>
    have small : digitsValue text < 2 ^ 63 := small
    simp only [Bool.false_eq_true, if_false, LONG_MAX]
    omega
  | true =>
    have small : digitsValue text ≤ 2 ^ 63 := small
    simp only [if_true, LONG_MIN]
    omega

theorem isLong_iff : isLong text = true ↔
    ∃ negative digits, text = (if negative then 45 :: digits else digits) ∧
      isNumber digits = true ∧ Fits negative (digitsValue digits) := by
  unfold isLong
  split
  case h_1 digits =>
    constructor
    · intro valid
      exact ⟨true, digits, rfl, by simpa [Fits] using valid⟩
    · rintro ⟨negative, digits', same, number, small⟩
      cases negative with
      | true =>
        cases same
        simpa [number, Fits] using small
      | false =>
        have same : 45 :: digits = digits' := same
        have digit := (isNumber_iff.mp number).2 45 (by rw [← same]; exact List.mem_cons_self)
        exact absurd digit (by decide)
  case h_2 notMinus =>
    constructor
    · intro valid
      exact ⟨false, text, rfl, by simpa [Fits] using valid⟩
    · rintro ⟨negative, digits, rfl, number, small⟩
      cases negative with
      | true => exact absurd rfl (notMinus digits)
      | false => simpa [number, Fits] using small

/-- `errno` is 0 afterwards exactly for a number. -/
theorem bbStrtol_zero : (bbStrtol text).2 = 0 ↔ isLong text = true := by
  rw [isLong_iff]
  constructor
  · intro zero
    unfold bbStrtol at zero
    split at zero
    · cases zero
    case isFalse alnum =>
      have read := handleErrors_zero.mp zero
      obtain ⟨c, isFirst, letter⟩ := exists_alnum (not_not.mp alnum)
      unfold first at isFirst
      split at isFirst
      case isTrue minus =>
        obtain ⟨rest, rfl⟩ := List.head?_eq_some_iff.mp minus
        exact ⟨true, rest, rfl, (strtolErrno_sign (by simp) (sign_minus rest)).mp read⟩
      case isFalse =>
        obtain ⟨rest, rfl⟩ := List.head?_eq_some_iff.mp isFirst
        exact ⟨false, c :: rest, rfl, (strtolErrno_sign (by simp) (sign_alnum letter rest)).mp read⟩
  · rintro ⟨negative, digits, rfl, valid⟩
    have alnum : (first (if negative then 45 :: digits else digits)).any isalnum = true := by
      have alnum := head_number valid.1
      unfold first
      cases negative with
      | true => exact alnum
      | false =>
        have notMinus : digits.head? ≠ some 45 := by
          intro minus
          rw [minus] at alnum
          exact absurd alnum (by decide)
        rw [if_neg Bool.false_ne_true, if_neg notMinus]
        exact alnum
    rw [bbStrtol, if_neg (not_not.mpr alnum)]
    refine handleErrors_zero.mpr ((strtolErrno_sign ?_ ?_).mpr valid)
    · cases negative with
      | true => exact List.cons_ne_nil _ _
      | false => exact (isNumber_iff.mp valid.1).1
    · cases negative with
      | true => exact sign_minus digits
      | false => exact sign_number valid.1

theorem longValue_number (number : isNumber text = true) : longValue text = digitsValue text := by
  unfold longValue
  split
  case h_1 digits =>
    have digit := (isNumber_iff.mp number).2 45 List.mem_cons_self
    exact absurd digit (by decide)
  case h_2 => rfl

theorem bbStrtol_long (valid : isLong text = true) : bbStrtol text = (longValue text, 0) := by
  have zero := bbStrtol_zero.mpr valid
  unfold bbStrtol at zero ⊢
  split at zero
  · cases zero
  case isFalse alnum =>
    obtain ⟨ends, noError⟩ := handleErrors_zero.mp zero
    rw [if_neg alnum, handleErrors_ends ends, noError]
    obtain ⟨negative, digits, rfl, number, small⟩ := isLong_iff.mp valid
    cases negative with
    | true => rw [if_pos rfl, strtolErrno_value (sign_minus digits) number small]; rfl
    | false =>
      rw [if_neg Bool.false_ne_true, strtolErrno_value (sign_number number) number small,
        longValue_number number]
      rfl

end Busybox.Libbb.Strtonum
