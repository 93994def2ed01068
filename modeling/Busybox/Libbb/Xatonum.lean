import Mathlib.Data.List.TakeWhile
import Mathlib.Data.Nat.Digits.Defs
import Mathlib.Tactic.Common
import Mathlib.Tactic.Ring
import Busybox.Libbb.Strings

/-!
# Numbers on the command line

`xatonum_template.c` is instantiated for several integer types, which differ in
their widths only. The signed parser hands the text behind the sign to the
unsigned one with the largest magnitude it may have; that limit is raised for
a minus sign, but at the character behind the sign.
-/

namespace Busybox.Libbb.Xatonum

/-- A string without its NUL. -/
abbrev Text := List UInt8

/-- One instance of the template: the width of the type, and that of the type which
`XSTR_STRTOU` reads (for `int` it is `bb_strtoui`, which calls `strtoul`). -/
structure IntType where
  bits : Nat
  strtouBits : Nat
  positive : 0 < bits
  wide : bits ≤ strtouBits

/-- `XSTR_UTYPE_MAX`, `XSTR_TYPE_MAX` and `XSTR_TYPE_MIN`. -/
def IntType.utypeMax (type : IntType) : Nat := 2 ^ type.bits - 1
def IntType.typeMax (type : IntType) : Nat := 2 ^ (type.bits - 1) - 1
def IntType.typeMin (type : IntType) : Int := -2 ^ (type.bits - 1)

/-- The instances for `long long` and, where `long` is wider, for `int`. -/
def longLong : IntType := ⟨64, 64, by decide, by decide⟩
def int : IntType := ⟨32, 64, by decide, by decide⟩

/-- `struct suffix_mult`; the last element is marked by `mult == 0`. -/
structure SuffixMult where
  suffix : Text
  mult : Nat
deriving DecidableEq, Repr

/-- The two ways a parser dies. -/
inductive Refusal
  | range (numstr : Text) (lower upper : Int)
  | inval (numstr : Text)
deriving DecidableEq, Repr

/-- What `bb_error_msg_and_die` is given. -/
def Refusal.message : Refusal → Text
  | .range numstr lower upper =>
    ascii "number " ++ numstr ++ ascii s!" is not in {lower}..{upper} range"
  | .inval numstr => ascii "invalid number '" ++ numstr ++ ascii "'"

/-! ## `strtoul` -/

/-- `isspace` of the C locale. -/
def isspace (c : UInt8) : Bool := c == 32 || (9 ≤ c && c ≤ 13)

/-- The value of a digit, 36 for a character that is none. -/
def digitVal (c : UInt8) : Nat :=
  if 48 ≤ c ∧ c ≤ 57 then c.toNat - 48
  else if 97 ≤ c ∧ c ≤ 122 then c.toNat - 97 + 10
  else if 65 ≤ c ∧ c ≤ 90 then c.toNat - 65 + 10
  else 36

def isDigit (radix : Nat) (c : UInt8) : Bool := digitVal c < radix

/-- Base 0 takes a number with a leading 0 as octal and any other as decimal. -/
def plainRadix (base : Nat) (text : Text) : Nat :=
  if base = 0 then if text.head? = some 48 then 8 else 10 else base

/-- The text goes on with `0x` and a hexadecimal digit, in a base that admits this prefix. -/
def hexPrefixed (base : Nat) : Text → Bool
  | 48 :: x :: c :: _ => (base = 0 ∨ base = 16) ∧ (x = 120 ∨ x = 88) ∧ isDigit 16 c
  | _ => false

/-- `strtoul` on text without a leading blank or sign, before the value is cut to its
type: the value and the text at `*endptr`, `none` where `errno` is `EINVAL` or there
are no digits. -/
def strtou (base : Nat) (str : Text) : Option (Nat × Text) :=
  if base = 1 ∨ 36 < base then none
  else
    let (radix, text) := if hexPrefixed base str then (16, str.drop 2)
      else (plainRadix base str, str)
    let digits := text.takeWhile (isDigit radix)
    if digits = [] then none
    else some (digits.foldl (fun value c => value * radix + digitVal c) 0,
      text.dropWhile (isDigit radix))

/-- `XSTR_STRTOU`, `none` where `errno` is set or there are no digits. -/
def IntType.strtou (type : IntType) (base : Nat) (str : Text) : Option (Nat × Text) :=
  match Xatonum.strtou base str with
  | none => none
  | some (value, rest) =>
    if 2 ^ type.strtouBits ≤ value then none  -- ERANGE of strtoul
    else if type.utypeMax < value then none   -- ERANGE of bb_strtoui
    else some (value, rest)

/-! ## The parsers -/

/-- The loop over the suffixes: the multiplier of the first one that is all the rest. -/
def findSuffix (rest : Text) : List SuffixMult → Option Nat
  | [] => none
  | entry :: suffixes =>
    if entry.mult = 0 then none
    else if entry.suffix = rest then some entry.mult
    else findSuffix rest suffixes

/-- `xstrtou(_range_sfx)`. -/
def xstrtouRangeSfx (type : IntType) (numstr : Text) (base lower upper : Nat)
    (suffixes : Option (List SuffixMult)) : Except Refusal Nat :=
  -- disallow '-', '+' and any leading whitespace
  if numstr.head? = some 45 ∨ numstr.head? = some 43 ∨ numstr.head?.any isspace then
    .error (.inval numstr)
  else
    match type.strtou base numstr with
    | none => .error (.inval numstr)
    | some (r, e) =>
      let chkRange (r : Nat) : Except Refusal Nat :=
        if lower ≤ r ∧ r ≤ upper then .ok r else .error (.range numstr lower upper)
      match suffixes.bind (findSuffix e) with
      | some mult =>
        if type.utypeMax / mult < r then .error (.range numstr lower upper)  -- overflow!
        else chkRange (r * mult)
      | none => if e ≠ [] then .error (.inval numstr) else chkRange r

/-- An `unsigned type` as a `type`. -/
def IntType.toSigned (type : IntType) (r : Nat) : Int :=
  if r ≤ type.typeMax then r else r - 2 ^ type.bits

/-- `xstrto(_range_sfx)`. -/
def xstrtoRangeSfx (type : IntType) (numstr : Text) (base : Nat) (lower upper : Int)
    (suffixes : Option (List SuffixMult)) : Except Refusal Int :=
  let signed := numstr.head? = some 43 ∨ numstr.head? = some 45
  let p := if signed then numstr.drop 1 else numstr
  -- `p` has passed the sign when it is compared with '-'
  let u := if signed ∧ p.head? = some 45 then type.typeMax + 1 else type.typeMax
  match xstrtouRangeSfx type p base 0 u suffixes with
  | .error refusal => .error refusal
  | .ok r =>
    let r := type.toSigned r
    let r := if numstr.head? = some 45 then -r else r
    if r < lower ∨ upper < r then .error (.range numstr lower upper) else .ok r

/-! ## What a text denotes -/

/-- The value of a row of digits, the first one the most significant. -/
def valueOf (radix : Nat) (digits : Text) : Nat :=
  Nat.ofDigits radix (digits.map digitVal).reverse

/-- A whole text is a numeral of the base. -/
inductive Numeral (base : Nat) : Text → Nat → Prop
  | plain {text : Text} (valid : base = 0 ∨ 2 ≤ base ∧ base ≤ 36)
      (digits : ∀ c ∈ text, isDigit (plainRadix base text) c = true) (some : text ≠ []) :
      Numeral base text (valueOf (plainRadix base text) text)
  | hex {x : UInt8} {text : Text} (valid : base = 0 ∨ base = 16) (letter : x = 120 ∨ x = 88)
      (digits : ∀ c ∈ text, isDigit 16 c = true) (some : text ≠ []) :
      Numeral base (48 :: x :: text) (valueOf 16 text)

/-- The longest numeral the text begins with has the value, and `rest` follows it. -/
def BeginsWith (base : Nat) (text : Text) (value : Nat) (rest : Text) : Prop :=
  ∃ numeral, text = numeral ++ rest ∧ Numeral base numeral value ∧
    ∀ other n, other <+: text → Numeral base other n → other.length ≤ numeral.length

/-- What a suffix multiplies by: the table's entry for it, of which the first counts;
a table need not list the empty one. -/
def Multiplies (suffixes : Option (List SuffixMult)) (suffix : Text) (mult : Nat) : Prop :=
  let entry := ((suffixes.getD []).takeWhile (·.mult ≠ 0)).find? (·.suffix = suffix)
  entry.map (·.mult) = some mult ∨ entry = none ∧ suffix = [] ∧ mult = 1

/-- Digits and an optional suffix. -/
def DenotesUnsigned (base : Nat) (suffixes : Option (List SuffixMult)) (numstr : Text)
    (n : Nat) : Prop :=
  ∃ value suffix mult, BeginsWith base numstr value suffix ∧ Multiplies suffixes suffix mult ∧
    n = value * mult

/-- An optional sign, digits and an optional suffix. -/
inductive Denotes (base : Nat) (suffixes : Option (List SuffixMult)) : Text → Int → Prop
  | bare {numstr : Text} {n : Nat} (digits : DenotesUnsigned base suffixes numstr n) :
      Denotes base suffixes numstr n
  | plus {numstr : Text} {n : Nat} (digits : DenotesUnsigned base suffixes numstr n) :
      Denotes base suffixes (43 :: numstr) n
  | minus {numstr : Text} {n : Nat} (digits : DenotesUnsigned base suffixes numstr n) :
      Denotes base suffixes (45 :: numstr) (-n)

/-! ## `strtoul` reads the longest numeral -/

theorem foldl_eq_valueOf (radix : Nat) (digits : Text) :
    digits.foldl (fun value c => value * radix + digitVal c) 0 = valueOf radix digits := by
  rw [valueOf, Nat.ofDigits_eq_foldr, List.foldr_reverse, List.foldl_map]
  simp only [Nat.cast_id, add_comm, mul_comm]

/-- A first stretch of the text in which every character passes is part of the longest. -/
theorem length_le_takeWhile {p : UInt8 → Bool} {part text : Text} (first : part <+: text)
    (pass : ∀ c ∈ part, p c = true) : part.length ≤ (text.takeWhile p).length := by
  obtain ⟨rest, rfl⟩ := first
  rw [List.takeWhile_append_of_pos pass, List.length_append]
  exact Nat.le_add_right ..

theorem digitVal_x {x : UInt8} (letter : x = 120 ∨ x = 88) : digitVal x = 33 := by
  rcases letter with rfl | rfl <;> rfl

/-- In the bases with a prefix its letter is no digit behind a 0. -/
theorem isDigit_x {base : Nat} {x : UInt8} (valid : base = 0 ∨ base = 16)
    (letter : x = 120 ∨ x = 88) (text : Text) :
    isDigit (plainRadix base (48 :: text)) x = false := by
  rw [isDigit, digitVal_x letter]
  rcases valid with rfl | rfl <;> rfl

theorem plainRadix_of_leading {base : Nat} {part text : Text} (first : part <+: text)
    (nonempty : part ≠ []) : plainRadix base part = plainRadix base text := by
  obtain ⟨rest, rfl⟩ := first
  cases part with
  | nil => exact absurd rfl nonempty
  | cons c part => rfl

/-- A text with the hexadecimal prefix, taken apart. -/
theorem hexPrefixed_iff {base : Nat} {str : Text} :
    hexPrefixed base str = true ↔ (base = 0 ∨ base = 16) ∧ ∃ x c text,
      str = 48 :: x :: c :: text ∧ (x = 120 ∨ x = 88) ∧ isDigit 16 c = true := by
  constructor
  · intro prefixed
    unfold hexPrefixed at prefixed
    split at prefixed
    case h_1 x c text =>
      obtain ⟨valid, letter, digit⟩ := of_decide_eq_true prefixed
      exact ⟨valid, x, c, text, rfl, letter, digit⟩
    case h_2 => cases prefixed
  · rintro ⟨valid, x, c, text, rfl, letter, digit⟩
    simp [hexPrefixed, valid, letter, digit]

/-- Every numeral at the front of a text with the prefix is no longer than the
hexadecimal one. -/
theorem length_numeral_hex {base n : Nat} {x : UInt8} {text part : Text}
    (valid : base = 0 ∨ base = 16) (letter : x = 120 ∨ x = 88)
    (first : part <+: 48 :: x :: text) (numeral : Numeral base part n) :
    part.length ≤ (text.takeWhile (isDigit 16)).length + 2 := by
  cases numeral with
  | hex _ _ digits =>
    have inside := (List.cons_prefix_cons.mp (List.cons_prefix_cons.mp first).2).2
    have := length_le_takeWhile inside digits
    simpa using this
  | plain _ digits nonempty =>
    -- an `x` is no digit in these bases
    cases part with
    | nil => exact absurd rfl nonempty
    | cons c part =>
      obtain ⟨rfl, behind⟩ := List.cons_prefix_cons.mp first
      cases part with
      | nil => simp
      | cons c part =>
        obtain ⟨rfl, -⟩ := List.cons_prefix_cons.mp behind
        have digit := digits c (by simp)
        exact absurd (digit.symm.trans (isDigit_x valid letter _)) (by decide)

/-- Every numeral at the front of a text without the prefix is a plain one. -/
theorem length_numeral_plain {base n : Nat} {text part : Text}
    (plain : hexPrefixed base text = false) (first : part <+: text)
    (numeral : Numeral base part n) :
    part.length ≤ (text.takeWhile (isDigit (plainRadix base text))).length := by
  cases numeral with
  | plain _ digits nonempty =>
    rw [plainRadix_of_leading first nonempty] at digits
    exact length_le_takeWhile first digits
  | @hex x digits' valid letter digits nonempty =>
    obtain ⟨rest, rfl⟩ := first
    cases digits' with
    | nil => exact absurd rfl nonempty
    | cons c digits' =>
      have prefixed : hexPrefixed base (48 :: x :: c :: digits' ++ rest) = true :=
        hexPrefixed_iff.mpr ⟨valid, x, c, digits' ++ rest, rfl, letter, digits c (by simp)⟩
      exact absurd (plain.symm.trans prefixed) (by decide)

theorem valid_of_numeral {base n : Nat} {text : Text} (numeral : Numeral base text n) :
    ¬ (base = 1 ∨ 36 < base) := by
  cases numeral with
  | plain valid => omega
  | hex valid => omega

/-- What `strtoul` reads is the longest numeral. -/
theorem beginsWith_of_strtou {base n : Nat} {str rest : Text}
    (read : strtou base str = some (n, rest)) : BeginsWith base str n rest := by
  unfold strtou at read
  split at read
  · cases read
  case isFalse valid =>
    have valid : base = 0 ∨ 2 ≤ base ∧ base ≤ 36 := by omega
    by_cases hex : hexPrefixed base str
    · simp only [hex, if_true] at read
      obtain ⟨based, x, c, text, rfl, letter, digit⟩ := hexPrefixed_iff.mp hex
      split at read
      · cases read
      case isFalse nonempty =>
        obtain ⟨rfl, rfl⟩ := Prod.mk.inj (Option.some.inj read)
        rw [foldl_eq_valueOf]
        refine ⟨48 :: x :: (c :: text).takeWhile (isDigit 16), ?_, ?_, ?_⟩
        · simp [List.takeWhile_append_dropWhile]
        · exact .hex based letter (fun c member => List.mem_takeWhile_imp member) nonempty
        · intro other n first numeral
          exact length_numeral_hex based letter first numeral
    · simp only [hex, Bool.false_eq_true, if_false] at read
      split at read
      · cases read
      case isFalse nonempty =>
        obtain ⟨rfl, rfl⟩ := Prod.mk.inj (Option.some.inj read)
        rw [foldl_eq_valueOf]
        have radix : plainRadix base (str.takeWhile (isDigit (plainRadix base str))) =
            plainRadix base str :=
          plainRadix_of_leading (List.takeWhile_prefix _) nonempty
        refine ⟨str.takeWhile (isDigit (plainRadix base str)), ?_, ?_, ?_⟩
        · rw [List.takeWhile_append_dropWhile]
        · have digits : ∀ c ∈ str.takeWhile (isDigit (plainRadix base str)),
              isDigit (plainRadix base str) c = true :=
            fun c member => List.mem_takeWhile_imp member
          have numeral := Numeral.plain valid (radix.symm ▸ digits) nonempty
          rwa [radix] at numeral
        · intro other n first numeral
          exact length_numeral_plain (by simpa using hex) first numeral

/-- Where `strtoul` reads nothing, the text begins with no numeral. -/
theorem not_numeral_of_strtou {base n : Nat} {str part : Text} (read : strtou base str = none)
    (first : part <+: str) : ¬ Numeral base part n := by
  intro numeral
  have nonempty : 0 < part.length := by
    cases numeral with
    | plain _ _ nonempty => exact List.length_pos_iff.mpr nonempty
    | hex => simp
  unfold strtou at read
  rw [if_neg (valid_of_numeral numeral)] at read
  by_cases hex : hexPrefixed base str
  · simp only [hex, if_true] at read
    obtain ⟨-, x, c, text, rfl, -, digit⟩ := hexPrefixed_iff.mp hex
    simp [digit] at read
  · simp only [hex, Bool.false_eq_true, if_false] at read
    have short := length_numeral_plain (by simpa using hex) first numeral
    split at read
    case isTrue none =>
      rw [none] at short
      exact absurd short (by simpa using nonempty.ne')
    · cases read

/-- A numeral has one value. -/
theorem Numeral.unique {base n m : Nat} {text : Text} (one : Numeral base text n)
    (two : Numeral base text m) : n = m := by
  have mixed {x : UInt8} {text : Text} (valid : base = 0 ∨ base = 16) (letter : x = 120 ∨ x = 88)
      (digits : ∀ c ∈ 48 :: x :: text, isDigit (plainRadix base (48 :: x :: text)) c = true) :
      False := by
    have digit := digits x (by simp)
    exact absurd (digit.symm.trans (isDigit_x valid letter _)) (by decide)
  cases one with
  | plain _ digits =>
    cases two with
    | plain => rfl
    | hex valid letter => exact (mixed valid letter digits).elim
  | hex valid letter =>
    cases two with
    | plain _ digits => exact (mixed valid letter digits).elim
    | hex => rfl

theorem BeginsWith.unique {base n m : Nat} {text rest rest' : Text}
    (one : BeginsWith base text n rest) (two : BeginsWith base text m rest') :
    n = m ∧ rest = rest' := by
  obtain ⟨numeral, split, reads, longest⟩ := one
  obtain ⟨numeral', split', reads', longest'⟩ := two
  have length := le_antisymm (longest' _ _ ⟨rest, split.symm⟩ reads)
    (longest _ _ ⟨rest', split'.symm⟩ reads')
  obtain ⟨rfl, rfl⟩ := List.append_inj (split.symm.trans split') length
  exact ⟨reads.unique reads', rfl⟩

/-- `strtoul` reads exactly the longest numeral. -/
theorem strtou_iff {base n : Nat} {str rest : Text} :
    strtou base str = some (n, rest) ↔ BeginsWith base str n rest := by
  constructor
  · exact beginsWith_of_strtou
  · intro begins
    cases read : strtou base str with
    | none =>
      obtain ⟨numeral, split, reads, -⟩ := begins
      exact absurd reads (not_numeral_of_strtou read ⟨rest, split.symm⟩)
    | some found =>
      obtain ⟨value, behind⟩ := found
      obtain ⟨rfl, rfl⟩ := (beginsWith_of_strtou read).unique begins
      rfl

/-- The value that `XSTR_STRTOU` lets through fits the unsigned type. -/
theorem typeStrtou_iff {type : IntType} {base n : Nat} {str rest : Text} :
    type.strtou base str = some (n, rest) ↔ BeginsWith base str n rest ∧ n ≤ type.utypeMax := by
  have wide : type.utypeMax < 2 ^ type.strtouBits := by
    have := Nat.pow_le_pow_right (show 0 < 2 by decide) type.wide
    have := Nat.two_pow_pos type.bits
    rw [IntType.utypeMax]
    omega
  rw [← strtou_iff, IntType.strtou]
  cases strtou base str with
  | none => simp
  | some found =>
    obtain ⟨value, behind⟩ := found
    simp only [Option.some.injEq, Prod.mk.injEq]
    constructor
    · intro read
      split at read
      · cases read
      split at read
      · cases read
      case isFalse fits =>
        obtain ⟨rfl, rfl⟩ := Prod.mk.inj (Option.some.inj read)
        exact ⟨⟨rfl, rfl⟩, Nat.not_lt.mp fits⟩
    · rintro ⟨⟨rfl, rfl⟩, fits⟩
      rw [if_neg (by omega), if_neg (by omega)]

/-! ## The parsers accept what denotes a number within the limits -/

theorem findSuffix_eq (rest : Text) (table : List SuffixMult) :
    findSuffix rest table =
      ((table.takeWhile (·.mult ≠ 0)).find? (·.suffix = rest)).map (·.mult) := by
  induction table with
  | nil => rfl
  | cons entry table ih =>
    rw [findSuffix]
    by_cases ends : entry.mult = 0
    · simp [ends]
    · by_cases here : entry.suffix = rest
      · simp [ends, here]
      · simp [ends, here, ih]

theorem findSuffix_pos {rest : Text} {table : List SuffixMult} {mult : Nat}
    (found : findSuffix rest table = some mult) : 0 < mult := by
  induction table with
  | nil => cases found
  | cons entry table ih =>
    rw [findSuffix] at found
    split at found
    · cases found
    case isFalse goesOn =>
      split at found
      · cases found
        exact Nat.pos_of_ne_zero goesOn
      · exact ih found

theorem multiplies_iff {suffixes : Option (List SuffixMult)} {rest : Text} {mult : Nat} :
    Multiplies suffixes rest mult ↔ suffixes.bind (findSuffix rest) = some mult ∨
      suffixes.bind (findSuffix rest) = none ∧ rest = [] ∧ mult = 1 := by
  have loop : suffixes.bind (findSuffix rest) =
      (((suffixes.getD []).takeWhile (·.mult ≠ 0)).find? (·.suffix = rest)).map (·.mult) := by
    cases suffixes with
    | none => rfl
    | some table => exact findSuffix_eq rest table
  rw [loop, Option.map_eq_none_iff]
  rfl

/-- A numeral begins with a digit. -/
theorem head_of_beginsWith {base n : Nat} {text rest : Text} (begins : BeginsWith base text n rest) :
    ∃ c, text.head? = some c ∧ digitVal c < 36 := by
  obtain ⟨numeral, rfl, reads, -⟩ := begins
  have valid := valid_of_numeral reads
  cases reads with
  | hex => exact ⟨48, rfl, by decide⟩
  | plain _ digits nonempty =>
    cases numeral with
    | nil => exact absurd rfl nonempty
    | cons c numeral =>
      have digit := of_decide_eq_true (digits c (by simp))
      refine ⟨c, rfl, lt_of_lt_of_le digit ?_⟩
      unfold plainRadix
      split
      · split <;> decide
      · omega

/-- A digit is neither a sign nor a blank. -/
theorem not_sign_of_digitVal {c : UInt8} (digit : digitVal c < 36) :
    c ≠ 45 ∧ c ≠ 43 ∧ isspace c = false := by
  refine ⟨?_, ?_, ?_⟩
  · rintro rfl
    exact absurd digit (by decide)
  · rintro rfl
    exact absurd digit (by decide)
  · by_contra space
    have low : c < 33 := by
      simp only [isspace, Bool.not_eq_false, Bool.or_eq_true, beq_iff_eq, Bool.and_eq_true,
        decide_eq_true_eq] at space
      rcases space with rfl | ⟨-, high⟩
      · decide
      · exact UInt8.lt_of_le_of_lt high (by decide)
    have below {bound : UInt8} (high : 33 ≤ bound) : ¬ bound ≤ c := fun above =>
      UInt8.lt_irrefl c (UInt8.lt_of_lt_of_le low (UInt8.le_trans high above))
    simp [digitVal, below (show 33 ≤ 48 by decide), below (show 33 ≤ 97 by decide),
      below (show 33 ≤ 65 by decide)] at digit

/-- The unsigned parser accepts exactly the digits with a suffix whose product lies
within its limits. -/
theorem xstrtouRangeSfx_iff {type : IntType} {numstr : Text} {base lower upper n : Nat}
    {suffixes : Option (List SuffixMult)} (fits : upper ≤ type.utypeMax) :
    xstrtouRangeSfx type numstr base lower upper suffixes = .ok n ↔
      DenotesUnsigned base suffixes numstr n ∧ lower ≤ n ∧ n ≤ upper := by
  constructor
  · intro accepted
    unfold xstrtouRangeSfx at accepted
    split at accepted
    · cases accepted
    split at accepted
    · cases accepted
    case h_2 r e read =>
      obtain ⟨begins, -⟩ := typeStrtou_iff.mp read
      dsimp only at accepted
      split at accepted
      case h_1 mult found =>
        split at accepted
        · cases accepted
        split at accepted
        case isTrue inside =>
          cases accepted
          exact ⟨⟨r, e, mult, begins, multiplies_iff.mpr (.inl found), rfl⟩, inside⟩
        case isFalse => cases accepted
      case h_2 missing =>
        split at accepted
        · cases accepted
        case isFalse ends =>
          split at accepted
          case isTrue inside =>
            cases accepted
            exact ⟨⟨_, e, 1, begins,
              multiplies_iff.mpr (.inr ⟨missing, not_not.mp ends, rfl⟩), (mul_one _).symm⟩, inside⟩
          case isFalse => cases accepted
  · rintro ⟨⟨value, suffix, mult, begins, multiplies, rfl⟩, inside⟩
    obtain ⟨c, head, digit⟩ := head_of_beginsWith begins
    obtain ⟨notMinus, notPlus, notSpace⟩ := not_sign_of_digitVal digit
    have positive : 0 < mult := by
      rcases multiplies_iff.mp multiplies with found | ⟨-, -, rfl⟩
      · obtain ⟨table, -, found⟩ := Option.bind_eq_some_iff.mp found
        exact findSuffix_pos found
      · exact Nat.one_pos
    have whole : value * mult ≤ type.utypeMax := le_trans inside.2 fits
    have read : type.strtou base numstr = some (value, suffix) :=
      typeStrtou_iff.mpr ⟨begins, le_trans (Nat.le_mul_of_pos_right value positive) whole⟩
    unfold xstrtouRangeSfx
    rw [if_neg (by simp [head, notMinus, notPlus, notSpace]), read]
    dsimp only
    rcases multiplies_iff.mp multiplies with found | ⟨missing, rfl, rfl⟩
    · have small : ¬ type.utypeMax / mult < value :=
        Nat.not_lt.mpr ((Nat.le_div_iff_mul_le positive).mpr whole)
      simp only [found, if_neg small, if_pos inside]
    · simp only [missing, ne_eq, not_true_eq_false, if_false]
      rw [mul_one] at inside ⊢
      exact if_pos inside

/-! ## The signed parser -/

theorem IntType.typeMax_succ (type : IntType) : type.typeMax + 1 = 2 ^ (type.bits - 1) := by
  have := Nat.two_pow_pos (type.bits - 1)
  rw [IntType.typeMax]
  omega

theorem IntType.typeMin_eq (type : IntType) : type.typeMin = -(type.typeMax + 1 : Int) := by
  have := type.typeMax_succ
  rw [IntType.typeMin]
  exact_mod_cast congrArg (fun n : Nat => -(n : Int)) this.symm

theorem IntType.typeMax_le (type : IntType) : type.typeMax ≤ type.utypeMax := by
  have := Nat.pow_le_pow_right (show 0 < 2 by decide) (Nat.sub_le type.bits 1)
  rw [IntType.typeMax, IntType.utypeMax]
  omega

/-- Digits do not begin with a sign. -/
theorem head_of_denotesUnsigned {base n : Nat} {suffixes : Option (List SuffixMult)}
    {numstr : Text} (digits : DenotesUnsigned base suffixes numstr n) :
    numstr.head? ≠ some 45 ∧ numstr.head? ≠ some 43 := by
  obtain ⟨_, _, _, begins, -⟩ := digits
  obtain ⟨c, head, digit⟩ := head_of_beginsWith begins
  obtain ⟨notMinus, notPlus, -⟩ := not_sign_of_digitVal digit
  simp [head, notMinus, notPlus]

/-- What the text denotes, by the way the parser takes it apart. -/
theorem denotes_iff {base : Nat} {suffixes : Option (List SuffixMult)} {numstr : Text} {v : Int} :
    Denotes base suffixes numstr v ↔ ∃ n : Nat,
      DenotesUnsigned base suffixes
        (if numstr.head? = some 43 ∨ numstr.head? = some 45 then numstr.drop 1 else numstr) n ∧
      v = if numstr.head? = some 45 then -(n : Int) else n := by
  constructor
  · intro denotes
    cases denotes with
    | @bare _ n digits =>
      obtain ⟨notMinus, notPlus⟩ := head_of_denotesUnsigned digits
      exact ⟨n, by simpa [notMinus, notPlus] using digits, by simp [notMinus]⟩
    | @plus _ n digits => exact ⟨n, by simpa using digits, by simp⟩
    | @minus _ n digits => exact ⟨n, by simpa using digits, by simp⟩
  · rintro ⟨n, digits, rfl⟩
    by_cases plus : numstr.head? = some 43
    · obtain ⟨rest, rfl⟩ := List.head?_eq_some_iff.mp plus
      simpa using Denotes.plus (by simpa using digits)
    by_cases minus : numstr.head? = some 45
    · obtain ⟨rest, rfl⟩ := List.head?_eq_some_iff.mp minus
      simpa using Denotes.minus (by simpa using digits)
    · simp only [plus, minus, or_self, if_false] at digits ⊢
      exact .bare digits

/-- The limit is raised in vain: what stands behind it is refused for its second sign. -/
theorem magnitude_iff {type : IntType} {p : Text} {base n : Nat} {signed : Prop}
    [Decidable signed] {suffixes : Option (List SuffixMult)} :
    xstrtouRangeSfx type p base 0
        (if signed ∧ p.head? = some 45 then type.typeMax + 1 else type.typeMax) suffixes = .ok n ↔
      DenotesUnsigned base suffixes p n ∧ n ≤ type.typeMax := by
  by_cases second : p.head? = some 45
  · have refused (upper : Nat) : xstrtouRangeSfx type p base 0 upper suffixes =
        .error (.inval p) := by
      rw [xstrtouRangeSfx, if_pos (.inl second)]
    rw [refused]
    constructor
    · intro accepted
      cases accepted
    · rintro ⟨digits, -⟩
      exact absurd second (head_of_denotesUnsigned digits).1
  · rw [if_neg (fun raised => second raised.2), xstrtouRangeSfx_iff type.typeMax_le]
    simp

/-- The signed parser accepts exactly what denotes a number within its limits other than
the least one of the type. -/
theorem xstrtoRangeSfx_accepts {type : IntType} {numstr : Text} {base : Nat} {lower upper v : Int}
    {suffixes : Option (List SuffixMult)} (least : type.typeMin ≤ lower)
    (largest : upper ≤ type.typeMax) :
    xstrtoRangeSfx type numstr base lower upper suffixes = .ok v ↔
      Denotes base suffixes numstr v ∧ lower ≤ v ∧ v ≤ upper ∧ v ≠ type.typeMin := by
  have minimum := type.typeMin_eq
  rw [denotes_iff]
  constructor
  · intro accepted
    unfold xstrtoRangeSfx at accepted
    dsimp only at accepted
    split at accepted
    · cases accepted
    case h_2 r parsed =>
      obtain ⟨digits, fits⟩ := magnitude_iff.mp parsed
      rw [IntType.toSigned, if_pos fits] at accepted
      by_cases outside : (if numstr.head? = some 45 then -(r : Int) else r) < lower ∨
          upper < (if numstr.head? = some 45 then -(r : Int) else r)
      · rw [if_pos outside] at accepted
        cases accepted
      · rw [if_neg outside] at accepted
        obtain rfl := Except.ok.inj accepted
        rw [not_or, not_lt, not_lt] at outside
        refine ⟨⟨r, digits, rfl⟩, outside.1, outside.2, ?_⟩
        split <;> omega
  · rintro ⟨⟨n, digits, rfl⟩, above, below, notLeast⟩
    have fits : n ≤ type.typeMax := by
      by_cases minus : numstr.head? = some 45
      · rw [if_pos minus] at above notLeast
        omega
      · rw [if_neg minus] at below
        omega
    unfold xstrtoRangeSfx
    dsimp only
    rw [magnitude_iff.mpr ⟨digits, fits⟩]
    dsimp only
    rw [IntType.toSigned, if_pos fits, if_neg (by rw [not_or, not_lt, not_lt]; exact ⟨above, below⟩)]

/-- For every type, base, limits of the type and suffix table: the signed parser accepts
exactly the texts that denote a number within the limits, and returns that number, if
and only if the text does not denote the least number of the type with that number as
the lower limit. -/
theorem xstrtoRangeSfx_iff (type : IntType) (numstr : Text) (base : Nat) (lower upper : Int)
    (suffixes : Option (List SuffixMult)) (least : type.typeMin ≤ lower) (order : lower ≤ upper)
    (largest : upper ≤ type.typeMax) :
    (∀ v, xstrtoRangeSfx type numstr base lower upper suffixes = .ok v ↔
        Denotes base suffixes numstr v ∧ lower ≤ v ∧ v ≤ upper) ↔
      ¬ (lower = type.typeMin ∧ Denotes base suffixes numstr type.typeMin) := by
  simp only [xstrtoRangeSfx_accepts least largest]
  constructor
  · rintro agrees ⟨rfl, denotes⟩
    exact ((agrees _).mpr ⟨denotes, le_refl _, order⟩).2.2.2 rfl
  · intro spared v
    constructor
    · rintro ⟨denotes, above, below, -⟩
      exact ⟨denotes, above, below⟩
    · rintro ⟨denotes, above, below⟩
      refine ⟨denotes, above, below, ?_⟩
      rintro rfl
      exact spared ⟨le_antisymm above least, denotes⟩

/-- `bkm_suffixes`. -/
def bkmSuffixes : List SuffixMult :=
  [⟨ascii "b", 512⟩, ⟨ascii "k", 1024⟩, ⟨ascii "m", 1024 * 1024⟩, ⟨[], 0⟩]

/-- "-2k" between -4096 and 4096. -/
theorem xstrtoRangeSfx_iff_kilo :
    xstrtoRangeSfx int (ascii "-2k") 10 (-4096) 4096 (some bkmSuffixes) = .ok (-2048) ∧
    ((∀ v, xstrtoRangeSfx int (ascii "-2k") 10 (-4096) 4096 (some bkmSuffixes) = .ok v ↔
        Denotes 10 (some bkmSuffixes) (ascii "-2k") v ∧ -4096 ≤ v ∧ v ≤ 4096) ↔
      ¬ (-4096 = int.typeMin ∧ Denotes 10 (some bkmSuffixes) (ascii "-2k") int.typeMin)) :=
  ⟨by decide +kernel, xstrtoRangeSfx_iff int _ 10 _ _ _ (by decide) (by decide) (by decide)⟩

/-- "-2147483648" is refused as an `int`, although no limit excludes it. -/
theorem xstrtoRangeSfx_refuses_least :
    ¬ ∀ (type : IntType) (numstr : Text) (base : Nat) (lower upper : Int)
      (suffixes : Option (List SuffixMult)), type.typeMin ≤ lower → lower ≤ upper →
      upper ≤ type.typeMax →
      ∀ v, xstrtoRangeSfx type numstr base lower upper suffixes = .ok v ↔
        Denotes base suffixes numstr v ∧ lower ≤ v ∧ v ≤ upper := by
  intro claim
  have digits : DenotesUnsigned 10 none (ascii "2147483648") 2147483648 :=
    ⟨2147483648, [], 1, beginsWith_of_strtou (by decide +kernel), .inr ⟨rfl, rfl, rfl⟩, rfl⟩
  have accepted := (claim int (ascii "-2147483648") 10 int.typeMin int.typeMax none (le_refl _)
    (by decide) (le_refl _) int.typeMin).mpr ⟨Denotes.minus digits, le_refl _, by decide⟩
  exact absurd accepted (by decide +kernel)

end Busybox.Libbb.Xatonum

/-!
## `strtol`

Decimal numbers of a 64 bit `long`.
-/

namespace Busybox.Libbb.Strtol

open Xatonum (Text isspace)

def isdigit (c : UInt8) : Bool := 48 ≤ c && c ≤ 57

def digitsValue (digits : Text) : Nat :=
  digits.foldl (fun value c => value * 10 + (c.toNat - 48)) 0

def LONG_MAX : Int := 2 ^ 63 - 1
def LONG_MIN : Int := -2 ^ 63

/-- A sign, if there is one, and what is behind it. -/
def sign : Text → Bool × Text
  | 45 :: text => (true, text)
  | 43 :: text => (false, text)
  | text => (false, text)

/-- The value, saturated, and `*endptr`. -/
def strtol (str : Text) : Int × Text :=
  let (negative, text) := sign (str.dropWhile isspace)
  let digits := text.takeWhile isdigit
  if digits = [] then (0, str)
  else
    (if negative then max (-digitsValue digits) LONG_MIN else min (digitsValue digits) LONG_MAX,
      text.dropWhile isdigit)

/-- What is a number to `strtol`, without a sign. -/
abbrev Digits := {text : Text // text ≠ [] ∧ ∀ c ∈ text, isdigit c = true}

def Digits.value (digits : Digits) : Nat := digitsValue digits.1

theorem not_isspace_of_isdigit {c : UInt8} (digit : isdigit c = true) :
    isspace c = false ∧ c ≠ 45 ∧ c ≠ 43 := by
  simp only [isdigit, Bool.and_eq_true, decide_eq_true_eq, UInt8.le_iff_toNat_le] at digit
  have low : 48 ≤ c.toNat := digit.1
  refine ⟨?_, ?_, ?_⟩
  · simp only [isspace, Bool.or_eq_false_iff, Bool.and_eq_false_iff, beq_eq_false_iff_ne,
      decide_eq_false_iff_not, UInt8.le_iff_toNat_le]
    refine ⟨?_, .inr (Nat.not_le_of_lt (Nat.lt_of_lt_of_le (by decide) low))⟩
    rintro rfl
    exact absurd low (by decide)
  · rintro rfl
    exact absurd low (by decide)
  · rintro rfl
    exact absurd low (by decide)

theorem sign_length (text : Text) : (sign text).2.length ≤ text.length := by
  unfold sign
  split
  · exact Nat.le_succ _
  · exact Nat.le_succ _
  · exact Nat.le_refl _

theorem strtol_length_le (str : Text) : (strtol str).2.length ≤ str.length := by
  rw [strtol]
  simp only
  split
  · exact Nat.le_refl _
  · exact ((List.length_dropWhile_le _ _).trans (sign_length _)).trans
      (List.length_dropWhile_le _ _)

theorem strtol_length {c : UInt8} (digit : isdigit c = true) (rest : Text) :
    (strtol (c :: rest)).2.length < (c :: rest).length := by
  obtain ⟨notSpace, notMinus, notPlus⟩ := not_isspace_of_isdigit digit
  have unsigned : sign ((c :: rest).dropWhile isspace) = (false, c :: rest) := by
    rw [List.dropWhile_cons_of_neg (by rw [notSpace]; exact Bool.false_ne_true)]
    simp [sign, notMinus, notPlus]
  rw [strtol, unsigned]
  simp only [List.takeWhile_cons_of_pos digit, List.dropWhile_cons_of_pos digit,
    if_neg (List.cons_ne_nil _ _)]
  exact Nat.lt_succ_of_le (List.length_dropWhile_le _ _)

/-- The digits of a number are read up to the first character that is none. -/
theorem strtol_digits (digits : Digits) {rest : Text} (ends : rest.head?.all (!isdigit ·) = true) :
    strtol (digits.1 ++ rest) = (min (digits.value : Int) LONG_MAX, rest) := by
  obtain ⟨text, nonempty, all⟩ := digits
  obtain ⟨c, text, rfl⟩ := List.exists_cons_of_ne_nil nonempty
  obtain ⟨notSpace, notMinus, notPlus⟩ := not_isspace_of_isdigit (all c List.mem_cons_self)
  have unsigned : sign (((c :: text) ++ rest).dropWhile isspace) =
      (false, (c :: text) ++ rest) := by
    rw [List.cons_append, List.dropWhile_cons_of_neg (by rw [notSpace]; exact Bool.false_ne_true)]
    simp [sign, notMinus, notPlus]
  have taken : ((c :: text) ++ rest).takeWhile isdigit = c :: text := by
    rw [List.takeWhile_append_of_pos all]
    cases rest with
    | nil => exact List.append_nil _
    | cons d rest =>
      rw [List.takeWhile_cons_of_neg (by simpa using ends), List.append_nil]
  have dropped : ((c :: text) ++ rest).dropWhile isdigit = rest := by
    rw [List.dropWhile_append_of_pos all]
    cases rest with
    | nil => rfl
    | cons d rest => rw [List.dropWhile_cons_of_neg (by simpa using ends)]
  rw [strtol, unsigned]
  simp only [taken, dropped, if_neg nonempty]
  rfl

/-! ## The value of digits -/

theorem foldl_digits (ds : Text) (start : Nat) :
    ds.foldl (fun value c => value * 10 + (c.toNat - 48)) start =
      start * 10 ^ ds.length + digitsValue ds := by
  induction ds generalizing start with
  | nil => rw [digitsValue, List.foldl_nil, List.foldl_nil, List.length_nil, pow_zero, mul_one,
      add_zero]
  | cons c ds ih =>
    rw [digitsValue, List.foldl_cons, List.foldl_cons, ih, ih, List.length_cons, pow_succ]
    ring

theorem digitsValue_cons (c : UInt8) (ds : Text) :
    digitsValue (c :: ds) = (c.toNat - 48) * 10 ^ ds.length + digitsValue ds := by
  rw [digitsValue, List.foldl_cons, foldl_digits, zero_mul, zero_add]

theorem isdigit_iff {c : UInt8} : isdigit c = true ↔ 48 ≤ c.toNat ∧ c.toNat ≤ 57 := by
  rw [isdigit, Bool.and_eq_true, decide_eq_true_eq, decide_eq_true_eq, UInt8.le_iff_toNat_le,
    UInt8.le_iff_toNat_le]
  rfl

theorem digitsValue_lt {ds : Text} (digits : ∀ c ∈ ds, isdigit c = true) :
    digitsValue ds < 10 ^ ds.length := by
  induction ds with
  | nil => exact Nat.one_pos
  | cons c ds ih =>
    have digit := isdigit_iff.mp (digits c List.mem_cons_self)
    have rest := ih fun d mem => digits d (List.mem_cons_of_mem _ mem)
    have high : (c.toNat - 48) * 10 ^ ds.length ≤ 9 * 10 ^ ds.length :=
      Nat.mul_le_mul_right _ (by omega)
    rw [digitsValue_cons, List.length_cons, pow_succ]
    omega

/-- A number that does not begin with 0 is as large as its length says. -/
theorem le_digitsValue {c : UInt8} {ds : Text} (digit : isdigit c = true) (nonzero : c ≠ 48) :
    10 ^ ds.length ≤ digitsValue (c :: ds) := by
  have low := isdigit_iff.mp digit
  have notZero : c.toNat ≠ 48 := fun same => nonzero (UInt8.toNat_inj.mp same)
  rw [digitsValue_cons]
  exact (Nat.le_mul_of_pos_left _ (by omega)).trans (Nat.le_add_right _ _)

end Busybox.Libbb.Strtol

/-!
## Escape sequences

What is behind a backslash: up to three octal digits, `x` and up to two hexadecimal ones, or a
letter. The character behind the last one of a text is its NUL.
-/

namespace Busybox.Libbb.EscapeSequence

open Xatonum (Text)

/-- The value of a hexadecimal digit; that of any other character is larger. -/
def digit (c : UInt8) : Nat :=
  let d := (c.toNat + 2 ^ 32 - 48) % 2 ^ 32
  if 10 ≤ d then
    let d := ((c ||| 0x20).toNat + 2 ^ 32 - 97) % 2 ^ 32
    if d < 2 ^ 31 then d + 10 else d
  else d

/-- The number, how many characters it has, and what is behind it; none for `\x` with no digit. -/
def digits (base numDigits n : Nat) (q : Text) : Option (Nat × Nat × Text) :=
  let d := digit (q.headD 0)
  if base ≤ d then
    if base = 16 then
      if numDigits - 1 = 0 then none else some (n, numDigits - 1, q)
    else some (n, numDigits, q)
  else
    let r := n * base + d
    if 255 < r then some (n, numDigits, q)
    else if numDigits + 1 < 3 then digits base (numDigits + 1) r q.tail
    else some (r, numDigits + 1, q.tail)
termination_by 3 - numDigits

def charmap : List (UInt8 × UInt8) :=
  [(97, 7), (98, 8), (101, 27), (102, 12), (110, 10), (114, 13), (116, 9), (118, 11), (92, 92)]

/-- "Is it one-letter one?" -/
def oneLetter (q : Text) : UInt8 × Text :=
  match charmap.lookup (q.headD 0) with
  | some n => (n, q.tail)
  -- "\NUL and unrecognized sequence \z return '\' and leave ptr pointing to NUL or z"
  | none => (92, q)

/-- `bb_process_escape_sequence`: the character, and what `*ptr` is left at. -/
def processEscapeSequence (ptr : Text) : UInt8 × Text :=
  let number := if ptr.head? = some 120 then digits 16 1 0 ptr.tail else digits 8 0 0 ptr
  match number with
  | none => (92, ptr)
  | some (n, numDigits, q) => if numDigits = 0 then oneLetter q else (UInt8.ofNat n, q)

theorem digits_length {base numDigits n : Nat} {q : Text} {m count : Nat} {rest : Text}
    (read : digits base numDigits n q = some (m, count, rest)) : rest.length ≤ q.length := by
  have tail (q : Text) : q.tail.length ≤ q.length := List.length_tail ▸ Nat.sub_le _ _
  fun_induction digits base numDigits n q with
  | case1 => cases read
  | case2 | case3 | case4 =>
    simp only [Option.some.injEq, Prod.mk.injEq] at read
    exact Nat.le_of_eq (congrArg List.length read.2.2.symm)
  | case5 numDigits n q d isDigit r small more ih => exact (ih read).trans (tail q)
  | case6 numDigits n q =>
    simp only [Option.some.injEq, Prod.mk.injEq] at read
    exact read.2.2 ▸ tail q

theorem oneLetter_length (q : Text) : (oneLetter q).2.length ≤ q.length := by
  unfold oneLetter
  split
  · exact List.length_tail ▸ Nat.sub_le _ _
  · exact Nat.le_refl _

/-- An escape sequence is taken off a text. -/
theorem processEscapeSequence_length (ptr : Text) :
    (processEscapeSequence ptr).2.length ≤ ptr.length := by
  unfold processEscapeSequence
  simp only
  split
  case h_1 => exact Nat.le_refl _
  case h_2 n numDigits q read =>
    have behind : q.length ≤ ptr.length := by
      split at read
      · exact (digits_length read).trans (List.length_tail ▸ Nat.sub_le _ _)
      · exact digits_length read
    split
    · exact (oneLetter_length q).trans behind
    · exact behind

end Busybox.Libbb.EscapeSequence
