import Mathlib

/-!
# Sort keys

The part of a line that `sort` compares. A key names fields and characters of a
line; `get_key` finds where it starts and ends, strips blanks, applies the
character filters and copies what is left. Positions are `int`s: a start that
runs past the largest one turns negative, and the copy would begin before the
line, so `getKey` has no value there.
-/

namespace Busybox.Sort

/-- The option and key flags the comparison looks at. -/
structure Flags where
  n : Bool := false
  g : Bool := false
  M : Bool := false
  V : Bool := false
  u : Bool := false
  s : Bool := false
  b : Bool := false
  r : Bool := false
  d : Bool := false
  f : Bool := false
  i : Bool := false
  bb : Bool := false
  noTieBreak : Bool := false
  deriving DecidableEq, Repr

/-- `range[4]` is start word, start char, end word, end char; 0 stands for an absent one. -/
structure SortKey where
  startWord : Nat := 0
  startChar : Nat := 0
  endWord : Nat := 0
  endChar : Nat := 0
  flags : Flags := {}
  deriving DecidableEq, Repr

/-- A C string: its bytes before the terminating NUL. -/
structure Line where
  bytes : List UInt8
  noNul : 0 ∉ bytes
  deriving DecidableEq

namespace Line

theorem ext {x y : Line} (same : x.bytes = y.bytes) : x = y := by
  cases x
  cases y
  congr

end Line

/-! ## Characters -/

def isspace (ch : UInt8) : Bool := ch == 32 || (9 ≤ ch && ch ≤ 13)

def isalnum (ch : UInt8) : Bool :=
  (48 ≤ ch && ch ≤ 57) || (65 ≤ ch && ch ≤ 90) || (97 ≤ ch && ch ≤ 122)

def isprintAsciionly (ch : UInt8) : Bool := 0x20 ≤ ch && ch ≤ 0x7e

def toupper (ch : UInt8) : UInt8 := if 97 ≤ ch && ch ≤ 122 then ch - 32 else ch

theorem toupper_ne_zero {ch : UInt8} (real : ch ≠ 0) : toupper ch ≠ 0 := by
  unfold toupper
  split
  case isTrue letter =>
    simp only [Bool.and_eq_true, decide_eq_true_eq, UInt8.le_iff_toNat_le] at letter
    intro zero
    have byte := congrArg UInt8.toNat zero
    rw [UInt8.toNat_sub_of_le _ _ (UInt8.le_iff_toNat_le.2 (le_trans (by decide) letter.1))] at byte
    exact absurd byte (Nat.sub_ne_zero_of_lt (lt_of_lt_of_le (by decide) letter.1))
  case isFalse => exact real

/-! ## Positions of a key -/

/-- The `key_separator` is a signed `char`, which an `unsigned char` from 128 on never equals. -/
def isSeparator (separator ch : UInt8) : Bool := ch == separator && ch < 128

/-- Skips the body of a field and its separator. The second value is the byte that ended
the loop: the separator, or the NUL behind the line. -/
def skipToSeparator (separator : UInt8) : List UInt8 → Nat × UInt8
  | [] => (0, 0)
  | ch :: rest =>
      if isSeparator separator ch then (1, ch)
      else
        let (skipped, last) := skipToSeparator separator rest
        (skipped + 1, last)

/-- Skips leading blanks and the body of a field. -/
def skipWord (str : List UInt8) : Nat :=
  let body := str.dropWhile isspace
  (str.takeWhile isspace).length + (body.takeWhile fun ch => !isspace ch).length

/-- One round of the loop through the fields, from a position on. -/
def skipField (keySeparator : Option UInt8) (str : List UInt8) (ch : UInt8) : Nat × UInt8 :=
  match keySeparator with
  | some separator => skipToSeparator separator str
  | none => (skipWord str, ch)

def skipFields (keySeparator : Option UInt8) : Nat → List UInt8 → UInt8 → Nat × UInt8
  | 0, _, ch => (0, ch)
  | rounds + 1, str, ch =>
      let (skipped, last) := skipField keySeparator str ch
      let (more, last) := skipFields keySeparator rounds (str.drop skipped) last
      (skipped + more, last)

/-- Where the loop over `j` stops: with `j = 0` before the word, with `j = 1` behind it and
in front of its separator. -/
def keyPosition (keySeparator : Option UInt8) (str : List UInt8) (word j : Nat) : Nat :=
  if word = 0 then str.length
  else
    let (position, ch) := skipFields keySeparator (word - 1 + j) str 0
    if j ≠ 0 ∧ ch ≠ 0 then position - 1 else position

/-- `while (end > start && isspace(str[end-1])) end--` -/
def stripTrailing (str : List UInt8) (start : Nat) : Nat → Nat
  | 0 => 0
  | stop + 1 =>
      if stop + 1 > start ∧ (str[stop]?.any isspace) then stripTrailing str start stop
      else stop + 1

theorem skipToSeparator_le (separator : UInt8) (str : List UInt8) :
    (skipToSeparator separator str).1 ≤ str.length := by
  induction str with
  | nil => exact Nat.le_refl 0
  | cons ch rest ih =>
    unfold skipToSeparator
    split
    · exact Nat.succ_le_succ (Nat.zero_le _)
    · exact Nat.succ_le_succ ih

theorem skipWord_le (str : List UInt8) : skipWord str ≤ str.length := by
  have split := congrArg List.length (List.takeWhile_append_dropWhile (p := isspace) (l := str))
  have body := ((str.dropWhile isspace).takeWhile_sublist fun ch => !isspace ch).length_le
  rw [List.length_append] at split
  simp only [skipWord]
  omega

theorem skipField_le (keySeparator : Option UInt8) (str : List UInt8) (ch : UInt8) :
    (skipField keySeparator str ch).1 ≤ str.length := by
  cases keySeparator with
  | none => exact skipWord_le str
  | some separator => exact skipToSeparator_le separator str

/-- The loop through the fields never leaves the line. -/
theorem skipFields_le (keySeparator : Option UInt8) (rounds : Nat) (str : List UInt8)
    (ch : UInt8) : (skipFields keySeparator rounds str ch).1 ≤ str.length := by
  induction rounds generalizing str ch with
  | zero => exact Nat.zero_le _
  | succ rounds ih =>
    have first := skipField_le keySeparator str ch
    have more := ih (str.drop (skipField keySeparator str ch).1) (skipField keySeparator str ch).2
    rw [List.length_drop] at more
    unfold skipFields
    dsimp only
    omega

theorem keyPosition_le (keySeparator : Option UInt8) (str : List UInt8) (word j : Nat) :
    keyPosition keySeparator str word j ≤ str.length := by
  have inside := skipFields_le keySeparator (word - 1 + j) str 0
  unfold keyPosition
  split
  · exact Nat.le_refl _
  · dsimp only
    split <;> omega

/-! ## The copy -/

/-- The start of the key's word, behind its leading blanks if the flags strip them. -/
def keyStart (keySeparator : Option UInt8) (str : List UInt8) (key : SortKey) (flags : Flags) :
    Nat :=
  let start := keyPosition keySeparator str key.startWord 0
  if flags.b then start + ((str.drop start).takeWhile isspace).length else start

/-- The end of the key's last word, before its trailing blanks if the flags strip them; an
end character replaces both. -/
def keyStop (keySeparator : Option UInt8) (str : List UInt8) (key : SortKey) (flags : Flags) :
    Nat :=
  let stop := keyPosition keySeparator str key.endWord 1
  if key.endChar ≠ 0 then min key.endChar str.length
  else if flags.bb then stripTrailing str (keyStart keySeparator str key flags) stop
  else stop

/-- Start and end of the copy, the start character honoured in an `int`. -/
def keyRange (keySeparator : Option UInt8) (str : List UInt8) (key : SortKey) (flags : Flags) :
    Option (Nat × Nat) :=
  let start := keyStart keySeparator str key flags
  let stop := keyStop keySeparator str key flags
  if key.startChar = 0 then some (start, max start stop)
  else
    let start := start + (key.startChar - 1)
    -- a sum from `2 ^ 31` on wraps to a negative `start`
    if start < 2 ^ 31 then some (min start str.length, max (min start str.length) stop) else none

/-- One filter of the copy, when its flag asks for it. -/
def keepWhen (chosen : Bool) (keep : UInt8 → Bool) (copy : List UInt8) : List UInt8 :=
  if chosen then copy.filter keep else copy

theorem keepWhen_noNul {chosen : Bool} {keep : UInt8 → Bool} {copy : List UInt8}
    (noNul : 0 ∉ copy) : 0 ∉ keepWhen chosen keep copy := by
  unfold keepWhen
  split
  · intro member
    exact noNul (List.mem_filter.1 member).1
  · exact noNul

/-- `-d`, `-i` and `-f` on the copy, in this order. -/
def filterKey (flags : Flags) (copy : List UInt8) : List UInt8 :=
  let kept := keepWhen flags.i isprintAsciionly
    (keepWhen flags.d (fun ch => isspace ch || isalnum ch) copy)
  if flags.f then kept.map toupper else kept

theorem filterKey_noNul {flags : Flags} {copy : List UInt8} (noNul : 0 ∉ copy) :
    0 ∉ filterKey flags copy := by
  have kept : 0 ∉ keepWhen flags.i isprintAsciionly
      (keepWhen flags.d (fun ch => isspace ch || isalnum ch) copy) :=
    keepWhen_noNul (keepWhen_noNul noNul)
  simp only [filterKey]
  split
  · intro member
    obtain ⟨ch, inCopy, upper⟩ := List.mem_map.1 member
    exact toupper_ne_zero (fun zero => kept (zero ▸ inCopy)) upper
  · exact kept

/-- The key with no end, no offset and no filter is the line itself. -/
def isWholeLine (key : SortKey) (flags : Flags) : Bool :=
  key.startWord == 1 && key.startChar == 0 && key.endWord == 0 && key.endChar == 0 &&
    !(flags.b || flags.d || flags.f || flags.i || flags.bb)

def getKey (keySeparator : Option UInt8) (str : Line) (key : SortKey) (flags : Flags) :
    Option Line :=
  if isWholeLine key flags then some str
  else
    (keyRange keySeparator str.bytes key flags).map fun (start, stop) =>
      ⟨filterKey flags ((str.bytes.drop start).take (stop - start)),
        filterKey_noNul fun member =>
          str.noNul (List.mem_of_mem_drop (List.mem_of_mem_take member))⟩

end Busybox.Sort
