import Busybox.Crond.Fill
import Mathlib.Data.List.Nodup

/-!
# The members of a field

A field is a list of members, each with the ends of a range and a step. `ParseField` takes the ends
as an `int`, so that a number out of range may come out as another one, or below 0.
-/

namespace Busybox.Crond

open Libbb.Xatonum (Text)
open Libbb.Strtol (isdigit strtol strtol_digits Digits LONG_MAX)

/-! ## Columns -/

/-- The columns of a crontab. -/
abbrev CrontabColumn := {column : Column // column ∈ [clMins, clHrs, clDays, clMons, clDow]}

/-- Names are of three small letters. -/
def isName (name : Text) : Bool := name.length == 3 && name.all fun c => 97 ≤ c && c ≤ 122

structure Column.Fits (column : Column) : Prop where
  positive : 0 < column.modvalue
  small : column.modvalue < 512
  off : column.off = 0 ∨ column.off = -1
  names : ∀ name ∈ column.names, isName name = true
  nodup : column.names.Nodup
  few : column.names.length ≤ column.modvalue

theorem Column.fits {column : Column} (mem : column ∈ [clMins, clHrs, clDays, clMons, clDow]) :
    column.Fits := by
  simp only [List.mem_cons, List.not_mem_nil, or_false] at mem
  rcases mem with rfl | rfl | rfl | rfl | rfl <;>
    exact ⟨by decide, by decide, by decide, by decide, by decide, by decide⟩

/-! ## Fields -/

section Grammar

variable (column : Column)

/-- A number, or a name in small or capital letters. -/
inductive Value
  | number (digits : Digits)
  | name (index : Nat) (text : Text) (spelled : column.names[index]? = some (text.map tolower))

inductive Base
  | all
  | single (value : Value column)
  | range (first last : Value column)

structure Member where
  base : Base column
  step : Option Digits

abbrev Field := {members : List (Member column) // members ≠ []}

end Grammar

variable {column : Column}

def Value.text : Value column → Text
  | .number digits => digits.1
  | .name _ text _ => text

def Base.text : Base column → Text
  | .all => [42]
  | .single value => value.text
  | .range first last => first.text ++ 45 :: last.text

def Member.text (member : Member column) : Text :=
  member.base.text ++ member.step.elim [] fun digits => 47 :: digits.1

def Field.text (field : Field column) : Text := List.intercalate [44] (field.1.map Member.text)

/-! ## What a field denotes -/

/-- The element for a value; a number may be out of range. -/
def Value.index : Value column → Int
  | .number digits => digits.value + column.off
  | .name index _ _ => index

def Base.values : Base column → List (Value column)
  | .all => []
  | .single value => [value]
  | .range first last => [first, last]

def Base.bounds : Base column → Int × Int
  | .all => (0, column.modvalue - 1)
  | .single value => (value.index, value.index)
  | .range first last => (first.index, last.index)

def Member.InRange (member : Member column) : Prop :=
  ∀ value ∈ member.base.values, 0 ≤ value.index ∧ value.index < column.modvalue

/-- Every so many-th from the first to the last, round the end. -/
def Member.Denotes (member : Member column) (position : Int) : Prop :=
  ∃ j : Nat, j ≤ (member.base.bounds.2 - member.base.bounds.1) % column.modvalue ∧
    member.step.elim 1 Digits.value ∣ j ∧ (member.base.bounds.1 + j) % column.modvalue = position

/-- A field with a number out of range denotes nothing. -/
def Field.Denotes (field : Field column) (position : Int) : Prop :=
  (∀ member ∈ field.1, member.InRange) ∧ ∃ member ∈ field.1, member.Denotes position

/-! ## What is read -/

/-- A value as an `int`. -/
def Value.read : Value column → Int
  | .number digits => int (min (digits.value : Int) LONG_MAX + column.off)
  | .name index _ _ => index

/-- A value below 0 passes for none. -/
def Base.ends : Base column → Int × Int
  | .all => (0, column.modvalue - 1)
  | .single value => (value.read, value.read)
  | .range first last =>
    if first.read < 0 then (last.read, last.read)
    else if last.read < 0 then (first.read, first.read)
    else (first.read, last.read)

def Member.skip (member : Member column) : Int :=
  member.step.elim 1 fun digits => int (min (digits.value : Int) LONG_MAX)

/-- The last value, as an `int`, is none of the indices that the fill loop comes by. -/
def Member.Endless (member : Member column) : Prop :=
  column.modvalue ≤ member.base.ends.2 ∨ member.base.ends.2 ≤ -column.modvalue

instance (member : Member column) : Decidable member.Endless := by
  unfold Member.Endless
  infer_instance

/-- The members up to the first one without an end. -/
def reached : List (Member column) → List (Member column)
  | [] => []
  | member :: members => if member.Endless then [member] else member :: reached members

/-- The indices that are set for a member. -/
def Member.filled (member : Member column) : List Int × Bool :=
  fillRange column.modvalue member.base.ends.1 member.base.ends.2 member.skip

theorem head_all {rest : Text} (stop : rest.head? = none ∨ rest.head? = some 44) :
    rest.head?.all (!isdigit ·) = true := by
  rcases stop with stop | stop <;> rw [stop] <;> rfl

theorem tolower_letter {c : UInt8} (letter : 97 ≤ tolower c ∧ tolower c ≤ 122) :
    c ≠ 42 ∧ isdigit c = false := by
  have low : 65 ≤ c := by
    unfold tolower at letter
    split at letter
    case isTrue capital => exact capital.1
    case isFalse => exact UInt8.le_trans (by decide) letter.1
  have low : 65 ≤ c.toNat := low
  constructor
  · rintro rfl
    exact absurd low (by decide)
  · have high : ¬c ≤ 57 := fun le => absurd (low.trans (UInt8.le_iff_toNat_le.mp le)) (by decide)
    rw [isdigit, decide_eq_false high, Bool.and_false]

/-- A name is found by its spelling. -/
theorem findIdx?_name (fits : column.Fits) {index : Nat} {text : Text}
    (spelled : column.names[index]? = some (text.map tolower)) (rest : Text) :
    text.length = 3 ∧ column.names.findIdx? (sameName (text ++ rest)) = some index := by
  obtain ⟨inside, isName'⟩ := List.getElem?_eq_some_iff.mp spelled
  have name := fits.names _ (List.getElem_mem inside)
  rw [isName', isName, Bool.and_eq_true, beq_iff_eq, List.length_map] at name
  refine ⟨name.1, List.findIdx?_eq_some_iff_getElem.mpr ⟨inside, ?_, fun j less => ?_⟩⟩
  · rw [sameName, ← name.1, List.take_left, isName']
    exact beq_self_eq_true _
  · rw [sameName, ← name.1, List.take_left, ← isName', beq_iff_eq]
    exact fun same => absurd ((List.Nodup.getElem_inj_iff fits.nodup).mp same) (Nat.ne_of_gt less)

theorem Value.readValue (fits : column.Fits) (value : Value column) {rest : Text} {n1 n2 : Int}
    (stop : rest.head?.all (!isdigit ·) = true) :
    Crond.readValue column n1 n2 (value.text ++ rest) =
      if n1 < 0 then some (value.read, n2, rest) else some (n1, value.read, rest) := by
  cases value with
  | number digits =>
    have read := strtol_digits digits stop
    obtain ⟨c, text, isText⟩ := List.exists_cons_of_ne_nil digits.2.1
    have digit : isdigit c = true := digits.2.2 c (isText ▸ List.mem_cons_self)
    have notStar : c ≠ 42 := by
      rintro rfl
      cases digit
    simp only [Value.text, isText, List.cons_append] at read ⊢
    rw [Crond.readValue, if_neg notStar, if_pos digit, read]
    rfl
  | name index text spelled =>
    obtain ⟨length, found⟩ := findIdx?_name fits spelled rest
    obtain ⟨inside, isName'⟩ := List.getElem?_eq_some_iff.mp spelled
    have name := fits.names _ (List.getElem_mem inside)
    rw [isName', isName, Bool.and_eq_true] at name
    have behind : (text ++ rest).drop 3 = rest := by rw [← length, List.drop_left]
    cases text with
    | nil => cases length
    | cons c text =>
      have letter : 97 ≤ tolower c ∧ tolower c ≤ 122 := by
        simpa using List.all_eq_true.mp name.2 (tolower c) (List.mem_map_of_mem List.mem_cons_self)
      obtain ⟨notStar, notDigit⟩ := tolower_letter letter
      simp only [Value.text]
      rw [List.cons_append] at found behind ⊢
      rw [Crond.readValue, if_neg notStar, if_neg (by rw [notDigit]; exact Bool.false_ne_true),
        found, Option.map_some, behind]
      split <;> rfl

/-- What is behind the range of a member. -/
theorem Member.tail (member : Member column) {rest : Text}
    (stop : rest.head? = none ∨ rest.head? = some 44) :
    let behind := (member.step.elim [] fun digits => 47 :: digits.1) ++ rest
    behind.head?.all (!isdigit ·) = true ∧ behind.head? ≠ some 45 ∧
      readSkip behind = (member.skip, rest) := by
  cases isStep : member.step with
  | none =>
    refine ⟨head_all stop, ?_, ?_⟩
    · rcases stop with stop | stop <;> simp [stop]
    · rw [Member.skip, isStep]
      cases rest with
      | nil => rfl
      | cons c rest =>
        have notSlash : c ≠ 47 := by
          rintro rfl
          rcases stop with stop | stop <;> cases stop
        simp [readSkip, notSlash]
  | some digits =>
    refine ⟨rfl, fun slash => ?_, ?_⟩
    · cases slash
    · rw [Member.skip, isStep]
      simp only [Option.elim_some, List.cons_append, readSkip, strtol_digits digits (head_all stop)]

/-- The loop where a range has been read. -/
def afterRange (column : Column) (set : List Int) (n1 n2 : Int) (behind : Text) : Run :=
  let filled := fillRange column.modvalue n1 n2 (readSkip behind).1
  if filled.2 then ⟨set ++ filled.1, true⟩
  else if (readSkip behind).2.head? = some 44 then
    Crond.parseLoop column (-1) (-1) (set ++ filled.1) (readSkip behind).2.tail
  else ⟨set ++ filled.1, (readSkip behind).2 ≠ []⟩

theorem parseLoop_none {n1 n2 : Int} {set : List Int} {ptr : Text}
    (read : readValue column n1 n2 ptr = none) : parseLoop column n1 n2 set ptr = ⟨set, true⟩ := by
  rw [parseLoop]
  split
  case h_1 => rfl
  case h_2 isRead => cases isRead.symm.trans read

theorem parseLoop_minus {n1 n2 m1 m2 : Int} {set : List Int} {ptr rest : Text}
    (read : readValue column n1 n2 ptr = some (m1, m2, 45 :: rest)) (unset : m2 < 0) :
    parseLoop column n1 n2 set ptr = parseLoop column m1 m2 set rest := by
  rw [parseLoop]
  split
  case h_1 none => cases none.symm.trans read
  case h_2 isRead =>
    cases isRead.symm.trans read
    exact if_pos ⟨rfl, unset⟩

theorem parseLoop_range {n1 n2 m1 m2 : Int} {set : List Int} {ptr behind : Text}
    (read : readValue column n1 n2 ptr = some (m1, m2, behind))
    (ends : ¬(behind.head? = some 45 ∧ m2 < 0)) :
    parseLoop column n1 n2 set ptr =
      afterRange column set m1 (if m2 < 0 then m1 else m2) behind := by
  rw [parseLoop]
  split
  case h_1 none => cases none.symm.trans read
  case h_2 isRead =>
    cases isRead.symm.trans read
    exact if_neg ends

/-- The ends of a range are read up to what is behind it. -/
theorem Base.parseLoop (fits : column.Fits) (base : Base column) (set : List Int) {behind : Text}
    (stop : behind.head?.all (!isdigit ·) = true) (noMinus : behind.head? ≠ some 45) :
    Crond.parseLoop column (-1) (-1) set (base.text ++ behind) =
      afterRange column set base.ends.1 base.ends.2 behind := by
  have ends {m2 : Int} : ¬(behind.head? = some 45 ∧ m2 < 0) := fun both => noMinus both.1
  cases base with
  | all =>
    have positive := fits.positive
    have read : readValue column (-1) (-1) (42 :: behind) =
        some (0, (column.modvalue : Int) - 1, behind) := by
      rw [readValue, if_pos rfl]
    rw [Base.text, List.singleton_append, parseLoop_range read ends, if_neg (by omega)]
    rfl
  | single value =>
    have read : readValue column (-1) (-1) (value.text ++ behind) = some (value.read, -1, behind) :=
      (value.readValue fits stop).trans (if_pos (by decide))
    rw [Base.text, parseLoop_range read ends, if_pos (by decide)]
    rfl
  | range first last =>
    have readFirst : readValue column (-1) (-1) (first.text ++ 45 :: (last.text ++ behind)) =
        some (first.read, -1, 45 :: (last.text ++ behind)) :=
      (first.readValue fits rfl).trans (if_pos (by decide))
    have readLast : readValue column first.read (-1) (last.text ++ behind) = _ :=
      last.readValue fits stop
    rw [Base.text, List.append_assoc, List.cons_append, parseLoop_minus readFirst (by decide),
      Base.ends]
    split
    case isTrue unset =>
      rw [parseLoop_range (readLast.trans (if_pos unset)) ends, if_pos (by decide)]
    case isFalse isSet =>
      rw [parseLoop_range (readLast.trans (if_neg isSet)) ends]
      split <;> rfl

/-- A member is read up to a comma or the end. -/
theorem Member.parseLoop (fits : column.Fits) (member : Member column) (set : List Int)
    {rest : Text} (stop : rest.head? = none ∨ rest.head? = some 44) :
    Crond.parseLoop column (-1) (-1) set (member.text ++ rest) =
      if member.filled.2 then ⟨set ++ member.filled.1, true⟩
      else if rest.head? = some 44 then
        Crond.parseLoop column (-1) (-1) (set ++ member.filled.1) rest.tail
      else ⟨set ++ member.filled.1, rest ≠ []⟩ := by
  obtain ⟨notDigit, noMinus, step⟩ := member.tail stop
  rw [Member.text, List.append_assoc, member.base.parseLoop fits set notDigit noMinus, afterRange,
    step]
  rfl

theorem same_cases (n : Int) : 0 ≤ n ∧ 0 ≤ n ∨ n = n ∧ n < 0 := by
  rcases Int.lt_or_le n 0 with negative | nonneg
  · exact .inr ⟨rfl, negative⟩
  · exact .inl ⟨nonneg, nonneg⟩

theorem Base.ends_cases (fits : column.Fits) (base : Base column) :
    0 ≤ base.ends.1 ∧ 0 ≤ base.ends.2 ∨ base.ends.1 = base.ends.2 ∧ base.ends.1 < 0 := by
  have positive := fits.positive
  cases base with
  | all => exact .inl ⟨le_refl _, by simp only [ends]; omega⟩
  | single value => exact same_cases value.read
  | range first last =>
    simp only [ends]
    split
    case isTrue => exact same_cases last.read
    case isFalse nonneg =>
      split
      case isTrue => exact same_cases first.read
      case isFalse nonneg' => exact .inl ⟨Int.not_lt.mp nonneg, Int.not_lt.mp nonneg'⟩

theorem Member.filled_err (fits : column.Fits) (member : Member column) :
    member.filled.2 = decide member.Endless := by
  by_cases endless : member.Endless
  · rw [decide_eq_true endless]
    exact (fillRange_endless fits.positive endless).1
  · rw [decide_eq_false endless]
    rw [Endless, not_or, Int.not_le, Int.not_le] at endless
    rcases member.base.ends_cases fits with ⟨first, last⟩ | ⟨same, negative⟩
    · exact (fillRange_within first last endless.1 (fits.small.trans (by decide))).1
    · rw [filled, ← same, fillRange_before negative (same ▸ endless.2)]

theorem parseLoop_members (fits : column.Fits) (member : Member column)
    (members : List (Member column)) (set : List Int) :
    parseLoop column (-1) (-1) set (List.intercalate [44] ((member :: members).map Member.text)) =
      ⟨set ++ (reached (member :: members)).flatMap fun member => member.filled.1,
        (member :: members).any fun member => decide member.Endless⟩ := by
  induction members generalizing member set with
  | nil =>
    have read : parseLoop column (-1) (-1) set (member.text ++ []) = _ :=
      member.parseLoop fits set (.inl rfl)
    rw [List.append_nil] at read
    rw [List.map_singleton, List.intercalate_singleton, read, member.filled_err fits]
    by_cases isEndless : member.Endless <;> simp [reached, isEndless]
  | cons second members ih =>
    have read : parseLoop column (-1) (-1) set
        (member.text ++ 44 :: List.intercalate [44] ((second :: members).map Member.text)) = _ :=
      member.parseLoop fits set (.inr rfl)
    have text : List.intercalate [44] ((member :: second :: members).map Member.text) =
        member.text ++ 44 :: List.intercalate [44] ((second :: members).map Member.text) := by
      rw [List.map_cons, List.map_cons, List.intercalate_cons_cons, ← List.map_cons,
        List.append_assoc, List.singleton_append]
    rw [text, read, List.tail_cons, ih, member.filled_err fits]
    by_cases isEndless : member.Endless <;> simp [reached, isEndless]

theorem parseField_text (fits : column.Fits) (field : Field column) :
    parseField column field.text =
      ⟨(reached field.1).flatMap fun member => member.filled.1,
        field.1.any fun member => decide member.Endless⟩ := by
  obtain ⟨members, nonempty⟩ := field
  obtain ⟨member, members, rfl⟩ := List.exists_cons_of_ne_nil nonempty
  exact parseLoop_members fits member members []

end Busybox.Crond
