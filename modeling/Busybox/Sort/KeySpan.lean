import Busybox.Libbb.Decimal
import Busybox.Sort.KeyFields

/-!
# The text that `-k` selects

An argument of `-k` names the first and the last character of a key by their fields. The first
character is honoured in its field, and the last one in the whole line.
-/

namespace Busybox.Sort

open Fallible (ok_bind)
open Libbb.Xatonum (Text strtou isDigit strtou_append unsignedText_isDigit)
open Udhcp (unsignedText_ne_nil)
open Udhcp.Optval (unsignedText)

/-! ## The argument -/

def badField : Text := ascii "bad field specification"

/-- A positive `int`, and what follows it. -/
def str2u (str : Text) : Except Text (Nat × Text) :=
  if str.head?.any (isDigit 10) then
    match strtou 10 str with
    | some (lu, rest) => if 2 ^ 31 - 1 < lu ∨ lu = 0 then .error badField else .ok (lu, rest)
    | none => .error badField
  else .error badField

/-- The number behind a field's dot, 0 where there is none. -/
def offsetOf : Text → Except Text (Nat × Text)
  | 46 :: str => str2u str
  | str => .ok (0, str)

/-- A letter behind a field; "b after ',' means strip _trailing_ space". -/
def keyLetter (afterComma : Bool) (c : UInt8) (flags : Flags) : Except Text Flags :=
  if c = 110 then .ok { flags with n := true }
  else if c = 103 then .ok { flags with g := true }
  else if c = 77 then .ok { flags with M := true }
  else if c = 98 then
    .ok (if afterComma then { flags with bb := true } else { flags with b := true })
  else if c = 114 then .ok { flags with r := true }
  else if c = 100 then .ok { flags with d := true }
  else if c = 102 then .ok { flags with f := true }
  else if c = 105 then .ok { flags with i := true }
  else if c ∈ ascii "VucszmS:T:o:k:*t:" then .error (ascii "unknown sort type")
  else .error (ascii "unknown key option")

/-- The letters up to a comma, which counts once, and the text behind it. -/
def keyLetters (afterComma : Bool) (flags : Flags) : Text → Except Text (Option Text × Flags)
  | [] => .ok (none, flags)
  | c :: str =>
    if c = 44 ∧ !afterComma then .ok (some str, flags)
    else do keyLetters afterComma (← keyLetter afterComma c flags) str

/-- "Parse sort key" -/
def parseKey (strK : Text) : Except Text SortKey :=
  if strK = [] then .ok {}
  else do
    let (startWord, str) ← str2u strK
    let (startChar, str) ← offsetOf str
    let (more, flags) ← keyLetters false {} str
    match more.getD [] with
    | [] => return { startWord, startChar, flags }
    | str => do
      let (endWord, str) ← str2u str
      let (endChar, str) ← offsetOf str
      let (_, flags) ← keyLetters true flags str
      return { startWord, startChar, endWord, endChar, flags }

/-- `get_key` on a line whose length is an `int`; the whole line is not measured. -/
def getKeyInt (keySeparator : Option UInt8) (str : Line) (key : SortKey) (flags : Flags) :
    Option Line :=
  if isWholeLine key flags then some str
  else if str.bytes.length < 2 ^ 31 then getKey keySeparator str key flags
  else none

/-- The key of a line, with the flags of the call where its own are none. -/
def keyOf (keySeparator : Option UInt8) (strK : Text) (flags : Flags) (str : Line) : Option Line :=
  match parseKey strK with
  | .ok key => getKeyInt keySeparator str key (if key.flags ≠ {} then key.flags else flags)
  | .error _ => none

/-! ## What is asked for -/

abbrev Number := {n : Nat // 0 < n ∧ n < 2 ^ 31}

/-- `F[.C][,F2[.C2]]` -/
structure KeyText where
  word : Number
  char : Option Number
  last : Option (Number × Option Number)

def dotted (word : Number) (char : Option Number) : Text :=
  unsignedText word.1 ++ char.elim [] fun n => 46 :: unsignedText n.1

def KeyText.text (key : KeyText) : Text :=
  dotted key.word key.char ++ key.last.elim [] fun (word, char) => 44 :: dotted word char

def KeyText.key (key : KeyText) : SortKey where
  startWord := key.word.1
  startChar := key.char.elim 0 Subtype.val
  endWord := key.last.elim 0 fun last => last.1.1
  endChar := key.last.elim 0 fun last => last.2.elim 0 Subtype.val

section Span

variable (keySeparator : Option UInt8) (str : List UInt8)

/-- Where a field starts and ends in the line. -/
def fieldStart (word : Nat) : Nat :=
  startIn (gapOf keySeparator) (fieldsOf keySeparator str) str.length word

def fieldStop (word : Nat) : Nat := stopIn (gapOf keySeparator) (fieldsOf keySeparator str) word

/-- The first character of the key. -/
def KeyText.start (key : KeyText) : Nat :=
  min (fieldStart keySeparator str key.word.1 + (key.char.elim 1 Subtype.val - 1)) str.length

/-- The end of the key. -/
def KeyText.stop (key : KeyText) : Nat :=
  match key.last with
  | none => str.length
  | some (word, none) => fieldStop keySeparator str word.1
  | some (word, some char) => min (fieldStart keySeparator str word.1 + char.1) str.length

/-- The text between two positions, nothing if the second one is in front of the first. -/
def cut (start stop : Nat) : List UInt8 := (str.drop start).take (stop - start)

def KeyText.selected (key : KeyText) : List UInt8 :=
  cut str (key.start keySeparator str) (key.stop keySeparator str)

/-- The positions are those that are asked for. -/
structure KeyText.Honoured (key : KeyText) : Prop where
  length : str.length < 2 ^ 31
  /-- The first character of the key, with its field behind the line if the loop sees no other. -/
  int : ∀ char ∈ key.char, (if Unseen keySeparator str ∧ key.word.1 ≠ 1 then str.length
    else fieldStart keySeparator str key.word.1) + (char.1 - 1) < 2 ^ 31
  /-- Where the loop sees no separator, the whole line is its first field. -/
  separator : Unseen keySeparator str →
    if key.word.1 = 1 then ∀ word, key.last = some (word, none) →
      fieldStop keySeparator str word.1 = str.length ∨
        str.length ≤ key.start keySeparator str
    else key.stop keySeparator str ≤ key.start keySeparator str
  /-- The last character is counted from the start of the line. -/
  char : ∀ word char, key.last = some (word, some char) →
    fieldStart keySeparator str word.1 = 0 ∨ str.length ≤ char.1 ∨
      key.stop keySeparator str ≤ key.start keySeparator str

end Span

/-! ## The argument is read -/

theorem str2u_number (n : Number) {rest : Text} (ends : rest.head?.any (isDigit 10) = false) :
    str2u (unsignedText n.1 ++ rest) = .ok (n.1, rest) := by
  obtain ⟨c, more, digits⟩ := List.exists_cons_of_ne_nil (unsignedText_ne_nil n.1)
  have digit : isDigit 10 c = true := unsignedText_isDigit n.1 c (digits ▸ List.mem_cons_self)
  have front : (unsignedText n.1 ++ rest).head?.any (isDigit 10) = true := by
    rw [digits]
    exact digit
  obtain ⟨positive, small⟩ := n.2
  have fits : ¬(2 ^ 31 - 1 < n.1 ∨ n.1 = 0) := by omega
  simp only [str2u, front, if_true, strtou_append ends, if_neg fits]

/-- A field with its offset is read up to what is neither a digit nor a dot. -/
theorem dotted_read (word : Number) (char : Option Number) (rest : Text)
    (ends : rest.head?.any (isDigit 10) = false) (noDot : rest.head? ≠ some 46) :
    ∃ middle, str2u (dotted word char ++ rest) = .ok (word.1, middle) ∧
      offsetOf middle = .ok (char.elim 0 Subtype.val, rest) := by
  cases char with
  | none =>
    have read : str2u (dotted word none ++ rest) = .ok (word.1, rest) := by
      rw [dotted, Option.elim_none, List.append_nil]
      exact str2u_number word ends
    refine ⟨rest, read, ?_⟩
    unfold offsetOf
    split
    · exact absurd rfl noDot
    · rfl
  | some char =>
    refine ⟨46 :: (unsignedText char.1 ++ rest), ?_, str2u_number char ends⟩
    rw [dotted, Option.elim_some, List.append_assoc]
    exact str2u_number word rfl

theorem parseKey_text (key : KeyText) : parseKey key.text = .ok key.key := by
  obtain ⟨word, char, last⟩ := key
  have nonempty (rest : Text) : dotted word char ++ rest ≠ [] := by
    rw [dotted, List.append_assoc]
    exact List.append_ne_nil_of_left_ne_nil (unsignedText_ne_nil _) _
  cases last with
  | none =>
    obtain ⟨middle, field, offset⟩ := dotted_read word char [] rfl nofun
    simp only [KeyText.text, parseKey, Option.elim_none, if_neg (nonempty []), field, offset,
      ok_bind, keyLetters]
    rfl
  | some last =>
    obtain ⟨last, lastChar⟩ := last
    obtain ⟨middle, field, offset⟩ :=
      dotted_read word char (44 :: dotted last lastChar) rfl (by simp)
    obtain ⟨middle', field', offset'⟩ := dotted_read last lastChar [] rfl nofun
    have comma : keyLetters false {} (44 :: dotted last lastChar) =
        .ok (some (dotted last lastChar), {}) := rfl
    obtain ⟨c, more, digits⟩ : ∃ c more, dotted last lastChar = c :: more :=
      List.exists_cons_of_ne_nil
        (List.append_ne_nil_of_left_ne_nil (unsignedText_ne_nil _) _)
    rw [List.append_nil] at field'
    simp only [KeyText.text, parseKey, Option.elim_some, if_neg (nonempty _), field, offset,
      ok_bind, comma, Option.getD_some]
    rw [digits] at field' ⊢
    simp only [field', offset', ok_bind, keyLetters]
    rfl

/-! ## The copy -/

section Copy

variable {keySeparator : Option UInt8} {str : List UInt8} {key : KeyText}

theorem cut_length (str : List UInt8) {start stop : Nat} (inside : stop ≤ str.length) :
    (cut str start stop).length = stop - start := by
  rw [cut, List.length_take, List.length_drop]
  omega

/-- Two texts from one position are the same if they are of the same length. -/
theorem cut_eq_iff {start stop stop' : Nat} (inside : stop ≤ str.length)
    (inside' : stop' ≤ str.length) :
    cut str start stop = cut str start stop' ↔ stop - start = stop' - start := by
  constructor
  · intro same
    rw [← cut_length str inside, ← cut_length str inside', same]
  · intro same
    rw [cut, cut, same]

/-- Options that leave a key as it is. -/
abbrev RawFlags := {flags : Flags // (flags.b || flags.d || flags.f || flags.i || flags.bb) = false}

theorem filterKey_raw (flags : RawFlags) (copy : List UInt8) : filterKey flags.1 copy = copy := by
  obtain ⟨flags, raw⟩ := flags
  simp only [Bool.or_eq_false_iff] at raw
  simp [filterKey, keepWhen, raw]

/-- What the code takes for the end of the key. -/
def KeyText.stopSeen (keySeparator : Option UInt8) (str : List UInt8) (key : KeyText) : Nat :=
  match key.last with
  | none => str.length
  | some (word, none) => stopIn (gapOf keySeparator) (seenFields keySeparator str) word.1
  | some (_, some char) => min char.1 str.length

/-- What the code takes for the start of the field. -/
def KeyText.startSeen (keySeparator : Option UInt8) (str : List UInt8) (key : KeyText) : Nat :=
  startIn (gapOf keySeparator) (seenFields keySeparator str) str.length key.word.1

theorem keyStart_seen (keySeparator : Option UInt8) (str : List UInt8) (key : KeyText)
    (flags : RawFlags) :
    keyStart keySeparator str key.key flags.1 = key.startSeen keySeparator str := by
  obtain ⟨flags, raw⟩ := flags
  simp only [Bool.or_eq_false_iff] at raw
  simp only [keyStart, raw]
  exact keyPosition_start keySeparator str key.word.2.1

theorem keyStop_seen (noNul : keySeparator ≠ some 0) (str : List UInt8) (key : KeyText)
    (flags : RawFlags) :
    keyStop keySeparator str key.key flags.1 = key.stopSeen keySeparator str := by
  obtain ⟨flags, raw⟩ := flags
  simp only [Bool.or_eq_false_iff] at raw
  obtain ⟨word, char, last⟩ := key
  rcases last with - | ⟨last, - | lastChar⟩
  · simp [keyStop, raw, KeyText.stopSeen, KeyText.key, keyPosition]
  · simp only [keyStop, raw, KeyText.stopSeen, KeyText.key, Option.elim_some, Option.elim_none]
    exact keyPosition_stop noNul str last.2.1
  · have given : lastChar.1 ≠ 0 := Nat.ne_of_gt lastChar.2.1
    simp [keyStop, KeyText.stopSeen, KeyText.key, given]

/-- The copy that the code makes. -/
theorem getKeyInt_eq (noNul : keySeparator ≠ some 0) (line : Line) (flags : RawFlags)
    (notWhole : isWholeLine key.key flags.1 = false) :
    (getKeyInt keySeparator line key.key flags.1).map Line.bytes =
      if line.bytes.length < 2 ^ 31 ∧
          (∀ char ∈ key.char, key.startSeen keySeparator line.bytes + (char.1 - 1) < 2 ^ 31)
      then some (cut line.bytes
        (min (key.startSeen keySeparator line.bytes + (key.char.elim 1 Subtype.val - 1))
          line.bytes.length) (key.stopSeen keySeparator line.bytes))
      else none := by
  have atMost : key.startSeen keySeparator line.bytes ≤ line.bytes.length := Nat.min_le_right _ _
  have copied (start stop : Nat) : cut line.bytes start stop =
      filterKey flags.1 ((line.bytes.drop start).take (max start stop - start)) := by
    rw [filterKey_raw, cut]
    congr 1
    omega
  rw [getKeyInt, notWhole]
  simp only [Bool.false_eq_true, if_false, getKey, notWhole, keyRange, keyStart_seen,
    keyStop_seen noNul, copied]
  by_cases short : line.bytes.length < 2 ^ 31
  · simp only [short, true_and]
    obtain ⟨word, char, last⟩ := key
    cases char with
    | none =>
      have absent : (⟨word, none, last⟩ : KeyText).key.startChar = 0 := rfl
      have first : min (KeyText.startSeen keySeparator line.bytes ⟨word, none, last⟩ +
          ((none : Option Number).elim 1 Subtype.val - 1)) line.bytes.length =
          KeyText.startSeen keySeparator line.bytes ⟨word, none, last⟩ := Nat.min_eq_left atMost
      have always : ∀ char ∈ (none : Option Number),
          KeyText.startSeen keySeparator line.bytes ⟨word, none, last⟩ + (char.1 - 1) < 2 ^ 31 := by
        rintro _ ⟨⟩
      rw [if_pos absent, if_pos always, first]
      rfl
    | some char =>
      have given : (⟨word, some char, last⟩ : KeyText).key.startChar = char.1 := rfl
      have nonzero : char.1 ≠ 0 := Nat.ne_of_gt char.2.1
      have only : (∀ c ∈ some char,
          KeyText.startSeen keySeparator line.bytes ⟨word, some char, last⟩ + (c.1 - 1) < 2 ^ 31) ↔
          KeyText.startSeen keySeparator line.bytes ⟨word, some char, last⟩ + (char.1 - 1) <
            2 ^ 31 := by simp
      rw [given, if_neg nonzero]
      simp only [only, Option.elim_some]
      by_cases int : KeyText.startSeen keySeparator line.bytes ⟨word, some char, last⟩ +
          (char.1 - 1) < 2 ^ 31
      · rw [if_pos int, if_pos int]
        rfl
      · rw [if_neg int, if_neg int]
        rfl
  · simp only [short, false_and, if_false, Option.map_none]

/-- Where the loop sees every separator it finds the fields. -/
theorem seen_positions (seen : ¬Unseen keySeparator str) (key : KeyText) :
    key.startSeen keySeparator str = fieldStart keySeparator str key.word.1 ∧
      ∀ word, key.last = some (word, none) →
        key.stopSeen keySeparator str = fieldStop keySeparator str word.1 := by
  refine ⟨by rw [KeyText.startSeen, seenFields_eq seen]; rfl, fun word last => ?_⟩
  rw [KeyText.stopSeen, last, seenFields_eq seen]
  rfl

/-- Where it does not, the line is its first field. -/
theorem unseen_positions (unseen : Unseen keySeparator str) (key : KeyText) :
    key.startSeen keySeparator str = (if key.word.1 = 1 then 0 else str.length) ∧
      ∀ word, key.last = some (word, none) → key.stopSeen keySeparator str = str.length := by
  obtain ⟨fields, gap⟩ := seenFields_unseen unseen
  have room {count : Nat} (positive : 0 < count) : pitch 1 [str] count = str.length + 1 := by
    obtain ⟨count, rfl⟩ := Nat.exists_eq_succ_of_ne_zero (Nat.ne_of_gt positive)
    rw [pitch_cons, pitch_nil]
  constructor
  · rw [KeyText.startSeen, fields, gap, startIn]
    split
    case isTrue first => rw [first, Nat.sub_self, pitch_zero, Nat.zero_min]
    case isFalse other =>
      have positive := key.word.2.1
      rw [room (by omega)]
      omega
  · intro word last
    rw [KeyText.stopSeen, last]
    simp only [fields, gap, stopIn]
    rw [room word.2.1]
    rfl

theorem fieldStart_le (word : Nat) : fieldStart keySeparator str word ≤ str.length :=
  Nat.min_le_right _ _

theorem fieldStop_le (word : Nat) : fieldStop keySeparator str word ≤ str.length := by
  unfold fieldStop stopIn fieldsOf gapOf
  cases keySeparator with
  | none => exact pitch_splitBy_le word
  | some separator =>
    simp only
    rw [List.splitOn_eq_splitOnP]
    have all := pitch_splitOnP (· == separator) str (Nat.le_refl _)
    by_cases more : word < (str.splitOnP (· == separator)).length
    · have inside := pitch_lt Nat.one_pos more
      omega
    · rw [pitch_splitOnP _ _ (not_lt.mp more)]
      exact Nat.le_refl _

theorem stop_le (key : KeyText) : key.stop keySeparator str ≤ str.length := by
  unfold KeyText.stop
  split
  · exact Nat.le_refl _
  · exact fieldStop_le _
  · exact Nat.min_le_right _ _

theorem stopSeen_le (noNul : keySeparator ≠ some 0) (key : KeyText) :
    key.stopSeen keySeparator str ≤ str.length := by
  unfold KeyText.stopSeen
  split
  · exact Nat.le_refl _
  case h_2 word _ =>
    rw [← keyPosition_stop noNul str word.2.1]
    exact keyPosition_le keySeparator str word.1 1
  · exact Nat.min_le_right _ _

/-- An end that is counted from the start of the line is the right one. -/
theorem stop_counted_iff {key : KeyText} {word char : Number}
    (last : key.last = some (word, some char)) (start : Nat) :
    key.stopSeen keySeparator str - start = key.stop keySeparator str - start ↔
      fieldStart keySeparator str word.1 = 0 ∨ str.length ≤ char.1 ∨
        key.stop keySeparator str ≤ start := by
  have inside : fieldStart keySeparator str word.1 ≤ str.length := fieldStart_le _
  simp only [KeyText.stopSeen, KeyText.stop, last]
  omega

/-- From the right start the copy is what is asked for exactly if it ends there. -/
theorem cut_selected_iff (noNul : keySeparator ≠ some 0) (key : KeyText)
    (start : min (key.startSeen keySeparator str + (key.char.elim 1 Subtype.val - 1)) str.length =
      key.start keySeparator str) :
    cut str (min (key.startSeen keySeparator str + (key.char.elim 1 Subtype.val - 1)) str.length)
        (key.stopSeen keySeparator str) = key.selected keySeparator str ↔
      key.stopSeen keySeparator str - key.start keySeparator str =
        key.stop keySeparator str - key.start keySeparator str := by
  rw [start, KeyText.selected]
  exact cut_eq_iff (stopSeen_le noNul key) (stop_le key)

/-- The copy is what is asked for exactly if the positions are. -/
theorem cut_seen_iff (noNul : keySeparator ≠ some 0) (key : KeyText) :
    cut str (min (key.startSeen keySeparator str + (key.char.elim 1 Subtype.val - 1)) str.length)
        (key.stopSeen keySeparator str) = key.selected keySeparator str ↔
      (Unseen keySeparator str →
        if key.word.1 = 1 then ∀ word, key.last = some (word, none) →
          fieldStop keySeparator str word.1 = str.length ∨
            str.length ≤ key.start keySeparator str
        else key.stop keySeparator str ≤ key.start keySeparator str) ∧
      (∀ word char, key.last = some (word, some char) →
        fieldStart keySeparator str word.1 = 0 ∨ str.length ≤ char.1 ∨
          key.stop keySeparator str ≤ key.start keySeparator str) := by
  have stopInside := @stop_le keySeparator str key
  have seenInside := @stopSeen_le keySeparator str noNul key
  by_cases unseen : Unseen keySeparator str
  · obtain ⟨startSeen, stopSeen⟩ := unseen_positions unseen key
    simp only [unseen, true_imp_iff]
    by_cases first : key.word.1 = 1
    · -- the first field starts where the line does
      have start : min (key.startSeen keySeparator str + (key.char.elim 1 Subtype.val - 1))
          str.length = key.start keySeparator str := by
        have zero : fieldStart keySeparator str key.word.1 = 0 := by
          rw [first]
          exact Nat.zero_min _
        rw [startSeen, if_pos first, KeyText.start, zero]
      rw [cut_selected_iff noNul key start, if_pos first]
      rcases isLast : key.last with - | ⟨last, - | lastChar⟩
      · simp [KeyText.stopSeen, KeyText.stop, isLast]
      · have stop : key.stop keySeparator str = fieldStop keySeparator str last.1 := by
          rw [KeyText.stop, isLast]
        rw [stop] at stopInside
        rw [stopSeen last isLast, stop]
        constructor
        · rintro same
          refine ⟨fun word isWord => ?_, nofun⟩
          cases isWord
          omega
        · rintro ⟨ends, -⟩
          have ends := ends last rfl
          omega
      · rw [stop_counted_iff isLast]
        constructor
        · rintro counted
          refine ⟨nofun, fun word char isChar => ?_⟩
          cases isChar
          exact counted
        · rintro ⟨-, counted⟩
          exact counted last lastChar rfl
    · -- behind the line nothing is left
      rw [if_neg first, startSeen, if_neg first, Nat.min_eq_right (Nat.le_add_right _ _)]
      have nothing : cut str str.length (key.stopSeen keySeparator str) = [] := by
        rw [cut, List.drop_length, List.take_nil]
      rw [nothing, KeyText.selected, eq_comm, List.eq_nil_iff_length_eq_zero,
        cut_length str stopInside]
      constructor
      · intro empty
        have before := Nat.sub_eq_zero_iff_le.mp empty
        exact ⟨before, fun _ _ _ => .inr (.inr before)⟩
      · rintro ⟨before, -⟩
        exact Nat.sub_eq_zero_of_le before
  · obtain ⟨startSeen, stopSeen⟩ := seen_positions unseen key
    rw [cut_selected_iff noNul key (by rw [startSeen, KeyText.start])]
    simp only [unseen, false_imp_iff, true_and]
    rcases isLast : key.last with - | ⟨last, - | lastChar⟩
    · simp [KeyText.stopSeen, KeyText.stop, isLast]
    · rw [stopSeen last isLast, KeyText.stop, isLast]
      simp
    · rw [stop_counted_iff isLast]
      constructor
      · rintro counted word char isChar
        cases isChar
        exact counted
      · rintro counted
        exact counted last lastChar rfl

/-- Only the key of a field without anything else is not copied. -/
theorem isWholeLine_iff (key : KeyText) (flags : RawFlags) :
    isWholeLine key.key flags.1 = true ↔ key.word.1 = 1 ∧ key.char = none ∧ key.last = none := by
  obtain ⟨word, char, last⟩ := key
  obtain ⟨flags, raw⟩ := flags
  have given (n : Number) : n.1 ≠ 0 := Nat.ne_of_gt n.2.1
  cases char <;> rcases last with - | ⟨last, - | lastChar⟩ <;>
    simp [isWholeLine, KeyText.key, raw, given]

theorem selected_whole {key : KeyText} (first : key.word.1 = 1) (noChar : key.char = none)
    (noLast : key.last = none) : key.selected keySeparator str = str := by
  have start : key.start keySeparator str = 0 := by
    rw [KeyText.start, first, noChar, fieldStart, startIn, Nat.sub_self, pitch_zero, Nat.zero_min]
    exact Nat.zero_min _
  have stop : key.stop keySeparator str = str.length := by rw [KeyText.stop, noLast]
  rw [KeyText.selected, start, stop, cut, List.drop_zero, Nat.sub_zero, List.take_length]

/-- The number of the first character is measured where the code takes its field to start. -/
theorem startSeen_eq (key : KeyText) : key.startSeen keySeparator str =
    if Unseen keySeparator str ∧ key.word.1 ≠ 1 then str.length
    else fieldStart keySeparator str key.word.1 := by
  by_cases unseen : Unseen keySeparator str
  · rw [(unseen_positions unseen key).1]
    by_cases first : key.word.1 = 1
    · rw [if_pos first, if_neg (fun both => both.2 first), first]
      exact (Nat.zero_min _).symm
    · rw [if_neg first, if_pos ⟨unseen, first⟩]
  · rw [(seen_positions unseen key).1, if_neg (fun both => unseen both.1)]

end Copy

end Busybox.Sort
