import Mathlib.Data.List.ReduceOption
import Busybox.Pwdgrp.Fields
import Busybox.Pwdgrp.Lookup

/-!
# What a lookup returns

A structure is returned exactly where the last field that has something to report was a number, or
where no field has and `errno` was 0 before. This is right where all reports agree.
-/

namespace Busybox.Pwdgrp.Reports

open Libbb.Strings Libbb.Strtonum Libbb.Strtol Tokenize Fields Lookup
open Udhcp.Optval (unsignedText)

/-! ## What should be returned -/

/-- The records of a file. -/
def records (lines : List Text) : List (List Text) :=
  (lines.filter fun line => line ≠ [] && line.head? ≠ some 35).map (·.splitOn 58)

/-- The right number of fields, and the key where it should be. -/
def isMatch (db : Passdb) (key : Text) (fieldPos : Nat) (record : List Text) : Bool :=
  record.length = db.fields.length && record[fieldPos]? = some key

/-- A name that is not empty, a number where there should be one. -/
def isValid : Letter → Text → Bool
  | .stringNotEmpty, text => text ≠ []
  | .id, text => isUnsigned text
  | .long, text => text = [] || isLong text
  | .string, _ | .members, _ | .reserved, _ => true

/-- What a valid field says. -/
def value : Letter → Text → Value
  | .stringNotEmpty, text | .string, text => .string text
  | .id, text => .id (digitsValue text)
  | .long, text => .long (if text = [] then -1 else longValue text)
  | .members, text => .members ((text.splitOn 44).filter (· ≠ []))
  | .reserved, _ => .reserved

/-- What a field reports. A string that is there reports nothing, nor does a day that is not. -/
def report : Letter → Text → Option Bool
  | .stringNotEmpty, text => if text = [] then some false else none
  | .id, text => some (isUnsigned text)
  | .long, text => if text = [] then none else some (isLong text)
  | .string, _ | .members, _ | .reserved, _ => none

/-- All fields are what they should be. -/
def allValid (fields : List Letter) (record : List Text) : Bool :=
  (List.zipWith isValid fields record).all id

/-- What the fields say. -/
def values (fields : List Letter) (record : List Text) : List Value :=
  List.zipWith value fields record

/-- The reports of a record, one behind the other. -/
def reports (fields : List Letter) (record : List Text) : List Bool :=
  (List.zipWith report fields record).reduceOption

/-- The last report counts, and without one what was there before. -/
def Succeeds (errno : Errno) (reports : List Bool) : Prop :=
  match reports.getLast? with
  | some report => report = true
  | none => errno = 0

/-- An invalid field is not forgotten, and nothing else is taken for one. -/
def Reported (errno : Errno) (reports : List Bool) : Prop :=
  if false ∈ reports then reports.getLast? = some false else reports ≠ [] ∨ errno = 0

variable {fields : List Letter} {letter : Letter} {text : Text} {done : List Text} {errno : Errno}

theorem reported_iff (reports : List Bool) :
    Reported errno reports ↔ (Succeeds errno reports ↔ false ∉ reports) := by
  unfold Reported Succeeds
  rcases List.eq_nil_or_concat reports with rfl | ⟨front, last, rfl⟩
  · simp
  · rw [List.concat_eq_append, List.getLast?_concat]
    cases last with
    | false => simp
    | true =>
      by_cases early : false ∈ front
      · simp [early]
      · simp [early]

theorem isValid_iff : isValid letter text = true ↔ report letter text ≠ some false := by
  cases letter <;> by_cases empty : text = [] <;> simp [isValid, report, empty]

theorem allValid_iff (fields : List Letter) (record : List Text) :
    allValid fields record = true ↔ false ∉ reports fields record := by
  unfold allValid reports
  induction fields generalizing record with
  | nil => simp [List.reduceOption]
  | cons letter fields ih =>
    cases record with
    | nil => simp [List.reduceOption]
    | cons text record =>
      have here := @isValid_iff letter text
      rw [List.zipWith_cons_cons, List.zipWith_cons_cons, List.all_cons, Bool.and_eq_true, ih, id,
        here]
      cases reported : report letter text with
      | none => simp [List.reduceOption_cons_of_none]
      | some verdict => cases verdict <;> simp [List.reduceOption_cons_of_some]

theorem reports_concat (same : fields.length = done.length) (letter : Letter) (text : Text) :
    reports (fields ++ [letter]) (done ++ [text]) =
      reports fields done ++ (report letter text).toList := by
  rw [reports, List.zipWith_append same, List.reduceOption_append]
  rfl

theorem values_concat (same : fields.length = done.length) (letter : Letter) (text : Text) :
    values (fields ++ [letter]) (done ++ [text]) = values fields done ++ [value letter text] := by
  rw [values, List.zipWith_append same]
  rfl

theorem allValid_concat (same : fields.length = done.length) (letter : Letter) (text : Text) :
    allValid (fields ++ [letter]) (done ++ [text]) =
      (allValid fields done && isValid letter text) := by
  rw [allValid, List.zipWith_append same, List.all_append]
  simp [allValid]

/-- One more report, or none. -/
theorem succeeds_concat (reports : List Bool) (more : Option Bool) :
    Succeeds errno (reports ++ more.toList) ↔
      match more with
      | some report => report = true
      | none => Succeeds errno reports := by
  cases more with
  | none => simp
  | some report => simp [Succeeds]

/-! ## A record in its buffer -/

/-- There is nothing to strip. -/
theorem divisible_plain {ch : UInt8} (separator : isblank ch = false) {names : List Text}
    (plain : ∀ name ∈ names, ∀ c ∈ name, isblank c = false) : Divisible ch names := by
  induction names with
  | nil => trivial
  | cons name rest ih =>
    obtain ⟨here, later⟩ := List.forall_mem_cons.mp plain
    refine ⟨?_, fun _ => ?_, ih later⟩
    · intro blank
      have noBlank : ∀ c ∈ List.intercalate [ch] (name :: rest), isblank c = false := by
        intro c mem
        rcases Directories.mem_intercalate mem with rfl | ⟨other, among, inside⟩
        · exact separator
        · exact plain other among c inside
      cases whole : List.intercalate [ch] (name :: rest) with
      | nil => rw [whole] at blank; cases blank
      | cons c front =>
        rw [whole] at blank noBlank
        exact absurd (noBlank c List.mem_cons_self) (by simpa using blank)
    · have none : (name.dropWhile isblank).rtakeWhile isblank = [] := by
        rw [List.rtakeWhile_eq_nil_iff]
        intro nonempty
        have last := List.getLast_mem nonempty
        simpa using here _ ((List.dropWhile_suffix _).mem last)
      rw [trailing, none]
      exact (Nat.succ_ne_zero _).symm

theorem divided_plain {names : List Text} (plain : ∀ name ∈ names, ∀ c ∈ name, isblank c = false) :
    divided names = stored names := by
  refine List.flatMap_congr fun name mem => ?_
  have front : name.dropWhile isblank = name := by
    cases name with
    | nil => rfl
    | cons c name =>
      exact List.dropWhile_cons_of_neg (by simp [plain _ mem c List.mem_cons_self])
  have back : name.rdropWhile isblank = name := by
    refine List.rdropWhile_eq_self_iff.mpr fun nonempty => ?_
    simp [plain _ mem _ (List.getLast_mem nonempty)]
  rw [trimmed, front, back]

theorem length_stored (ch : UInt8) {names : List Text} (nonempty : names ≠ []) :
    (stored names).length = (List.intercalate [ch] names).length + 1 := by
  induction names with
  | nil => exact absurd rfl nonempty
  | cons name rest ih =>
    cases rest with
    | nil => simp [stored]
    | cons next rest =>
      rw [stored_cons, List.intercalate_cons_cons, List.length_append, List.length_cons,
        ih (List.cons_ne_nil _ _)]
      simp
      omega

/-- `tokenize` puts a NUL in the place of every separator. -/
theorem tokenize_plain {ch : UInt8} (separator : isblank ch = false) {text : Text}
    (clean : 0 ∉ text) (plain : ∀ c ∈ text, isblank c = false) (behind : List UInt8) :
    ∃ left, tokenize (text ++ 0 :: behind) ch =
      some ⟨stored (text.splitOn ch) ++ left, text.length + 1, (text.splitOn ch).length⟩ := by
  have nonempty := List.splitOn_ne_nil ch text
  have plain' : ∀ name ∈ text.splitOn ch, ∀ c ∈ name, isblank c = false := by
    intro name among c inside
    exact plain c (Directories.splitOn_items name among c inside).2
  have counted := count_intercalate nonempty (@Directories.not_mem_splitOn _ _ ch text)
  have length := length_stored ch nonempty
  rw [List.intercalate_splitOn] at counted length
  have outcome := (outcome_record ch text).mpr (divisible_plain separator plain')
  rw [divided_plain plain'] at outcome
  obtain ⟨left, ran⟩ := (tokenize_eq_iff clean ch behind _ _).mpr outcome
  exact ⟨left, by rw [ran, length, counted]⟩

/-- A field of a record in its buffer. -/
theorem stringAt_field {names : List Text} (clean : ∀ name ∈ names, 0 ∉ name) (behind : List UInt8)
    {n : Nat} {name : Text} (here : names[n]? = some name) :
    ∃ p, nthString (stored names ++ behind) 0 n = some p ∧
      stringAt (stored names ++ behind) p = some name := by
  obtain ⟨inside, isName⟩ := List.getElem?_eq_some_iff.mp here
  have pointer := nthString_stored [] names behind clean inside.le rfl
  rw [List.nil_append, List.length_nil, Nat.zero_add] at pointer
  have split : stored names ++ behind =
      stored (names.take n) ++ (name ++ 0 :: (stored (names.drop (n + 1)) ++ behind)) := by
    nth_rewrite 1 [← List.take_append_drop n names]
    rw [stored_append, List.drop_eq_getElem_cons inside, isName, stored_cons]
    simp
  refine ⟨_, pointer, ?_⟩
  rw [split]
  exact stringAt_string _ _ _ (clean name (List.mem_of_getElem? here)) rfl

/-- No blank and no NUL. -/
def Plain (line : Text) : Prop := 0 ∉ line ∧ ∀ c ∈ line, isblank c = false

theorem Plain.splitOn {ch : UInt8} {line : Text} (plain : Plain line) :
    ∀ name ∈ line.splitOn ch, Plain name := fun name among =>
  ⟨fun nul => plain.1 (Directories.splitOn_items name among 0 nul).2,
    fun c inside => plain.2 c (Directories.splitOn_items name among c inside).2⟩

/-- The first record with the key is found. -/
theorem parseCommon_find (db : Passdb) (key : Text) {fieldPos : Nat}
    (inside : fieldPos < db.fields.length) {lines : List Text}
    (plain : ∀ line ∈ lines, Plain line) :
    parseCommon db key fieldPos lines =
      some (((records lines).find? (isMatch db key fieldPos)).map
        (withMembers db <| stored ·)) := by
  induction lines with
  | nil => rfl
  | cons buf lines ih =>
    obtain ⟨here, later⟩ := List.forall_mem_cons.mp plain
    have further := ih later
    rw [parseCommon]
    by_cases skipped : buf = [] ∨ buf.head? = some 35
    · have dropped : records (buf :: lines) = records lines := by
        rw [records, List.filter_cons_of_neg]
        · rfl
        · rcases skipped with empty | comment
          · simp [empty]
          · simp [comment]
      rw [if_pos skipped, further, dropped]
    have kept : records (buf :: lines) = buf.splitOn 58 :: records lines := by
      rw [records, List.filter_cons_of_pos]
      · rfl
      · simpa using skipped
    obtain ⟨left, ran⟩ := tokenize_plain (by decide : isblank 58 = false) here.1 here.2 []
    rw [if_neg skipped, kept, ran, Option.bind_eq_bind, Option.bind_some]
    simp only
    by_cases count : (buf.splitOn 58).length = db.fields.length
    · rw [if_neg (not_not.mpr count)]
      obtain ⟨name, isName⟩ : ∃ name, (buf.splitOn 58)[fieldPos]? = some name :=
        ⟨_, List.getElem?_eq_getElem (by omega)⟩
      have clean : ∀ name ∈ buf.splitOn 58, 0 ∉ name := by
        intro name among
        exact (here.splitOn name among).1
      obtain ⟨p, pointer, read⟩ := stringAt_field clean left isName
      rw [pointer, Option.bind_eq_bind, Option.bind_some, read, Option.bind_eq_bind,
        Option.bind_some]
      by_cases same : key = name
      · have found : isMatch db key fieldPos (buf.splitOn 58) = true := by
          simp [isMatch, count, isName, same]
        have length := length_stored 58 (List.splitOn_ne_nil 58 buf)
        rw [List.intercalate_splitOn] at length
        rw [if_pos same, List.find?_cons_of_pos found, ← length, List.take_left]
        rfl
      · have other : ¬isMatch db key fieldPos (buf.splitOn 58) = true := by
          simp [isMatch, isName, Ne.symm same]
        rw [if_neg same, List.find?_cons_of_neg other, further]
    · have other : ¬isMatch db key fieldPos (buf.splitOn 58) = true := by
        simp [isMatch, count]
      rw [if_pos count, List.find?_cons_of_neg other, further]

/-! ## The structure -/

/-- What is settled by the fields that were converted: their values, whatever stands behind them in
the buffer, and whether `errno` is 0. -/
structure Kept (errno : Errno) (fields : List Letter) (done : List Text) (state : Conversion) :
    Prop where
  same : fields.length = done.length
  result : ∃ read, (∀ behind, state.result.mapM (Member.read (stored done ++ behind)) = some read) ∧
    (allValid fields done = true → read = values fields done)
  errno : state.errno = 0 ↔ Succeeds errno (reports fields done)

/-- The same once all fields were converted. -/
structure Finished (errno : Errno) (fields : List Letter) (done : List Text) (state : Conversion) :
    Prop where
  result : ∃ read, state.result.mapM (Member.read state.cells) = some read ∧
    (allValid fields done = true → read = values fields done)
  errno : state.errno = 0 ↔ Succeeds errno (reports fields done)

variable {block : Block} {state : Conversion} {behind : List UInt8}

/-- One more member, which was read and is right if the field is valid, and the `errno` that the
field leaves behind. -/
theorem Kept.add (kept : Kept errno fields done state) {member : Member} {left : Errno}
    {read : Value}
    (reads : ∀ behind, member.read (stored (done ++ [text]) ++ behind) = some read)
    (right : isValid letter text = true → read = value letter text)
    (reported : left = 0 ↔ match report letter text with
      | some report => report = true
      | none => state.errno = 0) :
    Kept errno (fields ++ [letter]) (done ++ [text])
      { state with result := state.result ++ [member], errno := left } := by
  obtain ⟨same, ⟨earlier, readAll, valid⟩, noError⟩ := kept
  refine ⟨by simp [same], ⟨earlier ++ [read], fun behind => ?_, fun all => ?_⟩, ?_⟩
  · have before := readAll (stored [text] ++ behind)
    rw [← List.append_assoc, ← stored_append] at before
    simp [List.mapM_append, before, reads behind]
  · rw [allValid_concat same, Bool.and_eq_true] at all
    rw [values_concat same, valid all.1, right all.2]
  · rw [reports_concat same, succeeds_concat, reported]
    cases report letter text with
    | none => exact noError
    | some verdict => exact Iff.rfl

/-- The field that is converted next. -/
structure Next (done : List Text) (text : Text) (behind : List UInt8) (state : Conversion) :
    Prop where
  cells : state.cells = stored done ++ (text ++ 0 :: behind)
  buffer : state.buffer = (stored done).length
  clean : 0 ∉ text

theorem Next.read (next : Next done text behind state) :
    stringAt state.cells state.buffer = some text := by
  rw [next.cells]
  exact stringAt_string _ _ _ next.clean next.buffer

/-- It is read again, whatever comes to stand behind it. -/
theorem Next.again (next : Next done text behind state) (other : List UInt8) :
    (Member.string state.buffer).read (stored (done ++ [text]) ++ other) = some (.string text) := by
  have same : stored (done ++ [text]) ++ other = stored done ++ (text ++ 0 :: other) := by
    rw [stored_append, stored_cons]
    simp [stored]
  rw [Member.read, same, stringAt_string _ _ _ next.clean next.buffer]
  rfl

theorem convertField_id (read : stringAt state.cells state.buffer = some text) :
    convertField block .id state = some
      { state with
        result := state.result ++ [.id (bbStrtou text).1]
        errno := (bbStrtou text).2 } := by
  rw [convertField, read, Option.bind_eq_bind, Option.bind_some]
  rfl

/-- The value of a day, and `errno` afterwards. -/
def dayOf (errno : Errno) (text : Text) : Int × Errno :=
  if text = [] then (-1, errno) else bbStrtol text

theorem convertField_long (read : stringAt state.cells state.buffer = some text) :
    convertField block .long state = some
      { state with
        result := state.result ++ [.long (dayOf state.errno text).1]
        errno := (dayOf state.errno text).2 } := by
  rw [convertField, read, Option.bind_eq_bind, Option.bind_some]
  rfl

/-- A field is converted, the members apart. -/
theorem convertField_kept (kept : Kept errno fields done state) (notMembers : letter ≠ .members)
    (next : Next done text behind state) :
    ∃ state', convertField block letter state = some state' ∧
      Kept errno (fields ++ [letter]) (done ++ [text]) state' ∧
      Next done text behind state' := by
  have ⟨cells, buffer, clean⟩ := next
  cases letter with
  | members => exact absurd rfl notMembers
  | stringNotEmpty =>
    refine ⟨_, by rw [convertField, next.read]; rfl, kept.add next.again (fun _ => rfl) ?_,
      cells, buffer, clean⟩
    by_cases empty : text = []
    · simp [report, empty, EINVAL]
    · simp [report, empty]
  | string =>
    refine ⟨_, rfl, kept.add next.again (fun _ => rfl) ?_, cells, buffer, clean⟩
    exact Iff.rfl
  | id =>
    refine ⟨_, convertField_id next.read, kept.add (fun _ => rfl) (fun valid => ?_) ?_,
      cells, buffer, clean⟩
    · rw [bbStrtou_unsigned valid]
      rfl
    · exact bbStrtou_zero
  | long =>
    refine ⟨_, convertField_long next.read, kept.add (fun _ => rfl) (fun valid => ?_) ?_,
      cells, buffer, clean⟩
    · by_cases empty : text = []
      · simp [value, dayOf, empty]
      · have number : isLong text = true := by simpa [isValid, empty] using valid
        simp [value, dayOf, empty, bbStrtol_long number]
    · by_cases empty : text = []
      · simp [report, dayOf, empty]
      · simp [report, dayOf, empty, bbStrtol_zero]
  | reserved =>
    refine ⟨_, rfl, kept.add (fun _ => rfl) (fun _ => rfl) ?_, cells, buffer, clean⟩
    exact Iff.rfl

/-! ## The members of a group -/

/-- The loop finds the names that are not empty. -/
theorem membersLoop_stored (front : List UInt8) {names : List Text}
    (clean : ∀ name ∈ names, 0 ∉ name) (behind : List UInt8) {buffer : Nat}
    (place : buffer = front.length) :
    ∃ ps finish, membersLoop (front ++ (stored names ++ behind)) names.length buffer =
        some (ps, finish) ∧
      ps.length ≤ names.length ∧
      ps.mapM (stringAt (front ++ (stored names ++ behind))) = some (names.filter (· ≠ [])) := by
  subst place
  induction names generalizing front with
  | nil => exact ⟨[], _, rfl, Nat.le_refl 0, rfl⟩
  | cons name names ih =>
    obtain ⟨here, later⟩ := List.forall_mem_cons.mp clean
    obtain ⟨ps, finish, loop, short, read⟩ := ih (front ++ (name ++ [0])) later
    have same : front ++ (name ++ [0]) ++ (stored names ++ behind) =
        front ++ (stored (name :: names) ++ behind) := by
      simp [stored_cons]
    have further : (front ++ (name ++ [0])).length = front.length + name.length + 1 := by
      simp
      omega
    rw [same] at loop read
    rw [further] at loop
    have first : stringAt (front ++ (stored (name :: names) ++ behind)) front.length =
        some name := by
      rw [stored_cons, List.append_assoc, List.cons_append]
      exact stringAt_string _ _ _ here rfl
    have ran : membersLoop (front ++ (stored (name :: names) ++ behind)) (name :: names).length
        front.length = some (if name ≠ [] then front.length :: ps else ps, finish) := by
      rw [List.length_cons, membersLoop, first, Option.bind_eq_bind, Option.bind_some, loop]
      rfl
    refine ⟨_, _, ran, ?_, ?_⟩
    · split
      · exact Nat.succ_le_succ short
      · exact short.trans (Nat.le_succ _)
    · by_cases empty : name = []
      · rw [if_neg (not_not.mpr empty), read, List.filter_cons_of_neg (by simp [empty])]
      · rw [if_pos empty, List.filter_cons_of_pos (by simp [empty]), List.mapM_cons, first, read]
        rfl

/-- The array fits into the additional space: three pointers, and one more for every comma. -/
theorem Block.holds_members {tokenizeEnd count commas : Nat} (few : count ≤ commas + 1)
    (room : tokenizeEnd + (3 + commas) * 8 ≤ block.size) :
    block.holds tokenizeEnd count = true := by
  refine decide_eq_true ?_
  have aligned := Nat.div_mul_le_self (block.address + tokenizeEnd + 8) 8
  omega

theorem convertMembers_finished (kept : Kept errno fields done state) (plain : Plain text)
    (next : Next done text [] state)
    (room : (stored (done ++ [text])).length + (3 + text.count 44) * 8 ≤ block.size) :
    ∃ state', convertField block .members state = some state' ∧
      Finished errno (fields ++ [.members]) (done ++ [text]) state' := by
  obtain ⟨same, ⟨earlier, readAll, valid⟩, noError⟩ := kept
  obtain ⟨cells, buffer, clean⟩ := next
  obtain ⟨left, ran⟩ := tokenize_plain (by decide : isblank 44 = false) clean plain.2 []
  obtain ⟨ps, finish, loop, few, read⟩ := membersLoop_stored (stored done)
    (fun name among => (@Plain.splitOn 44 text plain name among).1) left buffer
  have counted := count_intercalate (List.splitOn_ne_nil 44 text)
    (@Directories.not_mem_splitOn _ _ 44 text)
  rw [List.intercalate_splitOn] at counted
  have ends : state.buffer + (text.length + 1) = (stored (done ++ [text])).length := by
    rw [buffer, stored_append]
    simp [stored]
  have holds : block.holds (state.buffer + (text.length + 1)) ps.length = true := by
    rw [ends]
    exact Block.holds_members (by omega) room
  refine ⟨{ state with
    cells := stored done ++ (stored (text.splitOn 44) ++ left)
    buffer := finish
    result := state.result ++ [.members ps] }, ?_, ?_⟩
  · rw [convertField, convertMembers, cells, buffer, List.drop_left, ran, Option.bind_eq_bind,
      Option.bind_some, List.take_left]
    simp only
    rw [← buffer, loop, Option.bind_eq_bind, Option.bind_some]
    exact if_pos holds
  · refine ⟨⟨earlier ++ [value .members text], ?_, fun all => ?_⟩, ?_⟩
    · simp [List.mapM_append, readAll, Member.read, read, value]
    · rw [allValid_concat same, Bool.and_eq_true] at all
      rw [values_concat same, valid all.1]
    · rw [reports_concat same, succeeds_concat]
      exact noError

/-! ## The whole record -/

/-- What is needed for members, if there are any: they are last, and there is room for them. -/
structure Room (block : Block) (record : List Text) (rest : List Letter) : Prop where
  last : ∀ letter ∈ rest.dropLast, letter ≠ .members
  space : .members ∈ rest → ∃ commas, (∀ text ∈ record, text.count 44 ≤ commas) ∧
    (stored record).length + (3 + commas) * 8 ≤ block.size

theorem convertFields_finished {rest : List Letter} {todo : List Text} (nonempty : rest ≠ [])
    (length : rest.length = todo.length) (plain : ∀ text ∈ todo, Plain text)
    (room : Room block (done ++ todo) rest) (kept : Kept errno fields done state)
    (cells : state.cells = stored (done ++ todo)) (buffer : state.buffer = (stored done).length) :
    ∃ state', convertFields block rest state = some state' ∧
      Finished errno (fields ++ rest) (done ++ todo) state' := by
  induction rest generalizing fields done todo state with
  | nil => exact absurd rfl nonempty
  | cons letter rest ih =>
    obtain ⟨text, todo, rfl⟩ := List.exists_cons_of_length_eq_add_one length.symm
    obtain ⟨here, later⟩ := List.forall_mem_cons.mp plain
    have next : Next done text (stored todo) state := by
      refine ⟨?_, buffer, here.1⟩
      rw [cells, stored_append, stored_cons]
    cases rest with
    | nil =>
      obtain rfl : todo = [] := List.length_eq_zero_iff.mp (Nat.succ.inj length).symm
      rw [convertFields]
      by_cases members : letter = .members
      · subst members
        obtain ⟨commas, few, space⟩ := room.space List.mem_cons_self
        have fewer := few text (by simp)
        exact convertMembers_finished kept here next (by omega)
      · obtain ⟨state', ran, kept', next'⟩ := convertField_kept kept members next
        obtain ⟨_, ⟨read, readAll, valid⟩, noError⟩ := kept'
        refine ⟨state', ran, ⟨⟨read, ?_, valid⟩, noError⟩⟩
        have whole := readAll []
        rw [next'.cells]
        simpa [stored_append, stored_cons] using whole
    | cons more rest =>
      have notMembers := room.last letter (by simp)
      obtain ⟨state', ran, kept', next'⟩ := convertField_kept kept notMembers next
      have moved : nextField state' =
          some { state' with buffer := state'.buffer + text.length + 1 } := by
        rw [nextField, next'.read]
        rfl
      have shifted : done ++ text :: todo = (done ++ [text]) ++ todo := by simp
      have room' : Room block ((done ++ [text]) ++ todo) (more :: rest) := by
        rw [← shifted]
        refine ⟨fun other among => room.last other ?_, fun mem =>
          room.space (List.mem_cons_of_mem _ mem)⟩
        rw [List.dropLast_cons_cons]
        exact List.mem_cons_of_mem _ among
      rw [convertFields, ran, Option.bind_eq_bind, Option.bind_some, moved, Option.bind_some,
        shifted, List.append_cons]
      · refine ih (List.cons_ne_nil _ _) (Nat.succ.inj length) later room' ?_ ?_ ?_
        · exact ⟨kept'.same, kept'.result, kept'.errno⟩
        · simp [next'.cells, stored_append, stored_cons]
        · simp [next'.buffer, stored_append, stored_cons]
          omega
      · simp

/-- What should be returned for a record. -/
def structOf (db : Passdb) (record : List Text) : Option (List Value) :=
  if allValid db.fields record then some (values db.fields record) else none

/-- What comes of a record that was found. -/
theorem convertToStruct_returned {db : Passdb} {record : List Text} (block : Block)
    (errno : Errno) (nonempty : db.fields ≠ []) (length : db.fields.length = record.length)
    (plain : ∀ text ∈ record, Plain text) (room : Room block record db.fields) :
    ∃ returned, convertToStruct db block (stored record) errno = some returned ∧
      (returned.result = structOf db record ↔ Reported errno (reports db.fields record)) := by
  have started : Kept errno [] [] ⟨stored record, 0, errno, []⟩ :=
    ⟨rfl, ⟨[], fun _ => rfl, fun _ => rfl⟩, Iff.rfl⟩
  obtain ⟨state, ran, ⟨read, readAll, valid⟩, noError⟩ :=
    convertFields_finished nonempty length plain room started rfl rfl
  rw [List.nil_append, List.nil_append] at valid noError
  rw [reported_iff, ← noError, ← allValid_iff, structOf, convertToStruct, ran, Option.bind_eq_bind,
    Option.bind_some]
  by_cases fails : state.errno ≠ 0
  · refine ⟨_, if_pos fails, ?_⟩
    by_cases all : allValid db.fields record = true
    · simp [all, fails]
    · simp [all, fails]
  · refine ⟨_, (if_neg fails).trans (by rw [readAll]; rfl), ?_⟩
    by_cases all : allValid db.fields record = true
    · simp [all, not_not.mp fails, valid all]
    · simp [all, not_not.mp fails]

/-! ## The calls -/

/-- The first record with the right number of fields and the key. -/
def firstRecord (db : Passdb) (key : Text) (fieldPos : Nat) (file : List UInt8) :
    Option (List Text) :=
  (records (Libbb.fgetlines [] file)).find? (isMatch db key fieldPos)

/-- The record that a call is about. -/
def found (function : Function) (file : List UInt8) : Option (List Text) :=
  firstRecord function.db function.key function.fieldPos file

/-- What should be returned: the structure for that record, if all its fields are valid. -/
def expected (function : Function) (file : List UInt8) : Option (List Value) :=
  (found function file).bind fun record =>
    if function.roomFor record then structOf function.db record else none

variable {db : Passdb} {key : Text} {fieldPos address : Nat} {file : List UInt8}

theorem plain_lines (noBlanks : ∀ c ∈ file, isblank c = false) :
    ∀ line ∈ Libbb.fgetlines [] file, Plain line := by
  have inside (line text : List UInt8) (clean : ∀ c ∈ line ++ text, isblank c = false) :
      ∀ read ∈ Libbb.fgetlines line text, ∀ c ∈ read, isblank c = false := by
    induction text generalizing line with
    | nil =>
      intro read mem
      cases line with
      | nil => exact absurd mem List.not_mem_nil
      | cons d line =>
        rw [List.mem_singleton.mp mem]
        simpa using clean
    | cons ch rest ih =>
      intro read mem
      rw [Libbb.fgetlines] at mem
      split at mem
      · rcases List.mem_cons.mp mem with rfl | later
        · exact fun c mem => clean c (List.mem_append_left _ mem)
        · exact ih [] (fun c mem => clean c (by simp at mem; simp [mem])) read later
      · exact ih (line ++ [ch]) (by simpa using clean) read mem
  intro line mem
  refine ⟨fun nul => ?_, inside [] file noBlanks line mem⟩
  have empty : Libbb.Unbroken [] := fun _ mem => absurd mem List.not_mem_nil
  exact (Libbb.unbroken_of_mem_fgetlines empty mem 0 nul).2 rfl

/-- A record that is found is one of the file, with its fields. -/
theorem firstRecord_some {record : List Text} (noBlanks : ∀ c ∈ file, isblank c = false)
    (isFirst : firstRecord db key fieldPos file = some record) :
    db.fields.length = record.length ∧ ∀ text ∈ record, Plain text := by
  have matched := List.find?_some isFirst
  obtain ⟨line, kept, rfl⟩ := List.mem_map.mp (List.mem_of_find?_eq_some isFirst)
  have plain := plain_lines noBlanks line (List.mem_filter.mp kept).1
  simp only [isMatch, Bool.and_eq_true, decide_eq_true_eq] at matched
  exact ⟨matched.1.symm, plain.splitOn⟩

/-- The databases whose structures have no list of members have no use for room. -/
theorem room_of_no_members {record : List Text} {db : Passdb} (none : .members ∉ db.fields) :
    Room block record db.fields where
  last letter among := by
    rintro rfl
    exact none (List.mem_of_mem_dropLast among)
  space mem := absurd mem none

/-- The additional space of a group record is counted by its commas. -/
theorem room_members {record : List Text} (address : Nat) :
    Room ⟨address, (withMembers grDb (stored record)).stringSize⟩ record grDb.fields where
  last := by decide
  space _ := by
    refine ⟨(stored record).count 44, fun text among => ?_, Nat.le_refl _⟩
    refine List.Sublist.count_le _ (List.Sublist.trans (List.sublist_append_left text [0]) ?_)
    exact List.sublist_flatten_of_mem (List.mem_map_of_mem among)

theorem withMembers_buf (db : Passdb) (buf : List UInt8) : (withMembers db buf).buf = buf := by
  unfold withMembers
  split
  · rfl
  · rfl

theorem parseCommon_first (inside : fieldPos < db.fields.length)
    (noBlanks : ∀ c ∈ file, isblank c = false) :
    parseCommon db key fieldPos (Libbb.fgetlines [] file) =
      some ((firstRecord db key fieldPos file).map (withMembers db <| stored ·)) :=
  parseCommon_find db key inside (plain_lines noBlanks)

theorem getXXnam_returned (key : Text) (errno : Errno) (nonempty : db.fields ≠ [])
    (inside : fieldPos < db.fields.length) (noBlanks : ∀ c ∈ file, isblank c = false)
    (room : ∀ record, Room ⟨address + db.sizeOf, (withMembers db (stored record)).stringSize⟩
      record db.fields) :
    ∃ returned, getXXnam db key fieldPos address file errno = some returned ∧
      (returned.result = (firstRecord db key fieldPos file).bind (structOf db) ↔
        ∀ record ∈ firstRecord db key fieldPos file,
          Reported errno (reports db.fields record)) := by
  rw [getXXnam, parseCommon_first inside noBlanks, Option.bind_eq_bind, Option.bind_some]
  cases isFirst : firstRecord db key fieldPos file with
  | none => exact ⟨_, rfl, iff_of_true rfl nofun⟩
  | some record =>
    obtain ⟨length, plain⟩ := firstRecord_some noBlanks isFirst
    obtain ⟨returned, ran, right⟩ :=
      convertToStruct_returned _ errno nonempty length plain (room record)
    refine ⟨returned, ?_, ?_⟩
    · simp only [Option.map_some, withMembers_buf, ran]
    · rw [Option.bind_some, right]
      simp

theorem getXXnamR_returned (key : Text) (address buflen : Nat) (errno : Errno)
    (nonempty : spDb.fields ≠ []) (noBlanks : ∀ c ∈ file, isblank c = false) :
    ∃ returned, getXXnamR spDb key address buflen file errno = some returned ∧
      (returned.result = (firstRecord spDb key 0 file).bind (fun record =>
        if (stored record).length ≤ buflen then structOf spDb record else none) ↔
        ∀ record ∈ firstRecord spDb key 0 file, (stored record).length ≤ buflen →
          Reported errno (reports spDb.fields record)) := by
  rw [getXXnamR, parseCommon_first (by decide) noBlanks, Option.bind_eq_bind, Option.bind_some]
  cases isFirst : firstRecord spDb key 0 file with
  | none => exact ⟨_, rfl, iff_of_true rfl nofun⟩
  | some record =>
    obtain ⟨length, plain⟩ := firstRecord_some noBlanks isFirst
    have size : (withMembers spDb (stored record)).stringSize = (stored record).length := rfl
    simp only [Option.map_some, size, withMembers_buf, Option.bind_some]
    by_cases fits : (stored record).length ≤ buflen
    · obtain ⟨returned, ran, right⟩ := convertToStruct_returned ⟨address, buflen⟩ errno
        nonempty length plain (room_of_no_members (by decide))
      refine ⟨returned, (if_neg (Nat.not_lt.mpr fits)).trans ran, ?_⟩
      rw [if_pos fits, right]
      simp [fits]
    · refine ⟨_, if_pos (Nat.not_le.mp fits), ?_⟩
      rw [if_neg fits]
      simp [fits]

/-- Every call returns, and what it returns is right where the reports agree. -/
theorem call_returned (function : Function) (address : Nat) (errno : Errno)
    (noBlanks : ∀ c ∈ file, isblank c = false) :
    ∃ returned, call address file errno function = some returned ∧
      (returned.result = expected function file ↔
        ∀ record ∈ found function file, function.roomFor record = true →
          Reported errno (reports function.db.fields record)) := by
  have pwRoom (record : List Text) :=
    @room_of_no_members ⟨address + pwDb.sizeOf, (withMembers pwDb (stored record)).stringSize⟩
      record pwDb (by decide)
  have grRoom (record : List Text) := @room_members record (address + grDb.sizeOf)
  cases function with
  | getpwnam name =>
    have inside : 0 < pwDb.fields.length := by decide
    have returns := getXXnam_returned name errno (by decide) inside noBlanks pwRoom
    simpa [call, expected, found, Function.roomFor, Function.db, Function.key,
      Function.fieldPos] using returns
  | getpwuid id =>
    have inside : 2 < pwDb.fields.length := by decide
    have returns :=
      getXXnam_returned (unsignedText id.toNat) errno (by decide) inside noBlanks pwRoom
    simpa [call, expected, found, Function.roomFor, Function.db, Function.key,
      Function.fieldPos] using returns
  | getgrnam name =>
    have inside : 0 < grDb.fields.length := by decide
    have returns := getXXnam_returned name errno (by decide) inside noBlanks grRoom
    simpa [call, expected, found, Function.roomFor, Function.db, Function.key,
      Function.fieldPos] using returns
  | getgrgid id =>
    have inside : 2 < grDb.fields.length := by decide
    have returns :=
      getXXnam_returned (unsignedText id.toNat) errno (by decide) inside noBlanks grRoom
    simpa [call, expected, found, Function.roomFor, Function.db, Function.key,
      Function.fieldPos] using returns
  | getspnam_r name buflen =>
    have returns := getXXnamR_returned name address buflen errno (by decide) noBlanks
    simpa [call, expected, found, Function.roomFor, Function.db, Function.key,
      Function.fieldPos] using returns

/-- For every file without blanks, every key, every `errno` and every address of the block: the call
returns what it should exactly where no invalid field of the record is forgotten, and no `errno` of
before is taken for one. -/
theorem call_iff (function : Function) (file : List UInt8) (address : Nat) (errno : Errno)
    (noBlanks : ∀ c ∈ file, isblank c = false) :
    (∃ returned, call address file errno function = some returned ∧
      returned.result = expected function file) ↔
    ∀ record ∈ found function file, function.roomFor record = true →
      Reported errno (reports function.db.fields record) := by
  obtain ⟨returned, ran, right⟩ := call_returned function address errno noBlanks
  rw [ran, ← right]
  simp

/-- `a::0:0:::` -/
def validFile : List UInt8 := [97, 58, 58, 48, 58, 48, 58, 58, 58, 10]

/-- `a::x:0:::` -/
def invalidFile : List UInt8 := [97, 58, 58, 120, 58, 48, 58, 58, 58, 10]

theorem call_valid :
    (∃ returned, call 0 validFile ERANGE (.getpwnam [97]) = some returned ∧
      returned.result = expected (.getpwnam [97]) validFile) ↔
    ∀ record ∈ found (.getpwnam [97]) validFile,
      (Function.getpwnam [97]).roomFor record = true →
        Reported ERANGE (reports (Function.getpwnam [97]).db.fields record) :=
  call_iff (.getpwnam [97]) validFile 0 ERANGE (by simp [validFile, isblank])

/-- The uid is no number, but the gid behind it is. -/
theorem call_invalid :
    ¬∃ returned, call 0 invalidFile 0 (.getpwnam [97]) = some returned ∧
      returned.result = expected (.getpwnam [97]) invalidFile := by
  rintro ⟨returned, ran, result⟩
  have noBlanks : ∀ c ∈ invalidFile, isblank c = false := by simp [invalidFile, isblank]
  obtain ⟨_, ran', right⟩ := call_returned (.getpwnam [97]) 0 0 noBlanks
  cases ran.symm.trans ran'
  have agree := right.mp result [[97], [], [120], [48], [], [], []] (by decide) rfl
  exact absurd agree (by unfold Reported; decide)

end Busybox.Pwdgrp.Reports
