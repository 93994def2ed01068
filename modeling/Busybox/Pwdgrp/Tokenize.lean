import Mathlib.Data.List.DropRight
import Busybox.Lib.Loops
import Busybox.Libbb.Strings

/-!
# `tokenize`

`libpwdgrp/pwd_grp.c` divides a record into its fields in place: the separator behind a field
becomes a NUL, and the blanks around the field are squeezed out by moving the rest of the string
to the left. Whether the string has ended is read from the cell in which the separator was.
-/

namespace Busybox.Pwdgrp.Tokenize

open Turns Libbb.Strings

/-- The buffer, with the pointers to the next character and to the start of its field, and the
number of fields in front of that. -/
structure Scan where
  buffer : List UInt8
  p : Nat
  s : Nat
  numFields : Nat

/-- The buffer afterwards, `tokenize_end`, and the number of fields. -/
structure Tokenized where
  buffer : List UInt8
  tokenizeEnd : Nat
  numFields : Nat

/-- `if (isblank(*s)) overlapping_strcpy(s, skip_whitespace(s));` -/
def squeeze (state : Scan) : Option Scan := do
  if isblank (← state.buffer[state.s]?) then
    let rest ← skipWhitespace state.buffer state.s
    return { state with buffer := ← overlappingStrcpy state.buffer state.s rest }
  else return state

/-- `while (p != s && isblank(p[-1])) p--;` -/
def stripBack (buffer : List UInt8) (s : Nat) : Nat → Option Nat
  | 0 => if 0 = s then some 0 else none
  | p + 1 => do
    if p + 1 = s then some s
    else if isblank (← buffer[p]?) then stripBack buffer s p
    else some (p + 1)

/-- `if (p != end) overlapping_strcpy(p, end);` -/
def moveBack (buffer : List UInt8) (p finish : Nat) : Option (List UInt8) :=
  if p ≠ finish then overlappingStrcpy buffer p finish else some buffer

/-- The branch for the end of a field. -/
def endField (state : Scan) : Option (Turn Scan Tokenized) := do
  let finish := state.p
  let p ← stripBack state.buffer state.s state.p
  let buffer ← moveBack state.buffer p finish
  let numFields := state.numFields + 1
  if (← buffer[finish]?) = 0 then return .leave ⟨buffer, p + 1, numFields⟩
  else if p < buffer.length then
    return .next { buffer := buffer.set p 0, p := p + 1, s := p + 1, numFields }
  else none

/-- The rest of the body of the loop. -/
def advance (ch : UInt8) (state : Scan) : Option (Turn Scan Tokenized) := do
  let c ← state.buffer[state.p]?
  if c = ch ∨ c = 0 then endField state else return .next { state with p := state.p + 1 }

/-- The body of the loop. -/
def turn (ch : UInt8) (state : Scan) : Option (Turn Scan Tokenized) := do
  advance ch (← squeeze state)

/-- So many turns of the loop, at most. -/
def tokenizeLoop (ch : UInt8) : Nat → Scan → Option Tokenized
  | 0, _ => none
  | fuel + 1, state => do
    match ← turn ch state with
    | .leave result => return result
    | .next state => tokenizeLoop ch fuel state

/-- A turn comes one character closer to the end of the string, so that there are no more turns than
cells. -/
def tokenize (buffer : List UInt8) (ch : UInt8) : Option Tokenized :=
  tokenizeLoop ch buffer.length ⟨buffer, 0, 0, 0⟩

/-! ## What the loop does to a string -/

/-- The string from the start of a field on, once the blanks in front of it are squeezed out. -/
def squeezed (text : List UInt8) : List UInt8 :=
  if text.head?.any isblank then text.dropWhile isspace else text

/-- The field at the start of a string. -/
def field (ch : UInt8) (text : List UInt8) : List UInt8 := text.takeWhile (· ≠ ch)

/-- The cells up to `tokenize_end`, and the number of fields. The loop ends early where the NUL of
the string comes to lie in the cell of a separator. -/
def outcome (ch : UInt8) (text : List UInt8) : List UInt8 × Nat :=
  let word := field ch (squeezed text)
  let stripped := word.rdropWhile isblank
  match _ends : (squeezed text).dropWhile (· ≠ ch) with
  | [] => (stripped ++ [0], 1)
  | _ :: rest =>
    if word.length = stripped.length + (rest.length + 1) then (stripped ++ [ch], 1)
    else (stripped ++ 0 :: (outcome ch rest).1, (outcome ch rest).2 + 1)
termination_by text.length
decreasing_by
  all_goals
    have behind := congrArg List.length _ends
    have shorter := (List.dropWhile_suffix (l := squeezed text) (· ≠ ch)).length_le
    have squeezes : (squeezed text).length ≤ text.length := by
      unfold squeezed
      split
      · exact (List.dropWhile_suffix _).length_le
      · exact Nat.le_refl _
    simp only [List.length_cons] at behind
    omega

variable {ch : UInt8} {text rest : List UInt8}

/-- The field at the start of a string without the blanks around it. -/
def stripped (ch : UInt8) (text : List UInt8) : List UInt8 :=
  (field ch (squeezed text)).rdropWhile isblank

theorem outcome_last (ends : (squeezed text).dropWhile (· ≠ ch) = []) :
    outcome ch text = (stripped ch text ++ [0], 1) := by
  rw [outcome]
  split
  · rfl
  case h_2 ends' => cases ends.symm.trans ends'

/-- The separator's cell comes to hold the NUL. -/
def EndsEarly (ch : UInt8) (text rest : List UInt8) : Prop :=
  (field ch (squeezed text)).length = (stripped ch text).length + (rest.length + 1)

theorem outcome_early (ends : (squeezed text).dropWhile (· ≠ ch) = ch :: rest)
    (early : EndsEarly ch text rest) : outcome ch text = (stripped ch text ++ [ch], 1) := by
  rw [outcome]
  split
  case h_1 ends' => cases ends.symm.trans ends'
  case h_2 ends' =>
    cases ends.symm.trans ends'
    exact if_pos early

theorem outcome_next (ends : (squeezed text).dropWhile (· ≠ ch) = ch :: rest)
    (goesOn : ¬EndsEarly ch text rest) :
    outcome ch text =
      (stripped ch text ++ 0 :: (outcome ch rest).1, (outcome ch rest).2 + 1) := by
  rw [outcome]
  split
  case h_1 ends' => cases ends.symm.trans ends'
  case h_2 ends' =>
    cases ends.symm.trans ends'
    exact if_neg goesOn

/-! ## Fields in the buffer -/

/-- In front of the field stands what was done of the string. Of the field itself a part was
passed, and the text is ahead of the pointer. -/
structure Holds (state : Scan) (out done text behind : List UInt8) : Prop where
  buffer : state.buffer = out ++ (done ++ (text ++ 0 :: behind))
  field : state.s = out.length
  here : state.p = out.length + done.length

variable {state : Scan} {out done behind : List UInt8} {c : UInt8}

theorem Holds.first (holds : Holds state out done text behind) :
    state.buffer[state.s]? = (done ++ (text ++ 0 :: behind))[0]? := by
  rw [holds.buffer, holds.field, List.getElem?_append_right (Nat.le_refl _), Nat.sub_self]

theorem Holds.next (holds : Holds state out done text behind) :
    state.buffer[state.p]? = (text ++ 0 :: behind)[0]? := by
  rw [holds.buffer, holds.here, List.getElem?_append_right (by omega),
    List.getElem?_append_right (by omega)]
  congr 1
  omega

theorem squeezed_head (text : List UInt8) : (squeezed text).head?.any isblank = false := by
  unfold squeezed
  split
  case isTrue =>
    cases text' : text.dropWhile isspace with
    | nil => rfl
    | cons c rest =>
      have stops := List.head?_dropWhile_not isspace text
      rw [text'] at stops
      have notSpace : isspace c = false := by simpa using stops
      rw [List.head?_cons, Option.any_some]
      exact Bool.eq_false_iff.mpr fun blank => by
        rw [isspace_of_isblank blank] at notSpace
        cases notSpace
  case isFalse other => exact Bool.eq_false_iff.mpr other

/-- Nothing is squeezed out where the field does not start with a blank. -/
theorem squeeze_kept (holds : Holds state out done text behind)
    (solid : (done ++ text).head?.any isblank = false) : squeeze state = some state := by
  obtain ⟨c, read, notBlank⟩ : ∃ c, state.buffer[state.s]? = some c ∧ isblank c = false := by
    rw [holds.first, ← List.append_assoc]
    cases together : done ++ text with
    | nil => exact ⟨0, rfl, rfl⟩
    | cons c rest =>
      rw [together] at solid
      exact ⟨c, rfl, solid⟩
  rw [squeeze, read, Option.bind_eq_bind, Option.bind_some, notBlank]
  rfl

/-- At the start of a field the blanks are squeezed out. -/
theorem squeeze_start (holds : Holds state out [] text behind) (clean : 0 ∉ text) :
    ∃ state' left, squeeze state = some state' ∧ Holds state' out [] (squeezed text) left ∧
      state'.numFields = state.numFields := by
  by_cases blank : text.head?.any isblank = true
  · obtain ⟨c, read, isBlank⟩ : ∃ c, state.buffer[state.s]? = some c ∧ isblank c = true := by
      rw [holds.first]
      cases text with
      | nil => cases blank
      | cons c rest => exact ⟨c, rfl, blank⟩
    have skipped := skipWhitespace_string out text behind holds.field
    have whole := List.takeWhile_append_dropWhile (p := isspace) (l := text)
    have moved := overlappingStrcpy_string out (text.takeWhile isspace) (text.dropWhile isspace)
      behind (fun nul => clean ((List.dropWhile_suffix isspace).subset nul)) holds.field
      (congrArg (· + (text.takeWhile isspace).length) holds.field)
    rw [← List.append_assoc (text.takeWhile isspace), whole] at moved
    obtain ⟨left, moved⟩ : ∃ left, overlappingStrcpy (out ++ (text ++ 0 :: behind)) state.s
        (state.s + (text.takeWhile isspace).length) =
      some (out ++ (text.dropWhile isspace ++ 0 :: left)) := ⟨_, moved⟩
    refine ⟨{ state with buffer := out ++ (text.dropWhile isspace ++ 0 :: left) }, left, ?_,
      ⟨?_, holds.field, holds.here⟩, rfl⟩
    · rw [squeeze, read, Option.bind_eq_bind, Option.bind_some, if_pos isBlank, holds.buffer,
        List.nil_append, skipped, Option.bind_eq_bind, Option.bind_some, moved]
      rfl
    · rw [squeezed, if_pos blank]
      rfl
  · have kept : squeezed text = text := if_neg blank
    exact ⟨state, behind, squeeze_kept holds (Bool.eq_false_iff.mpr blank), by rwa [kept], rfl⟩

/-- Inside a field a character is passed. -/
theorem turn_char (holds : Holds state out done (c :: text) behind)
    (solid : (done ++ c :: text).head?.any isblank = false) (other : c ≠ ch) (notNul : c ≠ 0) :
    turn ch state = some (.next { state with p := state.p + 1 }) ∧
      Holds { state with p := state.p + 1 } out (done ++ [c]) text behind := by
  refine ⟨?_, ⟨by simp [holds.buffer], holds.field, by simp [holds.here, Nat.add_assoc]⟩⟩
  have read : state.buffer[state.p]? = some c := holds.next
  rw [turn, squeeze_kept holds solid, Option.bind_eq_bind, Option.bind_some, advance, read,
    Option.bind_eq_bind, Option.bind_some, if_neg (not_or.mpr ⟨other, notNul⟩)]
  rfl

/-! ## The end of a field -/

theorem stripBack_start (buffer : List UInt8) (s : Nat) : stripBack buffer s s = some s := by
  cases s <;> simp [stripBack]

/-- The pointer goes back over the blanks at the end of the field. -/
theorem stripBack_field (out done rest : List UInt8) {s p : Nat} (field : s = out.length)
    (here : p = out.length + done.length) :
    stripBack (out ++ (done ++ rest)) s p =
      some (out.length + (done.rdropWhile isblank).length) := by
  subst field here
  induction done using List.reverseRecOn generalizing rest with
  | nil => exact stripBack_start _ _
  | append_singleton done c ih =>
    have read : (out ++ (done ++ [c] ++ rest))[out.length + done.length]? = some c := by
      rw [List.getElem?_append_right (by omega), List.append_assoc,
        List.getElem?_append_right (by omega)]
      simp
    have further : ¬out.length + done.length + 1 = out.length := by omega
    rw [List.length_append, List.length_singleton, ← Nat.add_assoc, stripBack, if_neg further,
      read, Option.bind_eq_bind, Option.bind_some]
    by_cases blank : isblank c = true
    · rw [if_pos blank, List.rdropWhile_concat_pos _ _ _ blank, List.append_assoc done]
      exact ih ([c] ++ rest)
    · rw [if_neg blank, List.rdropWhile_concat_neg _ _ _ blank]
      simp [Nat.add_assoc]

/-- The cell in which the separator was, once the rest was moved over the blanks. It holds the NUL
if there was none, or as many characters as leave one blank over. -/
theorem moved_cell (gap : List UInt8) (clean : 0 ∉ text) (left : List UInt8) :
    ∃ c, (text ++ 0 :: ((gap ++ (text ++ [0])).drop (text.length + 1) ++ left))[gap.length]? =
      some c ∧ (c = 0 ↔ text = [] ∨ gap.length = text.length) := by
  rcases Nat.lt_trichotomy gap.length text.length with short | equal | long
  · have inside : text[gap.length]? = some (text.get ⟨gap.length, short⟩) :=
      List.getElem?_eq_getElem short
    refine ⟨_, (List.getElem?_append_left short).trans inside, iff_of_false ?_ ?_⟩
    · exact fun nul => clean (nul ▸ List.get_mem _ _)
    · rintro (rfl | same)
      · cases short
      · omega
  · exact ⟨0, by rw [equal, List.getElem?_append_right (Nat.le_refl _)]; simp,
      iff_of_true rfl (.inr equal)⟩
  · obtain ⟨k, length⟩ : ∃ k, gap.length = text.length + (k + 1) :=
      ⟨gap.length - text.length - 1, by omega⟩
    have cell : (text ++ 0 :: ((gap ++ (text ++ [0])).drop (text.length + 1) ++
        left))[gap.length]? = (text ++ [0])[0]? := by
      rw [List.getElem?_append_right (by omega), length, Nat.add_sub_cancel_left,
        List.getElem?_cons_succ, List.getElem?_append_left (by simp; omega), List.getElem?_drop,
        List.getElem?_append_right (by omega)]
      congr 1
      omega
    rw [cell]
    cases text with
    | nil => exact ⟨0, rfl, iff_of_true rfl (.inl rfl)⟩
    | cons d text =>
      refine ⟨d, rfl, iff_of_false (fun nul => clean (nul ▸ List.mem_cons_self)) ?_⟩
      rintro (empty | same)
      · cases empty
      · omega

/-- The rest of the string is moved over the blanks at the end of the field, and then the old cell
of the separator is read. -/
theorem endField_moved (holds : Holds state out done text behind) (clean : 0 ∉ text) :
    ∃ left, endField state =
      let p := out.length + (done.rdropWhile isblank).length
      let buffer := out ++ (done.rdropWhile isblank ++ (text ++ 0 :: left))
      if text = [] ∨ done.length = (done.rdropWhile isblank).length + text.length then
        some (.leave ⟨buffer, p + 1, state.numFields + 1⟩)
      else some (.next ⟨buffer.set p 0, p + 1, p + 1, state.numFields + 1⟩) := by
  obtain ⟨gap, whole⟩ := List.rdropWhile_prefix isblank done
  have back := stripBack_field out done (text ++ 0 :: behind) holds.field holds.here
  generalize done.rdropWhile isblank = stripped at whole back ⊢
  subst whole
  have place : state.p = (out ++ stripped).length + gap.length := by
    rw [holds.here]
    simp [Nat.add_assoc]
  have moved := overlappingStrcpy_string (out ++ stripped) gap text behind clean rfl place
  obtain ⟨c, cell, isNul⟩ := moved_cell gap clean behind
  have read : (out ++ stripped ++ (text ++ 0 :: ((gap ++ (text ++ [0])).drop (text.length + 1) ++
      behind)))[state.p]? = some c := by
    rw [List.getElem?_append_right (by omega), place, Nat.add_sub_cancel_left]
    exact cell
  have length : (stripped ++ gap).length = stripped.length + text.length ↔
      gap.length = text.length := by
    rw [List.length_append]
    omega
  have copied : moveBack state.buffer (out ++ stripped).length state.p =
      overlappingStrcpy state.buffer (out ++ stripped).length state.p := by
    unfold moveBack overlappingStrcpy
    split <;> rfl
  refine ⟨(gap ++ (text ++ [0])).drop (text.length + 1) ++ behind, ?_⟩
  have reassociated : state.buffer = out ++ stripped ++ (gap ++ (text ++ 0 :: behind)) := by
    simp [holds.buffer]
  rw [← holds.buffer] at back
  rw [← reassociated] at moved
  rw [endField, back, ← List.length_append]
  simp only [Option.bind_eq_bind, Option.bind_some, copied, moved, read, isNul, length]
  generalize (gap ++ (text ++ [0])).drop (text.length + 1) ++ behind = left
  have inside : (out ++ stripped).length < (out ++ stripped ++ (text ++ 0 :: left)).length := by
    simp only [List.length_append, List.length_cons]
    omega
  rw [if_pos inside]
  simp only [List.append_assoc]
  rfl

/-- At the end of the string the loop is left. -/
theorem endField_last (holds : Holds state out done [] behind) :
    ∃ left, endField state = some (.leave
      ⟨out ++ (done.rdropWhile isblank ++ 0 :: left),
        out.length + (done.rdropWhile isblank).length + 1, state.numFields + 1⟩) := by
  obtain ⟨left, moved⟩ := endField_moved holds (by simp)
  exact ⟨left, moved.trans (if_pos (.inl rfl))⟩

/-- It is left too where the cell of the separator holds the NUL now. -/
theorem endField_early (holds : Holds state out done (ch :: rest) behind) (clean : 0 ∉ ch :: rest)
    (early : done.length = (done.rdropWhile isblank).length + (rest.length + 1)) :
    ∃ left, endField state = some (.leave
      ⟨out ++ (done.rdropWhile isblank ++ ch :: left),
        out.length + (done.rdropWhile isblank).length + 1, state.numFields + 1⟩) := by
  obtain ⟨left, moved⟩ := endField_moved holds clean
  exact ⟨rest ++ 0 :: left, moved.trans (if_pos (.inr early))⟩

/-- Else the separator becomes a NUL, and the next field starts behind it. -/
theorem endField_next (holds : Holds state out done (ch :: rest) behind) (clean : 0 ∉ ch :: rest)
    (goesOn : done.length ≠ (done.rdropWhile isblank).length + (rest.length + 1)) :
    ∃ next left, endField state = some (.next next) ∧
      Holds next (out ++ (done.rdropWhile isblank ++ [0])) [] rest left ∧
      next.numFields = state.numFields + 1 := by
  obtain ⟨left, moved⟩ := endField_moved holds clean
  refine ⟨_, left, moved.trans (if_neg (by simp [goesOn])), ⟨?_, ?_, ?_⟩, rfl⟩
  · simp only [← List.append_assoc out, ← List.length_append]
    rw [List.set_append_right _ _ (Nat.le_refl _), Nat.sub_self]
    simp
  · simp [Nat.add_assoc]
  · simp [Nat.add_assoc]

/-! ## The whole loop -/

theorem squeezed_suffix (text : List UInt8) : squeezed text <:+ text := by
  unfold squeezed
  split
  · exact List.dropWhile_suffix _
  · exact List.suffix_refl text

theorem tokenizeLoop_next {fuel : Nat} {next : Scan} (more : turn ch state = some (.next next)) :
    tokenizeLoop ch (fuel + 1) state = tokenizeLoop ch fuel next := by
  rw [tokenizeLoop, more]
  rfl

theorem tokenizeLoop_leave {fuel : Nat} {result : Tokenized}
    (done : turn ch state = some (.leave result)) :
    tokenizeLoop ch (fuel + 1) state = some result := by
  rw [tokenizeLoop, done]
  rfl

/-- The characters of a field are passed one after the other. -/
theorem tokenizeLoop_field (holds : Holds state out done text behind)
    (solid : (done ++ text).head?.any isblank = false) (clean : 0 ∉ text) (fuel : Nat) :
    ∃ state', tokenizeLoop ch (fuel + (field ch text).length) state = tokenizeLoop ch fuel state' ∧
      Holds state' out (done ++ field ch text) (text.dropWhile (· ≠ ch)) behind ∧
      state'.numFields = state.numFields := by
  induction text generalizing state done with
  | nil => exact ⟨state, rfl, by simpa [field] using holds, rfl⟩
  | cons c text ih =>
    obtain ⟨first, later⟩ := not_or.mp (mt List.mem_cons.mpr clean)
    by_cases other : c ≠ ch
    · obtain ⟨passed, holds'⟩ := turn_char holds solid other (Ne.symm first)
      obtain ⟨state', loops, reached, same⟩ := ih holds' (by simpa using solid) later
      have here : field ch (c :: text) = c :: field ch text :=
        List.takeWhile_cons_of_pos (by simpa using other)
      refine ⟨state', ?_, ?_, same⟩
      · rw [here, List.length_cons, ← Nat.add_assoc, tokenizeLoop_next passed, loops]
      · rw [here, List.dropWhile_cons_of_pos (by simpa using other)]
        simpa using reached
    · have here : field ch (c :: text) = [] := List.takeWhile_cons_of_neg (by simpa using other)
      refine ⟨state, by rw [here]; rfl, ?_, rfl⟩
      rwa [here, List.append_nil, List.dropWhile_cons_of_neg (by simpa using other)]

/-- The end of a field is reached where the separator or the NUL is. -/
theorem turn_end (holds : Holds state out done text behind)
    (solid : (done ++ text).head?.any isblank = false) (ends : ∀ c ∈ text.head?, c = ch) :
    turn ch state = endField state := by
  have read := holds.next
  rw [turn, squeeze_kept holds solid, Option.bind_eq_bind, Option.bind_some, advance]
  cases text with
  | nil =>
    have nul : state.buffer[state.p]? = some 0 := read
    rw [nul, Option.bind_eq_bind, Option.bind_some, if_pos (.inr rfl)]
  | cons c rest =>
    have separator : state.buffer[state.p]? = some c := read
    rw [separator, Option.bind_eq_bind, Option.bind_some, if_pos (.inl (ends c rfl))]

/-- What is squeezed out at the start of a field does not count as a turn. -/
theorem tokenizeLoop_squeeze {state' : Scan} (squeezes : squeeze state = some state')
    (kept : squeeze state' = some state') (fuel : Nat) :
    tokenizeLoop ch fuel state = tokenizeLoop ch fuel state' := by
  cases fuel with
  | zero => rfl
  | succ fuel =>
    have same : turn ch state = turn ch state' := by
      rw [turn, turn, squeezes, kept]
    rw [tokenizeLoop, tokenizeLoop, same]

theorem tokenizeLoop_outcome (holds : Holds state out [] text behind) (clean : 0 ∉ text)
    {fuel : Nat} (enough : text.length < fuel) :
    ∃ left, tokenizeLoop ch fuel state = some
      ⟨out ++ ((outcome ch text).1 ++ left), out.length + (outcome ch text).1.length,
        state.numFields + (outcome ch text).2⟩ := by
  induction length : text.length using Nat.strongRecOn generalizing state out text behind fuel with
  | _ n ih =>
  subst length
  obtain ⟨state₁, behind, squeezes, holds, same⟩ := squeeze_start holds clean
  have solid := squeezed_head text
  have suffix := squeezed_suffix text
  have clean' : 0 ∉ squeezed text := fun nul => clean (suffix.subset nul)
  have shorter := suffix.length_le
  have whole := List.takeWhile_append_dropWhile (p := (· ≠ ch)) (l := squeezed text)
  have lengths := congrArg List.length whole
  rw [List.length_append, ← field] at lengths
  obtain ⟨fuel, rfl⟩ : ∃ more, fuel = more + 1 + (field ch (squeezed text)).length :=
    ⟨fuel - 1 - (field ch (squeezed text)).length, by omega⟩
  obtain ⟨state₂, loops, holds', same'⟩ := tokenizeLoop_field holds solid clean' (fuel + 1)
  have clean'' : 0 ∉ (squeezed text).dropWhile (· ≠ ch) := fun nul =>
    clean' ((List.dropWhile_suffix _).subset nul)
  have separator : ∀ c ∈ ((squeezed text).dropWhile (· ≠ ch)).head?, c = ch := by
    intro c isHead
    have stops := List.head?_dropWhile_not (· ≠ ch) (squeezed text)
    rw [isHead] at stops
    simpa using stops
  have ended : turn ch state₂ = endField state₂ :=
    turn_end holds' (by rwa [List.nil_append, field, whole]) separator
  rw [tokenizeLoop_squeeze squeezes (squeeze_kept holds solid), loops, ← same, ← same']
  rw [List.nil_append] at holds'
  cases ends : (squeezed text).dropWhile (· ≠ ch) with
  | nil =>
    rw [ends] at holds'
    obtain ⟨left, done⟩ := endField_last holds'
    rw [tokenizeLoop_leave (ended.trans done), outcome_last ends]
    exact ⟨left, by simp [stripped, Nat.add_assoc]⟩
  | cons d rest =>
    obtain rfl : d = ch := separator d (by rw [ends]; rfl)
    rw [ends] at holds' clean''
    by_cases early : EndsEarly d text rest
    · obtain ⟨left, done⟩ := endField_early holds' clean'' early
      rw [tokenizeLoop_leave (ended.trans done), outcome_early ends early]
      exact ⟨left, by simp [stripped, Nat.add_assoc]⟩
    · obtain ⟨next, left, more, started, counted⟩ := endField_next holds' clean'' early
      rw [ends, List.length_cons] at lengths
      obtain ⟨left, later⟩ := ih rest.length (by omega) started
        (fun nul => clean'' (List.mem_cons_of_mem _ nul)) (by omega : rest.length < fuel) rfl
      rw [tokenizeLoop_next (ended.trans more), later, outcome_next ends early, counted]
      refine ⟨left, ?_⟩
      simp [stripped]
      omega

/-- The buffer afterwards, for every string. -/
theorem tokenize_outcome (clean : 0 ∉ text) (ch : UInt8) (behind : List UInt8) :
    ∃ left, tokenize (text ++ 0 :: behind) ch =
      some ⟨(outcome ch text).1 ++ left, (outcome ch text).1.length, (outcome ch text).2⟩ := by
  have started : Holds ⟨text ++ 0 :: behind, 0, 0, 0⟩ [] [] text behind := ⟨rfl, rfl, rfl⟩
  have enough : text.length < (text ++ 0 :: behind).length := by
    simp only [List.length_append, List.length_cons]
    omega
  obtain ⟨left, ran⟩ := tokenizeLoop_outcome started clean enough
  exact ⟨left, by simpa [tokenize] using ran⟩

end Busybox.Pwdgrp.Tokenize
