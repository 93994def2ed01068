import Busybox.Libbb.Decimal

/-!
# `shuf`

The lines are numbered by an `unsigned`, both when they are prepared and when they are shuffled
and printed. A pointer has eight bytes. The draws of `rand` are a parameter.
-/

namespace Busybox.Coreutils.Shuf

open Libbb.Xatonum (Text xatou xatou_unsignedText)
open Udhcp (unsignedText_digits)
open Udhcp.Optval (unsignedText)

/-- `unsigned` -/
def wrap (n : Nat) : Nat := n % 2 ^ 32

/-- A pointer to a text, or the number that `-i` puts in its place. -/
inductive Line
  | text (bytes : Text)
  | number (value : Nat)

/-- Nothing where the behaviour is undefined, and a message where it dies. -/
abbrev Result (α : Type) := ExceptT Text Option α

/-! ## Shuffling -/

section Shuffling

variable {α : Type} (randMax : Nat) (rand : Nat → Nat)

/-- The three assignments through `tmp`. -/
def exchange (lines : Array α) (i r : Nat) : Option (Array α) :=
  if inside : i < lines.size ∧ r < lines.size then some (lines.swap i r inside.1 inside.2)
  else none

/-- The loop over `i`; `drawn` values of `rand` were used. -/
def shuffleLoop : Nat → Nat → Array α → Option (Array α)
  | 0, _, lines => some lines
  | i + 1, drawn, lines => do
    -- "RAND_MAX can be as small as 32767"
    let (r, drawn) := if randMax < i + 1
      then (wrap (rand drawn) ^^^ wrap (rand (drawn + 1) <<< 15), drawn + 2)
      else (wrap (rand drawn), drawn + 1)
    shuffleLoop i drawn (← exchange lines (i + 1) (r % wrap (i + 2)))

def shuffleLines (lines : Array α) (numlines : Nat) : Option (Array α) :=
  shuffleLoop randMax rand (numlines - 1) 0 lines

end Shuffling

/-! ## The lines -/

/-- Where the lines come from. -/
inductive Source
  | args (argv : List Text)
  | range (optI : Text)
  | file (stream : List Text)

/-- The numbers of a range. -/
def fillRange : Nat → Nat → List Line
  | 0, _ => []
  | left + 1, lo => .number lo :: fillRange left (wrap (lo + 1))

/-- `xrealloc_vector(lines, 6, idx)`: the size of the block. It is computed in an `unsigned`, and
the cells behind the old ones are cleared whether or not they are in the block. -/
def xreallocVector (block idx : Nat) : Option Nat :=
  if idx % 64 = 0 then
    let size := wrap (8 * (idx + 65))
    if wrap (8 * idx) + 8 * 65 ≤ size then some size else none
  else some block

/-- The loop over the lines of a file, into a block of so many bytes. -/
def readLines (block : Nat) (lines : Array Line) : List Text → Option (Array Line)
  | [] => some lines
  | line :: stream => do
    let block ← xreallocVector block lines.size
    if 8 * (lines.size + 1) ≤ block then readLines block (lines.push (.text line)) stream
    else none

/-- `-i LO-HI` -/
def getRange (optI : Text) : Except Text (Nat × Nat) := do
  let bad := ascii "bad range '" ++ optI ++ ascii "'"
  if 45 ∉ optI then throw bad
  let lo ← (xatou (optI.takeWhile (· ≠ 45))).mapError (·.message)
  let hi ← (xatou ((optI.dropWhile (· ≠ 45)).drop 1)).mapError (·.message)
  if hi < lo then throw bad
  return (lo, hi)

/-- The lines and their number. -/
def prepare : Source → Result (Array Line × Nat)
  | .args argv => return ((argv.map Line.text).toArray, wrap argv.length)
  | .range optI => do
    let (lo, hi) ← ExceptT.mk (some (getRange optI))
    -- (hi+1) - lo
    let numlines := wrap (wrap (hi + 1) + 2 ^ 32 - lo)
    return ((fillRange numlines lo).toArray, numlines)
  | .file stream => do
    let lines ← ExceptT.lift (readLines 0 #[] stream)
    return (lines, wrap lines.size)

/-! ## The program -/

/-- `"%u%c"` and `"%s%c"` -/
def Line.printed : Line → Text
  | .text bytes => bytes
  | .number value => unsignedText value

def eolOf (zero : Bool) : UInt8 := if zero then 0 else 10

/-- The loop that prints. -/
def printLines (eol : UInt8) (lines : Array Line) : Nat → Nat → Option Text
  | 0, _ => some []
  | left + 1, i => do
    let line ← lines[i]?
    let rest ← printLines eol lines left (i + 1)
    return line.printed ++ eol :: rest

/-- "if (numlines != 0)" -/
def shuffleAny (randMax : Nat) (rand : Nat → Nat) (lines : Array Line) (numlines : Nat) :
    Result (Array Line) :=
  if numlines ≠ 0 then ExceptT.lift (shuffleLines randMax rand lines numlines) else pure lines

/-- "if (opts & OPT_n)" -/
def limitLines (numlines : Nat) : Option Text → Result Nat
  | none => pure numlines
  | some optN => do
    let maxlines ← ExceptT.mk (some ((xatou optN).mapError (·.message)))
    return if maxlines < numlines then maxlines else numlines

def shufMain (randMax : Nat) (rand : Nat → Nat) (source : Source) (optN : Option Text)
    (zero : Bool) : Result Text := do
  let (lines, numlines) ← prepare source
  let lines ← shuffleAny randMax rand lines numlines
  let numlines ← limitLines numlines optN
  ExceptT.lift (printLines (eolOf zero) lines numlines 0)

/-! ## What is asked for -/

/-- The inputs: arguments, of which there are no more than an `int` counts, a range of `unsigned`
numbers, or the lines of a file. -/
inductive Input
  | args (argv : List Text) (few : argv.length < 2 ^ 31)
  | range (lo hi : Nat) (ordered : lo ≤ hi) (word : hi < 2 ^ 32)
  | file (stream : List Text)

def Input.source : Input → Source
  | .args argv _ => .args argv
  | .range lo hi _ _ => .range (unsignedText lo ++ 45 :: unsignedText hi)
  | .file stream => .file stream

/-- The lines that are to be shuffled. -/
def Input.lines : Input → List Text
  | .args argv _ => argv
  | .range lo hi _ _ => (List.range' lo (hi + 1 - lo)).map unsignedText
  | .file stream => stream

/-- The number behind `-n`. -/
abbrev Limit := {n : Nat // n < 2 ^ 32}

/-- So many of the lines are printed, each at most once, and all of them without `-n`. -/
def Meets (randMax : Nat) (rand : Nat → Nat) (input : Input) (limit : Option Limit)
    (zero : Bool) : Prop :=
  ∃ printed : List Text,
    (shufMain randMax rand input.source (limit.map fun n => unsignedText n.1) zero).run =
      some (.ok (printed.flatMap fun line => line ++ [eolOf zero])) ∧
    printed.length = limit.elim input.lines.length (fun n => min n.1 input.lines.length) ∧
    List.Subperm printed input.lines ∧ (limit = none → List.Perm printed input.lines)

/-- The number of lines is none that the program takes for another. -/
def Input.Fits (limit : Option Limit) : Input → Prop
  | .args _ _ => True
  | .range lo hi _ _ => lo = 0 → hi = 2 ^ 32 - 1 → limit.map Subtype.val = some 0
  | .file stream => stream.length ≤ 2 ^ 29 - 64

theorem run_bind {α β : Type} {x : Result α} {a : α} (ended : x.run = some (.ok a))
    (f : α → Result β) : (x >>= f).run = (f a).run := by
  rw [ExceptT.run_bind, ended]
  rfl

/-! ## Each draw keeps the lines -/

section Shuffling

variable {α : Type} {randMax : Nat} {rand : Nat → Nat}

theorem exchange_perm {lines : Array α} {i r : Nat} (inside : i < lines.size) (below : r ≤ i) :
    ∃ lines', exchange lines i r = some lines' ∧ lines'.Perm lines ∧ lines'.size = lines.size := by
  have both : i < lines.size ∧ r < lines.size := ⟨inside, by omega⟩
  exact ⟨_, dif_pos both, Array.swap_perm both.1 both.2, Array.size_swap ..⟩

theorem shuffleLoop_perm {i : Nat} {lines : Array α} (inside : i ≤ lines.size - 1)
    (word : lines.size < 2 ^ 32) (drawn : Nat) :
    ∃ shuffled, shuffleLoop randMax rand i drawn lines = some shuffled ∧ shuffled.Perm lines := by
  induction i generalizing drawn lines with
  | zero => exact ⟨lines, rfl, .refl lines⟩
  | succ i ih =>
    have modulus : wrap (i + 2) = i + 2 := Nat.mod_eq_of_lt (by omega)
    have below (r : Nat) : r % wrap (i + 2) ≤ i + 1 := by
      rw [modulus]
      exact Nat.le_of_lt_succ (Nat.mod_lt r (by omega))
    rw [shuffleLoop]
    split
    case h_1 r drawn' _ =>
      obtain ⟨lines', swapped, perm, size⟩ :=
        exchange_perm (by omega : i + 1 < lines.size) (below r)
      obtain ⟨shuffled, rest, perm'⟩ := ih (by omega : i ≤ lines'.size - 1) (by omega) drawn'
      exact ⟨shuffled, by rw [swapped, Option.bind_eq_bind, Option.bind_some, rest],
        perm'.trans perm⟩

theorem shuffleLines_perm {lines : Array α} (word : lines.size < 2 ^ 32) :
    ∃ shuffled, shuffleLines randMax rand lines lines.size = some shuffled ∧
      shuffled.Perm lines :=
  shuffleLoop_perm (Nat.le_refl _) word 0

end Shuffling

/-! ## Printing -/

theorem printLines_eq (eol : UInt8) (lines : Array Line) {left i : Nat}
    (inside : i + left ≤ lines.size) :
    printLines eol lines left i = some
      (((lines.toList.drop i).take left).flatMap fun line => line.printed ++ [eol]) := by
  induction left generalizing i with
  | zero => rfl
  | succ left ih =>
    have here : i < lines.toList.length := by
      rw [Array.length_toList]
      omega
    have first : lines[i]? = some lines.toList[i] := by
      rw [← Array.getElem?_toList, List.getElem?_eq_getElem here]
    rw [printLines, first, Option.bind_eq_bind, Option.bind_some, ih (by omega),
      List.drop_eq_getElem_cons here, List.take_succ_cons, List.flatMap_cons]
    simp

theorem shuffleAny_perm {randMax : Nat} {rand : Nat → Nat} {lines : Array Line}
    (word : lines.size < 2 ^ 32) :
    ∃ shuffled, (shuffleAny randMax rand lines lines.size).run = some (.ok shuffled) ∧
      shuffled.Perm lines := by
  unfold shuffleAny
  split
  · obtain ⟨shuffled, looped, perm⟩ := shuffleLines_perm (word : lines.size < 2 ^ 32)
    exact ⟨shuffled, by rw [ExceptT.run_lift, looped]; rfl, perm⟩
  · exact ⟨lines, rfl, .refl lines⟩

theorem limitLines_eq (numlines : Nat) (limit : Option Limit) :
    (limitLines numlines (limit.map fun n => unsignedText n.1)).run =
      some (.ok (limit.elim numlines (fun n => min n.1 numlines))) := by
  cases limit with
  | none => rfl
  | some n =>
    have read : ((ExceptT.mk (some ((xatou (unsignedText n.1)).mapError (·.message)))) :
        Result Nat).run = some (.ok n.1) := by
      rw [xatou_unsignedText n.2]
      rfl
    have bounded : (if n.1 < numlines then n.1 else numlines) = min n.1 numlines := by
      split <;> omega
    rw [Option.map_some, limitLines, run_bind read, bounded]
    rfl

/-- What is printed of lines that are prepared and numbered. -/
theorem shufMain_prepared {randMax : Nat} {rand : Nat → Nat} {source : Source} {lines : Array Line}
    (word : lines.size < 2 ^ 32) (prepared : (prepare source).run = some (.ok (lines, lines.size)))
    (limit : Option Limit) (zero : Bool) :
    ∃ shuffled : List Line, shuffled.Perm lines.toList ∧
      (shufMain randMax rand source (limit.map fun n => unsignedText n.1) zero).run = some (.ok
        ((shuffled.take (limit.elim lines.size (fun n => min n.1 lines.size))).flatMap
          fun line => line.printed ++ [eolOf zero])) := by
  obtain ⟨shuffled, looped, perm⟩ := shuffleAny_perm (word : lines.size < 2 ^ 32)
  have size : shuffled.size = lines.size := perm.size_eq
  have few : limit.elim lines.size (fun n => min n.1 lines.size) ≤ shuffled.size := by
    cases limit <;> simp [size]
  refine ⟨shuffled.toList, perm.toList, ?_⟩
  rw [shufMain, run_bind prepared]
  simp only
  rw [run_bind looped, run_bind (limitLines_eq lines.size limit), ExceptT.run_lift,
    printLines_eq (eolOf zero) shuffled (by omega), List.drop_zero]
  rfl

/-- What is asked for is printed if the lines are prepared as they were meant. -/
theorem meets_of_prepared {randMax : Nat} {rand : Nat → Nat} {input : Input} {lines : Array Line}
    (word : lines.size < 2 ^ 32)
    (prepared : (prepare input.source).run = some (.ok (lines, lines.size)))
    (texts : lines.toList.map Line.printed = input.lines) (limit : Option Limit) (zero : Bool) :
    Meets randMax rand input limit zero := by
  obtain ⟨shuffled, perm, ran⟩ := shufMain_prepared word prepared limit zero
  have perm' : (shuffled.map Line.printed).Perm input.lines := texts ▸ perm.map Line.printed
  have size : lines.size = input.lines.length := by
    rw [← texts, List.length_map, Array.length_toList]
  refine ⟨(shuffled.map Line.printed).take
    (limit.elim input.lines.length (fun n => min n.1 input.lines.length)), ?_, ?_, ?_, ?_⟩
  · rw [ran, ← List.map_take, List.flatMap_map, size]
  · rw [List.length_take, perm'.length_eq]
    cases limit <;> simp
  · exact (List.take_sublist _ _).subperm.trans perm'.subperm
  · rintro rfl
    rw [Option.elim_none, ← perm'.length_eq, List.take_length]
    exact perm'

/-! ## Preparing -/

theorem fillRange_eq {left lo : Nat} (word : lo + left ≤ 2 ^ 32) :
    fillRange left lo = (List.range' lo left).map Line.number := by
  induction left generalizing lo with
  | zero => rfl
  | succ left ih =>
    rw [fillRange, List.range'_succ, List.map_cons]
    cases left with
    | zero => rfl
    | succ left =>
      have next : wrap (lo + 1) = lo + 1 := Nat.mod_eq_of_lt (by omega)
      rw [next, ih (by omega)]

theorem getRange_text {lo hi : Nat} (ordered : lo ≤ hi) (word : hi < 2 ^ 32) :
    getRange (unsignedText lo ++ 45 :: unsignedText hi) = .ok (lo, hi) := by
  have digits : ∀ c ∈ unsignedText lo, decide (c ≠ 45) = true := by
    intro c mem
    have digit := unsignedText_digits lo c mem
    refine decide_eq_true ?_
    rintro rfl
    exact absurd digit.1 (by decide)
  have front : (unsignedText lo ++ 45 :: unsignedText hi).takeWhile (· ≠ 45) = unsignedText lo := by
    rw [List.takeWhile_append_of_pos digits]
    simp
  have back : ((unsignedText lo ++ 45 :: unsignedText hi).dropWhile (· ≠ 45)).drop 1 =
      unsignedText hi := by
    rw [List.dropWhile_append_of_pos digits]
    simp
  have dash : ¬45 ∉ unsignedText lo ++ 45 :: unsignedText hi := not_not.mpr (by simp)
  simp only [getRange, if_neg dash, front, back, xatou_unsignedText word,
    xatou_unsignedText (Nat.lt_of_le_of_lt ordered word)]
  exact if_neg (not_lt.mpr ordered)

/-- The block has room for the lines that were read, and for one more. -/
def blockOf (count : Nat) : Nat := if count = 0 then 0 else 8 * (64 * ((count - 1) / 64) + 65)

/-- The block grows until its size is no `unsigned` number. -/
theorem xreallocVector_blockOf {count : Nat} (few : count ≤ 2 ^ 29 - 64) :
    xreallocVector (blockOf count) count =
      if count < 2 ^ 29 - 64 then some (blockOf (count + 1)) else none := by
  unfold xreallocVector
  by_cases whole : count % 64 = 0
  · simp only [if_pos whole]
    by_cases more : count < 2 ^ 29 - 64
    · have size : wrap (8 * (count + 65)) = 8 * (count + 65) := Nat.mod_eq_of_lt (by omega)
      have offset : wrap (8 * count) = 8 * count := Nat.mod_eq_of_lt (by omega)
      rw [size, offset, if_pos (by omega), if_pos more, blockOf, if_neg (by omega)]
      refine congrArg some ?_
      omega
    · have last : count = 536870848 := by omega
      have small : ¬wrap (8 * 536870848) + 8 * 65 ≤ wrap (8 * (536870848 + 65)) := by decide
      rw [if_neg more, last, if_neg small]
  · have more : count < 2 ^ 29 - 64 := by omega
    rw [if_neg whole, if_pos more, blockOf, blockOf, if_neg (by omega), if_neg (by omega)]
    refine congrArg some ?_
    omega

/-- A file is read if it does not have too many lines. -/
theorem readLines_eq {stream : List Text} {lines : Array Line} (few : lines.size ≤ 2 ^ 29 - 64) :
    readLines (blockOf lines.size) lines stream =
      if lines.size + stream.length ≤ 2 ^ 29 - 64
      then some (lines ++ (stream.map Line.text).toArray) else none := by
  induction stream generalizing lines with
  | nil => rw [readLines, List.length_nil, Nat.add_zero, if_pos few]; simp
  | cons line stream ih =>
    rw [readLines, xreallocVector_blockOf few]
    by_cases more : lines.size < 2 ^ 29 - 64
    · have room : 8 * (lines.size + 1) ≤ blockOf (lines.size + 1) := by
        rw [blockOf, if_neg (by omega)]
        omega
      have size : (lines.push (.text line)).size = lines.size + 1 := Array.size_push ..
      rw [if_pos more, Option.bind_eq_bind, Option.bind_some, if_pos room, ← size,
        ih (by omega), size, List.length_cons, Nat.add_right_comm, Nat.add_assoc, List.map_cons]
      simp
    · rw [if_neg more, if_neg (by rw [List.length_cons]; omega)]
      rfl

/-! ## When the program does what is asked for -/

theorem prepare_range {lo hi : Nat} (ordered : lo ≤ hi) (word : hi < 2 ^ 32) :
    (prepare (.range (unsignedText lo ++ 45 :: unsignedText hi))).run = some (.ok
      ((fillRange (wrap (wrap (hi + 1) + 2 ^ 32 - lo)) lo).toArray,
        wrap (wrap (hi + 1) + 2 ^ 32 - lo))) := by
  have range : (ExceptT.mk (some (getRange (unsignedText lo ++ 45 :: unsignedText hi))) :
      Result (Nat × Nat)).run = some (.ok (lo, hi)) := by
    rw [getRange_text ordered word]
    rfl
  rw [prepare, run_bind range]
  rfl

/-- The whole range of `unsigned` is taken for an empty one. -/
theorem shufMain_whole {randMax : Nat} {rand : Nat → Nat} {limit : Option Limit} {zero : Bool}
    (ordered : 0 ≤ 2 ^ 32 - 1) (word : 2 ^ 32 - 1 < 2 ^ 32) :
    (shufMain randMax rand (Input.range 0 (2 ^ 32 - 1) ordered word).source
      (limit.map fun n => unsignedText n.1) zero).run = some (.ok []) := by
  have count : wrap (wrap (2 ^ 32 - 1 + 1) + 2 ^ 32 - 0) = 0 := by simp [wrap]
  have prepared := prepare_range ordered word
  rw [count] at prepared
  have few : (#[] : Array Line).size < 2 ^ 32 := by decide
  obtain ⟨shuffled, perm, ran⟩ := shufMain_prepared few prepared limit zero
  obtain rfl : shuffled = [] := perm.eq_nil
  rw [Input.source, ran, List.take_nil]
  rfl

theorem prepare_file (stream : List Text) :
    (prepare (.file stream)).run = if stream.length ≤ 2 ^ 29 - 64
      then some (.ok ((stream.map Line.text).toArray, stream.length)) else none := by
  have read : readLines (blockOf (#[] : Array Line).size) #[] stream = _ :=
    readLines_eq (Nat.zero_le _)
  have block : blockOf (#[] : Array Line).size = 0 := rfl
  rw [block, List.size_toArray, List.length_nil, Nat.zero_add] at read
  rw [prepare, ExceptT.run_bind, ExceptT.run_lift, read]
  split
  case isTrue few =>
    have count : wrap stream.length = stream.length := Nat.mod_eq_of_lt (by omega)
    simp [count]
  case isFalse => rfl

/-- The program prints what is asked for exactly if the number of lines is not taken for another:
the whole range of `unsigned` has none, and the lines of a file are written behind their block
where its size is no `unsigned` number. -/
theorem meets_iff (randMax : Nat) (rand : Nat → Nat) (input : Input) (limit : Option Limit)
    (zero : Bool) : Meets randMax rand input limit zero ↔ input.Fits limit := by
  constructor
  · intro meets
    obtain ⟨printed, ran, length, -, -⟩ := meets
    cases input with
    | args => trivial
    | range lo hi ordered word =>
      rintro rfl rfl
      rw [shufMain_whole ordered word] at ran
      have nothing : printed = [] := by
        cases printed with
        | nil => rfl
        | cons line rest => simp at ran
      rw [nothing, Input.lines, List.length_map, List.length_range', List.length_nil] at length
      cases limit with
      | none => cases length
      | some n =>
        rw [Option.elim_some] at length
        rw [Option.map_some]
        congr 1
        omega
    | file stream =>
      by_contra many
      have unprepared := (prepare_file stream).trans (if_neg many)
      have ran' : (shufMain randMax rand (.file stream)
        (limit.map fun n => unsignedText n.1) zero).run = none := by
        rw [shufMain, ExceptT.run_bind, unprepared]
        rfl
      cases ran.symm.trans ran'
  · intro fits
    cases input with
    | args argv few =>
      have size : (argv.map Line.text).toArray.size = argv.length := by simp
      have count : wrap argv.length = argv.length := Nat.mod_eq_of_lt (by omega)
      refine meets_of_prepared (by omega : (argv.map Line.text).toArray.size < 2 ^ 32) ?_ ?_
        limit zero
      · rw [size, Input.source, prepare, count]
        rfl
      · simp [Input.lines, Line.printed, Function.comp_def]
    | range lo hi ordered word =>
      by_cases whole : lo = 0 ∧ hi = 2 ^ 32 - 1
      · -- nothing is prepared, and nothing is asked for
        obtain ⟨rfl, rfl⟩ := whole
        obtain ⟨n, rfl, none⟩ := Option.map_eq_some_iff.mp (fits rfl rfl)
        refine ⟨[], shufMain_whole ordered word, ?_, List.nil_subperm, nofun⟩
        rw [Option.elim_some, none, Nat.zero_min]
        rfl
      · have count : wrap (wrap (hi + 1) + 2 ^ 32 - lo) = hi + 1 - lo := by
          unfold wrap
          omega
        have prepared := prepare_range ordered word
        rw [count, fillRange_eq (by omega)] at prepared
        have size : ((List.range' lo (hi + 1 - lo)).map Line.number).toArray.size =
          hi + 1 - lo := by simp
        refine meets_of_prepared (by omega :
          ((List.range' lo (hi + 1 - lo)).map Line.number).toArray.size < 2 ^ 32) ?_ ?_ limit zero
        · rw [size]
          exact prepared
        · simp [Input.lines, Line.printed, Function.comp_def]
    | file stream =>
      have size : (stream.map Line.text).toArray.size = stream.length := by simp
      have few : stream.length ≤ 2 ^ 29 - 64 := fits
      have prepared := (prepare_file stream).trans (if_pos few)
      refine meets_of_prepared (by omega : (stream.map Line.text).toArray.size < 2 ^ 32) ?_ ?_
        limit zero
      · rw [size]
        exact prepared
      · simp [Input.lines, Line.printed, Function.comp_def]

/-- Of the numbers from 0 to 4294967295 none is printed, though all of them are asked for. -/
theorem shuf_whole_fails :
    ¬∀ (randMax : Nat) (rand : Nat → Nat) (input : Input) (limit : Option Limit) (zero : Bool),
      Meets randMax rand input limit zero := by
  intro meets
  obtain ⟨printed, ran, length, -, -⟩ := meets (2 ^ 31 - 1) (fun _ => 0)
    (.range 0 (2 ^ 32 - 1) (Nat.zero_le _) (by decide)) none false
  rw [shufMain_whole] at ran
  cases printed with
  | nil => simp [Input.lines] at length
  | cons line rest => simp at ran

/-! ## Every order -/

section Orders

variable {α : Type} {randMax n i : Nat} {lines result : Array α}

/-- A turn for which one value of `rand` is enough. -/
theorem shuffleLoop_turn (few : n ≤ randMax + 1) (word : n < 2 ^ 32) (size : lines.size = n)
    (inside : i + 1 < n) (rand : Nat → Nat) (drawn : Nat) :
    ∃ below : wrap (rand drawn) % (i + 2) < lines.size,
      shuffleLoop randMax rand (i + 1) drawn lines = shuffleLoop randMax rand i (drawn + 1)
        (lines.swap (i + 1) (wrap (rand drawn) % (i + 2)) (size ▸ inside)) := by
  subst size
  have modulus : wrap (i + 2) = i + 2 := Nat.mod_eq_of_lt (by omega)
  have both : i + 1 < lines.size ∧ wrap (rand drawn) % (i + 2) < lines.size :=
    ⟨inside, (Nat.mod_lt _ (Nat.succ_pos _)).trans_le inside⟩
  refine ⟨both.2, ?_⟩
  rw [shuffleLoop, if_neg (by omega)]
  simp only [modulus, exchange, dif_pos both]
  rfl

/-- What is behind `i` stays there. -/
theorem shuffleLoop_behind (few : n ≤ randMax + 1) (word : n < 2 ^ 32) (size : lines.size = n)
    (inside : i < n) {rand : Nat → Nat} {drawn : Nat}
    (ended : shuffleLoop randMax rand i drawn lines = some result) {j : Nat} (behind : i < j) :
    result[j]? = lines[j]? := by
  induction i generalizing drawn lines with
  | zero =>
    cases ended
    rfl
  | succ i ih =>
    obtain ⟨below, turned⟩ := shuffleLoop_turn few word size inside rand drawn
    have r := Nat.mod_lt (wrap (rand drawn)) (show 0 < i + 2 by omega)
    rw [turned] at ended
    rw [ih (Array.size_swap.trans size) (by omega) ended (by omega), Array.getElem?_swap,
      if_neg (by omega), if_neg (by omega)]

/-- Where the line that is to be at `i` still is. -/
theorem exists_place (inside : i < lines.size) (distinct : lines.toList.Nodup)
    (perm : result.Perm lines) (behind : ∀ j > i, result[j]? = lines[j]?) :
    ∃ p ≤ i, result[i]? = lines[p]? := by
  have bound : i < result.size := perm.size_eq ▸ inside
  obtain ⟨p, within, found⟩ := Array.getElem_of_mem (perm.mem_iff.mp (Array.getElem_mem bound))
  have here : result[i]? = lines[p]? := by
    rw [Array.getElem?_eq_getElem bound, Array.getElem?_eq_getElem within, found]
  refine ⟨p, Nat.not_lt.mp fun late => ?_, here⟩
  rw [← behind p late] at here
  exact absurd ((List.getElem?_inj bound (perm.toList.nodup_iff.mpr distinct)).mp
    (by simpa using here)) (Nat.ne_of_lt late)

/-- An order comes out for exactly one sequence of remainders. -/
theorem shuffleLoop_iff (few : n ≤ randMax + 1) (word : n < 2 ^ 32) (size : lines.size = n)
    (inside : i < n) (distinct : lines.toList.Nodup) (perm : result.Perm lines)
    (behind : ∀ j > i, result[j]? = lines[j]?) (drawn : Nat) :
    ∃ draws : Nat → Nat, (∀ k < i, draws k < i + 1 - k) ∧ ∀ rand,
      shuffleLoop randMax rand i drawn lines = some result ↔
        ∀ k < i, wrap (rand (drawn + k)) % (i + 1 - k) = draws k := by
  induction i generalizing drawn lines with
  | zero =>
    obtain ⟨p, most, place⟩ := exists_place (size ▸ inside) distinct perm behind
    have same : result = lines := by
      refine Array.ext_getElem? fun j => ?_
      cases j with
      | zero => rw [place, Nat.le_zero.mp most]
      | succ j => exact behind _ (Nat.succ_pos j)
    exact ⟨id, by simp, fun rand => by simp [shuffleLoop, same]⟩
  | succ i ih =>
    obtain ⟨p, most, place⟩ := exists_place (size ▸ inside) distinct perm behind
    have within : p < lines.size := by omega
    have perm' := lines.swap_perm (size ▸ inside) within
    have behind' (j : Nat) (late : j > i) : result[j]? = (lines.swap (i + 1) p)[j]? := by
      rw [Array.getElem?_swap]
      by_cases here : i + 1 = j
      · subst here
        by_cases stays : p = i + 1
        · simp [place, stays]
        · simp [place, stays, within]
      · rw [if_neg (by omega), if_neg here, behind j (by omega)]
    obtain ⟨draws, bounds, only⟩ := ih (Array.size_swap.trans size) (by omega)
      (perm'.toList.nodup_iff.mpr distinct) (perm.trans perm'.symm) behind' (drawn + 1)
    refine ⟨fun k => k.casesOn p draws, Nat.forall_lt_succ_left.mpr ⟨Nat.lt_succ_of_le most,
      fun k below => by simpa using bounds k below⟩, fun rand => ?_⟩
    obtain ⟨below, turned⟩ := shuffleLoop_turn few word size inside rand drawn
    rw [turned, Nat.forall_lt_succ_left]
    by_cases same : wrap (rand drawn) % (i + 2) = p
    · simp [same, only, Nat.add_assoc, Nat.add_comm 1]
    · -- another line was put where `p` belongs, and stays there
      refine ⟨fun ended => absurd ?_ same, fun draw => absurd draw.1 same⟩
      have moved : lines[p]? = lines[wrap (rand drawn) % (i + 2)]? := by
        rw [← place, shuffleLoop_behind few word (Array.size_swap.trans size) (by omega) ended
          i.lt_succ_self, Array.getElem?_swap, if_pos rfl, Array.getElem?_eq_getElem below]
        exact ite_eq_right_iff.mpr fun stays => by simp only [stays]
      exact ((List.getElem?_inj within distinct).mp (by simpa using moved)).symm

/-- Every order of distinct lines comes out, and each for one sequence of remainders. -/
theorem shuffleLines_fair (positive : 0 < lines.size) (few : lines.size ≤ randMax + 1)
    (word : lines.size < 2 ^ 32) (distinct : lines.toList.Nodup) (perm : result.Perm lines) :
    ∃ draws : Nat → Nat, (∀ k < lines.size - 1, draws k < lines.size - k) ∧ ∀ rand,
      shuffleLines randMax rand lines lines.size = some result ↔
        ∀ k < lines.size - 1, wrap (rand k) % (lines.size - k) = draws k := by
  have ends (j : Nat) (late : j > lines.size - 1) : result[j]? = lines[j]? := by
    have size := perm.size_eq
    rw [Array.getElem?_eq_none (by omega), Array.getElem?_eq_none (by omega)]
  have orders := shuffleLoop_iff few word rfl (by omega) distinct perm ends 0
  simpa only [Nat.zero_add, Nat.sub_add_cancel positive, shuffleLines] using orders

theorem shuffleLines_fair_pair : ∃ draws : Nat → Nat, (∀ k < 1, draws k < 2 - k) ∧ ∀ rand,
    shuffleLines 32767 rand #[0, 1] 2 = some #[1, 0] ↔
      ∀ k < 1, wrap (rand k) % (2 - k) = draws k :=
  @shuffleLines_fair Nat 32767 #[0, 1] #[1, 0] (by decide) (by decide) (by decide) (by decide)
    (Array.perm_iff_toList_perm.mpr (by decide))

end Orders

end Busybox.Coreutils.Shuf
