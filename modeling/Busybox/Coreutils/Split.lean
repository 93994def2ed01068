import Busybox.Lib.Fallible
import Busybox.Lib.Pieces

/-!
# The names of `split`

`next_file` in `coreutils/split.c` counts up the letters at the end of a name in place.
-/

namespace Busybox.Coreutils.SplitNames

/-- A file name. -/
abbrev Name := List UInt8

/-- `*curr < 'z'`, where a character is signed. -/
def beforeZ (c : UInt8) : Bool := 128 ≤ c || c < 122

/-- A character is written into a name, which ends there if it is a NUL. -/
def store (old : Name) (place : Nat) (c : UInt8) : Name :=
  if c = 0 then old.take place else old.set place c

/-- The loop from the `i`-th character from the end on. The first `none` stands for a character
outside of the name, the second for NULL. -/
def nextFileFrom (suffixLen i : Nat) (old : Name) : Option (Option Name) :=
  if i ≤ old.length then
    match old[old.length - i]? with
    | none => none
    | some c =>
      if beforeZ c then some (some (store old (old.length - i) (c + 1)))
      else if suffixLen < i + 1 then some none
      else nextFileFrom suffixLen (i + 1) (old.set (old.length - i) 97)
  else none
termination_by suffixLen - i

/-- `next_file` -/
def nextFile (old : Name) (suffixLen : Nat) : Option (Option Name) := nextFileFrom suffixLen 1 old

/-- A number in so many letters, `a` for nothing. -/
def letters : Nat → Nat → Name
  | 0, _ => []
  | width + 1, n => letters width (n / 26) ++ [97 + UInt8.ofNat (n % 26)]

variable {front : Name} {width n k : Nat}

@[simp] theorem length_letters (width n : Nat) : (letters width n).length = width := by
  induction width generalizing n with
  | zero => rfl
  | succ width ih => simp [letters, ih]

theorem nextFileFrom_cell {suffixLen : Nat} (front : Name) (c : UInt8) (back : Name)
    {i : Nat} (place : i = back.length + 1) :
    nextFileFrom suffixLen i (front ++ c :: back) =
      if beforeZ c then some (some (if c + 1 = 0 then front else front ++ (c + 1) :: back))
      else if suffixLen < i + 1 then some none
      else nextFileFrom suffixLen (i + 1) (front ++ 97 :: back) := by
  subst place
  have inside : back.length + 1 ≤ (front ++ c :: back).length := by simp
  have index : (front ++ c :: back).length - (back.length + 1) = front.length := by simp
  have cell : (front ++ c :: back)[front.length]? = some c := by simp
  rw [nextFileFrom, if_pos inside, index, cell]
  simp [store]

/-- A letter is counted up as a digit is. -/
theorem letter_next (d : Nat) (digit : d < 26) :
    beforeZ (97 + UInt8.ofNat d) = decide (d < 25) ∧
      (97 + UInt8.ofNat d) + 1 = 97 + UInt8.ofNat (d + 1) ∧ 97 + UInt8.ofNat (d + 1) ≠ 0 := by
  have all : ∀ d : Fin 26, beforeZ (97 + UInt8.ofNat d) = decide (d.val < 25) ∧
      (97 + UInt8.ofNat d) + 1 = 97 + UInt8.ofNat (d + 1) ∧ 97 + UInt8.ofNat (d + 1) ≠ 0 := by
    decide
  exact all ⟨d, digit⟩

theorem letters_succ (width : Nat) (below : n % 26 < 25) :
    letters (width + 1) (n + 1) = letters width (n / 26) ++ [97 + UInt8.ofNat (n % 26 + 1)] := by
  have quotient : (n + 1) / 26 = n / 26 := by omega
  have digit : (n + 1) % 26 = n % 26 + 1 := by omega
  rw [letters, quotient, digit]

theorem letters_carry (width : Nat) (last : n % 26 = 25) :
    letters (width + 1) (n + 1) = letters width (n / 26 + 1) ++ [97] := by
  have quotient : (n + 1) / 26 = n / 26 + 1 := by omega
  have digit : (n + 1) % 26 = 0 := by omega
  rw [letters, quotient, digit]
  rfl

/-- The letters in front of some that went back to `a` are counted up, unless they are used up. -/
theorem nextFileFrom_letters (front : Name) (width n k : Nat) (used : n < 26 ^ (width + 1)) :
    nextFileFrom (width + 1 + k) (k + 1)
        (front ++ (letters (width + 1) n ++ List.replicate k 97)) =
      some (if n + 1 < 26 ^ (width + 1) then
        some (front ++ (letters (width + 1) (n + 1) ++ List.replicate k 97)) else none) := by
  have digit : n % 26 < 26 := Nat.mod_lt n (by decide)
  have place : k + 1 = (List.replicate k (97 : UInt8)).length + 1 := by rw [List.length_replicate]
  have power : 26 ^ (width + 1) = 26 ^ width * 26 := Nat.pow_succ 26 width
  have whole : front ++ (letters (width + 1) n ++ List.replicate k 97) =
      (front ++ letters width (n / 26)) ++ (97 + UInt8.ofNat (n % 26)) :: List.replicate k 97 := by
    rw [letters]
    simp
  obtain ⟨before, next, written⟩ := letter_next (n % 26) digit
  rw [whole, nextFileFrom_cell _ _ _ place, before, next, if_neg written]
  by_cases below : n % 26 < 25
  · have more : n + 1 < 26 ^ (width + 1) := by omega
    rw [if_pos (decide_eq_true below), if_pos more, letters_succ width below]
    simp
  · have last : n % 26 = 25 := by omega
    rw [if_neg (by simp [below])]
    cases width with
    | zero =>
      have full : ¬n + 1 < 26 ^ (0 + 1) := by omega
      rw [if_pos (by omega), if_neg full]
    | succ width =>
      have used' : n / 26 < 26 ^ (width + 1) := by omega
      have carried := nextFileFrom_letters front width (n / 26) (k + 1) used'
      have length : width + 1 + (k + 1) = width + 1 + 1 + k := by omega
      rw [length, List.replicate_succ] at carried
      rw [if_neg (by omega), List.append_assoc, carried, letters_carry _ last]
      have same : n / 26 + 1 < 26 ^ (width + 1) ↔ n + 1 < 26 ^ (width + 1 + 1) := by omega
      simp only [same]
      simp

/-- The next name has the next letters behind the prefix. -/
theorem nextFile_letters (front : Name) (width n : Nat) (used : n < 26 ^ (width + 1)) :
    nextFile (front ++ letters (width + 1) n) (width + 1) =
      some (if n + 1 < 26 ^ (width + 1) then some (front ++ letters (width + 1) (n + 1))
        else none) := by
  have next := nextFileFrom_letters front width n 0 used
  simpa [nextFile] using next

/-- Without letters the last character of the prefix itself is counted up. -/
theorem nextFile_none (front : Name) (c : UInt8) :
    nextFile (front ++ [c]) 0 =
      some (if beforeZ c then some (if c + 1 = 0 then front else front ++ [c + 1]) else none) := by
  have place : 1 = ([] : Name).length + 1 := rfl
  rw [nextFile, nextFileFrom_cell front c [] place]
  split <;> rfl

theorem nextFile_ne_nil {name : Name} (nonempty : name ≠ []) :
    ∃ after, nextFile name 0 = some after := by
  obtain ⟨front, c, rfl⟩ := (List.eq_nil_or_concat name).resolve_left nonempty
  rw [List.concat_eq_append]
  exact ⟨_, nextFile_none front c⟩

/-! ## The order of the names -/

theorem letters_zero (width : Nat) : letters width 0 = List.replicate width 97 := by
  induction width with
  | zero => rfl
  | succ width ih => rw [letters, Nat.zero_div, ih, List.replicate_succ']; rfl

theorem letters_range (width n : Nat) : ∀ c ∈ letters width n, 97 ≤ c ∧ c ≤ 122 := by
  have all : ∀ d : Fin 26, (97 : UInt8) ≤ 97 + UInt8.ofNat d ∧ 97 + UInt8.ofNat d ≤ 122 := by
    decide
  induction width generalizing n with
  | zero => exact nofun
  | succ width ih =>
    intro c mem
    rcases List.mem_append.mp mem with older | last
    · exact ih _ c older
    · rw [List.mem_singleton.mp last]
      exact all ⟨n % 26, Nat.mod_lt n (by decide)⟩

theorem append_lt {a b : Name} (less : a < b) (same : a.length = b.length) (x y : Name) :
    a ++ x < b ++ y := by
  induction a generalizing b with
  | nil =>
    cases b with
    | nil => exact absurd less (List.not_lt_nil [])
    | cons => cases same
  | cons c a ih =>
    cases b with
    | nil => cases same
    | cons d b =>
      rw [List.cons_append, List.cons_append, List.cons_lt_cons_iff]
      exact (List.cons_lt_cons_iff.mp less).imp_right fun ⟨equal, later⟩ =>
        ⟨equal, ih later (Nat.succ.inj same)⟩

/-- Later names come behind in the order of the alphabet. -/
theorem letters_lt {m : Nat} (less : m < n) (used : n < 26 ^ width) :
    letters width m < letters width n := by
  have digits : ∀ d e : Fin 26, d < e → 97 + UInt8.ofNat d < 97 + UInt8.ofNat e := by
    decide
  induction width generalizing m n with
  | zero =>
    rw [Nat.pow_zero] at used
    omega
  | succ width ih =>
    have power : 26 ^ (width + 1) = 26 ^ width * 26 := Nat.pow_succ 26 width
    rw [letters, letters]
    by_cases earlier : m / 26 < n / 26
    · exact append_lt (ih earlier (by omega)) (by simp) _ _
    · have equal : m / 26 = n / 26 := by omega
      have digit : m % 26 < n % 26 := by omega
      rw [equal]
      refine List.append_left_lt (List.cons_lt_cons_iff.mpr (.inl ?_))
      exact digits ⟨m % 26, Nat.mod_lt m (by decide)⟩ ⟨n % 26, Nat.mod_lt n (by decide)⟩ digit

end Busybox.Coreutils.SplitNames

/-!
## `split`

`split_main` in `coreutils/split.c` reads its input in parts and opens the next file when nothing
remains of the piece before. The count that remains is carried over from one read to the next.
-/

namespace Busybox.Coreutils.Split

open SplitNames Portions

/-- What is asked for on the command line: the size of the pieces in bytes or in lines, the length
of the suffix, and the prefix. -/
structure Command where
  byBytes : Bool
  count : UInt64
  suffixLen : Nat
  sfx : Name

/-- `off_t cnt`: an unsigned count that is too large is negative. -/
def Command.cnt (command : Command) : Int :=
  if command.count.toNat < 2 ^ 63 then command.count.toNat else command.count.toNat - 2 ^ 64

theorem Command.cnt_ne_zero {command : Command} (positive : command.count ≠ 0) :
    command.cnt ≠ 0 := by
  have notZero : command.count.toNat ≠ 0 := fun zero =>
    positive (UInt64.toNat_inj.mp zero)
  have small := UInt64.toNat_lt command.count
  unfold cnt
  split <;> omega

/-- The longest name of a file. -/
def nameMax : Nat := 255

/-- A file that was created, with what was written to it. -/
structure File where
  name : Name
  content : List UInt8
  deriving DecidableEq

/-- The variables of the loop, the files that were created, the newest first, and what went to the
standard output that the first file takes the place of. -/
structure State where
  remaining : Int
  pfx : Option Name
  opened : List File
  stdout : List UInt8

/-- Why the program ends before its input does. -/
inductive Stop
  | suffixTooLong
  | suffixesExhausted
  | cannotOpen
  | badAddress
  deriving DecidableEq

/-- The state in which the program has ended. -/
structure Halted where
  why : Stop
  state : State

/-- `xwrite(STDOUT_FILENO, src, to_write)` -/
def State.write (state : State) (bytes : List UInt8) : State :=
  match state.opened with
  | [] => { state with stdout := state.stdout ++ bytes }
  | file :: older =>
    { state with opened := { file with content := file.content ++ bytes } :: older }

variable (command : Command)

/-- The branch for the next file. A file without a name cannot be opened. -/
def openNext (state : State) : Except Halted State :=
  match state.pfx with
  | none => .error ⟨.suffixesExhausted, state⟩
  | some name =>
    if name = [] then .error ⟨.cannotOpen, state⟩
    else
      let state := { state with opened := ⟨name, []⟩ :: state.opened }
      match nextFile name command.suffixLen with
      | none => .error ⟨.badAddress, state⟩
      | some pfx => .ok { state with pfx, remaining := command.cnt }

/-- `if (!remaining)` -/
def ready (state : State) : Except Halted State :=
  if state.remaining = 0 then openNext command state else .ok state

/-- `(bytes_read < remaining) ? bytes_read : remaining` -/
def toWrite (bytesRead : Nat) (remaining : Int) : Int :=
  if (bytesRead : Int) < remaining then bytesRead else remaining

/-- The branch that splits by bytes: the state afterwards, and what is left of the bytes that were
read. A negative length to write is a very large one. -/
def byBytes (state : State) (src : List UInt8) : Except Halted (State × List UInt8) :=
  let length := toWrite src.length state.remaining
  let state := { state with remaining := state.remaining - length }
  if length < 0 then .error ⟨.badAddress, state⟩
  else .ok (state.write (src.take length.toNat), src.drop length.toNat)

/-- The branch that splits by lines. -/
def byLines (state : State) (src : List UInt8) : State × List UInt8 :=
  match src.idxOf? 10 with
  | some place =>
    let state := { state with remaining := state.remaining - 1 }
    (state.write (src.take (place + 1)), src.drop (place + 1))
  | none => (state.write src, [])

/-- The body of the inner loop. -/
def part (state : State) (src : List UInt8) : Except Halted (State × List UInt8) := do
  let state ← ready command state
  if command.byBytes then byBytes state src else return byLines state src

theorem openNext_ok {state state' : State} (opens : openNext command state = .ok state') :
    state'.remaining = command.cnt := by
  unfold openNext at opens
  split at opens
  · cases opens
  split at opens
  · cases opens
  simp only at opens
  split at opens
  · cases opens
  · cases opens
    rfl

theorem ready_ok {state state' : State} (positive : command.count ≠ 0)
    (isReady : ready command state = .ok state') : state'.remaining ≠ 0 := by
  unfold ready at isReady
  split at isReady
  · rw [openNext_ok command isReady]
    exact Command.cnt_ne_zero positive
  case isFalse remains =>
    cases isReady
    exact remains

theorem byBytes_shorter {state state' : State} {src rest : List UInt8}
    (remains : state.remaining ≠ 0) (wrote : byBytes state src = .ok (state', rest))
    (more : rest ≠ []) : rest.length < src.length := by
  unfold byBytes toWrite at wrote
  simp only at wrote
  generalize length : (if (src.length : Int) < state.remaining then (src.length : Int)
    else state.remaining) = write at wrote
  split at wrote
  · cases wrote
  · cases wrote
    have nonempty := List.length_pos_iff.mpr more
    rw [List.length_drop] at nonempty ⊢
    split at length <;> omega

theorem byLines_shorter {state : State} {src : List UInt8} (more : (byLines state src).2 ≠ []) :
    (byLines state src).2.length < src.length := by
  unfold byLines at more ⊢
  cases found : src.idxOf? 10 with
  | none =>
    simp only [found] at more
    exact absurd rfl more
  | some place =>
    simp only [found] at more ⊢
    have nonempty := List.length_pos_iff.mpr more
    rw [List.length_drop] at nonempty ⊢
    omega

theorem part_shorter {state state' : State} {src rest : List UInt8}
    (positive : command.count ≠ 0) (wrote : part command state src = .ok (state', rest))
    (more : rest ≠ []) : rest.length < src.length := by
  obtain ⟨opened, isReady, wrote⟩ := Fallible.bind_eq_ok.mp wrote
  have remains := ready_ok command positive isReady
  split at wrote
  · exact byBytes_shorter remains wrote more
  · have same : byLines opened src = (state', rest) := Except.ok.inj wrote
    have shorter := @byLines_shorter opened src
    rw [same] at shorter
    exact shorter more

/-- The inner loop, for a piece size that is not zero. -/
def parts (positive : command.count ≠ 0) (state : State) (src : List UInt8) :
    Except Halted State :=
  match _wrote : part command state src with
  | .error halted => .error halted
  | .ok (state', rest) => if _more : rest = [] then .ok state' else parts positive state' rest
termination_by src.length
decreasing_by exact part_shorter command positive _wrote _more

/-- The input comes in the parts that are read, none of them empty. -/
def splitMain (positive : command.count ≠ 0) (reads : List (List UInt8)) :
    Except Halted State :=
  let state : State := ⟨0, some (command.sfx ++ List.replicate command.suffixLen 97), [], []⟩
  if nameMax < command.sfx.length + command.suffixLen then .error ⟨.suffixTooLong, state⟩
  else reads.foldlM (parts command positive) state

/-! ## One byte after the other -/

/-- What a byte counts towards the size of a piece. -/
def weight (c : UInt8) : Nat := if command.byBytes ∨ c = 10 then 1 else 0

/-- The loop, if the bytes were read one at a time. -/
def byteStep (state : State) (c : UInt8) : Except Halted State := do
  let state ← ready command state
  return { state with remaining := state.remaining - weight command c }.write [c]

variable {command} {state state' : State} {c : UInt8} {piece src : List UInt8}

@[simp] theorem write_remaining (state : State) (bytes : List UInt8) :
    (state.write bytes).remaining = state.remaining := by
  unfold State.write
  split <;> rfl

theorem write_append (state : State) (front back : List UInt8) :
    (state.write front).write back = state.write (front ++ back) := by
  unfold State.write
  cases state.opened with
  | nil => simp
  | cons file older => simp

theorem write_nil (state : State) : state.write [] = state := by
  obtain ⟨remaining, pfx, opened, stdout⟩ := state
  cases opened <;> simp [State.write]

theorem write_counted (state : State) (bytes : List UInt8) (k : Int) :
    { state.write bytes with remaining := k } = { state with remaining := k }.write bytes := by
  unfold State.write
  cases state.opened <;> rfl

theorem ready_of_remaining (remains : state.remaining ≠ 0) : ready command state = .ok state :=
  if_neg remains

theorem byteStep_remaining (remains : state.remaining ≠ 0) (c : UInt8) :
    byteStep command state c =
      .ok ({ state with remaining := state.remaining - weight command c }.write [c]) := by
  rw [byteStep, ready_of_remaining remains]
  rfl

/-- Bytes that fit into a piece are written one after the other. -/
theorem foldlM_byteStep (piece : List UInt8) {state : State}
    (fits : load (weight command) piece.dropLast < state.remaining) :
    piece.foldlM (byteStep command) state =
      .ok ({ state with remaining := state.remaining - load (weight command) piece }.write
        piece) := by
  induction piece using List.reverseRecOn with
  | nil => simp [write_nil, pure, Except.pure]
  | append_singleton piece c ih =>
    rw [List.dropLast_concat] at fits
    have earlier : load (weight command) piece.dropLast < state.remaining := by
      have fewer := @load_dropLast_le _ (weight command) piece
      omega
    have remains' : ({ state with remaining := state.remaining - load (weight command) piece }.write
        piece).remaining ≠ 0 := by
      rw [write_remaining]
      simp only
      omega
    rw [List.foldlM_append, ih earlier, Fallible.ok_bind, List.foldlM_cons,
      byteStep_remaining remains', Fallible.ok_bind, write_remaining, write_counted, write_append,
      load_append, load_singleton, Int.natCast_add, Int.sub_sub]
    rfl

theorem load_bytes (byBytes : command.byBytes = true) (piece : List UInt8) :
    load (weight command) piece = piece.length := by
  induction piece with
  | nil => rfl
  | cons c piece ih =>
    rw [← List.singleton_append, load_append, ih, load_singleton, weight, if_pos (.inl byBytes),
      List.length_append, List.length_singleton]

theorem load_lines (byLines : command.byBytes = false) (piece : List UInt8) :
    load (weight command) piece = piece.count 10 := by
  induction piece with
  | nil => rfl
  | cons c piece ih =>
    rw [← List.singleton_append, load_append, ih, load_singleton, weight, List.count_append]
    simp [byLines, List.count_singleton]

/-- Of what was written nothing is written again, and the count goes on from there. -/
def Writes (command : Command) (state : State) (src : List UInt8) (after : State × List UInt8) :
    Prop :=
  ∃ piece, piece ≠ [] ∧ src = piece ++ after.2 ∧
    piece.foldlM (byteStep command) state = .ok after.1 ∧ 0 ≤ after.1.remaining

theorem byBytes_writes (isBytes : command.byBytes = true) (remains : 0 < state.remaining)
    (nonempty : src ≠ []) :
    ∃ after, byBytes state src = .ok after ∧ Writes command state src after := by
  have long : 0 ≤ toWrite src.length state.remaining := by
    unfold toWrite
    split <;> omega
  have atLeast := List.length_pos_iff.mpr nonempty
  have fits : (toWrite src.length state.remaining).toNat ≤ src.length ∧
      0 < (toWrite src.length state.remaining).toNat ∧
      (toWrite src.length state.remaining).toNat ≤ state.remaining := by
    unfold toWrite
    split <;> omega
  obtain ⟨length, isLength⟩ := Int.eq_ofNat_of_zero_le long
  rw [isLength, Int.toNat_natCast] at fits
  have size : (src.take length).length = length := by
    rw [List.length_take]
    omega
  have wrote : byBytes state src = .ok
      ({ state with remaining := state.remaining - length }.write (src.take length),
        src.drop length) := by
    unfold byBytes
    simp only [isLength, Int.toNat_natCast]
    exact if_neg (by omega)
  refine ⟨_, wrote, src.take length, ?_, (List.take_append_drop length src).symm, ?_, ?_⟩
  · rw [ne_eq, ← List.length_eq_zero_iff, size]
    omega
  · rw [foldlM_byteStep, load_bytes isBytes, size]
    rw [load_bytes isBytes, List.length_dropLast, size]
    omega
  · rw [write_remaining]
    simp only
    omega

/-- The bytes up to the first newline. -/
theorem take_line {place : Nat} (found : src.idxOf? 10 = some place) :
    src.take (place + 1) = src.take place ++ [10] ∧ 10 ∉ src.take place := by
  obtain ⟨inside, isLine, first⟩ := List.idxOf?_eq_some_iff.mp found
  refine ⟨by rw [List.take_succ_eq_append_getElem inside, isLine], fun mem => ?_⟩
  obtain ⟨j, short, here⟩ := List.mem_iff_getElem.mp mem
  rw [List.length_take] at short
  rw [List.getElem_take] at here
  exact first j (by omega) here

theorem byLines_writes (isLines : command.byBytes = false) (remains : 0 < state.remaining)
    (nonempty : src ≠ []) : Writes command state src (byLines state src) := by
  unfold byLines
  cases found : src.idxOf? 10 with
  | none =>
    have noLine : 10 ∉ src := List.idxOf?_eq_none_iff.mp found
    have nothing : load (weight command) src = 0 := by
      rw [load_lines isLines, List.count_eq_zero]
      exact noLine
    refine ⟨src, nonempty, by simp, ?_, by simp only [write_remaining]; omega⟩
    rw [foldlM_byteStep, nothing, Int.natCast_zero, Int.sub_zero]
    have fewer := @load_dropLast_le _ (weight command) src
    omega
  | some place =>
    obtain ⟨line, inside⟩ := take_line found
    have nothing : load (weight command) (src.take place) = 0 := by
      rw [load_lines isLines, List.count_eq_zero]
      exact inside
    have one : load (weight command) (src.take (place + 1)) = 1 := by
      rw [line, load_append, nothing, load_singleton, weight, if_pos (.inr rfl)]
    refine ⟨src.take (place + 1), by simp [line], (List.take_append_drop _ src).symm, ?_, ?_⟩
    · rw [foldlM_byteStep, one]
      · rfl
      · rw [line, List.dropLast_concat, nothing]
        exact remains
    · simp only [write_remaining]
      omega

theorem byteStep_error {halted : Halted} (stops : ready command state = .error halted) (c : UInt8) :
    byteStep command state c = .error halted := by
  rw [byteStep, stops, Fallible.error_bind]

theorem byteStep_ready {opened : State} (isReady : ready command state = .ok opened)
    (remains : opened.remaining ≠ 0) (c : UInt8) :
    byteStep command state c = byteStep command opened c := by
  rw [byteStep, byteStep, isReady, ready_of_remaining remains]

theorem ready_positive {opened : State} (positive : 0 < command.cnt)
    (remains : 0 ≤ state.remaining) (isReady : ready command state = .ok opened) :
    0 < opened.remaining := by
  unfold ready at isReady
  split at isReady
  · rwa [openNext_ok command isReady]
  · cases isReady
    omega

/-- What a turn of the inner loop does, the bytes would do one after the other. -/
theorem part_writes (positive : 0 < command.cnt) (remains : 0 ≤ state.remaining)
    (nonempty : src ≠ []) :
    (∃ halted, part command state src = .error halted ∧
      src.foldlM (byteStep command) state = .error halted) ∨
    ∃ after, part command state src = .ok after ∧ Writes command state src after := by
  cases isReady : ready command state with
  | error halted =>
    obtain ⟨c, src, rfl⟩ := List.exists_cons_of_ne_nil nonempty
    refine .inl ⟨halted, by rw [part, isReady, Fallible.error_bind], ?_⟩
    rw [List.foldlM_cons, byteStep_error isReady, Fallible.error_bind]
  | ok opened =>
    have more := ready_positive positive remains isReady
    obtain ⟨after, wrote, writes⟩ : ∃ after, part command state src = .ok after ∧
        Writes command opened src after := by
      cases kind : command.byBytes with
      | true =>
        obtain ⟨after, wrote, writes⟩ := byBytes_writes kind more nonempty
        exact ⟨after, by rw [part, isReady, Fallible.ok_bind, if_pos kind, wrote], writes⟩
      | false =>
        refine ⟨byLines opened src, ?_, byLines_writes kind more nonempty⟩
        rw [part, isReady, Fallible.ok_bind, if_neg (by simp [kind])]
        rfl
    obtain ⟨piece, written, split, ran, remains'⟩ := writes
    refine .inr ⟨after, wrote, piece, written, split, ?_, remains'⟩
    obtain ⟨c, piece, rfl⟩ := List.exists_cons_of_ne_nil written
    rw [List.foldlM_cons] at ran ⊢
    rwa [byteStep_ready isReady (by omega)]

theorem parts_error {positive : command.count ≠ 0} {halted : Halted}
    (stops : part command state src = .error halted) :
    parts command positive state src = .error halted := by
  rw [parts]
  split
  case h_1 same => exact congrArg Except.error (Except.error.inj (same.symm.trans stops))
  case h_2 same => cases same.symm.trans stops

theorem parts_ok {positive : command.count ≠ 0} {after : State × List UInt8}
    (wrote : part command state src = .ok after) :
    parts command positive state src =
      if after.2 = [] then .ok after.1 else parts command positive after.1 after.2 := by
  rw [parts]
  split
  case h_1 same => cases same.symm.trans wrote
  case h_2 same =>
    cases same.symm.trans wrote
    split <;> rfl

/-- The inner loop, over the bytes one after the other. -/
theorem parts_bytes (positive : command.count ≠ 0) (forward : 0 < command.cnt)
    (remains : 0 ≤ state.remaining) (nonempty : src ≠ []) :
    parts command positive state src = src.foldlM (byteStep command) state ∧
      ∀ after, parts command positive state src = .ok after → 0 ≤ after.remaining := by
  induction length : src.length using Nat.strongRecOn generalizing state src with
  | _ n ih =>
  subst length
  rcases part_writes forward remains nonempty with ⟨halted, stops, same⟩ | ⟨after, wrote, writes⟩
  · rw [parts_error stops, same]
    exact ⟨rfl, nofun⟩
  · obtain ⟨piece, written, split, ran, remains'⟩ := writes
    rw [parts_ok wrote, split, List.foldlM_append, ran, Fallible.ok_bind]
    by_cases done : after.2 = []
    · rw [if_pos done, done]
      refine ⟨rfl, ?_⟩
      rintro last ⟨⟩
      exact remains'
    · rw [if_neg done]
      have shorter := part_shorter command positive wrote done
      exact ih after.2.length shorter remains' done rfl

/-- The whole input, over its bytes: how it was read does not matter. -/
theorem reads_bytes (positive : command.count ≠ 0) (forward : 0 < command.cnt)
    {reads : List (List UInt8)} (nonempty : ∀ src ∈ reads, src ≠ [])
    (remains : 0 ≤ state.remaining) :
    reads.foldlM (parts command positive) state =
      reads.flatten.foldlM (byteStep command) state := by
  induction reads generalizing state with
  | nil => rfl
  | cons src reads ih =>
    obtain ⟨here, later⟩ := List.forall_mem_cons.mp nonempty
    obtain ⟨bytes, remains'⟩ := parts_bytes positive forward remains here
    rw [List.foldlM_cons, List.flatten_cons, List.foldlM_append, ← bytes]
    exact Fallible.bind_congr fun after ended => ih later (remains' after ended)

end Busybox.Coreutils.Split
