import Busybox.Coreutils.Split

/-!
# The files that `split` creates

The pieces of the input go into files whose names follow one another, until the names are used up.
-/

namespace Busybox.Coreutils.SplitFiles

open SplitNames Split Portions

variable (command : Command)

/-- The name of a file: the prefix, and so many letters. -/
def fileName (i : Nat) : Name := command.sfx ++ letters command.suffixLen i

/-- How many names there are. -/
def capacity : Nat := 26 ^ command.suffixLen

/-- The pieces in their files, in the order in which these were created. -/
def files (pieces : List (List UInt8)) : List File :=
  pieces.mapIdx fun i piece => ⟨fileName command i, piece⟩

/-- The same, the newest first. -/
def filesOf : List (List UInt8) → List File
  | [] => []
  | piece :: older => ⟨fileName command older.length, piece⟩ :: filesOf older

theorem filesOf_reverse (parts : List (List UInt8)) :
    (filesOf command parts).reverse = files command parts.reverse := by
  induction parts with
  | nil => rfl
  | cons piece older ih =>
    rw [filesOf, List.reverse_cons, ih, List.reverse_cons, files, files, List.mapIdx_concat,
      List.length_reverse]

/-- The names come one after the other, and behind the last one there is something else. -/
structure Named (next : Option Name) : Prop where
  nonempty : ∀ i < capacity command, fileName command i ≠ []
  further : ∀ i, i + 1 < capacity command →
    nextFile (fileName command i) command.suffixLen = some (some (fileName command (i + 1)))
  last : ∀ i, i + 1 = capacity command →
    nextFile (fileName command i) command.suffixLen = some next

variable {command}

theorem named_letters (long : 0 < command.suffixLen) : Named command none := by
  obtain ⟨width, length⟩ : ∃ width, command.suffixLen = width + 1 :=
    ⟨command.suffixLen - 1, by omega⟩
  have counted (i : Nat) (used : i < capacity command) :=
    nextFile_letters command.sfx width i (by rwa [capacity, length] at used)
  rw [← length] at counted
  refine ⟨?_, ?_, ?_⟩
  · intro i _ empty
    have none := congrArg List.length empty
    rw [fileName, List.length_append, length_letters, List.length_nil] at none
    omega
  · intro i used
    rw [fileName, counted i (by omega)]
    exact congrArg some (if_pos used)
  · intro i used
    rw [fileName, counted i (by omega)]
    exact congrArg some (if_neg (by rw [← capacity]; omega))

theorem named_unlettered {front : Name} {c : UInt8} (short : command.suffixLen = 0)
    (sfx : command.sfx = front ++ [c]) :
    Named command
      (if beforeZ c then some (if c + 1 = 0 then front else front ++ [c + 1]) else none) := by
  have one : capacity command = 1 := by rw [capacity, short, Nat.pow_zero]
  have name (i : Nat) : fileName command i = front ++ [c] := by
    rw [fileName, short, letters, sfx, List.append_nil]
  refine ⟨fun i _ => by simp [name], fun i used => by omega, fun i _ => ?_⟩
  rw [name, short, nextFile_none]

/-! ## The state between two bytes -/

/-- The name of the next file. -/
def nextName (command : Command) (next : Option Name) (count : Nat) : Option Name :=
  if count < capacity command then some (fileName command count) else next

/-- What is left of the newest piece. -/
def left (command : Command) : List (List UInt8) → Int
  | [] => 0
  | newest :: _ => command.count.toNat - load (weight command) newest

/-- The state once the pieces were written. -/
def reached (command : Command) (next : Option Name) (parts : List (List UInt8)) : State :=
  ⟨left command parts, nextName command next parts.length, filesOf command parts, []⟩

/-- The pieces of what was read, the newest first. -/
def pieces (command : Command) (bytes : List UInt8) : List (List UInt8) :=
  portions (weight command) command.count.toNat bytes

variable {next : Option Name} {parts older : List (List UInt8)} {newest bytes : List UInt8}
  {c : UInt8}

theorem weight_le (c : UInt8) : weight command c ≤ 1 := by
  unfold weight
  split <;> decide

theorem cnt_positive (positive : command.count ≠ 0) (fits : command.count.toNat < 2 ^ 63) :
    command.cnt = command.count.toNat ∧ 0 < command.count.toNat := by
  have notZero : command.count.toNat ≠ 0 := fun zero => positive (UInt64.toNat_inj.mp zero)
  exact ⟨if_pos fits, Nat.pos_of_ne_zero notZero⟩

/-- The newest piece is not full. -/
theorem step_room (room : load (weight command) newest < command.count.toNat) :
    byteStep command (reached command next (newest :: older)) c =
      .ok (reached command next ((newest ++ [c]) :: older)) := by
  have remains : (reached command next (newest :: older)).remaining ≠ 0 := by
    simp only [reached, left]
    omega
  rw [byteStep_remaining remains]
  simp only [reached, left, State.write, filesOf, load_append, load_singleton, Int.natCast_add,
    List.length_cons, Int.sub_sub]

/-- No piece has room for another byte. -/
def Filled (command : Command) (parts : List (List UInt8)) : Prop :=
  ∀ newest ∈ parts.head?, load (weight command) newest = command.count.toNat

theorem ready_filled (filled : Filled command parts) :
    ready command (reached command next parts) = openNext command (reached command next parts) := by
  refine if_pos ?_
  cases parts with
  | nil => rfl
  | cons newest older =>
    have full := filled newest rfl
    simp only [reached, left]
    omega

/-- The next file is opened. -/
theorem step_open (named : Named command next) (positive : command.count ≠ 0)
    (fits : command.count.toNat < 2 ^ 63) (filled : Filled command parts)
    (free : parts.length < capacity command) :
    byteStep command (reached command next parts) c =
      .ok (reached command next ([c] :: parts)) := by
  have counted : nextFile (fileName command parts.length) command.suffixLen =
      some (nextName command next (parts.length + 1)) := by
    unfold nextName
    split
    case isTrue more => exact named.further _ more
    case isFalse last => exact named.last _ (by omega)
  have name : (reached command next parts).pfx = some (fileName command parts.length) := if_pos free
  rw [byteStep, ready_filled filled, openNext, name]
  simp only [if_neg (named.nonempty _ free), counted, Fallible.ok_bind]
  simp only [reached, left, State.write, filesOf, load_singleton, List.nil_append,
    (cnt_positive positive fits).1, List.length_cons]
  rfl

/-- How the program ends when no file can be opened behind the last one. -/
def exhaustion : Option Name → Stop
  | none => .suffixesExhausted
  | some _ => .cannotOpen

/-- The names are used up. -/
theorem step_exhausted (nothing : next.getD [] = []) (filled : Filled command parts)
    (used : parts.length = capacity command) :
    byteStep command (reached command next parts) c =
      .error ⟨exhaustion next, reached command next parts⟩ := by
  have name : (reached command next parts).pfx = next := if_neg (by omega)
  refine byteStep_error ?_ c
  rw [ready_filled filled, openNext, name]
  cases next with
  | none => rfl
  | some name => exact if_pos nothing

/-- The files that were created, however the program went on. -/
def created : Except Halted State → List File
  | .ok state => state.opened
  | .error halted => halted.state.opened

/-- A file too many is created where there is something else behind the last name. -/
theorem step_beyond {name : Name} {after : Option Name} (filled : Filled command parts)
    (used : parts.length = capacity command) (nonempty : name ≠ [])
    (more : nextFile name command.suffixLen = some after) :
    (created (byteStep command (reached command (some name) parts) c)).length =
      capacity command + 1 := by
  have length (parts : List (List UInt8)) : (filesOf command parts).length = parts.length := by
    rw [← List.length_reverse, filesOf_reverse, files, List.length_mapIdx, List.length_reverse]
  have isNext : (reached command (some name) parts).pfx = some name := if_neg (by omega)
  rw [byteStep, ready_filled filled, openNext, isNext]
  simp only [if_neg nonempty, more, Fallible.ok_bind]
  simp only [created, State.write, reached, pure, Except.pure, List.length_cons, length, used]

/-! ## The run -/

theorem write_opened (state : State) (bytes : List UInt8) :
    (state.write bytes).opened.length = state.opened.length := by
  unfold State.write
  cases state.opened <;> rfl

theorem openNext_created (state : State) :
    state.opened.length ≤ (created (openNext command state)).length := by
  unfold openNext
  split
  · exact Nat.le_refl _
  split
  · exact Nat.le_refl _
  simp only
  split
  · exact Nat.le_succ _
  · exact Nat.le_succ _

/-- No file is taken back. -/
theorem byteStep_created (state : State) (c : UInt8) :
    state.opened.length ≤ (created (byteStep command state c)).length := by
  have opens : state.opened.length ≤ (created (ready command state)).length := by
    unfold ready
    split
    · exact openNext_created state
    · exact Nat.le_refl _
  rw [byteStep]
  cases isReady : ready command state with
  | error halted =>
    rw [isReady] at opens
    exact opens
  | ok opened =>
    rw [isReady] at opens
    rw [Fallible.ok_bind]
    have same := write_opened
      { opened with remaining := opened.remaining - weight command c } [c]
    exact opens.trans (Nat.le_of_eq same.symm)

/-- Another byte starts a piece, or there is room for it. -/
theorem pieces_concat (positive : command.count ≠ 0) (bytes : List UInt8) (c : UInt8) :
    (Filled command (pieces command bytes) ∧
      pieces command (bytes ++ [c]) = [c] :: pieces command bytes) ∨
    ∃ newest older, pieces command bytes = newest :: older ∧
      load (weight command) newest < command.count.toNat ∧
      pieces command (bytes ++ [c]) = (newest ++ [c]) :: older := by
  have notZero : command.count.toNat ≠ 0 := fun zero => positive (UInt64.toNat_inj.mp zero)
  have kept := filled_portions (@weight_le command) (Nat.pos_of_ne_zero notZero) bytes
  rw [pieces, pieces, portions_concat]
  cases parts : portions (weight command) command.count.toNat bytes with
  | nil => exact .inl ⟨nofun, rfl⟩
  | cons newest older =>
    rw [parts] at kept
    have fits := (kept.newest newest rfl).2.1
    by_cases full : load (weight command) newest = command.count.toNat
    · refine .inl ⟨?_, if_pos full⟩
      rintro piece ⟨⟩
      exact full
    · exact .inr ⟨newest, older, rfl, by omega, if_neg full⟩

theorem run_pieces (named : Named command next) (positive : command.count ≠ 0)
    (fits : command.count.toNat < 2 ^ 63)
    (enough : (pieces command bytes).length ≤ capacity command) :
    bytes.foldlM (byteStep command) (reached command next []) =
      .ok (reached command next (pieces command bytes)) := by
  induction bytes using List.reverseRecOn with
  | nil => rfl
  | append_singleton bytes c ih =>
    rw [List.foldlM_append]
    rcases pieces_concat positive bytes c with ⟨filled, parts⟩ | ⟨newest, older, old, room, parts⟩
    · rw [parts, List.length_cons] at enough
      rw [ih (by omega), Fallible.ok_bind, List.foldlM_cons,
        step_open named positive fits filled (by omega), parts]
      rfl
    · rw [parts, List.length_cons] at enough
      rw [ih (by rw [old]; exact enough), Fallible.ok_bind, List.foldlM_cons, old,
        step_room room, parts]
      rfl

/-- With more pieces than names the program ends when the names are used up. -/
theorem run_exhausted (named : Named command next) (nothing : next.getD [] = [])
    (positive : command.count ≠ 0) (fits : command.count.toNat < 2 ^ 63)
    (tooMany : capacity command < (pieces command bytes).length) :
    bytes.foldlM (byteStep command) (reached command next []) =
      .error ⟨exhaustion next, reached command next
        ((pieces command bytes).drop ((pieces command bytes).length - capacity command))⟩ := by
  induction bytes using List.reverseRecOn with
  | nil => cases tooMany
  | append_singleton bytes c ih =>
    rw [List.foldlM_append]
    by_cases before : capacity command < (pieces command bytes).length
    · rw [ih before, Fallible.error_bind]
      rcases pieces_concat positive bytes c with ⟨_, parts⟩ | ⟨newest, older, old, _, parts⟩
      · rw [parts, List.length_cons, Nat.succ_sub (by omega), List.drop_succ_cons]
      · rw [old, List.length_cons] at before
        rw [parts, old, List.length_cons, List.length_cons, Nat.succ_sub (by omega),
          List.drop_succ_cons, List.drop_succ_cons]
    · rcases pieces_concat positive bytes c with ⟨filled, parts⟩ | ⟨newest, older, old, _, parts⟩
      · rw [parts, List.length_cons] at tooMany
        have used : (pieces command bytes).length = capacity command := by omega
        rw [run_pieces named positive fits (by omega), Fallible.ok_bind, List.foldlM_cons,
          step_exhausted nothing filled used, Fallible.error_bind, parts, List.length_cons, used,
          Nat.add_sub_cancel_left]
        rfl
      · rw [parts, List.length_cons] at tooMany
        rw [old, List.length_cons] at before
        omega

/-- With more pieces than names a file too many is created where there is something else behind the
last name. -/
theorem run_beyond {name : Name} {after : Option Name} (named : Named command (some name))
    (positive : command.count ≠ 0) (fits : command.count.toNat < 2 ^ 63) (nonempty : name ≠ [])
    (more : nextFile name command.suffixLen = some after)
    (tooMany : capacity command < (pieces command bytes).length) :
    capacity command <
      (created (bytes.foldlM (byteStep command) (reached command (some name) []))).length := by
  induction bytes using List.reverseRecOn with
  | nil => cases tooMany
  | append_singleton bytes c ih =>
    rw [List.foldlM_append]
    by_cases before : capacity command < (pieces command bytes).length
    · have already := ih before
      cases ran : bytes.foldlM (byteStep command) (reached command (some name) []) with
      | error halted =>
        rw [ran] at already
        exact already
      | ok state =>
        rw [ran] at already
        rw [Fallible.ok_bind, List.foldlM_cons]
        have kept : state.opened.length ≤ (created (byteStep command state c)).length :=
          byteStep_created state c
        cases stepped : byteStep command state c with
        | error halted =>
          rw [stepped] at kept
          exact already.trans_le kept
        | ok state' =>
          rw [stepped] at kept
          exact already.trans_le kept
    · rcases pieces_concat positive bytes c with ⟨filled, parts⟩ | ⟨newest, older, old, _, parts⟩
      · rw [parts, List.length_cons] at tooMany
        have used : (pieces command bytes).length = capacity command := by omega
        have beyond := step_beyond (c := c) filled used nonempty more
        rw [run_pieces named positive fits (by omega), Fallible.ok_bind, List.foldlM_cons]
        cases stepped : byteStep command (reached command (some name) (pieces command bytes)) c with
        | error halted =>
          rw [stepped] at beyond
          exact Nat.lt_of_lt_of_eq (Nat.lt_succ_self _) beyond.symm
        | ok state' =>
          rw [stepped] at beyond
          exact Nat.lt_of_lt_of_eq (Nat.lt_succ_self _) beyond.symm
      · rw [parts, List.length_cons] at tooMany
        rw [old, List.length_cons] at before
        omega

/-! ## What the program leaves behind -/

/-- The input is in the files, piece by piece, or the program has ended when there was no name left
for the next piece. -/
def Correct (command : Command) (input : List UInt8) (result : Except Halted State) : Prop :=
  ∃ pieces, Divides (weight command) command.count.toNat input pieces ∧
    if pieces.length ≤ capacity command then
      ∃ state, result = .ok state ∧ state.stdout = [] ∧
        state.opened.reverse = files command pieces
    else
      ∃ halted, result = .error halted ∧ halted.state.stdout = [] ∧
        halted.state.opened.reverse = (files command pieces).take (capacity command)

/-- The program starts with the first name. -/
theorem splitMain_bytes (positive : command.count ≠ 0)
    (accepted : command.sfx.length + command.suffixLen ≤ nameMax)
    (fits : command.count.toNat < 2 ^ 63) (next : Option Name) {reads : List (List UInt8)}
    (nonempty : ∀ src ∈ reads, src ≠ []) :
    splitMain command positive reads =
      reads.flatten.foldlM (byteStep command) (reached command next []) := by
  obtain ⟨same, forward⟩ := cnt_positive positive fits
  have started : reached command next [] =
      ⟨0, some (command.sfx ++ List.replicate command.suffixLen 97), [], []⟩ := by
    have first : 0 < capacity command := Nat.pow_pos (by decide)
    simp only [reached, left, filesOf, nextName, List.length_nil, if_pos first, fileName,
      letters_zero]
  rw [splitMain, if_neg (Nat.not_lt.mpr accepted), started]
  exact reads_bytes positive (by omega) nonempty (Int.le_refl 0)

theorem files_take (parts : List (List UInt8)) (count : Nat) :
    (files command parts).take count = files command (parts.take count) := by
  by_cases short : parts.length ≤ count
  · rw [List.take_of_length_le short, List.take_of_length_le (by simpa [files] using short)]
  · have whole := List.take_append_drop count parts
    rw [files, files, ← whole, List.mapIdx_append, whole]
    exact List.take_left' (by rw [List.length_mapIdx, List.length_take]; omega)

/-- The run is as it should be, where there is nothing behind the last name or it is not asked
for. -/
theorem correct_of_named (named : Named command next) (positive : command.count ≠ 0)
    (fits : command.count.toNat < 2 ^ 63)
    (enough : (pieces command bytes).length ≤ capacity command ∨ next.getD [] = []) :
    Correct command bytes (bytes.foldlM (byteStep command) (reached command next [])) := by
  refine ⟨(pieces command bytes).reverse,
    divides_portions weight_le (cnt_positive positive fits).2 bytes, ?_⟩
  rw [List.length_reverse]
  by_cases all : (pieces command bytes).length ≤ capacity command
  · rw [if_pos all]
    exact ⟨_, run_pieces named positive fits all, rfl, filesOf_reverse command _⟩
  · have nothing := enough.resolve_left all
    rw [if_neg all]
    refine ⟨_, run_exhausted named nothing positive fits (by omega), rfl, ?_⟩
    have count : (pieces command bytes).length -
        ((pieces command bytes).length - capacity command) = capacity command := by
      omega
    rw [reached, filesOf_reverse, List.reverse_drop, count, files_take]

/-- No more files are left behind than there are names. -/
theorem created_le {result : Except Halted State} (correct : Correct command bytes result) :
    (created result).length ≤ capacity command := by
  obtain ⟨parts, _, ends⟩ := correct
  split at ends
  case isTrue all =>
    obtain ⟨state, rfl, _, opened⟩ := ends
    have length := congrArg List.length opened
    rw [List.length_reverse, files, List.length_mapIdx] at length
    exact length.trans_le all
  case isFalse =>
    obtain ⟨state, rfl, _, opened⟩ := ends
    have length := congrArg List.length opened
    rw [List.length_reverse, List.length_take] at length
    exact length.trans_le (Nat.min_le_left _ _)

/-- Fewer bytes than asked for, or newlines, stand in front of the last byte. -/
def OnePiece (command : Command) (input : List UInt8) : Prop :=
  load (weight command) input.dropLast < command.count.toNat

theorem pieces_one (positive : command.count ≠ 0) (nonempty : bytes ≠ []) :
    (OnePiece command bytes ∧ pieces command bytes = [bytes]) ∨
      (¬OnePiece command bytes ∧ 2 ≤ (pieces command bytes).length) := by
  have notZero : command.count.toNat ≠ 0 := fun zero => positive (UInt64.toNat_inj.mp zero)
  induction bytes using List.reverseRecOn with
  | nil => exact absurd rfl nonempty
  | append_singleton bytes c ih =>
    rw [OnePiece, List.dropLast_concat]
    by_cases first : bytes = []
    · subst first
      exact .inl ⟨Nat.pos_of_ne_zero notZero, rfl⟩
    rcases ih first with ⟨one, parts⟩ | ⟨several, parts⟩
    · rcases pieces_concat positive bytes c with
        ⟨filled, further⟩ | ⟨newest, older, old, room, further⟩
      · have full := filled bytes (by rw [parts]; rfl)
        exact .inr ⟨by omega, by rw [further, parts]; rfl⟩
      · rw [parts] at old
        cases old
        exact .inl ⟨room, further⟩
    · have more := @load_dropLast_le _ (weight command) bytes
      refine .inr ⟨fun small => several (more.trans_lt small), ?_⟩
      rcases pieces_concat positive bytes c with ⟨_, further⟩ | ⟨newest, older, old, _, further⟩
      · rw [further, List.length_cons]
        omega
      · rw [old] at parts
        rw [further]
        exact parts

/-- What the program does is right where the count does not come out negative, and where the suffix
has a letter, or else no second name is needed or none can be made of the prefix: its last character
is not below `z`, or it is 255 alone and becomes a NUL. -/
def Serves (command : Command) (input : List UInt8) : Prop :=
  input = [] ∨ (command.count.toNat < 2 ^ 63 ∧ (0 < command.suffixLen ∨
    (command.sfx ≠ [] ∧ (OnePiece command input ∨ command.sfx = [255] ∨
      ∀ c ∈ command.sfx.getLast?, beforeZ c = false))))

/-- The program ended before anything was written to a file. -/
def Unwritten (halted : Halted) : Prop := ∀ file ∈ halted.state.opened, file.content = []

theorem not_correct (positive : command.count ≠ 0) {halted : Halted}
    (unwritten : Unwritten halted) : ¬Correct command bytes (.error halted) := by
  rintro ⟨parts, divides, ends⟩
  have notZero : command.count.toNat ≠ 0 := fun zero => positive (UInt64.toNat_inj.mp zero)
  have first : 0 < capacity command := Nat.pow_pos (by decide)
  split at ends
  · obtain ⟨state, same, _⟩ := ends
    cases same
  · obtain ⟨_, ⟨⟩, _, opened⟩ := ends
    obtain ⟨piece, next, later, rfl⟩ : ∃ piece next later, parts = piece :: next :: later := by
      match parts with
      | [] => exact absurd (Nat.zero_le _) ‹_›
      | [_] => exact absurd first ‹_›
      | piece :: next :: later => exact ⟨piece, next, later, rfl⟩
    have full := (divides.full piece (by simp)).1
    have inside : ⟨fileName command 0, piece⟩ ∈ halted.state.opened := by
      rw [← List.mem_reverse, opened, files, List.mapIdx_cons]
      obtain ⟨more, isMore⟩ : ∃ more, capacity command = more + 1 :=
        ⟨capacity command - 1, by omega⟩
      rw [isMore, List.take_succ_cons]
      exact List.mem_cons_self
    have nothing : piece = [] := unwritten _ inside
    rw [nothing, load_nil] at full
    exact notZero full.symm

theorem openNext_unwritten {state : State} (fresh : state.opened = []) :
    ∀ file ∈ created (openNext command state), file.content = [] := by
  unfold openNext
  split
  · simp [created, fresh]
  split
  · simp [created, fresh]
  simp only
  split <;> simp [created, fresh]

/-- A negative count is taken for a length to write. -/
theorem parts_overflow (positive : command.count ≠ 0) (isBytes : command.byBytes = true)
    (large : ¬command.count.toNat < 2 ^ 63) {state : State} (starts : state.remaining = 0)
    (fresh : state.opened = []) (src : List UInt8) :
    ∃ halted, Split.parts command positive state src = .error halted ∧ Unwritten halted := by
  suffices stops : ∃ halted, part command state src = .error halted ∧ Unwritten halted by
    obtain ⟨halted, stops, unwritten⟩ := stops
    exact ⟨halted, parts_error stops, unwritten⟩
  have negative : command.cnt < 0 := by
    have small := UInt64.toNat_lt command.count
    rw [Command.cnt, if_neg large]
    omega
  have unwritten := @openNext_unwritten command state fresh
  rw [part, ready, if_pos starts]
  cases opens : openNext command state with
  | error halted =>
    rw [opens] at unwritten
    exact ⟨halted, Fallible.error_bind _ _, unwritten⟩
  | ok opened =>
    rw [opens] at unwritten
    have remaining := openNext_ok command opens
    have length : toWrite src.length opened.remaining = command.cnt := by
      rw [remaining]
      exact if_neg (by omega)
    have stops : byBytes opened src =
        .error ⟨.badAddress, { opened with remaining := opened.remaining - command.cnt }⟩ := by
      rw [byBytes]
      simp only [length]
      exact if_pos negative
    refine ⟨⟨.badAddress, { opened with remaining := opened.remaining - command.cnt }⟩, ?_,
      unwritten⟩
    rw [Fallible.ok_bind, if_pos isBytes, stops]

/-- A file without a name is not opened. -/
theorem run_unnamed (next : Option Name) (short : command.suffixLen = 0)
    (noPrefix : command.sfx = []) (c : UInt8) (bytes : List UInt8) :
    ∃ halted, (c :: bytes).foldlM (byteStep command) (reached command next []) = .error halted ∧
      Unwritten halted := by
  have first : 0 < capacity command := Nat.pow_pos (by decide)
  have name : (reached command next []).pfx = some [] := by
    rw [reached, nextName, List.length_nil, if_pos first, fileName, noPrefix, short]
    rfl
  refine ⟨⟨.cannotOpen, reached command next []⟩, ?_, nofun⟩
  have stops : ready command (reached command next []) =
      .error ⟨.cannotOpen, reached command next []⟩ := by
    have filled : Filled command [] := by
      rintro newest ⟨⟩
    rw [ready_filled filled, openNext, name]
    exact if_pos rfl
  rw [List.foldlM_cons, byteStep_error stops, Fallible.error_bind]

/-- The run is right where the condition holds. -/
theorem correct_of_serves (positive : command.count ≠ 0)
    (accepted : command.sfx.length + command.suffixLen ≤ nameMax) {reads : List (List UInt8)}
    (nonempty : ∀ src ∈ reads, src ≠ []) (serves : Serves command reads.flatten) :
    Correct command reads.flatten (splitMain command positive reads) := by
  rcases serves with empty | ⟨fits, enough⟩
  · have nothing : reads = [] := by
      cases reads with
      | nil => rfl
      | cons src reads =>
        exact absurd (List.append_eq_nil_iff.mp empty).1 (nonempty src List.mem_cons_self)
    subst nothing
    refine ⟨[], ⟨rfl, nofun, nofun⟩, ?_⟩
    rw [List.length_nil, if_pos (Nat.zero_le _), splitMain, if_neg (Nat.not_lt.mpr accepted)]
    exact ⟨_, rfl, rfl, rfl⟩
  by_cases long : 0 < command.suffixLen
  · rw [splitMain_bytes positive accepted fits none nonempty]
    exact correct_of_named (named_letters long) positive fits (.inr rfl)
  have short : command.suffixLen = 0 := by omega
  obtain ⟨noPrefix, enough⟩ := enough.resolve_left long
  obtain ⟨front, c, sfx⟩ := (List.eq_nil_or_concat command.sfx).resolve_left noPrefix
  rw [List.concat_eq_append] at sfx
  rw [splitMain_bytes positive accepted fits
    (if beforeZ c then some (if c + 1 = 0 then front else front ++ [c + 1]) else none) nonempty]
  refine correct_of_named (named_unlettered short sfx) positive fits ?_
  rcases enough with one | only | last
  · left
    by_cases empty : reads.flatten = []
    · rw [empty]
      exact Nat.zero_le _
    · rcases pieces_one positive empty with ⟨_, parts⟩ | ⟨several, _⟩
      · rw [parts, capacity, short]
        exact Nat.le_refl 1
      · exact absurd one several
  · right
    rw [sfx] at only
    obtain ⟨rfl, ⟨⟩⟩ := List.append_inj' (only.trans (List.nil_append [255]).symm) rfl
    rfl
  · right
    rw [last c (by rw [sfx, List.getLast?_concat]; rfl)]
    rfl

/-- Where the name behind the last one is that of another file, one more file is created. -/
theorem beyond_of_prefix {front : Name} {c : UInt8} (positive : command.count ≠ 0)
    (fits : command.count.toNat < 2 ^ 63) (short : command.suffixLen = 0)
    (sfx : command.sfx = front ++ [c]) (before : beforeZ c = true) (other : command.sfx ≠ [255])
    (several : 2 ≤ (pieces command bytes).length) :
    ∃ next, capacity command <
      (created (bytes.foldlM (byteStep command) (reached command next []))).length := by
  have named := named_unlettered short sfx
  rw [if_pos before] at named
  have one : capacity command = 1 := by rw [capacity, short, Nat.pow_zero]
  have nonempty : (if c + 1 = 0 then front else front ++ [c + 1]) ≠ [] := by
    split
    case isFalse => simp
    case isTrue wraps =>
      rintro rfl
      have last : c = 255 := by grind
      exact other (by rw [sfx, last]; rfl)
  obtain ⟨after, more⟩ := nextFile_ne_nil nonempty
  exact ⟨_, run_beyond named positive fits nonempty (by rw [short]; exact more) (by omega)⟩

/-- The condition holds where the run is right. -/
theorem serves_of_correct (positive : command.count ≠ 0)
    (accepted : command.sfx.length + command.suffixLen ≤ nameMax)
    (lines : command.byBytes = false → command.count.toNat < 2 ^ 63)
    {reads : List (List UInt8)} (nonempty : ∀ src ∈ reads, src ≠ [])
    (correct : Correct command reads.flatten (splitMain command positive reads)) :
    Serves command reads.flatten := by
  by_cases empty : reads.flatten = []
  · exact .inl empty
  refine .inr ?_
  have fits : command.count.toNat < 2 ^ 63 := by
    by_contra large
    have isBytes : command.byBytes = true := by
      by_contra isLines
      exact large (lines (Bool.eq_false_iff.mpr isLines))
    cases reads with
    | nil => exact empty rfl
    | cons src reads =>
      let started : State :=
        ⟨0, some (command.sfx ++ List.replicate command.suffixLen 97), [], []⟩
      have starts : started.remaining = 0 := rfl
      obtain ⟨halted, stops, unwritten⟩ := parts_overflow positive isBytes large starts rfl src
      rw [splitMain, if_neg (Nat.not_lt.mpr accepted), List.foldlM_cons, stops,
        Fallible.error_bind] at correct
      exact not_correct positive unwritten correct
  refine ⟨fits, Classical.or_iff_not_imp_left.mpr fun short => ?_⟩
  have short : command.suffixLen = 0 := by omega
  have noPrefix : command.sfx ≠ [] := by
    intro noPrefix
    rw [splitMain_bytes positive accepted fits none nonempty] at correct
    obtain ⟨c, bytes, input⟩ := List.exists_cons_of_ne_nil empty
    obtain ⟨halted, stops, unwritten⟩ := run_unnamed none short noPrefix c bytes
    rw [input, stops] at correct
    exact not_correct positive unwritten correct
  refine ⟨noPrefix, Classical.or_iff_not_imp_left.mpr fun several =>
    Classical.or_iff_not_imp_left.mpr fun other => ?_⟩
  obtain ⟨front, c, sfx⟩ := (List.eq_nil_or_concat command.sfx).resolve_left noPrefix
  rw [List.concat_eq_append] at sfx
  intro last isLast
  rw [sfx, List.getLast?_concat] at isLast
  cases isLast
  by_contra before
  have parts := (pieces_one positive empty).resolve_left fun one => several one.1
  obtain ⟨next, beyond⟩ :=
    beyond_of_prefix positive fits short sfx (by simpa using before) other parts.2
  rw [splitMain_bytes positive accepted fits next nonempty] at correct
  exact absurd (created_le correct) (Nat.not_le.mpr beyond)

/-- `split -b 2 - x` -/
def pairs : Command := ⟨true, 2, 2, [120]⟩

/-- `split -b 1 -a 0 - x` -/
def unlettered : Command := ⟨true, 1, 0, [120]⟩

end Busybox.Coreutils.SplitFiles
