import Busybox.Xargs.Main

/-!
# A command for each line

With `-I` the command is run for each line of the input. An empty line looks like the end of the
input to the loop, and a NUL like the end of a line.
-/

namespace Busybox.Xargs

open Fallible Libbb.Replace Loops Pieces

/-- The options with `-I` -/
def Options.replacing (opts : Options) (repl : Str) : Options := { opts with replStr := some repl }

def firstLine (eolCh : UInt8) (input : List UInt8) : List UInt8 := input.takeWhile (· ≠ eolCh)

/-- The input behind the first line and what ends it -/
def behindLine (eolCh : UInt8) (input : List UInt8) : List UInt8 :=
  (input.dropWhile (· ≠ eolCh)).tail

theorem behindLine_lt {input : List UInt8} (nonempty : input ≠ []) (eolCh : UInt8) :
    (behindLine eolCh input).length < input.length := by
  have shorter := (List.dropWhile_suffix (l := input) (· ≠ eolCh)).length_le
  have some := List.length_pos_of_ne_nil nonempty
  rw [behindLine, List.length_tail]
  omega

/-- Behind the first line the input is at its end, or the line's end stands there. -/
theorem firstLine_cases (eolCh : UInt8) (input : List UInt8) :
    (input = firstLine eolCh input ∧ behindLine eolCh input = []) ∨
      input = firstLine eolCh input ++ eolCh :: behindLine eolCh input := by
  unfold firstLine behindLine
  have whole := List.takeWhile_append_dropWhile (p := (· ≠ eolCh)) (l := input)
  cases rest : input.dropWhile (· ≠ eolCh) with
  | nil =>
    rw [rest, List.append_nil] at whole
    exact .inl ⟨whole.symm, rfl⟩
  | cons c rest' =>
    have ends : c = eolCh := by
      have stops := List.head?_dropWhile_not (· ≠ eolCh) input
      rw [rest] at stops
      simpa using stops
    rw [rest, ends] at whole
    exact .inr whole.symm

section

variable (setup : Setup) (opts : Options) (host : Host) (repl : Str)

/-! ## What is expected -/

/-- The command line with these arguments -/
def commandLine (runs : List Run) (args : List Str) (rest : List UInt8) : Run :=
  ⟨args, rest, !opts.interactive || host.confirms runs args⟩

/-- The command line for a line that the rest of the input is behind. -/
def lineRun (runs : List Run) (line rest : List UInt8) : Run :=
  commandLine opts host runs (setup.argv.map (replaced repl line)) rest

/-- The command is run for each line that is not empty, unless it stops xargs or the line does not
fit: the runs, and how xargs ends. -/
def serveLines (runs : List Run) (input : List UInt8) : List Run × Ending :=
  if _nonempty : input ≠ [] then
    let line := firstLine opts.eolCh input
    let rest := behindLine opts.eolCh input
    if line = [] then serveLines runs rest
    else if setup.maxChars ≤ line.length then (runs, .lineTooLong)
    else
      let run := lineRun setup opts host repl runs line rest
      if run.Stops host runs then (runs ++ [run], .aborted) else serveLines (runs ++ [run]) rest
  else (runs, .finished)
termination_by input.length
decreasing_by
  · exact behindLine_lt _nonempty _
  · exact behindLine_lt _nonempty _

/-- The runs are those that are expected, xargs ends as expected, and if it is not made to, all of
the input has been read. -/
def Serves (runs : List Run) (input : List UInt8) (last : Loop) : Prop :=
  last.runs = (serveLines setup opts host repl runs input).1 ∧
    last.ending = some (serveLines setup opts host repl runs input).2 ∧
    (last.ending = some .finished → last.state.input = [])

/-! ## When it is what xargs does -/

/-- There is something to replace, the line is a string, and no argument grows by more than an
`int` can hold. -/
structure Passable (line : List UInt8) : Prop where
  pattern : repl ≠ []
  text : 0 ∉ line
  growth : ∀ arg ∈ setup.argv,
    (occurrences repl arg * (line.length - repl.length) : ℤ) ≤ INT_MAX

/-- A NUL is the end of the input, and there is nothing to replace with what is in front of it. -/
structure Unused (line input : List UInt8) : Prop where
  last : input = line
  text : ∃ text, line = text ++ [0] ∧ 0 ∉ text
  short : line.length < setup.maxChars
  nothing : ∀ arg ∈ setup.argv, occurrences repl arg = 0

/-- Only the last line may be empty, and every other line can be passed to the command, up to one
that stops xargs or is too long, in front of a NUL in it. -/
def Regular (runs : List Run) (input : List UInt8) : Prop :=
  if _nonempty : input ≠ [] then
    let line := firstLine opts.eolCh input
    let rest := behindLine opts.eolCh input
    if line = [] then rest = []
    else
      let run := lineRun setup opts host repl runs line rest
      setup.maxChars ≤ (cstr line).length ∨ Unused setup repl line input ∨
        Passable setup repl line ∧ (run.Stops host runs ∨ Regular (runs ++ [run]) rest)
  else True
termination_by input.length
decreasing_by exact behindLine_lt _nonempty _

variable {setup opts host repl}

/-! ## Reading a line -/

theorem Setup.length_lt {arg : Str} (setup : Setup) (mem : arg ∈ setup.argv) :
    arg.length + 1 < INT_MAX := by
  have among : arg.length + 1 ∈ setup.argv.map fun arg => arg.length + 1 :=
    List.mem_map.mpr ⟨arg, mem, rfl⟩
  have part : arg.length + 1 ≤ nChars setup.argv :=
    List.single_le_sum (fun _ _ => Nat.zero_le _) _ among
  have inRange := setup.inRange
  have room := setup.room
  omega

theorem Setup.maxChars_le (setup : Setup) : setup.maxChars ≤ INT_MAX :=
  (Nat.le_add_right _ _).trans setup.inRange

variable (repl) in
/-- The line is put into an argument, if there is something to replace and the growth is an
`int`. -/
theorem replaceIn_spec {line arg : Str} (mem : arg ∈ setup.argv)
    (short : line.length < setup.maxChars) :
    (repl ≠ [] ∧ (occurrences repl arg * (line.length - repl.length) : ℤ) ≤ INT_MAX →
        replaceIn repl line arg = .ok (replaced repl line arg)) ∧
      (¬(repl ≠ [] ∧ (occurrences repl arg * (line.length - repl.length) : ℤ) ≤ INT_MAX) →
        ∃ fault, replaceIn repl line arg = .error (.fault fault)) := by
  have argSmall := setup.length_lt mem
  have lineSmall := short.trans_le setup.maxChars_le
  unfold INT_MAX at argSmall lineSmall ⊢
  unfold replaceIn
  dsimp only
  rw [countStrstr_eq]
  by_cases empty : repl = []
  · subst empty
    refine ⟨fun absurdity => absurd rfl absurdity.1, fun _ => ?_⟩
    rw [occurrences_nil, asInt_eq (by omega), if_pos (by omega)]
    obtain ⟨fault, failed⟩ := xmallocSubstituteString_empty arg line (arg.length + 1 : ℕ)
    rw [failed]
    exact ⟨fault, rfl⟩
  · have few : occurrences repl arg ≤ arg.length :=
      (Nat.le_mul_of_pos_right _ (List.length_pos_of_ne_nil empty)).trans
        (occurrences_mul_le repl arg)
    rw [asInt_eq (by omega)]
    by_cases none : occurrences repl arg = 0
    · rw [none, if_neg (not_not.mpr Int.natCast_zero), replaced_eq_self line none]
      refine ⟨fun _ => rfl, fun large => absurd ⟨empty, ?_⟩ large⟩
      rw [Int.natCast_zero, zero_mul]
      exact Int.natCast_nonneg _
    · rw [if_pos (Int.natCast_ne_zero.mpr none),
        xmallocSubstituteString_eq empty (Nat.pos_of_ne_zero none) (by omega) (by omega)]
      constructor
      · rintro ⟨-, small⟩
        rw [if_pos (by omega)]
        rfl
      · intro large
        rw [if_neg fun small => large ⟨empty, by omega⟩]
        exact ⟨_, rfl⟩

theorem replaceIn_only_faults {line arg : Str} {ending : Ending} (mem : arg ∈ setup.argv)
    (short : line.length < setup.maxChars) (failed : replaceIn repl line arg = .error ending) :
    ∃ fault, ending = .fault fault := by
  obtain ⟨replaces, faults⟩ := replaceIn_spec repl mem short
  by_cases fine : repl ≠ [] ∧
      (occurrences repl arg * (line.length - repl.length) : ℤ) ≤ INT_MAX
  · rw [replaces fine] at failed
    cases failed
  · obtain ⟨fault, faulty⟩ := faults fine
    rw [failed] at faulty
    exact ⟨fault, Except.error.inj faulty⟩

/-- The line is put into the arguments, if it can be passed. -/
theorem mapM_replaceIn {line : Str} (short : line.length < setup.maxChars) (clean : 0 ∉ line) :
    (Passable setup repl line → setup.argv.mapM (replaceIn repl line) =
        .ok (setup.argv.map (replaced repl line))) ∧
      (¬Passable setup repl line →
        ∃ fault, setup.argv.mapM (replaceIn repl line) = .error (.fault fault)) := by
  constructor
  · intro passable
    exact mapM_ok fun arg mem =>
      (replaceIn_spec repl mem short).1 ⟨passable.pattern, passable.growth arg mem⟩
  · intro impassable
    obtain ⟨arg, mem, not⟩ : ∃ arg ∈ setup.argv,
        ¬(repl ≠ [] ∧ (occurrences repl arg * (line.length - repl.length) : ℤ) ≤ INT_MAX) := by
      by_contra all
      push Not at all
      obtain ⟨first, isFirst⟩ := List.exists_mem_of_ne_nil _ setup.command
      exact impassable ⟨(all first isFirst).1, clean, fun arg mem => (all arg mem).2⟩
    obtain ⟨fault, failed⟩ := (replaceIn_spec repl mem short).2 not
    have only : ∀ arg ∈ setup.argv, ∀ ending, replaceIn repl line arg = .error ending →
        ∃ fault, ending = .fault fault :=
      fun arg mem ending => replaceIn_only_faults mem short
    obtain ⟨ending, stops, fault, rfl⟩ := mapM_error mem only ⟨_, failed⟩
    exact ⟨fault, stops⟩

variable (repl) in
/-- Characters that do not end a line are put into the buffer as long as there is room. -/
theorem lineLoop_fits {eolCh : UInt8} {piece : List UInt8}
    (unbroken : ∀ c ∈ piece, c ≠ eolCh ∧ c ≠ 0)
    {buf : Str} (room : buf.length + piece.length < setup.maxChars) (rest : List UInt8) :
    lineLoop setup eolCh repl buf (piece ++ rest) =
      lineLoop setup eolCh repl (buf ++ piece) rest := by
  induction piece generalizing buf with
  | nil => rw [List.nil_append, List.append_nil]
  | cons c piece ih =>
    obtain ⟨notEol, notNul⟩ := unbroken c List.mem_cons_self
    rw [List.length_cons] at room
    rw [List.cons_append, lineLoop, if_neg fun ends => notEol ends.1, if_neg (by tauto),
      if_neg (by omega), ih (fun c' mem => unbroken c' (List.mem_cons_of_mem c mem))
        (by rw [List.length_append, List.length_singleton]; omega), List.append_assoc,
      List.singleton_append]

variable (repl) in
/-- If there is not enough room the buffer is filled. -/
theorem lineLoop_long {eolCh : UInt8} {piece : List UInt8}
    (unbroken : ∀ c ∈ piece, c ≠ eolCh ∧ c ≠ 0)
    {buf : Str} (room : buf.length < setup.maxChars)
    (long : setup.maxChars ≤ buf.length + piece.length) (rest : List UInt8) :
    ∃ word rest', lineLoop setup eolCh repl buf (piece ++ rest) = .ok ([], word, rest') ∧
      word ≠ [] := by
  induction piece generalizing buf with
  | nil =>
    rw [List.length_nil] at long
    omega
  | cons c piece ih =>
    obtain ⟨notEol, notNul⟩ := unbroken c List.mem_cons_self
    rw [List.length_cons] at long
    rw [List.cons_append, lineLoop, if_neg fun ends => notEol ends.1, if_neg (by tauto)]
    split_ifs with full
    · exact ⟨_, _, rfl, List.append_ne_nil_of_right_ne_nil _ (List.cons_ne_nil _ _)⟩
    · exact ih (fun c' mem => unbroken c' (List.mem_cons_of_mem c mem))
        (by rw [List.length_append, List.length_singleton]; omega)
        (by rw [List.length_append, List.length_singleton]; omega)

variable {eolCh : UInt8} {piece : List UInt8}

variable (repl) in
/-- The end of a line behind characters that fit. -/
theorem lineLoop_ended (unbroken : ∀ c ∈ piece, c ≠ eolCh ∧ c ≠ 0)
    (short : piece.length < setup.maxChars) {c : UInt8} (ends : c = eolCh ∨ c = 0)
    (line : c = eolCh → piece ≠ []) (rest : List UInt8) :
    lineLoop setup eolCh repl [] (piece ++ c :: rest) = (do
      let args ← setup.argv.mapM (replaceIn repl piece)
      return (args, [], rest)) := by
  rw [lineLoop_fits repl unbroken (by rwa [List.length_nil, Nat.zero_add]), List.nil_append,
    lineLoop, if_neg fun empty => line empty.1 empty.2, if_pos ends]

variable (repl) in
/-- The end of the input behind them. -/
theorem lineLoop_eof (unbroken : ∀ c ∈ piece, c ≠ eolCh ∧ c ≠ 0)
    (short : piece.length < setup.maxChars) (line : piece ≠ []) :
    lineLoop setup eolCh repl [] piece = (do
      let args ← setup.argv.mapM (replaceIn repl piece)
      return (args, [], [])) := by
  have read := lineLoop_fits repl unbroken
    (by rwa [List.length_nil, Nat.zero_add] : ([] : Str).length + piece.length < setup.maxChars) []
  rw [List.append_nil, List.nil_append] at read
  rw [read, lineLoop, if_neg line]

theorem firstLine_clean (eolCh : UInt8) (input : List UInt8) :
    ∀ c ∈ firstLine eolCh input, c ≠ eolCh :=
  fun _ mem => of_decide_eq_true (List.mem_takeWhile_imp (p := (· ≠ eolCh)) mem)

variable (repl) in
/-- A line that fits and has no NUL in it is read up to its end. -/
theorem lineLoop_line {input : List UInt8} (clean : 0 ∉ firstLine eolCh input)
    (short : (firstLine eolCh input).length < setup.maxChars)
    (nonempty : firstLine eolCh input ≠ []) :
    lineLoop setup eolCh repl [] input = (do
      let args ← setup.argv.mapM (replaceIn repl (firstLine eolCh input))
      return (args, [], behindLine eolCh input)) := by
  have unbroken : ∀ c ∈ firstLine eolCh input, c ≠ eolCh ∧ c ≠ 0 := by
    intro c mem
    exact ⟨firstLine_clean eolCh input c mem, fun nul => clean (nul ▸ mem)⟩
  rcases firstLine_cases eolCh input with ⟨last, none⟩ | ends
  · have read := lineLoop_eof repl unbroken short nonempty
    rw [none]
    rwa [← last] at read ⊢
  · have read := lineLoop_ended repl unbroken short (.inl rfl) (fun _ => nonempty)
      (behindLine eolCh input)
    rwa [← ends] at read

/-- Whatever is read, it is taken from the input. -/
theorem lineLoop_shrinks {input rest : List UInt8} {buf buf' : Str} {args : List Str}
    (read : lineLoop setup eolCh repl buf input = .ok (args, buf', rest)) :
    rest.length ≤ input.length ∧ (args ≠ [] → rest.length < input.length + buf.length) := by
  induction input generalizing buf with
  | nil =>
    rw [lineLoop] at read
    split_ifs at read with empty
    · cases read
      exact ⟨Nat.le_refl _, fun some => absurd rfl some⟩
    · obtain ⟨_, -, same⟩ := bind_eq_ok.mp read
      cases same
      exact ⟨Nat.le_refl _, fun _ => Nat.add_pos_right _ (List.length_pos_of_ne_nil empty)⟩
  | cons c input ih =>
    rw [lineLoop] at read
    rw [List.length_cons]
    split_ifs at read with empty ends full
    · cases read
      exact ⟨Nat.le_succ _, fun some => absurd rfl some⟩
    · obtain ⟨_, -, same⟩ := bind_eq_ok.mp read
      cases same
      exact ⟨Nat.le_succ _, fun _ => by omega⟩
    · cases read
      exact ⟨Nat.le_succ _, fun some => absurd rfl some⟩
    · obtain ⟨less, strict⟩ := ih read
      rw [List.length_append, List.length_singleton] at strict
      exact ⟨less.trans (Nat.le_succ _), fun some => by have := strict some; omega⟩

/-! ## The turns for a line -/

/-- The loop in front of a line -/
def betweenLines (runs : List Run) (input : List UInt8) : Loop :=
  ⟨⟨input, [], .norm, 0⟩, true, runs, none⟩

section

variable (setup opts host repl)

/-- The loop of `xargs_main` with `-I` -/
def lineTurn : Loop → Option Loop := xargsTurn (opts.replacing repl) setup host

end

variable {runs : List Run} {input rest : List UInt8} {args : List Str}

variable (setup opts host repl) in
theorem exists_lineTurn_last (loop : Loop) :
    ∃ last, Leaves (lineTurn setup opts host repl) loop last := by
  have shrinks : ∀ (loop : Loop) (added : List Str) (state' : State), True →
      loop.ending = none → (opts.replacing repl).readArgs setup loop.state = .ok (added, state') →
        state'.input.length ≤ loop.state.input.length ∧
          (added ≠ [] → state'.input.length < loop.state.input.length) := by
    intro loop added state' _ _ read
    obtain ⟨⟨args, buf, rest⟩, line, same⟩ := bind_eq_ok.mp read
    cases same
    exact lineLoop_shrinks line
  obtain ⟨last, -, leaves, -⟩ := exists_last (fun _ => True) (fun state => state.input.length)
    (fun _ _ _ _ => trivial) shrinks trivial
  exact ⟨last, leaves⟩

theorem read_of_line {buf : Str}
    (line : lineLoop setup opts.eolCh repl [] input = .ok (args, buf, rest)) :
    (opts.replacing repl).readArgs setup (betweenLines runs input).state =
      .ok (args, ⟨rest, buf, .norm, 0⟩) := by
  show (lineLoop setup opts.eolCh repl [] input >>= _) = _
  rw [line]
  rfl

theorem leaves_finished
    (line : lineLoop setup opts.eolCh repl [] input = .ok ([], [], rest)) :
    Leaves (lineTurn setup opts host repl) (betweenLines runs input)
      { betweenLines runs rest with ending := some .finished } :=
  leaves_of_ending rfl (turn_finished rfl (read_of_line line) rfl rfl)

theorem leaves_long {word : Str} (nonempty : word ≠ [])
    (line : lineLoop setup opts.eolCh repl [] input = .ok ([], word, rest)) :
    Leaves (lineTurn setup opts host repl) (betweenLines runs input)
      ⟨⟨rest, word, .norm, 0⟩, true, runs, some .lineTooLong⟩ :=
  leaves_of_ending rfl (turn_long rfl (read_of_line line) nonempty)

theorem leaves_failed {ending : Ending}
    (line : lineLoop setup opts.eolCh repl [] input = .error ending) :
    Leaves (lineTurn setup opts host repl) (betweenLines runs input)
      { betweenLines runs input with ending := some ending } := by
  refine leaves_of_ending rfl (turn_error rfl ?_)
  show (lineLoop setup opts.eolCh repl [] input >>= _) = _
  rw [line]
  rfl

variable (host runs) in
theorem turn_line (nonempty : args ≠ [])
    (line : lineLoop setup opts.eolCh repl [] input = .ok (args, [], rest)) :
    lineTurn setup opts host repl (betweenLines runs input) =
      some { betweenLines (runs ++ [commandLine opts host runs args rest]) rest with
        ending := if (commandLine opts host runs args rest).Stops host runs then some .aborted
          else none } :=
  turn_run rfl (read_of_line line) nonempty

theorem leaves_stopped (nonempty : args ≠ [])
    (line : lineLoop setup opts.eolCh repl [] input = .ok (args, [], rest))
    (stops : (commandLine opts host runs args rest).Stops host runs) :
    Leaves (lineTurn setup opts host repl) (betweenLines runs input)
      { betweenLines (runs ++ [commandLine opts host runs args rest]) rest with
        ending := some .aborted } := by
  have next := turn_line host runs nonempty line
  rw [if_pos stops] at next
  exact leaves_of_ending rfl next

theorem leaves_next {last : Loop} (nonempty : args ≠ [])
    (line : lineLoop setup opts.eolCh repl [] input = .ok (args, [], rest))
    (goesOn : ¬(commandLine opts host runs args rest).Stops host runs)
    (later : Leaves (lineTurn setup opts host repl)
      (betweenLines (runs ++ [commandLine opts host runs args rest]) rest) last) :
    Leaves (lineTurn setup opts host repl) (betweenLines runs input) last := by
  have next := turn_line host runs nonempty line
  rw [if_neg goesOn] at next
  exact .next next later

/-! ## What is expected of a line -/

variable (setup host repl runs) in
theorem serveLines_empty (nonempty : input ≠ []) (empty : firstLine opts.eolCh input = []) :
    serveLines setup opts host repl runs input =
      serveLines setup opts host repl runs (behindLine opts.eolCh input) := by
  rw [serveLines, dif_pos nonempty]
  exact if_pos empty

variable (host repl runs) in
theorem serveLines_long (line : firstLine opts.eolCh input ≠ [])
    (long : setup.maxChars ≤ (firstLine opts.eolCh input).length) :
    serveLines setup opts host repl runs input = (runs, .lineTooLong) := by
  have nonempty : input ≠ [] := fun empty => line (by rw [empty]; rfl)
  rw [serveLines, dif_pos nonempty]
  dsimp only
  rw [if_neg line, if_pos long]

variable (setup opts host repl runs) in
theorem serveLines_short (line : firstLine opts.eolCh input ≠ [])
    (short : (firstLine opts.eolCh input).length < setup.maxChars) {run : Run}
    (isRun : run = lineRun setup opts host repl runs (firstLine opts.eolCh input)
      (behindLine opts.eolCh input)) :
    serveLines setup opts host repl runs input =
      if run.Stops host runs then (runs ++ [run], .aborted)
      else serveLines setup opts host repl (runs ++ [run]) (behindLine opts.eolCh input) := by
  have nonempty : input ≠ [] := fun empty => line (by rw [empty]; rfl)
  rw [isRun, serveLines, dif_pos nonempty]
  dsimp only
  rw [if_neg line, if_neg (not_le.mpr short)]

/-- Command lines are added to those in front, and nothing faults. -/
theorem serveLines_front (runs : List Run) (input : List UInt8) :
    runs <+: (serveLines setup opts host repl runs input).1 ∧
      ∀ fault, (serveLines setup opts host repl runs input).2 ≠ .fault fault := by
  induction runs, input using serveLines.induct setup opts host repl with
  | case1 runs input nonempty line rest empty ih =>
    rwa [serveLines_empty setup host repl runs nonempty empty]
  | case2 runs input nonempty line some long =>
    rw [serveLines_long host repl runs some long]
    exact ⟨List.prefix_rfl, nofun⟩
  | case3 runs input nonempty line rest some short run stops =>
    rw [serveLines_short setup opts host repl runs some (not_le.mp short) rfl, if_pos stops]
    exact ⟨List.prefix_append _ _, nofun⟩
  | case4 runs input nonempty line rest some short run goesOn ih =>
    rw [serveLines_short setup opts host repl runs some (not_le.mp short) rfl, if_neg goesOn]
    exact ⟨(List.prefix_append _ _).trans ih.1, ih.2⟩
  | case5 runs input empty =>
    rw [serveLines, dif_neg empty]
    exact ⟨List.prefix_rfl, nofun⟩

/-- The next command line that is expected is the one for the first line. -/
theorem serveLines_next (line : firstLine opts.eolCh input ≠ []) {run : Run} {more : List Run}
    (served : runs ++ run :: more <+: (serveLines setup opts host repl runs input).1) :
    run = lineRun setup opts host repl runs (firstLine opts.eolCh input)
        (behindLine opts.eolCh input) ∧ (firstLine opts.eolCh input).length < setup.maxChars := by
  rcases Nat.lt_or_ge (firstLine opts.eolCh input).length setup.maxChars with short | long
  · refine ⟨?_, short⟩
    have expected : runs ++ [lineRun setup opts host repl runs (firstLine opts.eolCh input)
        (behindLine opts.eolCh input)] <+: (serveLines setup opts host repl runs input).1 := by
      rw [serveLines_short setup opts host repl runs line short rfl]
      split
      · exact List.prefix_rfl
      · exact (serveLines_front _ _).1
    obtain ⟨behind, whole⟩ := served
    obtain ⟨behind', whole'⟩ := expected
    rw [← whole', List.append_assoc, List.append_assoc] at whole
    exact (List.cons.inj (List.append_cancel_left whole)).1
  · rw [serveLines_long host repl runs line long] at served
    have longer := served.length_le
    rw [List.length_append, List.length_cons] at longer
    dsimp only at longer
    omega

theorem Serves.not_fault {last : Loop} (serves : Serves setup opts host repl runs input last)
    (fault : Fault) : last.ending ≠ some (.fault fault) := by
  intro ended
  have expected := serves.2.1.symm.trans ended
  exact (serveLines_front runs input).2 fault (Option.some.inj expected)

variable (setup opts host repl runs) in
theorem regular_line (line : firstLine opts.eolCh input ≠ []) {run : Run}
    (isRun : run = lineRun setup opts host repl runs (firstLine opts.eolCh input)
      (behindLine opts.eolCh input)) :
    Regular setup opts host repl runs input ↔
      setup.maxChars ≤ (cstr (firstLine opts.eolCh input)).length ∨
        Unused setup repl (firstLine opts.eolCh input) input ∨
        Passable setup repl (firstLine opts.eolCh input) ∧ (run.Stops host runs ∨
          Regular setup opts host repl (runs ++ [run]) (behindLine opts.eolCh input)) := by
  have nonempty : input ≠ [] := fun empty => line (by rw [empty]; rfl)
  rw [isRun, Regular, dif_pos nonempty]
  dsimp only
  rw [if_neg line]

/-! ## One line after another -/

variable (setup opts host repl) in
/-- The loop comes to an end, which is the expected one exactly where the input is regular. -/
def Settled (runs : List Run) (input : List UInt8) : Prop :=
  ∃ last, Leaves (lineTurn setup opts host repl) (betweenLines runs input) last ∧
    (Serves setup opts host repl runs input last ↔ Regular setup opts host repl runs input)

theorem regular_end : Regular setup opts host repl runs [] := by
  rw [Regular, dif_neg (not_not.mpr rfl)]
  trivial

theorem settled_end : Settled setup opts host repl runs [] := by
  have read : lineLoop setup opts.eolCh repl [] [] = .ok ([], [], []) := rfl
  have expected : serveLines setup opts host repl runs [] = (runs, .finished) := by
    rw [serveLines, dif_neg (not_not.mpr rfl)]
  refine ⟨_, leaves_finished read, iff_of_true ?_ regular_end⟩
  unfold Serves
  rw [expected]
  exact ⟨rfl, rfl, fun _ => rfl⟩

/-- xargs takes an empty line for the end of the input. -/
theorem settled_empty (nonempty : input ≠ []) (empty : firstLine opts.eolCh input = []) :
    Settled setup opts host repl runs input := by
  have line : input = opts.eolCh :: behindLine opts.eolCh input := by
    rcases firstLine_cases opts.eolCh input with ⟨last, -⟩ | ends
    · exact absurd (last.trans empty) nonempty
    · rwa [empty, List.nil_append] at ends
  have read : lineLoop setup opts.eolCh repl [] input =
      .ok ([], [], behindLine opts.eolCh input) := by
    conv_lhs => rw [line]
    rw [lineLoop, if_pos ⟨rfl, rfl⟩]
  refine ⟨_, leaves_finished read, ?_⟩
  rw [Regular, dif_pos nonempty]
  dsimp only
  rw [if_pos empty]
  constructor
  · intro serves
    exact serves.2.2 rfl
  · intro none
    unfold Serves
    rw [serveLines_empty setup host repl runs nonempty empty, none, serveLines,
      dif_neg (not_not.mpr rfl)]
    exact ⟨rfl, rfl, fun _ => rfl⟩

/-- The line is the string in front of its first NUL, and what is behind that. -/
theorem cstr_cases (line : List UInt8) :
    (0 ∉ line ∧ cstr line = line) ∨ ∃ more, line = cstr line ++ 0 :: more := by
  unfold cstr
  have whole := List.takeWhile_append_dropWhile (p := (· ≠ (0 : UInt8))) (l := line)
  cases rest : line.dropWhile (· ≠ 0) with
  | nil =>
    rw [rest, List.append_nil] at whole
    refine .inl ⟨fun nul => ?_, whole⟩
    rw [← whole] at nul
    exact of_decide_eq_true (List.mem_takeWhile_imp (p := (· ≠ (0 : UInt8))) nul) rfl
  | cons c more =>
    have ends : c = 0 := by
      have stops := List.head?_dropWhile_not (· ≠ (0 : UInt8)) line
      rw [rest] at stops
      simpa using stops
    rw [rest, ends] at whole
    exact .inr ⟨more, whole.symm⟩

theorem cstr_unbroken (eolCh : UInt8) (input : List UInt8) :
    ∀ c ∈ cstr (firstLine eolCh input), c ≠ eolCh ∧ c ≠ 0 := by
  intro c mem
  refine ⟨firstLine_clean eolCh input c ((List.takeWhile_prefix _).subset mem), ?_⟩
  exact of_decide_eq_true (List.mem_takeWhile_imp (p := (· ≠ (0 : UInt8))) mem)

/-- A line that does not fit, in front of its first NUL. -/
theorem settled_long (line : firstLine opts.eolCh input ≠ [])
    (long : setup.maxChars ≤ (cstr (firstLine opts.eolCh input)).length) :
    Settled setup opts host repl runs input := by
  have front : cstr (firstLine opts.eolCh input) <+: input :=
    (List.takeWhile_prefix _).trans (List.takeWhile_prefix _)
  obtain ⟨more, whole⟩ := front
  have room : ([] : Str).length < setup.maxChars := setup.room
  obtain ⟨word, rest, read, some⟩ := lineLoop_long repl (cstr_unbroken opts.eolCh input) room
    (by rwa [List.length_nil, Nat.zero_add]) more
  rw [whole] at read
  have regular := (regular_line setup opts host repl runs line rfl).mpr (.inl long)
  refine ⟨_, leaves_long some read, iff_of_true ?_ regular⟩
  unfold Serves
  rw [serveLines_long host repl runs line (long.trans (List.takeWhile_prefix _).length_le)]
  exact ⟨rfl, rfl, nofun⟩

/-- The command is run as expected, and the lines behind are settled. -/
theorem exists_last_of_run (line : firstLine opts.eolCh input ≠ [])
    (short : (firstLine opts.eolCh input).length < setup.maxChars)
    (read : lineLoop setup opts.eolCh repl [] input = .ok (args, [], rest))
    (expected : commandLine opts host runs args rest = lineRun setup opts host repl runs
      (firstLine opts.eolCh input) (behindLine opts.eolCh input))
    (later : ∀ runs, Settled setup opts host repl runs (behindLine opts.eolCh input)) :
    ∃ last, Leaves (lineTurn setup opts host repl) (betweenLines runs input) last ∧
      (Serves setup opts host repl runs input last ↔
        (lineRun setup opts host repl runs (firstLine opts.eolCh input)
          (behindLine opts.eolCh input)).Stops host runs ∨
          Regular setup opts host repl (runs ++ [lineRun setup opts host repl runs
            (firstLine opts.eolCh input) (behindLine opts.eolCh input)])
            (behindLine opts.eolCh input)) := by
  have sameArgs : args = setup.argv.map (replaced repl (firstLine opts.eolCh input)) :=
    congrArg Run.args expected
  have sameRest : rest = behindLine opts.eolCh input := congrArg Run.unread expected
  have some : args ≠ [] := by
    rw [sameArgs]
    exact fun none => setup.command (List.map_eq_nil_iff.mp none)
  have served := serveLines_short setup opts host repl runs line short expected
  rw [← expected]
  by_cases stops : (commandLine opts host runs args rest).Stops host runs
  · rw [if_pos stops] at served
    refine ⟨_, leaves_stopped some read stops, iff_of_true ?_ (.inl stops)⟩
    unfold Serves
    rw [served]
    exact ⟨rfl, rfl, nofun⟩
  · rw [if_neg stops] at served
    obtain ⟨last, leaves, same⟩ := later (runs ++ [commandLine opts host runs args rest])
    rw [← sameRest] at leaves
    refine ⟨last, leaves_next some read stops leaves, ?_⟩
    rw [or_iff_right stops, ← same]
    unfold Serves
    rw [served]

/-- A line without a NUL that fits. -/
theorem settled_clean (line : firstLine opts.eolCh input ≠ [])
    (clean : 0 ∉ firstLine opts.eolCh input)
    (short : (firstLine opts.eolCh input).length < setup.maxChars)
    (later : ∀ runs, Settled setup opts host repl runs (behindLine opts.eolCh input)) :
    Settled setup opts host repl runs input := by
  have read := lineLoop_line repl clean short line
  have whole : cstr (firstLine opts.eolCh input) = firstLine opts.eolCh input :=
    List.takeWhile_eq_self_iff.mpr fun c mem => decide_eq_true fun nul => clean (nul ▸ mem)
  have notLong : ¬setup.maxChars ≤ (cstr (firstLine opts.eolCh input)).length := by
    rw [whole]
    exact not_le.mpr short
  have used : ¬Unused setup repl (firstLine opts.eolCh input) input := by
    rintro ⟨-, ⟨text, nul, -⟩, -, -⟩
    rw [nul] at clean
    exact clean (List.mem_append_right _ (List.mem_singleton_self 0))
  have split := regular_line setup opts host repl runs line rfl
  rw [or_iff_right notLong, or_iff_right used] at split
  by_cases passable : Passable setup repl (firstLine opts.eolCh input)
  · rw [(mapM_replaceIn short clean).1 passable] at read
    obtain ⟨last, leaves, same⟩ := exists_last_of_run line short read rfl later
    exact ⟨last, leaves, by rw [same, split, and_iff_right passable]⟩
  · obtain ⟨fault, failed⟩ := (mapM_replaceIn short clean).2 passable
    rw [failed] at read
    refine ⟨_, leaves_failed read, iff_of_false (fun serves => serves.not_fault fault rfl) ?_⟩
    exact fun regular => passable (split.mp regular).1

/-- Where there is nothing to replace, every line can be passed. -/
theorem Unused.passable {line : List UInt8} (unused : Unused setup repl line input) {text : Str}
    (clean : 0 ∉ text) : Passable setup repl text := by
  refine ⟨?_, clean, fun arg mem => ?_⟩
  · rintro rfl
    obtain ⟨arg, mem⟩ := List.exists_mem_of_ne_nil _ setup.command
    have none := unused.nothing arg mem
    rw [occurrences_nil] at none
    cases none
  · rw [unused.nothing arg mem, Int.natCast_zero, zero_mul]
    exact Int.natCast_nonneg _

/-- Replacing with strings of different lengths gives the same only where nothing is replaced. -/
theorem occurrences_eq_zero {arg line line' : Str} (longer : line.length < line'.length)
    (same : replaced repl line arg = replaced repl line' arg) : occurrences repl arg = 0 := by
  have grown := length_replaced repl line arg
  have grown' := length_replaced repl line' arg
  rw [← same, grown] at grown'
  by_contra some
  have less := Nat.mul_lt_mul_of_pos_left longer (Nat.pos_of_ne_zero some)
  omega

variable (host runs) in
/-- A command is run, and the loop comes to an end behind it. -/
theorem exists_last_behind_run (nonempty : args ≠ [])
    (read : lineLoop setup opts.eolCh repl [] input = .ok (args, [], rest)) :
    ∃ last, Leaves (lineTurn setup opts host repl) (betweenLines runs input) last ∧
      runs ++ [commandLine opts host runs args rest] <+: last.runs := by
  by_cases stops : (commandLine opts host runs args rest).Stops host runs
  · exact ⟨_, leaves_stopped nonempty read stops, List.prefix_rfl⟩
  · obtain ⟨last, leaves⟩ := exists_lineTurn_last setup opts host repl
      (betweenLines (runs ++ [commandLine opts host runs args rest]) rest)
    exact ⟨last, leaves_next nonempty read stops leaves, runs_prefix leaves⟩

/-- Only the last character is a NUL. -/
theorem eq_nil_of_last_nul {front behind text : List UInt8} (clean : 0 ∉ text)
    (same : front ++ 0 :: behind = text ++ [0]) : behind = [] := by
  rcases List.eq_nil_or_concat behind with none | ⟨init, c, rfl⟩
  · exact none
  · rw [List.concat_eq_append, ← List.cons_append, ← List.append_assoc] at same
    have inside := (List.append_inj' same rfl).1
    rw [← inside] at clean
    exact absurd (List.mem_append_right _ List.mem_cons_self) clean

/-- A line with a NUL, which xargs takes for the end of the line. -/
theorem settled_nul {more : List UInt8}
    (split : firstLine opts.eolCh input = cstr (firstLine opts.eolCh input) ++ 0 :: more)
    (short : (cstr (firstLine opts.eolCh input)).length < setup.maxChars) :
    Settled setup opts host repl runs input := by
  have unbroken := cstr_unbroken opts.eolCh input
  have line : firstLine opts.eolCh input ≠ [] := by
    rw [split]
    exact List.append_ne_nil_of_right_ne_nil _ (List.cons_ne_nil _ _)
  have nul : 0 ∈ firstLine opts.eolCh input := by
    rw [split]
    exact List.mem_append_right _ List.mem_cons_self
  have text : 0 ∉ cstr (firstLine opts.eolCh input) := fun mem => (unbroken 0 mem).2 rfl
  obtain ⟨rest, whole, behind⟩ : ∃ rest, input = cstr (firstLine opts.eolCh input) ++ 0 :: rest ∧
      ((input = firstLine opts.eolCh input ∧ behindLine opts.eolCh input = [] ∧ rest = more) ∨
        rest = more ++ opts.eolCh :: behindLine opts.eolCh input) := by
    rcases firstLine_cases opts.eolCh input with ⟨last, none⟩ | ends
    · exact ⟨more, last.trans split, .inl ⟨last, none, rfl⟩⟩
    · refine ⟨_, ?_, .inr rfl⟩
      conv_lhs => rw [ends, split]
      rw [List.append_assoc]
      rfl
  have read := lineLoop_ended repl unbroken short (.inr rfl)
    (fun eol => absurd eol (firstLine_clean _ _ 0 nul)) rest
  rw [← whole] at read
  have regular := regular_line setup opts host repl runs line rfl
  rw [or_iff_right (not_le.mpr short), or_iff_left fun passable => passable.1.text nul] at regular
  by_cases passable : Passable setup repl (cstr (firstLine opts.eolCh input))
  · rw [(mapM_replaceIn short text).1 passable] at read
    by_cases unused : Unused setup repl (firstLine opts.eolCh input) input
    · -- nothing depends on the NUL
      obtain ⟨text', nulEnd, clean⟩ := unused.text
      have none : more = [] := eq_nil_of_last_nul clean (split.symm.trans nulEnd)
      have last : rest = more := by
        have same := (whole.symm.trans unused.last).trans split
        exact (List.cons.inj (List.append_cancel_left same)).2
      have atEnd : behindLine opts.eolCh input = [] := by
        rcases behind with ⟨-, atEnd, -⟩ | ends
        · exact atEnd
        · rw [last, none] at ends
          cases ends
      have expected : commandLine opts host runs
          (setup.argv.map (replaced repl (cstr (firstLine opts.eolCh input)))) rest =
          lineRun setup opts host repl runs (firstLine opts.eolCh input)
            (behindLine opts.eolCh input) := by
        unfold lineRun
        rw [last, none, atEnd]
        congr 1
        refine List.map_congr_left fun arg mem => ?_
        rw [replaced_eq_self _ (unused.nothing arg mem),
          replaced_eq_self _ (unused.nothing arg mem)]
      obtain ⟨end_, leaves, same⟩ := exists_last_of_run line unused.short read expected
        fun runs => by rw [atEnd]; exact settled_end
      refine ⟨end_, leaves, iff_of_true (same.mpr (.inr ?_)) (regular.mpr unused)⟩
      rw [atEnd]
      exact regular_end
    · -- the command line is another one, or the input behind it is
      have some : setup.argv.map (replaced repl (cstr (firstLine opts.eolCh input))) ≠ [] :=
        fun none => setup.command (List.map_eq_nil_iff.mp none)
      obtain ⟨last, leaves, ran⟩ := exists_last_behind_run host runs some read
      refine ⟨last, leaves, iff_of_false (fun serves => unused ?_)
        fun isRegular => unused (regular.mp isRegular)⟩
      rw [serves.1] at ran
      obtain ⟨isRun, lineShort⟩ := serveLines_next line ran
      have sameArgs := congrArg Run.args isRun
      have sameRest : rest = behindLine opts.eolCh input := congrArg Run.unread isRun
      rcases behind with ⟨last, atEnd, ends⟩ | longer
      · rw [← ends, sameRest, atEnd] at split
        refine ⟨last, ⟨_, split, text⟩, lineShort, fun arg mem => ?_⟩
        refine occurrences_eq_zero ?_ (List.map_inj_left.mp sameArgs arg mem)
        conv_rhs => rw [split]
        rw [List.length_append, List.length_singleton]
        exact Nat.lt_succ_self _
      · have tooLong := congrArg List.length longer
        rw [sameRest, List.length_append, List.length_cons] at tooLong
        omega
  · obtain ⟨fault, failed⟩ := (mapM_replaceIn short text).2 passable
    rw [failed] at read
    refine ⟨_, leaves_failed read, iff_of_false (fun serves => serves.not_fault fault rfl) ?_⟩
    exact fun isRegular => passable ((regular.mp isRegular).passable text)

variable (setup opts host repl) in
theorem settled (runs : List Run) (input : List UInt8) :
    Settled setup opts host repl runs input := by
  induction size : input.length using Nat.strongRecOn generalizing runs input with
  | _ n ih =>
    by_cases nonempty : input = []
    · rw [nonempty]
      exact settled_end
    by_cases line : firstLine opts.eolCh input = []
    · exact settled_empty nonempty line
    by_cases long : setup.maxChars ≤ (cstr (firstLine opts.eolCh input)).length
    · exact settled_long line long
    rcases cstr_cases (firstLine opts.eolCh input) with ⟨clean, whole⟩ | ⟨more, split⟩
    · rw [whole] at long
      refine settled_clean line clean (not_le.mp long) fun runs => ?_
      exact ih _ (size ▸ behindLine_lt nonempty opts.eolCh) runs _ rfl
    · exact settled_nul split (not_le.mp long)

end

/-! ## Any input -/

/-- With `-I` the loop is left with one command for each line that is not empty, the line in every
argument, and with the whole input read if neither the command nor a long line is in the way,
exactly where the input is regular. -/
theorem lines_served_iff (setup : Setup) (opts : Options) (host : Host) (repl : Str)
    (input : List UInt8) :
    ∃ last, Leaves (xargsTurn (opts.replacing repl) setup host)
        (.start (opts.replacing repl) input) last ∧
      (Serves setup opts host repl [] input last ↔ Regular setup opts host repl [] input) := by
  obtain ⟨last, leaves, same⟩ := settled setup opts host repl [] input
  refine ⟨last, ?_, same⟩
  have start : Loop.start (opts.replacing repl) input = betweenLines [] input := by
    unfold Loop.start betweenLines
    rw [show (opts.replacing repl).replStr.isSome = true from rfl, Bool.or_true]
  rw [start]
  exact leaves

/-- `echo X`, with room for a hundred bytes -/
def echoSetup : Setup :=
  ⟨[ascii "echo", ascii "X"], 100, 100, List.cons_ne_nil _ _, by decide, by decide, by decide⟩

/-- The input is `a`, an empty line and `b`: there is no command for `b`. -/
theorem lines_dropped :
    ∃ last, Leaves (xargsTurn (defaults.replacing (ascii "X")) echoSetup willing)
        (.start (defaults.replacing (ascii "X")) [97, 10, 10, 98, 10]) last ∧
      last.runs = [⟨[ascii "echo", ascii "a"], [10, 98, 10], true⟩] ∧
      ¬Serves echoSetup defaults willing (ascii "X") [] [97, 10, 10, 98, 10] last := by
  have first : lineLoop echoSetup defaults.eolCh (ascii "X") [] [97, 10, 10, 98, 10] =
      .ok ([ascii "echo", ascii "a"], [], [10, 98, 10]) := by decide +kernel
  have second : lineLoop echoSetup defaults.eolCh (ascii "X") [] [10, 98, 10] =
      .ok ([], [], [98, 10]) := rfl
  have goesOn : ¬(commandLine defaults willing [] [ascii "echo", ascii "a"]
      [10, 98, 10]).Stops willing [] := Bool.false_ne_true
  refine ⟨_, leaves_next (List.cons_ne_nil _ _) first goesOn (leaves_finished second), rfl, ?_⟩
  intro serves
  cases serves.2.2 rfl

end Busybox.Xargs
