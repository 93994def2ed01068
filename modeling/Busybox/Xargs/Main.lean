import Busybox.Lib.Loops
import Busybox.Libbb.Replace

/-!
# xargs

`xargs_main` reads arguments into its buffer, runs the command on them and starts again with what
is left in the buffer, the beginning of a word at most. Each of its readers has its own idea of what
an argument is.
-/

namespace Busybox.Xargs

open Libbb.Replace

def INT_MAX : ℕ := 2 ^ 31 - 1

/-- What `xatou_range` lets through. -/
abbrev Limit := {n : ℕ // 1 ≤ n ∧ n ≤ INT_MAX}

/-- The options that the loop reads. -/
structure Options where
  /-- `-r` -/
  noEmpty : Bool
  /-- `-n` -/
  upToNumber : Option Limit
  /-- `-s` -/
  upToSize : Option Limit
  /-- the string of `-e` or `-E` -/
  eofStr : Option Str
  /-- `-p` -/
  interactive : Bool
  /-- `-0` -/
  zeroTerm : Bool
  /-- the string of `-I` or `-i` -/
  replStr : Option Str

/-- No option at all -/
def defaults : Options := ⟨false, none, none, none, false, false, none⟩

/-- The bytes of arguments with their NULs -/
def nChars (args : List Str) : ℕ := (args.map fun arg => arg.length + 1).sum

/-- The command with its arguments, and what there is room for behind them. -/
structure Setup where
  argv : List Str
  maxChars : ℕ
  maxArg : ℕ
  command : argv ≠ []
  room : 0 < maxChars
  some : 0 < maxArg
  inRange : maxChars + nChars argv ≤ INT_MAX

/-- `n_max_chars` before the arguments of the command are accounted for -/
def sizeLimit (argMax : ℕ) (opts : Options) : ℤ :=
  match opts.upToSize with
  | some size => size.val
  | none => ((min argMax (32 * 1024) : ℕ) : ℤ) - 2048

theorem sizeLimit_le (argMax : ℕ) (opts : Options) : sizeLimit argMax opts ≤ INT_MAX := by
  unfold sizeLimit
  split
  case h_1 size _ => exact Int.ofNat_le.mpr size.property.2
  case h_2 =>
    have most : min argMax (32 * 1024) ≤ 32 * 1024 := min_le_right _ _
    unfold INT_MAX
    omega

/-- The limits, unless the arguments of the command leave no room. -/
def prepare (argMax : ℕ) (opts : Options) (argv : List Str) : Option Setup :=
  -- default behavior is to echo all the filenames
  let argv := if argv = [] then [ascii "echo"] else argv
  let left := (sizeLimit argMax opts - nChars argv).toNat
  if room : 0 < left then
    some {
      argv
      maxChars := left
      maxArg := (opts.upToNumber.map Subtype.val).getD left
      command := by
        dsimp only [argv]
        split
        · exact List.cons_ne_nil _ _
        · assumption
      room
      some := by
        cases opts.upToNumber with
        | none => exact room
        | some number => exact number.property.1
      inRange := by
        have most := sizeLimit_le argMax opts
        dsimp only [left] at room ⊢
        omega
    }
  else none

/-! ## Reading arguments -/

/-- `G.process_stdin__state` -/
inductive Quoting
  | norm
  | quote
  | backslash
  | space
  deriving DecidableEq

/-- Between two commands: what `getchar` has not returned, the string in the buffer, and the
quoting. -/
structure State where
  input : List UInt8
  buf : Str
  state : Quoting
  q : UInt8
  deriving DecidableEq

/-- How xargs ends: no argument is left, the command asks for it, or xargs dies. -/
inductive Ending
  | finished
  | aborted
  | lineTooLong
  | unmatchedQuote (q : UInt8)
  | fault (fault : Fault)
  deriving DecidableEq

/-- A string that has been read, up to its NUL. -/
def cstr (word : List UInt8) : Str := word.takeWhile (· ≠ 0)

/-- `ISSPACE` -/
def isspace (c : UInt8) : Bool := c - 9 = 32 - 9 || c - 9 ≤ 13 - 9

/-- The locals of a reader: the arguments stored, the characters from `s` to `p`, the room behind
them, `n_max_arg`, and the quoting. -/
structure Scan where
  args : List Str
  word : List UInt8
  room : ℕ
  maxArg : ℕ
  state : Quoting
  q : UInt8

/-- What a reader does behind a word. -/
inductive Flow
  | again
  | ret
  /-- it has eaten the rest of the input -/
  | eof

/-- `*p++ = c` -/
def Scan.set (scan : Scan) (c : UInt8) : Scan :=
  { scan with word := scan.word ++ [c], room := scan.room - 1 }

/-- `store_param(s)`, and the next word starts behind it. -/
def Scan.store (scan : Scan) : Scan × Flow :=
  let scan :=
    { scan with args := scan.args ++ [cstr scan.word], word := [], maxArg := scan.maxArg - 1 }
  (scan, if scan.maxArg = 0 ∨ scan.room = 0 then .ret else .again)

/-- What `process_stdin` does with a character, up to the test for the delimiter. -/
def Scan.character (scan : Scan) (c : UInt8) : Scan :=
  match scan.state with
  | .backslash => Scan.set { scan with state := .norm } c
  | .quote => if c ≠ scan.q then scan.set c else { scan with q := 0, state := .norm }
  | _ =>
    if isspace c then
      if scan.word ≠ [] then Scan.set { scan with state := .space } 0 else scan
    else if c = 92 then { scan with state := .backslash }
    else if c = 39 ∨ c = 34 then { scan with q := c, state := .quote }
    else scan.set c

/-- The word's delimiter or EOF is detected. -/
def Scan.delimit (eofStr : Option Str) (scan : Scan) : Except Ending (Scan × Flow) :=
  let scan := { scan with state := .norm }
  if scan.q ≠ 0 then .error (.unmatchedQuote scan.q)
  else if eofStr = some (cstr scan.word) then .ok ({ scan with word := [] }, .eof)
  else .ok scan.store

/-- The loop of `process_stdin`, and the rest of the input. -/
def wordLoop (eofStr : Option Str) (scan : Scan) :
    List UInt8 → Except Ending (Scan × List UInt8)
  | [] =>
    if scan.word ≠ [] then do
      -- EOF is found again behind the word
      let (scan, _) ← (Scan.set { scan with state := .space } 0).delimit eofStr
      return (scan, [])
    else .ok (scan, [])
  | c :: input =>
    let scan := scan.character c
    if scan.state = .space then
      match scan.delimit eofStr with
      | .error ending => .error ending
      | .ok (scan, .again) => wordLoop eofStr scan input
      | .ok (scan, .ret) => .ok (scan, input)
      | .ok (scan, .eof) => .ok (scan, [])
    else if scan.room = 0 then .ok (scan, input)
    else wordLoop eofStr scan input

/-- The locals at the start, with the seed that is in the buffer. -/
def Scan.start (setup : Setup) (state : State) : Scan where
  args := []
  word := state.buf
  room := setup.maxChars - state.buf.length
  maxArg := setup.maxArg
  state := state.state
  q := state.q

/-- `process_stdin`. -/
def processStdin (eofStr : Option Str) (setup : Setup) (state : State) :
    Except Ending (List Str × State) := do
  let (scan, input) ← wordLoop eofStr (.start setup state) state.input
  return (scan.args, ⟨input, cstr scan.word, scan.state, scan.q⟩)

/-- The loop of `process0_stdin`. -/
def itemLoop (scan : Scan) : List UInt8 → Scan × List UInt8
  | [] => if scan.word ≠ [] then ((scan.set 0).store.1, []) else (scan, [])
  | c :: input =>
    let scan := scan.set c
    if c = 0 then
      match scan.store with
      | (scan, .again) => itemLoop scan input
      | (scan, _) => (scan, input)
    else if scan.room = 0 then (scan, input)
    else itemLoop scan input

/-- `process0_stdin`. -/
def process0Stdin (setup : Setup) (state : State) : Except Ending (List Str × State) :=
  let (scan, input) := itemLoop (.start setup state) state.input
  .ok (scan.args, ⟨input, cstr scan.word, scan.state, scan.q⟩)

/-- An argument with the line in it. -/
def replaceIn (repl buf arg : Str) : Except Ending Str :=
  let count := asInt (countStrstr arg repl)
  if count ≠ 0 then (xmallocSubstituteString arg count repl buf).mapError .fault else .ok arg

/-- The loop of `process_stdin_with_replace`: the arguments, what is in the buffer, and the rest of
the input. -/
def lineLoop (setup : Setup) (eolCh : UInt8) (repl buf : Str) :
    List UInt8 → Except Ending (List Str × Str × List UInt8)
  | [] =>
    if buf = [] then .ok ([], [], []) -- empty line
    else do
      let args ← setup.argv.mapM (replaceIn repl buf)
      return (args, [], [])
  | c :: input =>
    if c = eolCh ∧ buf = [] then .ok ([], [], input) -- empty line
    else if c = eolCh ∨ c = 0 then do
      let args ← setup.argv.mapM (replaceIn repl buf)
      return (args, [], input)
    else if buf.length + 1 = setup.maxChars then .ok ([], buf ++ [c], input)
    else lineLoop setup eolCh repl (buf ++ [c]) input

/-- `process_stdin_with_replace`. The strings of the last invocation are freed in front of it. -/
def processStdinWithReplace (eolCh : UInt8) (repl : Str) (setup : Setup) (state : State) :
    Except Ending (List Str × State) := do
  let (args, buf, input) ← lineLoop setup eolCh repl [] state.input
  return (args, { state with input, buf })

/-! ## Running the command -/

/-- A command line, the input that is not read yet, and whether the user lets it be run. -/
structure Run where
  args : List Str
  unread : List UInt8
  confirmed : Bool
  deriving DecidableEq

/-- What the user and the command do after these command lines. -/
structure Host where
  /-- `xargs_ask_confirmation` -/
  confirms : List Run → List Str → Bool
  /-- `xargs_exec` does not return 0 -/
  aborts : List Run → List Str → Bool

/-- The user agrees to every command, and every command succeeds. -/
def willing : Host := ⟨fun _ _ => true, fun _ _ => false⟩

structure Loop where
  state : State
  noEmpty : Bool
  runs : List Run
  ending : Option Ending

/-- Run a command. -/
def Loop.run (host : Host) (interactive : Bool) (loop : Loop) (args : List Str) (state : State) :
    Loop :=
  let confirmed := !interactive || host.confirms loop.runs args
  { state
    noEmpty := true
    runs := loop.runs ++ [⟨args, state.input, confirmed⟩]
    ending := if confirmed && host.aborts loop.runs args then some .aborted else none }

/-- A turn of the loop of `xargs_main`. -/
def turn (readArgs : State → Except Ending (List Str × State)) (initial : List Str) (host : Host)
    (interactive : Bool) (loop : Loop) : Option Loop :=
  match loop.ending with
  | some _ => none
  | none =>
    match readArgs loop.state with
    | .error ending => some { loop with ending := some ending }
    | .ok (added, state) =>
      -- not even one ARG was added?
      if added = [] ∧ state.buf ≠ [] then some { loop with state, ending := some .lineTooLong }
      else if added = [] ∧ loop.noEmpty then some { loop with state, ending := some .finished }
      else some (loop.run host interactive (initial ++ added) state)

/-- `G.eol_ch` -/
def Options.eolCh (opts : Options) : UInt8 := if opts.zeroTerm then 0 else 10

/-- `read_args` -/
def Options.readArgs (opts : Options) (setup : Setup) : State → Except Ending (List Str × State) :=
  match opts.replStr with
  | some repl => processStdinWithReplace opts.eolCh repl setup
  | none =>
    if opts.zeroTerm then process0Stdin setup
    -- an empty string is none
    else processStdin (opts.eofStr.filter (· ≠ [])) setup

/-- With `-I` the arguments of the command are stored by the reader. -/
def Options.initialArgs (opts : Options) (setup : Setup) : List Str :=
  if opts.replStr.isSome then [] else setup.argv

/-- The loop of `xargs_main`. -/
def xargsTurn (opts : Options) (setup : Setup) (host : Host) : Loop → Option Loop :=
  turn (opts.readArgs setup) (opts.initialArgs setup) host opts.interactive

/-- Make -I imply -r. -/
def Loop.start (opts : Options) (input : List UInt8) : Loop where
  state := ⟨input, [], .norm, 0⟩
  noEmpty := opts.noEmpty || opts.replStr.isSome
  runs := []
  ending := none

/-- The command is run, and it asks xargs to stop. -/
def Run.Stops (host : Host) (runs : List Run) (run : Run) : Prop :=
  (run.confirmed && host.aborts runs run.args) = true

instance (host : Host) (runs : List Run) (run : Run) : Decidable (run.Stops host runs) :=
  instDecidableEqBool _ _

/-! ## Every run ends -/

section Turns

variable {readArgs : State → Except Ending (List Str × State)} {initial : List Str} {host : Host}
  {interactive : Bool} {loop loop' last : Loop}

/-- What a turn does: the reader fails, or without an argument the loop is over, or the command is
run. -/
theorem turn_cases (next : turn readArgs initial host interactive loop = some loop') :
    loop.ending = none ∧
      ((∃ ending, readArgs loop.state = .error ending ∧
          loop' = { loop with ending := some ending }) ∨
        ∃ added state, readArgs loop.state = .ok (added, state) ∧
          ((added = [] ∧ state.buf ≠ [] ∧
              loop' = { loop with state, ending := some .lineTooLong }) ∨
            (added = [] ∧ state.buf = [] ∧ loop' = { loop with state, ending := some .finished }) ∨
            ((added = [] → state.buf = [] ∧ loop.noEmpty = false) ∧
              loop' = loop.run host interactive (initial ++ added) state))) := by
  unfold turn at next
  split at next
  case h_1 => cases next
  case h_2 going =>
    refine ⟨going, ?_⟩
    split at next
    case h_1 ending failed => exact .inl ⟨ending, failed, (Option.some.inj next).symm⟩
    case h_2 added state read =>
      refine .inr ⟨added, state, read, ?_⟩
      split_ifs at next with long done
      · exact .inl ⟨long.1, long.2, (Option.some.inj next).symm⟩
      · have empty : state.buf = [] := not_not.mp fun left => long ⟨done.1, left⟩
        exact .inr (.inl ⟨done.1, empty, (Option.some.inj next).symm⟩)
      · refine .inr (.inr ⟨fun none => ⟨?_, ?_⟩, (Option.some.inj next).symm⟩)
        · exact not_not.mp fun left => long ⟨none, left⟩
        · exact Bool.eq_false_iff.mpr fun empty => done ⟨none, empty⟩

theorem turn_error {ending : Ending} (going : loop.ending = none)
    (failed : readArgs loop.state = .error ending) :
    turn readArgs initial host interactive loop = some { loop with ending := some ending } := by
  unfold turn
  rw [going]
  dsimp only
  rw [failed]

theorem turn_run {added : List Str} {state : State} (going : loop.ending = none)
    (read : readArgs loop.state = .ok (added, state)) (nonempty : added ≠ []) :
    turn readArgs initial host interactive loop =
      some (loop.run host interactive (initial ++ added) state) := by
  unfold turn
  rw [going]
  dsimp only
  rw [read]
  dsimp only
  rw [if_neg fun long => nonempty long.1, if_neg fun done => nonempty done.1]

theorem turn_long {state : State} (going : loop.ending = none)
    (read : readArgs loop.state = .ok ([], state)) (left : state.buf ≠ []) :
    turn readArgs initial host interactive loop =
      some { loop with state, ending := some .lineTooLong } := by
  unfold turn
  rw [going]
  dsimp only
  rw [read]
  dsimp only
  rw [if_pos ⟨rfl, left⟩]

theorem turn_finished {state : State} (going : loop.ending = none)
    (read : readArgs loop.state = .ok ([], state)) (empty : state.buf = [])
    (noEmpty : loop.noEmpty = true) :
    turn readArgs initial host interactive loop =
      some { loop with state, ending := some .finished } := by
  unfold turn
  rw [going]
  dsimp only
  rw [read]
  dsimp only
  rw [if_neg fun long => long.2 empty, if_pos ⟨rfl, noEmpty⟩]

/-- The loop is left where it has an ending. -/
theorem leaves_of_ending {ending : Ending} (ended : loop'.ending = some ending)
    (next : turn readArgs initial host interactive loop = some loop') :
    Loops.Leaves (turn readArgs initial host interactive) loop loop' := by
  refine .next next (.left ?_)
  unfold turn
  rw [ended]

/-- A loop ends if every argument takes something from its reader. -/
theorem exists_last (Inv : Loop → Prop) (size : State → ℕ)
    (keeps : ∀ loop loop', Inv loop → turn readArgs initial host interactive loop = some loop' →
      Inv loop')
    (shrinks : ∀ loop added state', Inv loop → loop.ending = none →
      readArgs loop.state = .ok (added, state') →
        size state' ≤ size loop.state ∧ (added ≠ [] → size state' < size loop.state))
    (holds : Inv loop) :
    ∃ last ending, Loops.Leaves (turn readArgs initial host interactive) loop last ∧ Inv last ∧
      last.ending = some ending := by
  let left (loop : Loop) : ℕ :=
    if loop.ending = none then size loop.state + (if loop.noEmpty then 0 else 1) + 1 else 0
  have lower : ∀ loop loop', Inv loop →
      turn readArgs initial host interactive loop = some loop' → left loop' < left loop := by
    intro loop loop' inv next
    obtain ⟨going, ⟨ending, -, rfl⟩ |
      ⟨added, state, read, ⟨-, -, rfl⟩ | ⟨-, -, rfl⟩ | ⟨first, rfl⟩⟩⟩ := turn_cases next
    · dsimp only [left]
      rw [if_pos going, if_neg (Option.some_ne_none ending)]
      exact Nat.succ_pos _
    · dsimp only [left]
      rw [if_pos going, if_neg (Option.some_ne_none _)]
      exact Nat.succ_pos _
    · dsimp only [left]
      rw [if_pos going, if_neg (Option.some_ne_none _)]
      exact Nat.succ_pos _
    · have most : left (loop.run host interactive (initial ++ added) state) ≤ size state + 1 := by
        dsimp only [left]
        split
        · exact Nat.le_refl _
        · exact Nat.zero_le _
      obtain ⟨less, strict⟩ := shrinks loop added state inv going read
      refine lt_of_le_of_lt most ?_
      dsimp only [left]
      rw [if_pos going]
      by_cases none : added = []
      · rw [(first none).2, if_neg Bool.false_ne_true]
        omega
      · have smaller := strict none
        omega
  obtain ⟨last, leaves, inv, done⟩ := Loops.exists_leaves left keeps lower holds
  cases ended : last.ending with
  | some ending => exact ⟨last, ending, leaves, inv, ended⟩
  | none =>
    exfalso
    unfold turn at done
    rw [ended] at done
    dsimp only at done
    split at done
    · cases done
    · split_ifs at done

/-- Commands that have been run stay in the record. -/
theorem runs_prefix (leaves : Loops.Leaves (turn readArgs initial host interactive) loop last) :
    loop.runs <+: last.runs := by
  induction leaves with
  | left => exact List.prefix_rfl
  | next more _ ih =>
    obtain ⟨-, ⟨_, -, rfl⟩ | ⟨_, _, -, ⟨-, -, rfl⟩ | ⟨-, -, rfl⟩ | ⟨-, rfl⟩⟩⟩ := turn_cases more
    · exact ih
    · exact ih
    · exact ih
    · exact (List.prefix_append _ _).trans ih

end Turns

end Busybox.Xargs
