import Busybox.Xargs.Words

/-!
# One batch after another

The arguments of all commands together are the words, or the items, of the input: what one command
leaves in the buffer is where the next one begins.
-/

namespace Busybox.Xargs

open Fallible Libbb.Replace Loops Tokens

/-- The arguments behind those that every command begins with -/
def appended (initial : List Str) (runs : List Run) : List Str :=
  runs.flatMap fun run => run.args.drop initial.length

theorem appended_concat (initial : List Str) (runs : List Run) (added : List Str)
    (rest : List UInt8) (confirmed : Bool) :
    appended initial (runs ++ [⟨initial ++ added, rest, confirmed⟩]) =
      appended initial runs ++ added := by
  unfold appended
  rw [List.flatMap_append, List.flatMap_singleton, List.drop_left]

/-- A command has no more than the limits let it have. -/
def Limited (setup : Setup) (initial : List Str) (run : Run) : Prop :=
  ∃ added, run.args = initial ++ added ∧ added.length ≤ setup.maxArg ∧
    nChars added ≤ setup.maxChars

/-- A reader makes batches of a lexer's tokens as long as its state is valid. -/
structure Batching (readArgs : State → Except Ending (List Str × State))
    (lexer : Lexer Quote UInt8 Ending) (last : List UInt8 → Bool) (setup : Setup)
    (Valid : State → Prop) : Prop where
  reads : ∀ state, Valid state → readArgs state =
    (lexer.batch last (setup.maxChars - state.buf.length) setup.maxArg (state.state, state.q)
      state.buf state.input).map (fromBatch [])
  keeps : ∀ state added state', Valid state → readArgs state = .ok (added, state') → Valid state'

section

variable (lexer : Lexer Quote UInt8 Ending) (last : List UInt8 → Bool) (setup : Setup)
  (initial : List Str) (host : Host) (Valid : State → Prop) (start : State)

/-- The tokens that are still to come -/
def toCome (state : State) : List (List UInt8) :=
  lexer.tokens (state.state, state.q) state.buf state.input

def finishes (state : State) : Quote × List UInt8 :=
  lexer.finish (state.state, state.q) state.buf state.input

/-- Between two commands: the arguments so far and the tokens to come are those of the input. -/
structure Going (loop : Loop) : Prop where
  valid : Valid loop.state
  seed : loop.state.buf.length < setup.maxChars
  split : before last (toCome lexer start) =
    appended initial loop.runs ++ before last (toCome lexer loop.state)
  text : (loop.state.buf = [] ∧ loop.state.input = []) ∨
    (toCome lexer start = appended initial loop.runs ++ toCome lexer loop.state ∧
      finishes lexer start = finishes lexer loop.state)

/-- Why xargs ends: all is done, a token does not fit, the command asks for it, or no token can end
where the input does. -/
inductive Reason (runs : List Run) : Ending → Prop
  | finished (all : appended initial runs = before last (toCome lexer start)) :
      Reason runs .finished
  | lineTooLong {word : List UInt8} (next : appended initial runs ++ [word] <+: toCome lexer start)
      (long : setup.maxChars ≤ word.length) : Reason runs .lineTooLong
  | aborted {front : List Run} {run : Run} (same : runs = front ++ [run])
      (stops : run.Stops host front) : Reason runs .aborted
  | failed {ending : Ending} (begun : (finishes lexer start).2 ≠ [])
      (atEnd : lexer.atEnd (finishes lexer start).1 = .error ending) : Reason runs ending

/-- The arguments are tokens of the input in their order, no more for each command than it may
have, and if xargs has ended there is a reason. -/
structure Appending (loop : Loop) : Prop where
  limited : ∀ run ∈ loop.runs, Limited setup initial run
  isPrefix : appended initial loop.runs <+: before last (toCome lexer start)
  going : loop.ending = none → Going lexer last setup initial Valid start loop
  ended : ∀ ending, loop.ending = some ending →
    Reason lexer last setup initial host start loop.runs ending

end

variable {readArgs : State → Except Ending (List Str × State)} {lexer : Lexer Quote UInt8 Ending}
  {last : List UInt8 → Bool} {setup : Setup} {initial : List Str} {host : Host} {interactive : Bool}
  {Valid : State → Prop} {start state : State} {loop loop' : Loop} {added : List Str}

/-! ## One command -/

/-- What a call of the reader gives and leaves -/
structure Call (lexer : Lexer Quote UInt8 Ending) (last : List UInt8 → Bool) (setup : Setup)
    (before : State) (added : List Str) (after : State) : Prop where
  split : Tokens.before last (toCome lexer before) =
    added ++ Tokens.before last (toCome lexer after)
  text : (after.buf = [] ∧ after.input = []) ∨
    (toCome lexer before = added ++ toCome lexer after ∧
      finishes lexer before = finishes lexer after)
  atEnd : before.buf = [] → before.input = [] → after.buf = [] ∧ after.input = []
  few : added.length ≤ setup.maxArg
  fits : nChars added + after.buf.length ≤ setup.maxChars
  nothing : added = [] → (after.buf = [] ∧ after.input = []) ∨
    (after.buf ≠ [] ∧ setup.maxChars ≤ after.buf.length)
  less : Lexer.left after.buf after.input ≤ Lexer.left before.buf before.input ∧
    (added ≠ [] → Lexer.left after.buf after.input < Lexer.left before.buf before.input)

theorem Batching.call (batching : Batching readArgs lexer last setup Valid)
    (valid : Valid loop.state) (seed : loop.state.buf.length < setup.maxChars)
    (read : readArgs loop.state = .ok (added, state)) :
    Call lexer last setup loop.state added state := by
  rw [batching.reads _ valid] at read
  cases made : lexer.batch last (setup.maxChars - loop.state.buf.length) setup.maxArg
      (loop.state.state, loop.state.q) loop.state.buf loop.state.input with
  | error ending =>
    rw [made] at read
    cases read
  | ok batch =>
    rw [made] at read
    cases read
    have reads := Lexer.reads_of_batch made
    have room : 0 < setup.maxChars - loop.state.buf.length := Nat.sub_pos_of_lt seed
    obtain ⟨few, fits⟩ := reads.fits room setup.some
    refine ⟨reads.before_tokens, reads.same_text, ?_, few, ?_, ?_, reads.left_le⟩
    · intro noToken noInput
      rw [noToken, noInput] at reads
      exact reads.of_nothing
    · rwa [Nat.sub_add_cancel seed.le] at fits
    · intro none
      refine (reads.none room none).imp_right fun full => ⟨full.1, ?_⟩
      have long := full.2
      rwa [Nat.sub_add_cancel seed.le] at long

/-- A reader that fails has come to the end of the input. -/
theorem Batching.failed {ending : Ending} (batching : Batching readArgs lexer last setup Valid)
    (valid : Valid loop.state) (read : readArgs loop.state = .error ending) :
    (finishes lexer loop.state).2 ≠ [] ∧
      lexer.atEnd (finishes lexer loop.state).1 = .error ending := by
  rw [batching.reads _ valid] at read
  cases made : lexer.batch last (setup.maxChars - loop.state.buf.length) setup.maxArg
      (loop.state.state, loop.state.q) loop.state.buf loop.state.input with
  | error ending' =>
    rw [made] at read
    cases read
    exact Lexer.batch_error made
  | ok batch =>
    rw [made] at read
    cases read

theorem toCome_nil (noToken : state.buf = []) (noInput : state.input = []) :
    toCome lexer state = [] := by
  unfold toCome
  rw [noToken, noInput]
  rfl

/-- The next token does not fit. -/
theorem Going.tooLong (going : Going lexer last setup initial Valid start loop)
    (call : Call lexer last setup loop.state [] state) (begun : state.buf ≠ []) :
    Reason lexer last setup initial host start loop.runs .lineTooLong := by
  have long : setup.maxChars ≤ state.buf.length := by
    rcases call.nothing rfl with ⟨empty, -⟩ | ⟨-, long⟩
    · exact absurd empty begun
    · exact long
  obtain ⟨first, rest, next, isPrefix⟩ :
      ∃ first rest, toCome lexer state = first :: rest ∧ state.buf <+: first :=
    Lexer.tokens_begun begun
  have same : toCome lexer start = appended initial loop.runs ++ (first :: rest) := by
    rcases going.text with ⟨noToken, noInput⟩ | ⟨text, -⟩
    · exact absurd (call.atEnd noToken noInput).1 begun
    · rcases call.text with ⟨empty, -⟩ | ⟨more, -⟩
      · exact absurd empty begun
      · rw [text, more, List.nil_append, next]
  refine .lineTooLong ?_ (long.trans isPrefix.length_le)
  rw [same]
  exact ⟨rest, by rw [List.append_assoc]; rfl⟩

/-- There is no token left. -/
theorem Going.finished (going : Going lexer last setup initial Valid start loop)
    (call : Call lexer last setup loop.state [] state) (noToken : state.buf = []) :
    Reason lexer last setup initial host start loop.runs .finished := by
  have noInput : state.input = [] := by
    rcases call.nothing rfl with ⟨-, noInput⟩ | ⟨begun, -⟩
    · exact noInput
    · exact absurd noToken begun
  have none : before last (toCome lexer loop.state) = [] := by
    rw [call.split, toCome_nil noToken noInput]
    rfl
  refine .finished ?_
  rw [going.split, none, List.append_nil]

/-- The reader fails. -/
theorem Going.failed {ending : Ending} (batching : Batching readArgs lexer last setup Valid)
    (going : Going lexer last setup initial Valid start loop)
    (read : readArgs loop.state = .error ending) :
    Reason lexer last setup initial host start loop.runs ending := by
  obtain ⟨begun, atEnd⟩ := batching.failed going.valid read
  rcases going.text with ⟨noToken, noInput⟩ | ⟨-, same⟩
  · refine absurd ?_ begun
    unfold finishes
    rw [noToken, noInput]
    rfl
  · rw [← same] at begun atEnd
    exact .failed begun atEnd

variable (host interactive) in
/-- The command is run, and the next one begins where it ends. -/
theorem Going.next (batching : Batching readArgs lexer last setup Valid)
    (going : Going lexer last setup initial Valid start loop)
    (read : readArgs loop.state = .ok (added, state))
    (call : Call lexer last setup loop.state added state) (empty : added = [] → state.buf = []) :
    Going lexer last setup initial Valid start
      (loop.run host interactive (initial ++ added) state) := by
  have added_runs := appended_concat initial loop.runs added state.input
    (!interactive || host.confirms loop.runs (initial ++ added))
  refine ⟨batching.keeps _ _ _ going.valid read, ?_, ?_, ?_⟩
  · have fits := call.fits
    show state.buf.length < setup.maxChars
    cases added with
    | nil =>
      rw [empty rfl]
      exact setup.room
    | cons arg added =>
      unfold nChars at fits
      rw [List.map_cons, List.sum_cons] at fits
      omega
  · show _ = appended initial (loop.runs ++ [_]) ++ before last (toCome lexer state)
    rw [added_runs, going.split, call.split, List.append_assoc]
  · show (state.buf = [] ∧ state.input = []) ∨
      (_ = appended initial (loop.runs ++ [_]) ++ toCome lexer state ∧
        _ = finishes lexer state)
    rcases call.text with done | ⟨more, same⟩
    · exact .inl done
    rcases going.text with ⟨noToken, noInput⟩ | ⟨text, same'⟩
    · exact .inl (call.atEnd noToken noInput)
    · refine .inr ⟨?_, same'.trans same⟩
      rw [added_runs, text, more, List.append_assoc]

/-- What every turn keeps. -/
theorem Appending.turn (batching : Batching readArgs lexer last setup Valid)
    (appending : Appending lexer last setup initial host Valid start loop)
    (next : Xargs.turn readArgs initial host interactive loop = some loop') :
    Appending lexer last setup initial host Valid start loop' := by
  obtain ⟨unended, cases⟩ := turn_cases next
  have going := appending.going unended
  rcases cases with ⟨ending, read, rfl⟩ | ⟨added, state, read, cases⟩
  · refine ⟨appending.limited, appending.isPrefix, nofun, ?_⟩
    rintro ending' ended
    obtain rfl := Option.some.inj ended
    have reason : Reason lexer last setup initial host start loop.runs ending :=
      going.failed batching read
    exact reason
  have call := batching.call going.valid going.seed read
  rcases cases with ⟨rfl, begun, rfl⟩ | ⟨rfl, noToken, rfl⟩ | ⟨first, rfl⟩
  · refine ⟨appending.limited, appending.isPrefix, nofun, ?_⟩
    rintro ending ended
    obtain rfl := Option.some.inj ended
    have reason : Reason lexer last setup initial host start loop.runs .lineTooLong :=
      going.tooLong call begun
    exact reason
  · refine ⟨appending.limited, appending.isPrefix, nofun, ?_⟩
    rintro ending ended
    obtain rfl := Option.some.inj ended
    have reason : Reason lexer last setup initial host start loop.runs .finished :=
      going.finished call noToken
    exact reason
  · have going' := going.next host interactive batching read call
      fun none => (first none).1
    refine ⟨?_, ?_, fun _ => going', ?_⟩
    · intro run mem
      rcases List.mem_append.mp mem with earlier | last
      · exact appending.limited run earlier
      · rw [List.mem_singleton.mp last]
        exact ⟨added, rfl, call.few, (Nat.le_add_right _ _).trans call.fits⟩
    · rw [going'.split]
      exact List.prefix_append _ _
    · intro ending ended
      have stops : Run.Stops host loop.runs ⟨initial ++ added, state.input,
          !interactive || host.confirms loop.runs (initial ++ added)⟩ ∧ ending = .aborted := by
        unfold Loop.run at ended
        dsimp only at ended
        split_ifs at ended with stops
        exact ⟨stops, (Option.some.inj ended).symm⟩
      rw [stops.2]
      exact .aborted rfl stops.1

/-- xargs ends, whatever its input is. -/
theorem exists_appending (batching : Batching readArgs lexer last setup Valid)
    (valid : Valid start) (fresh : start.buf = []) (noEmpty : Bool) (initial : List Str)
    (host : Host) (interactive : Bool) :
    ∃ final ending,
      Leaves (turn readArgs initial host interactive) ⟨start, noEmpty, [], none⟩ final ∧
      Appending lexer last setup initial host Valid start final ∧ final.ending = some ending := by
  refine exists_last (Appending lexer last setup initial host Valid start)
    (fun state => Lexer.left state.buf state.input)
    (fun _ _ appending next => appending.turn batching next) ?_ ?_
  · intro loop added state' appending unended read
    have going := appending.going unended
    exact (batching.call going.valid going.seed read).less
  · refine ⟨nofun, List.nil_prefix, fun _ => ?_, nofun⟩
    refine ⟨valid, ?_, rfl, .inr ⟨rfl, rfl⟩⟩
    show start.buf.length < setup.maxChars
    rw [fresh]
    exact setup.room

/-! ## The two readers -/

/-- Between two commands `process_stdin` has no NUL, and a quoting it can go on with. -/
def WordState (state : State) : Prop :=
  0 ∉ state.buf ∧ 0 ∉ state.input ∧ Quoted (state.state, state.q)

theorem wordLexer_quoted {quote quote' : Quote} {word : List UInt8} {c : UInt8}
    {action : Action UInt8} (quoted : Quoted quote)
    (step : wordLexer.step quote word c = (quote', action)) :
    Quoted quote' ∧ ∀ b, action = .put b → b = c := by
  obtain ⟨state, q⟩ := quote
  cases state with
  | space => exact absurd rfl quoted.1
  | backslash =>
    rw [step_escaped] at step
    cases step
    exact ⟨⟨nofun, fun _ => quoted.2 nofun⟩, fun b same => (Action.put.inj same).symm⟩
  | quote =>
    by_cases closes : c = q
    · rw [step_unquote closes] at step
      cases step
      exact ⟨⟨nofun, fun _ => rfl⟩, nofun⟩
    · rw [step_quoted closes] at step
      cases step
      exact ⟨quoted, fun b same => (Action.put.inj same).symm⟩
  | norm =>
    have closed : q = 0 := quoted.2 nofun
    rw [wordLexer_norm] at step
    split_ifs at step
    · cases step
      exact ⟨quoted, nofun⟩
    · cases step
      exact ⟨quoted, nofun⟩
    · cases step
      exact ⟨⟨nofun, fun _ => closed⟩, nofun⟩
    · cases step
      exact ⟨⟨nofun, fun absurdity => absurd rfl absurdity⟩, nofun⟩
    · cases step
      exact ⟨quoted, fun b same => (Action.put.inj same).symm⟩

theorem wordLexer_keeps :
    wordLexer.Keeps fun quote word input => 0 ∉ word ∧ 0 ∉ input ∧ Quoted quote where
  put step good := by
    obtain ⟨clean, text, quoted⟩ := good
    obtain ⟨other, later⟩ := not_or.mp (List.mem_cons.not.mp text)
    obtain ⟨quoted', same⟩ := wordLexer_quoted quoted step
    obtain rfl := same _ rfl
    exact ⟨not_mem_concat clean (Ne.symm other), later, quoted'⟩
  close step good :=
    ⟨List.not_mem_nil, fun mem => good.2.1 (List.mem_cons_of_mem _ mem),
      (wordLexer_quoted good.2.2 step).1⟩
  skip step good :=
    ⟨good.1, fun mem => good.2.1 (List.mem_cons_of_mem _ mem), (wordLexer_quoted good.2.2 step).1⟩
  atEnd ends good := by
    unfold wordLexer at ends
    dsimp only at ends
    split_ifs at ends with closed
    cases ends
    exact ⟨List.not_mem_nil, List.not_mem_nil, nofun, fun _ => not_not.mp closed⟩
  cut good := ⟨good.1, List.not_mem_nil, good.2.2⟩

theorem itemLexer_keeps : itemLexer.Keeps fun _ item _ => 0 ∉ item where
  put := by
    intro quote quote' item c b input step clean
    unfold itemLexer at step
    dsimp only at step
    split_ifs at step with nul
    · cases step
    · cases step
      exact not_mem_concat clean nul
  close _ _ := List.not_mem_nil
  skip _ clean := clean
  atEnd _ _ := List.not_mem_nil
  cut clean := clean

/-- `process_stdin` makes batches of words. -/
theorem wordBatching (setup : Setup) (eofStr : Option Str) :
    Batching (processStdin eofStr setup) wordLexer (isEof eofStr) setup WordState := by
  have reads : ∀ state, WordState state → processStdin eofStr setup state =
      (wordLexer.batch (isEof eofStr) (setup.maxChars - state.buf.length) setup.maxArg
        (state.state, state.q) state.buf state.input).map (fromBatch []) := by
    rintro state ⟨clean, text, quoted⟩
    rw [← wordLoop_eq eofStr text clean _ _ quoted]
    unfold processStdin
    cases read : wordLoop eofStr (.start setup state) state.input with
    | error ending =>
      unfold Scan.start at read
      rw [read]
      rfl
    | ok result =>
      unfold Scan.start at read
      rw [read]
      rfl
  refine ⟨reads, ?_⟩
  intro state added state' valid read
  rw [reads state valid] at read
  cases made : wordLexer.batch (isEof eofStr) (setup.maxChars - state.buf.length) setup.maxArg
      (state.state, state.q) state.buf state.input with
  | error ending =>
    rw [made] at read
    cases read
  | ok batch =>
    rw [made] at read
    cases read
    exact (Lexer.reads_of_batch made).keeps wordLexer_keeps valid

/-- `process0_stdin` makes batches of items. -/
theorem itemBatching (setup : Setup) :
    Batching (process0Stdin setup) itemLexer (fun _ => false) setup fun state => 0 ∉ state.buf := by
  have reads : ∀ state : State, 0 ∉ state.buf → process0Stdin setup state =
      (itemLexer.batch (fun _ => false) (setup.maxChars - state.buf.length) setup.maxArg
        (state.state, state.q) state.buf state.input).map (fromBatch []) :=
    fun state clean => itemLoop_eq state.input clean _ _ _ _
  refine ⟨reads, ?_⟩
  intro state added state' valid read
  rw [reads state valid] at read
  cases made : itemLexer.batch (fun _ => false) (setup.maxChars - state.buf.length) setup.maxArg
      (state.state, state.q) state.buf state.input with
  | error ending =>
    rw [made] at read
    cases read
  | ok batch =>
    rw [made] at read
    cases read
    exact (Lexer.reads_of_batch made).keeps itemLexer_keeps valid

/-! ## Any input -/

/-- The options without `-I` -/
def Options.appending (opts : Options) : Options := { opts with replStr := none }

/-- The words, or with `-0` the items, of an input -/
def everything (opts : Options) (input : List UInt8) : List (List UInt8) :=
  if opts.zeroTerm then items input else words input

/-- Those in front of the string of `-E`, which `-0` makes xargs ignore -/
def wanted (opts : Options) (input : List UInt8) : List (List UInt8) :=
  if opts.zeroTerm then items input
  else (words input).takeWhile fun word => opts.eofStr.filter (· ≠ []) ≠ some word

/-- The arguments appended to all commands together are the first of those that are wanted, within
the limits, and all of them unless there is a reason to end earlier. -/
structure Appends (setup : Setup) (opts : Options) (host : Host) (input : List UInt8)
    (runs : List Run) (ending : Ending) : Prop where
  limited : ∀ run ∈ runs, Limited setup setup.argv run
  isPrefix : appended setup.argv runs <+: wanted opts input
  finished : ending = .finished → appended setup.argv runs = wanted opts input
  lineTooLong : ending = .lineTooLong → ∃ word : List UInt8,
    appended setup.argv runs ++ [word] <+: everything opts input ∧ setup.maxChars ≤ word.length
  aborted : ending = .aborted → ∃ front run, runs = front ++ [run] ∧ run.Stops host front
  unmatchedQuote : ∀ q, ending = .unmatchedQuote q →
    opts.zeroTerm = false ∧ openQuotes none input = some q
  noFault : ∀ fault, ending ≠ .fault fault

theorem Appends.of_reason {lexer : Lexer Quote UInt8 Ending} {last : List UInt8 → Bool}
    {setup : Setup} {opts : Options} {host : Host} {input : List UInt8} {Valid : State → Prop}
    {final : Loop} {ending : Ending}
    (tokens : toCome lexer ⟨input, [], .norm, 0⟩ = everything opts input)
    (front : before last (everything opts input) = wanted opts input)
    (quotes : ∀ ending, lexer.atEnd (finishes lexer ⟨input, [], .norm, 0⟩).1 = .error ending →
      ∃ q, ending = .unmatchedQuote q ∧ opts.zeroTerm = false ∧ openQuotes none input = some q)
    (appending : Appending lexer last setup setup.argv host Valid ⟨input, [], .norm, 0⟩ final)
    (ended : final.ending = some ending) : Appends setup opts host input final.runs ending := by
  have isPrefix := appending.isPrefix
  have reason := appending.ended ending ended
  rw [tokens, front] at isPrefix
  cases reason with
  | finished all =>
    rw [tokens, front] at all
    exact ⟨appending.limited, isPrefix, fun _ => all, nofun, nofun, nofun, nofun⟩
  | lineTooLong next long =>
    rw [tokens] at next
    exact ⟨appending.limited, isPrefix, nofun, fun _ => ⟨_, next, long⟩, nofun, nofun, nofun⟩
  | aborted same stops =>
    exact ⟨appending.limited, isPrefix, nofun, nofun, fun _ => ⟨_, _, same, stops⟩, nofun, nofun⟩
  | failed begun atEnd =>
    obtain ⟨q, rfl, words, isOpen⟩ := quotes _ atEnd
    refine ⟨appending.limited, isPrefix, nofun, nofun, nofun, fun q' same => ?_, nofun⟩
    rw [← Ending.unmatchedQuote.inj same]
    exact ⟨words, isOpen⟩

/-- Without `-I` xargs ends for every input, with the words or the items of it appended as they
should be. -/
theorem arguments_appended (setup : Setup) (opts : Options) (host : Host) (input : List UInt8)
    (text : opts.zeroTerm = true ∨ 0 ∉ input) :
    ∃ final ending, Leaves (xargsTurn opts.appending setup host)
        (.start opts.appending input) final ∧
      final.ending = some ending ∧ Appends setup opts host input final.runs ending := by
  let start : State := ⟨input, [], .norm, 0⟩
  let noEmpty := (Loop.start opts.appending input).noEmpty
  by_cases zeroTerm : opts.zeroTerm = true
  · have reader : opts.appending.readArgs setup = process0Stdin setup := if_pos zeroTerm
    have clean : 0 ∉ start.buf := List.not_mem_nil
    obtain ⟨final, ending, leaves, appending, ended⟩ := exists_appending (itemBatching setup) clean
      rfl noEmpty setup.argv host opts.interactive
    rw [← reader] at leaves
    have tokens : toCome itemLexer start = everything opts input := by
      unfold everything
      rw [if_pos zeroTerm]
      exact itemLexer_tokens _ List.not_mem_nil input
    have front : before (fun _ => false) (everything opts input) = wanted opts input := by
      unfold everything wanted
      rw [if_pos zeroTerm, if_pos zeroTerm]
      exact List.takeWhile_eq_self_iff.mpr fun _ _ => rfl
    exact ⟨final, ending, leaves, ended, .of_reason tokens front nofun appending ended⟩
  · have reader : opts.appending.readArgs setup =
        processStdin (opts.eofStr.filter (· ≠ [])) setup := if_neg zeroTerm
    have valid : WordState start :=
      ⟨List.not_mem_nil, text.resolve_left zeroTerm, nofun, fun _ => rfl⟩
    obtain ⟨final, ending, leaves, appending, ended⟩ := exists_appending
      (wordBatching setup (opts.eofStr.filter (· ≠ []))) valid rfl noEmpty setup.argv host
      opts.interactive
    rw [← reader] at leaves
    have tokens : toCome wordLexer start = everything opts input := by
      unfold everything
      rw [if_neg zeroTerm]
      exact (wordLexer_tokens [] input).1
    have front : before (isEof (opts.eofStr.filter (· ≠ []))) (everything opts input) =
        wanted opts input := by
      have same : (fun word => !isEof (opts.eofStr.filter (· ≠ [])) word) =
          fun word => decide (opts.eofStr.filter (· ≠ []) ≠ some word) :=
        funext fun _ => decide_not.symm
      unfold everything wanted before
      rw [if_neg zeroTerm, if_neg zeroTerm, same]
    have quotes : ∀ ending, wordLexer.atEnd (finishes wordLexer start).1 = .error ending →
        ∃ q, ending = .unmatchedQuote q ∧ opts.zeroTerm = false ∧
          openQuotes none input = some q := by
      intro ending failed
      have q_eq : (finishes wordLexer start).1.2 = (openQuotes none input).getD 0 :=
        (wordLexer_finish [] input).1
      unfold wordLexer at failed
      dsimp only at failed
      split_ifs at failed with isOpen
      cases found : openQuotes none input with
      | none =>
        rw [found] at q_eq
        exact absurd q_eq isOpen
      | some q =>
        rw [found] at q_eq
        refine ⟨q, ?_, Bool.eq_false_iff.mpr zeroTerm, rfl⟩
        rw [← Except.error.inj failed]
        exact congrArg _ q_eq
    exact ⟨final, ending, leaves, ended, .of_reason tokens front quotes appending ended⟩

/-! ## Examples -/

/-- `echo`, with room for so many bytes and arguments -/
def echo (maxChars maxArg : ℕ) (room : 0 < maxChars) (some : 0 < maxArg)
    (inRange : maxChars + 5 ≤ INT_MAX) : Setup :=
  ⟨[ascii "echo"], maxChars, maxArg, List.cons_ne_nil _ _, room, some, inRange⟩

/-- Every command makes xargs stop. -/
def unwilling : Host := ⟨fun _ _ => true, fun _ _ => true⟩

/-- The words `a` and `b` -/
theorem arguments_appended_two :
    ∃ final ending, Leaves (xargsTurn defaults.appending
        (echo 100 100 (by decide) (by decide) (by decide)) willing)
        (.start defaults.appending [97, 32, 98]) final ∧
      final.ending = some ending ∧
      Appends (echo 100 100 (by decide) (by decide) (by decide)) defaults willing [97, 32, 98]
        final.runs ending :=
  arguments_appended (echo 100 100 (by decide) (by decide) (by decide)) defaults willing
    [97, 32, 98] (.inr (by decide))

/-- The words that are not empty, up to the string of `-E` -/
def nonEmptyWords (opts : Options) (input : List UInt8) : List (List UInt8) :=
  ((everything opts input).filter (· ≠ [])).takeWhile fun word => opts.eofStr ≠ some word

/-- xargs ends, but what it has appended is not that. -/
def Differs (setup : Setup) (opts : Options) (host : Host) (input : List UInt8)
    (args : List Str) : Prop :=
  (∃ final ending,
    Leaves (xargsTurn opts.appending setup host) (.start opts.appending input) final ∧
    final.ending = some ending ∧ appended setup.argv final.runs = args) ∧
    args ≠ nonEmptyWords opts input

/-- A word does not fit; a quote is not closed; the command makes xargs stop; with `-0` an item is
empty, and the string of `-E` is one of the items; there is a NUL in a word. -/
theorem arguments_exceptions :
    Differs (echo 2 2 (by decide) (by decide) (by decide)) defaults willing [97, 98] [] ∧
      Differs (echo 9 9 (by decide) (by decide) (by decide)) defaults willing [97, 32, 39, 98] [] ∧
      Differs (echo 9 1 (by decide) (by decide) (by decide)) defaults unwilling [97, 32, 98]
        [[97]] ∧
      Differs (echo 9 9 (by decide) (by decide) (by decide)) { defaults with zeroTerm := true }
        willing [97, 0, 0, 98, 0] [[97], [], [98]] ∧
      Differs (echo 9 9 (by decide) (by decide) (by decide))
        { defaults with zeroTerm := true, eofStr := some [98] } willing [97, 0, 98, 0]
        [[97], [98]] ∧
      Differs (echo 9 9 (by decide) (by decide) (by decide)) defaults willing [97, 0, 98]
        [[97]] := by
  refine ⟨⟨?_, by decide⟩, ⟨?_, by decide⟩, ⟨?_, by decide⟩, ⟨?_, by decide⟩, ⟨?_, by decide⟩,
    ?_, by decide⟩
  · exact ⟨_, .lineTooLong, .next rfl (.left rfl), rfl, rfl⟩
  · exact ⟨_, .unmatchedQuote 39, .next rfl (.left rfl), rfl, rfl⟩
  · exact ⟨_, .aborted, .next rfl (.left rfl), rfl, rfl⟩
  · exact ⟨_, .finished, .next rfl (.next rfl (.left rfl)), rfl, rfl⟩
  · exact ⟨_, .finished, .next rfl (.next rfl (.left rfl)), rfl, rfl⟩
  · exact ⟨_, .finished, .next rfl (.next rfl (.left rfl)), rfl, rfl⟩

end Busybox.Xargs
