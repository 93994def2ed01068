import Busybox.Xargs.Main

/-!
# Words and items

What `process_stdin` and `process0_stdin` store in one call is a batch of the words, or of the
items, of their input. The seed and the quoting are what the next batch begins with.
-/

namespace Busybox.Xargs

open Libbb.Replace Tokens

/-! ## Words -/

/-- Quotes and backslashes are taken away, in quotes of one kind or in none. What is left between
words is `none`. -/
def characters (quotes : Option UInt8) : List UInt8 → List (Option UInt8)
  | [] => []
  | c :: input =>
    match quotes with
    | some q => if c = q then characters none input else some c :: characters (some q) input
    | none =>
      if isspace c then none :: characters none input
      else if c = 92 then
        match input with
        | [] => []
        | c :: input => some c :: characters none input
      else if c = 39 ∨ c = 34 then characters (some c) input
      else some c :: characters none input

/-- The words between blanks, those without a character left out -/
def wordsOf (characters : List (Option UInt8)) : List (List UInt8) :=
  ((characters.splitOn none).map List.reduceOption).filter (· ≠ [])

/-- The words of an input -/
def words (input : List UInt8) : List (List UInt8) := wordsOf (characters none input)

/-- The quotes that are not closed in an input -/
def openQuotes (quotes : Option UInt8) : List UInt8 → Option UInt8
  | [] => quotes
  | c :: input =>
    match quotes with
    | some q => if c = q then openQuotes none input else openQuotes (some q) input
    | none =>
      if isspace c then openQuotes none input
      else if c = 92 then
        match input with
        | [] => none
        | _ :: input => openQuotes none input
      else if c = 39 ∨ c = 34 then openQuotes (some c) input
      else openQuotes none input

/-- The strings that a NUL or the end of the input is behind -/
def items (input : List UInt8) : List (List UInt8) :=
  let parts := input.splitOn 0
  if parts.getLast? = some [] then parts.dropLast else parts

/-! ## The readers as lexers -/

abbrev Quote := Quoting × UInt8

/-- What `process_stdin` does with a character -/
def wordStep (quote : Quote) (word : List UInt8) (c : UInt8) : Quote × Action UInt8 :=
  match quote.1 with
  | .backslash => ((.norm, quote.2), .put c)
  | .quote => if c ≠ quote.2 then (quote, .put c) else ((.norm, 0), .skip)
  | _ =>
    if isspace c then if word ≠ [] then ((.norm, quote.2), .close) else (quote, .skip)
    else if c = 92 then ((.backslash, quote.2), .skip)
    else if c = 39 ∨ c = 34 then ((.quote, c), .skip)
    else (quote, .put c)

def wordLexer : Lexer Quote UInt8 Ending where
  step := wordStep
  atEnd quote := if quote.2 ≠ 0 then .error (.unmatchedQuote quote.2) else .ok (.norm, quote.2)

/-- What `process0_stdin` does with a character -/
def itemLexer : Lexer Quote UInt8 Ending where
  step quote _ c := (quote, if c = 0 then .close else .put c)
  atEnd quote := .ok quote

/-! ## The tokens of the lexers -/

theorem wordsOf_end (word : List UInt8) :
    wordsOf (word.map some) = if word = [] then [] else [word] := by
  have whole : (word.map some).splitOn none = [word.map some] :=
    List.splitOn_eq_singleton fun mem => by
      obtain ⟨c, -, absurdity⟩ := List.mem_map.mp mem
      cases absurdity
  have all : (word.map some).reduceOption = word := by
    rw [List.reduceOption, List.filterMap_map]
    exact List.filterMap_some
  unfold wordsOf
  rw [whole, List.map_cons, List.map_nil, all]
  split_ifs with empty
  · rw [empty]
    rfl
  · simp [empty]

theorem wordsOf_blank (word : List UInt8) (rest : List (Option UInt8)) :
    wordsOf (word.map some ++ none :: rest) =
      (if word = [] then [] else [word]) ++ wordsOf rest := by
  rw [← wordsOf_end]
  unfold wordsOf
  rw [List.splitOn_append_cons_of_beq _ _ (beq_self_eq_true none), List.map_append,
    List.filter_append]

theorem map_some_append (word : List UInt8) (c : UInt8) (rest : List (Option UInt8)) :
    (word ++ [c]).map some ++ rest = word.map some ++ some c :: rest := by
  rw [List.map_append, List.append_assoc]
  rfl

/-- Behind a backslash -/
def escaped : List UInt8 → List (Option UInt8)
  | [] => []
  | c :: input => some c :: characters none input

theorem characters_none (c : UInt8) (input : List UInt8) :
    characters none (c :: input) =
      if isspace c then none :: characters none input
      else if c = 92 then escaped input
      else if c = 39 ∨ c = 34 then characters (some c) input
      else some c :: characters none input := by
  cases input with
  | nil => rfl
  | cons d input => rfl

theorem characters_some (q c : UInt8) (input : List UInt8) :
    characters (some q) (c :: input) =
      if c = q then characters none input else some c :: characters (some q) input := by
  cases input with
  | nil => rfl
  | cons d input => rfl

theorem openQuotes_none (c : UInt8) (input : List UInt8) :
    openQuotes none (c :: input) =
      if isspace c then openQuotes none input
      else if c = 92 then openQuotes none input.tail
      else if c = 39 ∨ c = 34 then openQuotes (some c) input
      else openQuotes none input := by
  cases input with
  | nil => rfl
  | cons d input => rfl

theorem openQuotes_some (q c : UInt8) (input : List UInt8) :
    openQuotes (some q) (c :: input) =
      if c = q then openQuotes none input else openQuotes (some q) input := by
  cases input with
  | nil => rfl
  | cons d input => rfl

section Steps

variable {q c : UInt8} {word : List UInt8}

theorem wordLexer_norm (q : UInt8) (word : List UInt8) (c : UInt8) :
    wordLexer.step (.norm, q) word c =
      if isspace c then if word ≠ [] then ((.norm, q), .close) else ((.norm, q), .skip)
      else if c = 92 then ((.backslash, q), .skip)
      else if c = 39 ∨ c = 34 then ((.quote, c), .skip)
      else ((.norm, q), .put c) := rfl

theorem step_between (blank : isspace c = true) :
    wordLexer.step (.norm, q) [] c = ((.norm, q), .skip) := by
  rw [wordLexer_norm, if_pos blank, if_neg (not_not.mpr rfl)]

theorem step_close (blank : isspace c = true) (begun : word ≠ []) :
    wordLexer.step (.norm, q) word c = ((.norm, q), .close) := by
  rw [wordLexer_norm, if_pos blank, if_pos begun]

theorem step_escape (blank : ¬isspace c = true) (backslash : c = 92) :
    wordLexer.step (.norm, q) word c = ((.backslash, q), .skip) := by
  rw [wordLexer_norm, if_neg blank, if_pos backslash]

theorem step_open (blank : ¬isspace c = true) (backslash : c ≠ 92) (quotes : c = 39 ∨ c = 34) :
    wordLexer.step (.norm, q) word c = ((.quote, c), .skip) := by
  rw [wordLexer_norm, if_neg blank, if_neg backslash, if_pos quotes]

theorem step_put (blank : ¬isspace c = true) (backslash : c ≠ 92) (quotes : ¬(c = 39 ∨ c = 34)) :
    wordLexer.step (.norm, q) word c = ((.norm, q), .put c) := by
  rw [wordLexer_norm, if_neg blank, if_neg backslash, if_neg quotes]

theorem step_escaped : wordLexer.step (.backslash, q) word c = ((.norm, q), .put c) := rfl

theorem step_unquote (closes : c = q) :
    wordLexer.step (.quote, q) word c = ((.norm, 0), .skip) := if_neg (not_not.mpr closes)

theorem step_quoted (inside : c ≠ q) :
    wordLexer.step (.quote, q) word c = ((.quote, q), .put c) := if_pos inside

end Steps

/-- The tokens of `process_stdin` are the words, in every state it can be in. -/
theorem wordLexer_tokens (word input : List UInt8) :
    wordLexer.tokens (.norm, 0) word input = wordsOf (word.map some ++ characters none input) ∧
      (∀ q, wordLexer.tokens (.quote, q) word input =
        wordsOf (word.map some ++ characters (some q) input)) ∧
      wordLexer.tokens (.backslash, 0) word input = wordsOf (word.map some ++ escaped input) := by
  induction input generalizing word with
  | nil =>
    have ends : (if word = [] then [] else [word]) = wordsOf (word.map some ++ []) := by
      rw [List.append_nil, wordsOf_end]
    exact ⟨ends, fun _ => ends, ends⟩
  | cons c input ih =>
    refine ⟨?_, fun q => ?_, ?_⟩
    · rw [characters_none]
      by_cases blank : isspace c = true
      · rw [if_pos blank, wordsOf_blank]
        by_cases begun : word = []
        · rw [begun, Lexer.tokens_skip (step_between blank), (ih []).1, if_pos rfl]
          rfl
        · rw [Lexer.tokens_close (step_close blank begun), (ih []).1, if_neg begun]
          rfl
      rw [if_neg blank]
      by_cases backslash : c = 92
      · rw [if_pos backslash, Lexer.tokens_skip (step_escape blank backslash), (ih word).2.2]
      rw [if_neg backslash]
      by_cases quotes : c = 39 ∨ c = 34
      · rw [if_pos quotes, Lexer.tokens_skip (step_open blank backslash quotes), (ih word).2.1 c]
      · rw [if_neg quotes, Lexer.tokens_put (step_put blank backslash quotes), (ih _).1,
          map_some_append]
    · rw [characters_some]
      by_cases closes : c = q
      · rw [if_pos closes, Lexer.tokens_skip (step_unquote closes), (ih word).1]
      · rw [if_neg closes, Lexer.tokens_put (step_quoted closes), (ih _).2.1 q, map_some_append]
    · rw [Lexer.tokens_put step_escaped, (ih _).1, map_some_append]
      rfl

/-- What `process_stdin` has in `q` at the end of the input -/
theorem wordLexer_finish (word input : List UInt8) :
    (wordLexer.finish (.norm, 0) word input).1.2 = (openQuotes none input).getD 0 ∧
      (∀ q, (wordLexer.finish (.quote, q) word input).1.2 =
        (openQuotes (some q) input).getD 0) ∧
      (wordLexer.finish (.backslash, 0) word input).1.2 = (openQuotes none input.tail).getD 0 := by
  induction input generalizing word with
  | nil => exact ⟨rfl, fun _ => rfl, rfl⟩
  | cons c input ih =>
    refine ⟨?_, fun q => ?_, ?_⟩
    · rw [openQuotes_none]
      by_cases blank : isspace c = true
      · rw [if_pos blank]
        by_cases begun : word = []
        · rw [begun, Lexer.finish_skip (step_between blank), (ih []).1]
        · rw [Lexer.finish_close (step_close blank begun), (ih []).1]
      rw [if_neg blank]
      by_cases backslash : c = 92
      · rw [if_pos backslash, Lexer.finish_skip (step_escape blank backslash), (ih word).2.2]
      rw [if_neg backslash]
      by_cases quotes : c = 39 ∨ c = 34
      · rw [if_pos quotes, Lexer.finish_skip (step_open blank backslash quotes), (ih word).2.1 c]
      · rw [if_neg quotes, Lexer.finish_put (step_put blank backslash quotes), (ih _).1]
    · rw [openQuotes_some]
      by_cases closes : c = q
      · rw [if_pos closes, Lexer.finish_skip (step_unquote closes), (ih word).1]
      · rw [if_neg closes, Lexer.finish_put (step_quoted closes), (ih _).2.1 q]
    · rw [Lexer.finish_put step_escaped, (ih _).1]
      rfl

theorem not_mem_concat {word : List UInt8} {c : UInt8} (clean : 0 ∉ word) (other : c ≠ 0) :
    0 ∉ word ++ [c] := by
  intro mem
  rcases List.mem_append.mp mem with inside | same
  · exact clean inside
  · exact other (List.mem_singleton.mp same).symm

theorem items_cons {word : List UInt8} (clean : 0 ∉ word) (input : List UInt8) :
    items (word ++ 0 :: input) = word :: items input := by
  have parts : (word ++ 0 :: input).splitOn 0 = word :: input.splitOn 0 := by
    rw [List.splitOn_append_cons_of_beq _ _ (beq_self_eq_true 0), List.splitOn_eq_singleton clean,
      List.singleton_append]
  have some := List.splitOn_ne_nil (0 : UInt8) input
  unfold items
  rw [parts]
  dsimp only
  rw [List.getLast?_cons_of_ne_nil some, List.dropLast_cons_of_ne_nil some]
  split_ifs
  · rfl
  · rfl

/-- The tokens of `process0_stdin` are the items. -/
theorem itemLexer_tokens (quote : Quote) {word : List UInt8} (clean : 0 ∉ word)
    (input : List UInt8) : itemLexer.tokens quote word input = items (word ++ input) := by
  induction input generalizing word with
  | nil =>
    rw [List.append_nil, Lexer.tokens]
    unfold items
    rw [List.splitOn_eq_singleton clean]
    by_cases empty : word = []
    · rw [empty]
      rfl
    · rw [if_neg empty]
      dsimp only
      rw [List.getLast?_singleton, if_neg fun same => empty (Option.some.inj same)]
  | cons c input ih =>
    by_cases nul : c = 0
    · have step : itemLexer.step quote word c = (quote, .close) := congrArg _ (if_pos nul)
      rw [Lexer.tokens_close step, ih List.not_mem_nil, nul, items_cons clean]
      rfl
    · have step : itemLexer.step quote word c = (quote, .put c) := congrArg _ (if_neg nul)
      have clean' := not_mem_concat clean nul
      rw [Lexer.tokens_put step, ih clean', List.append_assoc]
      rfl

/-! ## One call of a reader -/

theorem cstr_eq {word : List UInt8} (clean : 0 ∉ word) : cstr word = word :=
  List.takeWhile_eq_self_iff.mpr fun _ mem => decide_eq_true fun nul => clean (nul ▸ mem)

theorem cstr_end {word : List UInt8} (clean : 0 ∉ word) : cstr (word ++ [0]) = word := by
  have whole : ∀ c ∈ word, decide (c ≠ 0) = true := fun c mem =>
    decide_eq_true fun nul => clean (nul ▸ mem)
  unfold cstr
  rw [List.takeWhile_append_of_pos whole, List.takeWhile_cons_of_neg (by decide), List.append_nil]

/-- The arguments that are stored, and the state between two commands. -/
def fromScan (result : Scan × List UInt8) : List Str × State :=
  (result.1.args, ⟨result.2, cstr result.1.word, result.1.state, result.1.q⟩)

def fromBatch (args : List Str) (batch : Batch Quote UInt8) : List Str × State :=
  (args ++ batch.tokens, ⟨batch.input, batch.token, batch.state.1, batch.state.2⟩)

/-- The string of `-E` -/
def isEof (eofStr : Option Str) (word : List UInt8) : Bool := eofStr = some word

/-- The quoting between two characters -/
def Quoted (quote : Quote) : Prop := quote.1 ≠ .space ∧ (quote.1 ≠ .quote → quote.2 = 0)

/-- Behind a word `process_stdin` does what the lexer's batch does. -/
theorem delimit_eq (eofStr : Option Str) {args : List Str} {word : List UInt8} (clean : 0 ∉ word)
    (room maxArg : ℕ) (state : Quoting) :
    (⟨args, word ++ [0], room, maxArg, state, 0⟩ : Scan).delimit eofStr =
      if isEof eofStr word then .ok (⟨args, [], room, maxArg, .norm, 0⟩, .eof)
      else .ok (⟨args ++ [word], [], room, maxArg - 1, .norm, 0⟩,
        if maxArg - 1 = 0 ∨ room = 0 then .ret else .again) := by
  unfold Scan.delimit Scan.store isEof
  dsimp only
  rw [if_neg (not_not.mpr rfl), cstr_end clean]
  by_cases eof : eofStr = some word
  · rw [if_pos eof, if_pos (decide_eq_true eof)]
  · have notEof : ¬decide (eofStr = some word) = true := by simpa using eof
    rw [if_neg eof, if_neg notEof]

theorem character_norm (args : List Str) (word : List UInt8) (room maxArg : ℕ) (q c : UInt8) :
    Scan.character ⟨args, word, room, maxArg, .norm, q⟩ c =
      if isspace c then
        if word ≠ [] then ⟨args, word ++ [0], room - 1, maxArg, .space, q⟩
        else ⟨args, word, room, maxArg, .norm, q⟩
      else if c = 92 then ⟨args, word, room, maxArg, .backslash, q⟩
      else if c = 39 ∨ c = 34 then ⟨args, word, room, maxArg, .quote, c⟩
      else ⟨args, word ++ [c], room - 1, maxArg, .norm, q⟩ := rfl

/-- The loop of `process_stdin` makes a batch of the lexer's tokens. -/
theorem wordLoop_eq (eofStr : Option Str) {input : List UInt8} (text : 0 ∉ input) {args : List Str}
    {word : List UInt8} (clean : 0 ∉ word) (room maxArg : ℕ) {state : Quoting} {q : UInt8}
    (quoted : Quoted (state, q)) :
    (wordLoop eofStr ⟨args, word, room, maxArg, state, q⟩ input).map fromScan =
      (wordLexer.batch (isEof eofStr) room maxArg (state, q) word input).map (fromBatch args) := by
  induction input generalizing args word room maxArg state q with
  | nil =>
    rw [wordLoop, Lexer.batch]
    dsimp only
    by_cases empty : word = []
    · rw [if_neg (not_not.mpr empty), if_pos empty, empty]
      show Except.ok (args, _) = Except.ok (args ++ [], _)
      rw [List.append_nil]
      rfl
    rw [if_pos empty, if_neg empty]
    unfold wordLexer Scan.set
    dsimp only
    by_cases closed : q = 0
    · rw [closed, delimit_eq eofStr clean, if_neg (not_not.mpr rfl)]
      dsimp only
      by_cases eof : isEof eofStr word = true
      · rw [if_pos eof, if_pos eof]
        show Except.ok (args, _) = Except.ok (args ++ [], _)
        rw [List.append_nil]
        rfl
      · rw [if_neg eof, if_neg eof]
        rfl
    · unfold Scan.delimit
      dsimp only
      rw [if_pos closed, if_pos closed]
      rfl
  | cons c input ih =>
    obtain ⟨other, text⟩ := not_or.mp (List.mem_cons.not.mp text)
    have clean' := not_mem_concat clean (Ne.symm other)
    have put : ∀ state' q', Quoted (state', q') →
        Scan.character ⟨args, word, room, maxArg, state, q⟩ c =
          ⟨args, word ++ [c], room - 1, maxArg, state', q'⟩ →
        wordLexer.step (state, q) word c = ((state', q'), .put c) →
        (wordLoop eofStr ⟨args, word, room, maxArg, state, q⟩ (c :: input)).map fromScan =
          (wordLexer.batch (isEof eofStr) room maxArg (state, q) word (c :: input)).map
            (fromBatch args) := by
      intro state' q' quoted' character step
      rw [wordLoop, Lexer.batch, character, step]
      dsimp only
      rw [if_neg quoted'.1]
      by_cases full : room - 1 = 0
      · rw [if_pos full, if_pos full]
        show Except.ok (args, (⟨_, cstr (word ++ [c]), _, _⟩ : State)) = Except.ok (args ++ [], _)
        rw [cstr_eq clean', List.append_nil]
      · rw [if_neg full, if_neg full]
        exact ih text clean' (room - 1) maxArg quoted'
    have skip : ∀ state' q', Quoted (state', q') →
        Scan.character ⟨args, word, room, maxArg, state, q⟩ c =
          ⟨args, word, room, maxArg, state', q'⟩ →
        wordLexer.step (state, q) word c = ((state', q'), .skip) →
        (wordLoop eofStr ⟨args, word, room, maxArg, state, q⟩ (c :: input)).map fromScan =
          (wordLexer.batch (isEof eofStr) room maxArg (state, q) word (c :: input)).map
            (fromBatch args) := by
      intro state' q' quoted' character step
      rw [wordLoop, Lexer.batch, character, step]
      dsimp only
      rw [if_neg quoted'.1]
      by_cases full : room = 0
      · rw [if_pos full, if_pos full]
        show Except.ok (args, (⟨_, cstr word, _, _⟩ : State)) = Except.ok (args ++ [], _)
        rw [cstr_eq clean, List.append_nil]
      · rw [if_neg full, if_neg full]
        exact ih text clean room maxArg quoted'
    cases state with
    | space => exact absurd rfl quoted.1
    | backslash =>
      exact put .norm q ⟨by rintro ⟨⟩, fun _ => quoted.2 (by rintro ⟨⟩)⟩ rfl step_escaped
    | quote =>
      by_cases closes : c = q
      · exact skip .norm 0 ⟨by rintro ⟨⟩, fun _ => rfl⟩ (if_neg (not_not.mpr closes))
          (step_unquote closes)
      · exact put .quote q quoted (if_pos closes) (step_quoted closes)
    | norm =>
      obtain rfl : q = 0 := quoted.2 (by rintro ⟨⟩)
      by_cases blank : isspace c = true
      · by_cases begun : word = []
        · subst begun
          refine skip .norm 0 quoted ?_ (step_between blank)
          rw [character_norm, if_pos blank, if_neg (not_not.mpr rfl)]
        · rw [wordLoop, Lexer.batch, character_norm, if_pos blank, if_pos begun,
            step_close blank begun]
          dsimp only
          rw [if_pos rfl, delimit_eq eofStr clean]
          by_cases eof : isEof eofStr word = true
          · rw [if_pos eof, if_pos eof]
            show Except.ok (args, _) = Except.ok (args ++ [], _)
            rw [List.append_nil]
            rfl
          rw [if_neg eof, if_neg eof]
          by_cases full : maxArg - 1 = 0 ∨ room - 1 = 0
          · rw [if_pos full, if_pos full]
            rfl
          · rw [if_neg full, if_neg full]
            dsimp only
            rw [ih text List.not_mem_nil (room - 1) (maxArg - 1) quoted]
            cases wordLexer.batch (isEof eofStr) (room - 1) (maxArg - 1) (.norm, 0) [] input with
            | error ending => rfl
            | ok batch =>
              show Except.ok ((args ++ [word]) ++ batch.tokens, _) =
                Except.ok (args ++ word :: batch.tokens, _)
              rw [List.append_assoc]
              rfl
      by_cases backslash : c = 92
      · refine skip .backslash 0 ⟨by rintro ⟨⟩, fun _ => rfl⟩ ?_ (step_escape blank backslash)
        rw [character_norm, if_neg blank, if_pos backslash]
      by_cases quotes : c = 39 ∨ c = 34
      · refine skip .quote c ⟨by rintro ⟨⟩, fun absurdity => absurd rfl absurdity⟩ ?_
          (step_open blank backslash quotes)
        rw [character_norm, if_neg blank, if_neg backslash, if_pos quotes]
      · refine put .norm 0 quoted ?_ (step_put blank backslash quotes)
        rw [character_norm, if_neg blank, if_neg backslash, if_neg quotes]

/-- The loop of `process0_stdin` makes a batch of the lexer's tokens. -/
theorem itemLoop_eq (input : List UInt8) {args : List Str} {word : List UInt8} (clean : 0 ∉ word)
    (room maxArg : ℕ) (state : Quoting) (q : UInt8) :
    Except.ok (fromScan (itemLoop ⟨args, word, room, maxArg, state, q⟩ input)) =
      (itemLexer.batch (fun _ => false) room maxArg (state, q) word input).map
        (fromBatch args) := by
  induction input generalizing args word room maxArg with
  | nil =>
    rw [itemLoop, Lexer.batch]
    dsimp only
    by_cases empty : word = []
    · rw [if_neg (not_not.mpr empty), if_pos empty, empty]
      show Except.ok (args, _) = Except.ok (args ++ [], _)
      rw [List.append_nil]
      rfl
    · rw [if_pos empty, if_neg empty]
      show Except.ok (args ++ [cstr (word ++ [0])], _) = Except.ok (args ++ [word], _)
      rw [cstr_end clean]
      rfl
  | cons c input ih =>
    rw [itemLoop, Lexer.batch]
    by_cases nul : c = 0
    · have step : itemLexer.step (state, q) word c = ((state, q), .close) := congrArg _ (if_pos nul)
      rw [step, if_pos nul, nul]
      unfold Scan.set Scan.store
      dsimp only
      rw [cstr_end clean, if_neg Bool.false_ne_true]
      by_cases full : maxArg - 1 = 0 ∨ room - 1 = 0
      · rw [if_pos full, if_pos full]
        rfl
      · rw [if_neg full, if_neg full]
        dsimp only
        rw [ih List.not_mem_nil (room - 1) (maxArg - 1)]
        cases itemLexer.batch (fun _ => false) (room - 1) (maxArg - 1) (state, q) [] input with
        | error ending => rfl
        | ok batch =>
          show Except.ok ((args ++ [word]) ++ batch.tokens, _) =
            Except.ok (args ++ word :: batch.tokens, _)
          rw [List.append_assoc]
          rfl
    · have step : itemLexer.step (state, q) word c = ((state, q), .put c) :=
        congrArg _ (if_neg nul)
      have clean' := not_mem_concat clean nul
      rw [step, if_neg nul]
      unfold Scan.set
      dsimp only
      by_cases full : room - 1 = 0
      · rw [if_pos full, if_pos full]
        show Except.ok (args, (⟨_, cstr (word ++ [c]), _, _⟩ : State)) = Except.ok (args ++ [], _)
        rw [cstr_eq clean', List.append_nil]
      · rw [if_neg full, if_neg full]
        exact ih clean' (room - 1) maxArg

end Busybox.Xargs
