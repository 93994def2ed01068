import Mathlib

/-!
# Pieces of a text

A pattern cuts a text at its occurrences, which are looked for from the left, each one behind the
one before. Joining the pieces with the pattern gives the text again, and joining them with another
text replaces every occurrence.
-/

namespace Busybox.Pieces

variable {α : Type*} {pattern text front behind : List α}

theorem intercalate_singletons (front text : List α) :
    ([] : List α).intercalate (front :: (text.map fun a => [a]) ++ [[]]) = front ++ text := by
  induction text generalizing front with
  | nil =>
    show List.intercalate [] [front, []] = front ++ []
    rw [List.intercalate_cons_cons, List.intercalate_singleton, List.append_nil]
  | cons a text ih =>
    rw [List.map_cons, List.cons_append, List.cons_append, List.intercalate_cons_cons,
      List.append_nil, ← List.cons_append, ih]
    rfl

theorem length_intercalate (pattern : List α) {parts : List (List α)} (some : parts ≠ []) :
    (pattern.intercalate parts).length =
      (parts.map List.length).sum + (parts.length - 1) * pattern.length := by
  induction parts with
  | nil => exact absurd rfl some
  | cons part parts ih =>
    cases parts with
    | nil => simp
    | cons next parts =>
      have rest := ih (List.cons_ne_nil _ _)
      rw [List.length_cons, Nat.add_sub_cancel] at rest
      rw [List.intercalate_cons_cons, List.length_append, List.length_append, rest]
      simp only [List.map_cons, List.sum_cons, List.length_cons, Nat.add_sub_cancel, Nat.succ_mul]
      omega

variable [DecidableEq α]

/-- The text in front of the first occurrence of a pattern, and the text behind it. -/
def cut (pattern : List α) : List α → Option (List α × List α)
  | [] => if pattern = [] then some ([], []) else none
  | a :: text =>
    if pattern.isPrefixOf (a :: text) then some ([], (a :: text).drop pattern.length)
    else (cut pattern text).map fun parts => (a :: parts.1, parts.2)

theorem cut_eq_some (found : cut pattern text = some (front, behind)) :
    text = front ++ (pattern ++ behind) := by
  induction text generalizing front with
  | nil =>
    rw [cut] at found
    split at found
    case isTrue empty =>
      cases found
      rw [empty]
      rfl
    case isFalse => cases found
  | cons a text ih =>
    rw [cut] at found
    split at found
    case isTrue isPrefix =>
      obtain ⟨rest, split⟩ := List.isPrefixOf_iff_prefix.mp isPrefix
      cases found
      rw [← split, List.drop_left]
      rfl
    case isFalse =>
      obtain ⟨⟨front', behind'⟩, later, same⟩ := Option.map_eq_some_iff.mp found
      cases same
      rw [List.cons_append, ← ih later]

/-- What is behind an occurrence is shorter than the text. -/
theorem cut_shorter (nonempty : pattern ≠ []) (found : cut pattern text = some (front, behind)) :
    behind.length < text.length := by
  have some := List.length_pos_of_ne_nil nonempty
  rw [cut_eq_some found, List.length_append, List.length_append]
  omega

/-- The pieces between the occurrences of a pattern that is not empty. -/
def piecesOf (nonempty : pattern ≠ []) (text : List α) : List (List α) :=
  match _found : cut pattern text with
  | none => [text]
  | some (front, behind) => front :: piecesOf nonempty behind
termination_by text.length
decreasing_by exact cut_shorter nonempty _found

/-- The pieces of a text; an empty pattern occurs everywhere. -/
def pieces (pattern text : List α) : List (List α) :=
  if nonempty : pattern ≠ [] then piecesOf nonempty text
  else [] :: (text.map fun a => [a]) ++ [[]]

/-- The number of occurrences. -/
def occurrences (pattern text : List α) : ℕ := (pieces pattern text).length - 1

/-- Every occurrence is replaced. -/
def replaced (pattern replacement text : List α) : List α :=
  replacement.intercalate (pieces pattern text)

theorem piecesOf_none (nonempty : pattern ≠ []) (missing : cut pattern text = none) :
    piecesOf nonempty text = [text] := by
  rw [piecesOf]
  split
  · rfl
  case h_2 found =>
    rw [missing] at found
    cases found

theorem piecesOf_some (nonempty : pattern ≠ []) (found : cut pattern text = some (front, behind)) :
    piecesOf nonempty text = front :: piecesOf nonempty behind := by
  rw [piecesOf]
  split
  case h_1 missing =>
    rw [found] at missing
    cases missing
  case h_2 found' =>
    rw [found] at found'
    cases found'
    rfl

theorem piecesOf_ne_nil (nonempty : pattern ≠ []) (text : List α) :
    piecesOf nonempty text ≠ [] := by
  rw [piecesOf]
  split
  · exact List.cons_ne_nil _ _
  · exact List.cons_ne_nil _ _

/-- The text in the middle of pieces is the text that they were cut from. -/
theorem intercalate_piecesOf (nonempty : pattern ≠ []) (text : List α) :
    pattern.intercalate (piecesOf nonempty text) = text := by
  induction text using piecesOf.induct nonempty with
  | case1 text missing =>
    rw [piecesOf_none nonempty missing]
    exact List.intercalate_singleton
  | case2 text front behind found ih =>
    rw [piecesOf_some nonempty found,
      List.intercalate_cons_of_ne_nil (piecesOf_ne_nil nonempty behind), ih, cut_eq_some found,
      List.append_assoc]

/-- Joined with the pattern the pieces are the text. -/
theorem intercalate_pieces (pattern text : List α) :
    pattern.intercalate (pieces pattern text) = text := by
  unfold pieces
  split_ifs with nonempty
  · exact intercalate_piecesOf nonempty text
  · rw [not_not.mp nonempty]
    exact intercalate_singletons [] text

theorem pieces_ne_nil (pattern text : List α) : pieces pattern text ≠ [] := by
  unfold pieces
  split_ifs with nonempty
  · exact piecesOf_ne_nil nonempty text
  · exact List.cons_ne_nil _ _

/-- A text grows by the difference of the lengths with every occurrence. -/
theorem length_replaced (pattern replacement text : List α) :
    (replaced pattern replacement text).length + occurrences pattern text * pattern.length =
      text.length + occurrences pattern text * replacement.length := by
  have whole := length_intercalate pattern (pieces_ne_nil pattern text)
  rw [intercalate_pieces] at whole
  unfold replaced occurrences
  rw [length_intercalate replacement (pieces_ne_nil pattern text)]
  omega

/-- A text without an occurrence is not changed. -/
theorem replaced_eq_self (replacement : List α) (none : occurrences pattern text = 0) :
    replaced pattern replacement text = text := by
  have whole := intercalate_pieces pattern text
  have some := List.length_pos_of_ne_nil (pieces_ne_nil pattern text)
  unfold occurrences at none
  obtain ⟨piece, single⟩ := List.length_eq_one_iff.mp
    (show (pieces pattern text).length = 1 by omega)
  rw [single, List.intercalate_singleton] at whole
  rw [replaced, single, List.intercalate_singleton, whole]

theorem occurrences_nil (text : List α) : occurrences [] text = text.length + 1 := by
  unfold occurrences pieces
  rw [dif_neg (not_not.mpr rfl)]
  simp

end Busybox.Pieces

/-!
## Portions of a sequence

Items of weight one or none are put into portions, one after the other. A portion is full once its
weight comes to the given size, and then the next item starts another.
-/

namespace Busybox.Portions

variable {α : Type*} (weight : α → Nat) (size : Nat)

/-- The weight of a portion. -/
def load (portion : List α) : Nat := (portion.map weight).sum

/-- A portion that was filled by its last item. -/
def Full (portion : List α) : Prop :=
  load weight portion = size ∧ ∀ item ∈ portion.getLast?, weight item = 1

/-- A sequence cut into full portions, but for the last one, which is not empty. -/
structure Divides (items : List α) (portions : List (List α)) : Prop where
  joined : portions.flatten = items
  full : ∀ portion ∈ portions.dropLast, Full weight size portion
  last : ∀ portion ∈ portions.getLast?, portion ≠ [] ∧ load weight portion ≤ size

/-- One more item. The newest portion stands first. -/
def put : List (List α) → α → List (List α)
  | [], item => [[item]]
  | newest :: older, item =>
    if load weight newest = size then [item] :: newest :: older
    else (newest ++ [item]) :: older

/-- The portions that items are put into, the newest first. -/
def portions (items : List α) : List (List α) := items.foldl (put weight size) []

variable {weight size} {items portion : List α} {item : α}

@[simp] theorem load_nil : load weight [] = 0 := rfl

@[simp] theorem load_append (front back : List α) :
    load weight (front ++ back) = load weight front + load weight back := by
  simp [load]

@[simp] theorem load_singleton (item : α) : load weight [item] = weight item := by
  simp [load]

theorem load_dropLast_le (portion : List α) :
    load weight portion.dropLast ≤ load weight portion := by
  rcases List.eq_nil_or_concat portion with rfl | ⟨front, last, rfl⟩
  · exact Nat.le_refl _
  · rw [List.concat_eq_append, List.dropLast_concat, load_append]
    exact Nat.le_add_right _ _

theorem portions_concat (items : List α) (item : α) :
    portions weight size (items ++ [item]) = put weight size (portions weight size items) item := by
  simp [portions]

/-- What every further item keeps of the portions. -/
structure Filled (weight : α → Nat) (size : Nat) (items : List α) (parts : List (List α)) :
    Prop where
  joined : parts.reverse.flatten = items
  full : ∀ portion ∈ parts.tail, Full weight size portion
  newest : ∀ portion ∈ parts.head?, portion ≠ [] ∧ load weight portion ≤ size ∧
    (load weight portion = size → ∀ item ∈ portion.getLast?, weight item = 1)

theorem singleton_newest (small : weight item ≤ 1) (positive : 0 < size) :
    ∀ portion ∈ [[item]].head?, portion ≠ [] ∧ load weight portion ≤ size ∧
      (load weight portion = size → ∀ item ∈ portion.getLast?, weight item = 1) := by
  rintro portion ⟨⟩
  rw [load_singleton]
  refine ⟨by simp, by omega, fun isFull => ?_⟩
  intro last isLast
  obtain rfl : item = last := Option.some.inj isLast
  omega

theorem Filled.put {parts : List (List α)} (small : ∀ item, weight item ≤ 1) (positive : 0 < size)
    (filled : Filled weight size items parts) (item : α) :
    Filled weight size (items ++ [item]) (put weight size parts item) := by
  obtain ⟨joined, full, newest⟩ := filled
  cases parts with
  | nil =>
    refine ⟨?_, nofun, singleton_newest (small item) positive⟩
    rw [← joined]
    rfl
  | cons portion older =>
    obtain ⟨nonempty, fits, last⟩ := newest portion rfl
    rw [Portions.put]
    split
    case isTrue isFull =>
      refine ⟨by simp [← joined], ?_, singleton_newest (small item) positive⟩
      exact List.forall_mem_cons.mpr ⟨⟨isFull, last isFull⟩, full⟩
    case isFalse room =>
      have light := small item
      refine ⟨by simp [← joined], full, ?_⟩
      rintro portion' ⟨⟩
      rw [load_append, load_singleton]
      refine ⟨by simp, by omega, fun isFull => ?_⟩
      intro last' isLast
      rw [List.getLast?_concat] at isLast
      cases isLast
      omega

theorem filled_portions (small : ∀ item, weight item ≤ 1) (positive : 0 < size) (items : List α) :
    Filled weight size items (portions weight size items) := by
  induction items using List.reverseRecOn with
  | nil => exact ⟨rfl, nofun, nofun⟩
  | append_singleton items item ih =>
    rw [portions_concat]
    exact ih.put small positive item

theorem divides_portions (small : ∀ item, weight item ≤ 1) (positive : 0 < size)
    (items : List α) : Divides weight size items (portions weight size items).reverse := by
  obtain ⟨joined, full, newest⟩ := filled_portions small positive items
  refine ⟨joined, ?_, ?_⟩
  · intro portion mem
    rw [List.dropLast_reverse] at mem
    exact full portion (List.mem_reverse.mp mem)
  · intro portion mem
    rw [List.getLast?_reverse] at mem
    exact ⟨(newest portion mem).1, (newest portion mem).2.1⟩

end Busybox.Portions

/-!
## Tokens in batches

A lexer makes tokens of a text, one character at a time. A reader with a buffer has room for a
batch of them; the token that is cut by the end of the buffer is the beginning of the next batch.
All batches together have the tokens of the text.
-/

namespace Busybox.Tokens

/-- What a character does: it is put behind the token, it ends the token, or it is left out. -/
inductive Action (α : Type*)
  | put (a : α)
  | close
  | skip

/-- A lexer looks at its state and the token that has been begun. The text may end in a state in
which no token can. -/
structure Lexer (σ α ε : Type*) where
  step : σ → List α → α → σ × Action α
  atEnd : σ → Except ε σ

/-- The tokens of a batch, and what is left: the beginning of a token, the state, and the text. -/
structure Batch (σ α : Type*) where
  tokens : List (List α)
  token : List α
  state : σ
  input : List α

variable {σ α ε : Type*}

def Batch.cons (token : List α) (batch : Batch σ α) : Batch σ α :=
  { batch with tokens := token :: batch.tokens }

/-- The room that tokens take, with an end for each. -/
def room (tokens : List (List α)) : ℕ := (tokens.map fun token => token.length + 1).sum

/-- The tokens in front of a last one -/
def before (last : List α → Bool) (tokens : List (List α)) : List (List α) :=
  tokens.takeWhile fun token => !last token

theorem before_last {last : List α → Bool} {token : List α} (isLast : last token = true)
    (rest : List (List α)) : before last (token :: rest) = [] :=
  List.takeWhile_cons_of_neg (by rw [isLast]; exact Bool.false_ne_true)

theorem before_cons {last : List α → Bool} {token : List α} (notLast : last token = false)
    (rest : List (List α)) : before last (token :: rest) = token :: before last rest :=
  List.takeWhile_cons_of_pos (by rw [notLast]; rfl)

namespace Lexer

variable (lexer : Lexer σ α ε)

/-- The tokens of a text, of which the first one has been begun. -/
def tokens (state : σ) (token : List α) : List α → List (List α)
  | [] => if token = [] then [] else [token]
  | a :: input =>
    match lexer.step state token a with
    | (state, .put b) => tokens state (token ++ [b]) input
    | (state, .close) => token :: tokens state [] input
    | (state, .skip) => tokens state token input

/-- The state at the end of the text, and the token that is begun there. -/
def finish (state : σ) (token : List α) : List α → σ × List α
  | [] => (state, token)
  | a :: input =>
    match lexer.step state token a with
    | (state, .put b) => finish state (token ++ [b]) input
    | (state, .close) => finish state [] input
    | (state, .skip) => finish state token input

/-- A batch for which there is so much room behind the token that has been begun, with at most
`count` tokens. Nothing is read behind a last token. -/
def batch (last : List α → Bool) (room count : ℕ) (state : σ) (token : List α) :
    List α → Except ε (Batch σ α)
  | [] =>
    if token = [] then .ok ⟨[], [], state, []⟩
    else
      match lexer.atEnd state with
      | .error e => .error e
      | .ok state => if last token then .ok ⟨[], [], state, []⟩ else .ok ⟨[token], [], state, []⟩
  | a :: input =>
    match lexer.step state token a with
    | (state, .put b) =>
      if room - 1 = 0 then .ok ⟨[], token ++ [b], state, input⟩
      else batch last (room - 1) count state (token ++ [b]) input
    | (state, .close) =>
      if last token then .ok ⟨[], [], state, []⟩
      else if count - 1 = 0 ∨ room - 1 = 0 then .ok ⟨[token], [], state, input⟩
      else (batch last (room - 1) (count - 1) state [] input).map (Batch.cons token)
    | (state, .skip) =>
      if room = 0 then .ok ⟨[], token, state, input⟩ else batch last room count state token input

/-- A batch is made, one rule for each way to go on or to stop. -/
inductive Reads (last : List α → Bool) :
    ℕ → ℕ → σ → List α → List α → Batch σ α → Prop
  | nothing {room count : ℕ} {state : σ} : Reads last room count state [] [] ⟨[], [], state, []⟩
  | endLast {room count : ℕ} {state state' : σ} {token : List α} (begun : token ≠ [])
      (ends : lexer.atEnd state = .ok state') (isLast : last token = true) :
      Reads last room count state token [] ⟨[], [], state', []⟩
  | endToken {room count : ℕ} {state state' : σ} {token : List α} (begun : token ≠ [])
      (ends : lexer.atEnd state = .ok state') (notLast : last token = false) :
      Reads last room count state token [] ⟨[token], [], state', []⟩
  | putFull {room count : ℕ} {state state' : σ} {token input : List α} {a b : α}
      (step : lexer.step state token a = (state', .put b)) (full : room - 1 = 0) :
      Reads last room count state token (a :: input) ⟨[], token ++ [b], state', input⟩
  | put {room count : ℕ} {state state' : σ} {token input : List α} {a b : α} {made : Batch σ α}
      (step : lexer.step state token a = (state', .put b)) (left : room - 1 ≠ 0)
      (rest : Reads last (room - 1) count state' (token ++ [b]) input made) :
      Reads last room count state token (a :: input) made
  | closeLast {room count : ℕ} {state state' : σ} {token input : List α} {a : α}
      (step : lexer.step state token a = (state', .close)) (isLast : last token = true) :
      Reads last room count state token (a :: input) ⟨[], [], state', []⟩
  | closeFull {room count : ℕ} {state state' : σ} {token input : List α} {a : α}
      (step : lexer.step state token a = (state', .close)) (notLast : last token = false) :
      Reads last room count state token (a :: input) ⟨[token], [], state', input⟩
  | close {room count : ℕ} {state state' : σ} {token input : List α} {a : α} {made : Batch σ α}
      (step : lexer.step state token a = (state', .close)) (notLast : last token = false)
      (more : count - 1 ≠ 0) (left : room - 1 ≠ 0)
      (rest : Reads last (room - 1) (count - 1) state' [] input made) :
      Reads last room count state token (a :: input) (made.cons token)
  | skipFull {room count : ℕ} {state state' : σ} {token input : List α} {a : α}
      (step : lexer.step state token a = (state', .skip)) (full : room = 0) :
      Reads last room count state token (a :: input) ⟨[], token, state', input⟩
  | skip {room count : ℕ} {state state' : σ} {token input : List α} {a : α} {made : Batch σ α}
      (step : lexer.step state token a = (state', .skip))
      (rest : Reads last room count state' token input made) :
      Reads last room count state token (a :: input) made

variable {lexer} {last : List α → Bool} {room count : ℕ} {state : σ} {token input : List α}
  {made : Batch σ α}

theorem reads_of_batch (read : lexer.batch last room count state token input = .ok made) :
    lexer.Reads last room count state token input made := by
  induction input generalizing room count state token made with
  | nil =>
    rw [batch] at read
    by_cases empty : token = []
    · rw [if_pos empty] at read
      cases read
      rw [empty]
      exact .nothing
    · rw [if_neg empty] at read
      cases ends : lexer.atEnd state with
      | error e =>
        rw [ends] at read
        cases read
      | ok state' =>
        rw [ends] at read
        dsimp only at read
        split_ifs at read with isLast
        · cases read
          exact .endLast empty ends isLast
        · cases read
          exact .endToken empty ends (Bool.eq_false_iff.mpr isLast)
  | cons a input ih =>
    rw [batch] at read
    rcases step : lexer.step state token a with ⟨state', b | - | -⟩
    · rw [step] at read
      dsimp only at read
      split_ifs at read with full
      · cases read
        exact .putFull step full
      · exact .put step full (ih read)
    · rw [step] at read
      dsimp only at read
      split_ifs at read with isLast full
      · cases read
        exact .closeLast step isLast
      · cases read
        exact .closeFull step (Bool.eq_false_iff.mpr isLast)
      · obtain ⟨more, left⟩ := not_or.mp full
        cases later : lexer.batch last (room - 1) (count - 1) state' [] input with
        | error e =>
          rw [later] at read
          cases read
        | ok rest =>
          rw [later] at read
          cases read
          exact .close step (Bool.eq_false_iff.mpr isLast) more left (ih later)
    · rw [step] at read
      dsimp only at read
      split_ifs at read with full
      · cases read
        exact .skipFull step full
      · exact .skip step (ih read)

/-! ## A batch and the rest -/

section Step

variable {state' : σ} {a b : α}

theorem tokens_put (step : lexer.step state token a = (state', .put b)) :
    lexer.tokens state token (a :: input) = lexer.tokens state' (token ++ [b]) input := by
  rw [tokens, step]

theorem tokens_close (step : lexer.step state token a = (state', .close)) :
    lexer.tokens state token (a :: input) = token :: lexer.tokens state' [] input := by
  rw [tokens, step]

theorem tokens_skip (step : lexer.step state token a = (state', .skip)) :
    lexer.tokens state token (a :: input) = lexer.tokens state' token input := by
  rw [tokens, step]

theorem finish_put (step : lexer.step state token a = (state', .put b)) :
    lexer.finish state token (a :: input) = lexer.finish state' (token ++ [b]) input := by
  rw [finish, step]

theorem finish_close (step : lexer.step state token a = (state', .close)) :
    lexer.finish state token (a :: input) = lexer.finish state' [] input := by
  rw [finish, step]

theorem finish_skip (step : lexer.step state token a = (state', .skip)) :
    lexer.finish state token (a :: input) = lexer.finish state' token input := by
  rw [finish, step]

end Step

/-- The tokens in front of a last one are those of the batch and of what is left. -/
theorem Reads.before_tokens (reads : lexer.Reads last room count state token input made) :
    before last (lexer.tokens state token input) =
      made.tokens ++ before last (lexer.tokens made.state made.token made.input) := by
  induction reads with
  | nothing => rfl
  | endLast begun ends isLast => rw [tokens, if_neg begun, before_last isLast]; rfl
  | endToken begun ends notLast => rw [tokens, if_neg begun, before_cons notLast]; rfl
  | putFull step full => rw [tokens_put step]; rfl
  | put step left rest ih => rw [tokens_put step, ih]
  | closeLast step isLast => rw [tokens_close step, before_last isLast]; rfl
  | closeFull step notLast => rw [tokens_close step, before_cons notLast]; rfl
  | close step notLast more left rest ih => rw [tokens_close step, before_cons notLast, ih]; rfl
  | skipFull step full => rw [tokens_skip step]; rfl
  | skip step rest ih => rw [tokens_skip step, ih]

/-- Nothing is left, or what is left is the rest of the same text. -/
theorem Reads.same_text (reads : lexer.Reads last room count state token input made) :
    (made.token = [] ∧ made.input = []) ∨
      (lexer.tokens state token input =
          made.tokens ++ lexer.tokens made.state made.token made.input ∧
        lexer.finish state token input = lexer.finish made.state made.token made.input) := by
  induction reads with
  | nothing => exact .inl ⟨rfl, rfl⟩
  | endLast => exact .inl ⟨rfl, rfl⟩
  | endToken => exact .inl ⟨rfl, rfl⟩
  | putFull step => exact .inr ⟨tokens_put step, finish_put step⟩
  | put step left rest ih => rwa [tokens_put step, finish_put step]
  | closeLast => exact .inl ⟨rfl, rfl⟩
  | closeFull step => exact .inr ⟨tokens_close step, finish_close step⟩
  | close step notLast more left rest ih =>
    rw [tokens_close step, finish_close step]
    exact ih.imp_right fun same => ⟨congrArg _ same.1, same.2⟩
  | skipFull step full => exact .inr ⟨tokens_skip step, finish_skip step⟩
  | skip step rest ih => rwa [tokens_skip step, finish_skip step]

/-- A batch fits into its buffer. -/
theorem Reads.fits (reads : lexer.Reads last room count state token input made)
    (some : 0 < room) (any : 0 < count) :
    made.tokens.length ≤ count ∧
      Tokens.room made.tokens + made.token.length ≤ room + token.length := by
  induction reads with
  | nothing => exact ⟨Nat.zero_le _, Nat.zero_le _⟩
  | endLast => exact ⟨Nat.zero_le _, Nat.zero_le _⟩
  | endToken begun ends notLast =>
    refine ⟨any, ?_⟩
    simp only [Tokens.room, List.map_cons, List.map_nil, List.sum_cons, List.sum_nil,
      List.length_nil]
    omega
  | putFull step full =>
    refine ⟨Nat.zero_le _, ?_⟩
    simp only [Tokens.room, List.map_nil, List.sum_nil, List.length_append, List.length_singleton]
    omega
  | put step left rest ih =>
    obtain ⟨few, short⟩ := ih (Nat.pos_of_ne_zero left) any
    rw [List.length_append, List.length_singleton] at short
    exact ⟨few, by omega⟩
  | closeLast => exact ⟨Nat.zero_le _, Nat.zero_le _⟩
  | closeFull step notLast =>
    refine ⟨any, ?_⟩
    simp only [Tokens.room, List.map_cons, List.map_nil, List.sum_cons, List.sum_nil,
      List.length_nil]
    omega
  | close step notLast more left rest ih =>
    obtain ⟨few, short⟩ := ih (Nat.pos_of_ne_zero left) (Nat.pos_of_ne_zero more)
    rw [List.length_nil] at short
    refine ⟨?_, ?_⟩
    · show _ + 1 ≤ _
      omega
    · simp only [Tokens.room, Batch.cons, List.map_cons, List.sum_cons] at short ⊢
      omega
  | skipFull step full => omega
  | skip step rest ih => exact ih some any

/-- Without a token the text is at its end, or the token that is begun fills the buffer. -/
theorem Reads.none (reads : lexer.Reads last room count state token input made)
    (some : 0 < room) (empty : made.tokens = []) :
    (made.token = [] ∧ made.input = []) ∨
      (made.token ≠ [] ∧ room + token.length ≤ made.token.length) := by
  induction reads with
  | nothing => exact .inl ⟨rfl, rfl⟩
  | endLast => exact .inl ⟨rfl, rfl⟩
  | endToken => cases empty
  | putFull step full =>
    refine .inr ⟨List.append_ne_nil_of_right_ne_nil _ (List.cons_ne_nil _ _), ?_⟩
    rw [List.length_append, List.length_singleton]
    omega
  | put step left rest ih =>
    refine (ih (Nat.pos_of_ne_zero left) empty).imp_right fun full => ⟨full.1, ?_⟩
    rw [List.length_append, List.length_singleton] at full
    omega
  | closeLast => exact .inl ⟨rfl, rfl⟩
  | closeFull => cases empty
  | close => cases empty
  | skipFull step full => omega
  | skip step rest ih => exact ih some empty

/-- What there is to read, where a token that has been begun counts as well. -/
def left (token input : List α) : ℕ := 2 * input.length + (if token = [] then 0 else 1)

theorem left_lt_cons (token token' : List α) (a : α) (input : List α) :
    left token' input < left token (a :: input) := by
  unfold left
  rw [List.length_cons]
  split <;> split <;> omega

theorem le_and_lt {m n : ℕ} {p : Prop} (less : m < n) : m ≤ n ∧ (p → m < n) :=
  ⟨Nat.le_of_lt less, fun _ => less⟩

/-- A batch leaves no more, and one with a token leaves less. -/
theorem Reads.left_le (reads : lexer.Reads last room count state token input made) :
    left made.token made.input ≤ left token input ∧
      (made.tokens ≠ [] → left made.token made.input < left token input) := by
  induction reads with
  | nothing => exact ⟨Nat.le_refl _, fun some => absurd rfl some⟩
  | endLast => exact ⟨Nat.zero_le _, fun some => absurd rfl some⟩
  | @endToken _ _ _ _ token begun _ _ =>
    have less : left ([] : List α) [] < left token [] := by
      unfold left
      rw [if_pos rfl, if_neg begun]
      omega
    exact le_and_lt less
  | putFull => exact ⟨Nat.le_of_lt (left_lt_cons _ _ _ _), fun some => absurd rfl some⟩
  | put step _ rest ih =>
    exact le_and_lt (Nat.lt_of_le_of_lt ih.1 (left_lt_cons _ _ _ _))
  | closeLast => exact ⟨Nat.zero_le _, fun some => absurd rfl some⟩
  | closeFull => exact le_and_lt (left_lt_cons _ _ _ _)
  | close step _ _ _ rest ih =>
    exact le_and_lt (Nat.lt_of_le_of_lt ih.1 (left_lt_cons _ _ _ _))
  | skipFull => exact ⟨Nat.le_of_lt (left_lt_cons _ _ _ _), fun some => absurd rfl some⟩
  | skip step rest ih =>
    exact le_and_lt (Nat.lt_of_le_of_lt ih.1 (left_lt_cons _ _ _ _))

/-- Something about the state, the token that is begun and the rest of the text is kept by every
step, and where the text is cut off. -/
structure Keeps (lexer : Lexer σ α ε) (Good : σ → List α → List α → Prop) : Prop where
  put : ∀ {state state' token a b input}, lexer.step state token a = (state', .put b) →
    Good state token (a :: input) → Good state' (token ++ [b]) input
  close : ∀ {state state' token a input}, lexer.step state token a = (state', .close) →
    Good state token (a :: input) → Good state' [] input
  skip : ∀ {state state' token a input}, lexer.step state token a = (state', .skip) →
    Good state token (a :: input) → Good state' token input
  atEnd : ∀ {state state' token}, lexer.atEnd state = .ok state' → Good state token [] →
    Good state' [] []
  cut : ∀ {state input}, Good state [] input → Good state [] []

/-- A batch keeps what every step keeps. -/
theorem Reads.keeps {Good : σ → List α → List α → Prop} (keeps : lexer.Keeps Good)
    (reads : lexer.Reads last room count state token input made) (good : Good state token input) :
    Good made.state made.token made.input := by
  induction reads with
  | nothing => exact good
  | endLast begun ends isLast => exact keeps.atEnd ends good
  | endToken begun ends notLast => exact keeps.atEnd ends good
  | putFull step full => exact keeps.put step good
  | put step left rest ih => exact ih (keeps.put step good)
  | closeLast step isLast => exact keeps.cut (keeps.close step good)
  | closeFull step notLast => exact keeps.close step good
  | close step notLast more left rest ih => exact ih (keeps.close step good)
  | skipFull step full => exact keeps.skip step good
  | skip step rest ih => exact ih (keeps.skip step good)

/-- Nothing is read from nothing. -/
theorem Reads.of_nothing (reads : lexer.Reads last room count state [] [] made) :
    made.token = [] ∧ made.input = [] := by
  cases reads with
  | nothing => exact ⟨rfl, rfl⟩
  | endLast begun => exact absurd rfl begun
  | endToken begun => exact absurd rfl begun

/-! ## The end of a text -/

/-- A batch fails in a text that ends behind the beginning of a token, in a state in which no token
can. -/
theorem batch_error {e : ε} (failed : lexer.batch last room count state token input = .error e) :
    (lexer.finish state token input).2 ≠ [] ∧
      lexer.atEnd (lexer.finish state token input).1 = .error e := by
  induction input generalizing room count state token with
  | nil =>
    rw [batch] at failed
    by_cases empty : token = []
    · rw [if_pos empty] at failed
      cases failed
    rw [if_neg empty] at failed
    refine ⟨empty, ?_⟩
    cases ends : lexer.atEnd state with
    | error e' =>
      rw [ends] at failed
      cases failed
      exact ends
    | ok state' =>
      rw [ends] at failed
      dsimp only at failed
      split_ifs at failed
  | cons a input ih =>
    rw [batch] at failed
    rcases step : lexer.step state token a with ⟨state', b | - | -⟩
    · rw [step] at failed
      dsimp only at failed
      split_ifs at failed
      rw [finish_put step]
      exact ih failed
    · rw [step] at failed
      dsimp only at failed
      split_ifs at failed
      rw [finish_close step]
      cases later : lexer.batch last (room - 1) (count - 1) state' [] input with
      | error e' =>
        rw [later] at failed
        cases failed
        exact ih later
      | ok rest =>
        rw [later] at failed
        cases failed
    · rw [step] at failed
      dsimp only at failed
      split_ifs at failed
      rw [finish_skip step]
      exact ih failed

/-- A token that is begun is the beginning of the first one. -/
theorem tokens_begun (begun : token ≠ []) :
    ∃ first rest, lexer.tokens state token input = first :: rest ∧ token <+: first := by
  induction input generalizing state token with
  | nil => exact ⟨token, [], by rw [tokens, if_neg begun], List.prefix_rfl⟩
  | cons a input ih =>
    rcases step : lexer.step state token a with ⟨state', b | - | -⟩
    · obtain ⟨first, rest, same, isPrefix⟩ :
          ∃ first rest, lexer.tokens state' (token ++ [b]) input = first :: rest ∧
            token ++ [b] <+: first :=
        ih (List.append_ne_nil_of_right_ne_nil token (List.cons_ne_nil b []))
      exact ⟨first, rest, (tokens_put step).trans same, (List.prefix_append _ _).trans isPrefix⟩
    · exact ⟨token, _, tokens_close step, List.prefix_rfl⟩
    · obtain ⟨first, rest, same, isPrefix⟩ :
          ∃ first rest, lexer.tokens state' token input = first :: rest ∧ token <+: first :=
        ih begun
      exact ⟨first, rest, (tokens_skip step).trans same, isPrefix⟩

end Lexer

end Busybox.Tokens
