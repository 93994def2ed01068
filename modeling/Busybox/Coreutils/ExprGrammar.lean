import Busybox.Coreutils.Expr

/-!
# The grammar of `expr`

The documented grammar as derivations of syntax trees: a level for every precedence, with
operators that associate to the left. The descent through the arguments evaluates the tree
they derive, and ends with an error where they derive none.
-/

namespace Busybox.Coreutils.Expr

/-! ## The descent without its proofs -/

section Reads

variable (regcomp : Regcomp)

def reads (level : Level) (args : List Text) : Evaluation (Value × List Text) :=
  (fun read => (read.1, read.2.1)) <$> eval regcomp level args

def loops (level tighter : Level) (l : Value) (args : List Text) : Evaluation (Value × List Text) :=
  (fun read => (read.1, read.2.1)) <$> loop regcomp level tighter l args

variable {regcomp}

/-- The level of the operands of a level with a loop. -/
def Level.tighter : Level → Option Level
  | .eval => some .eval1
  | .eval1 => some .eval2
  | .eval2 => some .eval3
  | .eval3 => some .eval4
  | .eval4 => some .eval5
  | .eval5 => some .eval6
  | .eval6 | .eval7 => none

variable {level tighter : Level} {l : Value} {arg : Text} {args : List Text}

theorem reads_chain (next : level.tighter = some tighter) (args : List Text) :
    reads regcomp level args =
      reads regcomp tighter args >>= fun read => loops regcomp level tighter read.1 read.2 := by
  have isChain : eval regcomp level args = chain regcomp level tighter args := by
    cases level <;> cases next <;> rw [eval]
  rw [reads, isChain, chain]
  simp only [reads, loops, map_eq_pure_bind, bind_assoc, pure_bind]

theorem loops_nil : loops regcomp level tighter l [] = pure (l, []) := by
  rw [loops, loop, map_pure]

theorem loops_other (other : level.operator arg = none) :
    loops regcomp level tighter l (arg :: args) = pure (l, arg :: args) := by
  rw [loops, loop]
  split
  case h_1 => rw [map_pure]
  case h_2 op isOp => cases other.symm.trans isOp

theorem loops_operator {op : Operator} (isOp : level.operator arg = some op) :
    loops regcomp level tighter l (arg :: args) = reads regcomp tighter args >>= fun read =>
      apply regcomp l read.1 op >>= fun v => loops regcomp level tighter v read.2 := by
  rw [loops, loop]
  split
  case h_1 other => cases other.symm.trans isOp
  case h_2 op' isOp' =>
    cases isOp'.symm.trans isOp
    simp only [reads, loops, map_eq_pure_bind, bind_assoc, pure_bind]

theorem reads_eval7_operand (isOpen : arg ≠ ascii "(") (isClose : arg ≠ ascii ")") :
    reads regcomp .eval7 (arg :: args) = pure (.string arg, args) := by
  rw [reads, eval, eval7, if_neg isOpen, if_neg isClose, map_pure]

theorem reads_eval7_close : reads regcomp .eval7 (ascii ")" :: args) = Attempt.fail syntaxError := by
  rw [reads, eval, eval7, if_neg (by decide), if_pos rfl]
  rfl

/-- What is read behind an opening parenthesis. -/
def closes (read : Value × List Text) : Evaluation (Value × List Text) :=
  match read.2 with
  | [] => Attempt.fail syntaxError
  | close :: rest =>
    if close = ascii ")" then pure (read.1, rest) else Attempt.fail syntaxError

theorem reads_eval7_open :
    reads regcomp .eval7 (ascii "(" :: args) = reads regcomp .eval args >>= closes := by
  rw [reads, eval, eval7, if_pos rfl]
  simp only [reads, map_eq_pure_bind, bind_assoc, pure_bind]
  congr 1
  funext read
  obtain ⟨v, rest, shorter⟩ := read
  cases rest with
  | nil => rfl
  | cons close rest =>
    simp only [closes]
    split <;> rfl

theorem reads_nil : reads regcomp .eval6 [] = Attempt.fail syntaxError := by
  rw [reads, eval, eval6, eval7]
  rfl

theorem reads_eval7_nil : reads regcomp .eval7 [] = Attempt.fail syntaxError := by
  rw [reads, eval, eval7]
  rfl

theorem reads_plain (plain : keyword arg = none) :
    reads regcomp .eval6 (arg :: args) = reads regcomp .eval7 (arg :: args) := by
  rw [reads, reads, eval, eval, eval6.eq_def]
  simp only [plain]

theorem reads_quote_nil (isQuote : keyword arg = some .quote) :
    reads regcomp .eval6 [arg] = Attempt.fail syntaxError := by
  rw [reads, eval, eval6.eq_def]
  simp only [isQuote]
  rfl

theorem reads_quote (isQuote : keyword arg = some .quote) (arg' : Text) :
    reads regcomp .eval6 (arg :: arg' :: args) = pure (.string arg', args) := by
  rw [reads, eval, eval6.eq_def]
  simp only [isQuote]
  rfl

theorem reads_length (isLength : keyword arg = some .length) :
    reads regcomp .eval6 (arg :: args) =
      reads regcomp .eval6 args >>= fun read => pure (length read.1, read.2) := by
  rw [reads, eval, eval6.eq_def, reads, eval]
  simp only [isLength, map_eq_pure_bind, bind_assoc, pure_bind]

theorem reads_match (isMatch : keyword arg = some .match_) :
    reads regcomp .eval6 (arg :: args) =
      reads regcomp .eval6 args >>= fun l => reads regcomp .eval6 l.2 >>= fun r =>
        liftExcept (docolon regcomp l.1 r.1) >>= fun v => pure (v, r.2) := by
  rw [reads, eval, eval6.eq_def]
  simp only [isMatch, reads, eval, map_eq_pure_bind, bind_assoc, pure_bind]

theorem reads_index (isIndex : keyword arg = some .index) :
    reads regcomp .eval6 (arg :: args) =
      reads regcomp .eval6 args >>= fun l => reads regcomp .eval6 l.2 >>= fun r =>
        pure (index l.1 r.1, r.2) := by
  rw [reads, eval, eval6.eq_def]
  simp only [isIndex, reads, eval, map_eq_pure_bind, bind_assoc, pure_bind]

theorem reads_substr (isSubstr : keyword arg = some .substr) :
    reads regcomp .eval6 (arg :: args) =
      reads regcomp .eval6 args >>= fun l => reads regcomp .eval6 l.2 >>= fun i1 =>
        reads regcomp .eval6 i1.2 >>= fun i2 => pure (substr l.1 i1.1 i2.1, i2.2) := by
  rw [reads, eval, eval6.eq_def]
  simp only [isSubstr, reads, eval, map_eq_pure_bind, bind_assoc, pure_bind]

end Reads

/-! ## Derivations -/

inductive Tree
  | operand (arg : Text)
  | length (string : Tree)
  | match_ (string pattern : Tree)
  | index (string chars : Tree)
  | substr (string pos len : Tree)
  | binary (op : Operator) (left right : Tree)
deriving Repr

/-- The arguments of a tree at a level. -/
inductive Derives : Level → List Text → Tree → Prop
  | operand {arg : Text} (notOpen : arg ≠ ascii "(") (notClose : arg ≠ ascii ")") :
      Derives .eval7 [arg] (.operand arg)
  | parentheses {args : List Text} {tree : Tree} (inner : Derives .eval args tree) :
      Derives .eval7 (ascii "(" :: (args ++ [ascii ")"])) tree
  | plain {arg : Text} {args : List Text} {tree : Tree} (notKeyword : keyword arg = none)
      (bare : Derives .eval7 (arg :: args) tree) : Derives .eval6 (arg :: args) tree
  | quote {arg : Text} (isQuote : keyword arg = some .quote) (arg' : Text) :
      Derives .eval6 [arg, arg'] (.operand arg')
  | length {arg : Text} {args : List Text} {string : Tree} (isLength : keyword arg = some .length)
      (derives : Derives .eval6 args string) : Derives .eval6 (arg :: args) (.length string)
  | match_ {arg : Text} {args args' : List Text} {string pattern : Tree}
      (isMatch : keyword arg = some .match_) (first : Derives .eval6 args string)
      (second : Derives .eval6 args' pattern) :
      Derives .eval6 (arg :: (args ++ args')) (.match_ string pattern)
  | index {arg : Text} {args args' : List Text} {string chars : Tree}
      (isIndex : keyword arg = some .index) (first : Derives .eval6 args string)
      (second : Derives .eval6 args' chars) :
      Derives .eval6 (arg :: (args ++ args')) (.index string chars)
  | substr {arg : Text} {args args' args'' : List Text} {string pos len : Tree}
      (isSubstr : keyword arg = some .substr) (first : Derives .eval6 args string)
      (second : Derives .eval6 args' pos) (third : Derives .eval6 args'' len) :
      Derives .eval6 (arg :: (args ++ (args' ++ args''))) (.substr string pos len)
  | tighter {level tighter : Level} {args : List Text} {tree : Tree}
      (next : level.tighter = some tighter) (only : Derives tighter args tree) :
      Derives level args tree
  | binary {level tighter : Level} {args args' : List Text} {arg : Text} {op : Operator}
      {left right : Tree} (next : level.tighter = some tighter)
      (isOp : level.operator arg = some op) (first : Derives level args left)
      (second : Derives tighter args' right) :
      Derives level (args ++ arg :: args') (.binary op left right)

/-- Operands are evaluated from left to right. -/
def Tree.evaluation (regcomp : Regcomp) : Tree → Evaluation Value
  | operand arg => pure (.string arg)
  | length string => do
    let r ← string.evaluation regcomp
    pure (Expr.length r)
  | match_ string pattern => do
    let l ← string.evaluation regcomp
    let r ← pattern.evaluation regcomp
    liftExcept (docolon regcomp l r)
  | index string chars => do
    let l ← string.evaluation regcomp
    let r ← chars.evaluation regcomp
    pure (Expr.index l r)
  | substr string pos len => do
    let l ← string.evaluation regcomp
    let i1 ← pos.evaluation regcomp
    let i2 ← len.evaluation regcomp
    pure (Expr.substr l i1 i2)
  | binary op left right => do
    let l ← left.evaluation regcomp
    let r ← right.evaluation regcomp
    apply regcomp l r op

/-! ## A derived list is read as its tree -/

section Complete

variable {regcomp : Regcomp} {level tighter : Level} {args rest : List Text} {tree : Tree}

/-- What is done behind an operand of a level. -/
def after (regcomp : Regcomp) (level : Level) (v : Value) (rest : List Text) :
    Evaluation (Value × List Text) :=
  match level.tighter with
  | some tighter => loops regcomp level tighter v rest
  | none => pure (v, rest)

/-- No operator of the level comes next. -/
def Stops (level : Level) (rest : List Text) : Prop :=
  ∀ arg ∈ rest.head?, level.operator arg = none

theorem after_stops (stops : Stops level rest) (v : Value) :
    after regcomp level v rest = pure (v, rest) := by
  unfold after
  split
  · cases rest with
    | nil => exact loops_nil
    | cons arg rest => exact loops_other (stops arg rfl)
  · rfl

theorem after_chain (next : level.tighter = some tighter) (v : Value) :
    after regcomp level v rest = loops regcomp level tighter v rest := by
  rw [after, next]

theorem rank_tighter (next : level.tighter = some tighter) : tighter.rank < level.rank := by
  cases level <;> cases next <;> decide

/-- No operator belongs to two levels. -/
theorem operators_disjoint (level other : Level) (apart : level ≠ other) :
    ∀ op ∈ level.operators, ∀ op' ∈ other.operators, op.1 ≠ op'.1 := by
  cases level <;> cases other <;> first | exact absurd rfl apart | decide

theorem operator_other {arg : Text} {op : Operator} (isOp : level.operator arg = some op)
    {other : Level} (apart : level ≠ other) : other.operator arg = none := by
  obtain ⟨entry, found, _⟩ := Option.map_eq_some_iff.mp isOp
  have same : entry.1 = arg := by simpa using List.find?_some found
  refine Option.map_eq_none_iff.mpr (List.find?_eq_none.mpr fun entry' mem same' => ?_)
  exact operators_disjoint level other apart entry (List.mem_of_find?_eq_some found) entry' mem
    (same.trans (of_decide_eq_true same').symm)

/-- A closing parenthesis is no operator. -/
theorem operator_close (level : Level) : level.operator (ascii ")") = none := by
  cases level <;> decide

/-- The operands of operators that come next are complete: none of a tighter level comes. -/
def Complete (level : Level) (rest : List Text) : Prop :=
  ∀ other : Level, other.rank < level.rank → Stops other rest

theorem Complete.below (complete : Complete level rest) (next : level.tighter = some tighter) :
    Complete tighter rest :=
  fun other lower => complete other (lower.trans (rank_tighter next))

theorem complete_eval6 (rest : List Text) : Complete .eval6 rest := by
  intro other lower arg _
  cases other with
  | eval7 => rfl
  | _ => exact absurd lower (by decide)

theorem complete_eval7 (rest : List Text) : Complete .eval7 rest := fun _ lower =>
  absurd lower (Nat.not_lt_zero _)

/-- At an operator of the level the operands before it are complete. -/
theorem complete_operator {arg : Text} {op : Operator} (isOp : level.operator arg = some op) :
    Complete level (arg :: rest) := by
  rintro other lower arg' ⟨⟩
  refine operator_other isOp ?_
  rintro rfl
  exact Nat.lt_irrefl _ lower

/-- A derived list is read up to what comes behind it, which is looked at by the loop of the
level. -/
theorem Derives.reads (derives : Derives level args tree) (complete : Complete level rest) :
    reads regcomp level (args ++ rest) =
      tree.evaluation regcomp >>= fun v => after regcomp level v rest := by
  induction derives generalizing rest with
  | operand notOpen notClose =>
    rw [List.singleton_append, reads_eval7_operand notOpen notClose]
    rfl
  | parentheses inner ih =>
    have stops : Stops .eval (ascii ")" :: rest) := by
      rintro arg ⟨⟩
      exact operator_close .eval
    have complete' : Complete .eval (ascii ")" :: rest) := by
      rintro other _ arg ⟨⟩
      exact operator_close other
    rw [List.cons_append, List.append_assoc, List.singleton_append, reads_eval7_open, ih complete',
      bind_assoc]
    simp only [after_stops stops, pure_bind]
    rfl
  | plain notKeyword bare ih =>
    rw [List.cons_append, reads_plain notKeyword]
    exact ih (complete_eval7 rest)
  | quote isQuote arg' =>
    exact reads_quote isQuote arg'
  | length isLength derives ih =>
    rw [List.cons_append, reads_length isLength, ih (complete_eval6 rest)]
    simp only [Tree.evaluation, bind_assoc, pure_bind]
    rfl
  | match_ isMatch first second ih ih' =>
    rw [List.cons_append, List.append_assoc, reads_match isMatch, ih (complete_eval6 _)]
    simp only [Tree.evaluation, bind_assoc, after, Level.tighter, pure_bind,
      ih' (complete_eval6 rest)]
  | index isIndex first second ih ih' =>
    rw [List.cons_append, List.append_assoc, reads_index isIndex, ih (complete_eval6 _)]
    simp only [Tree.evaluation, bind_assoc, after, Level.tighter, pure_bind,
      ih' (complete_eval6 rest)]
  | substr isSubstr first second third ih ih' ih'' =>
    rw [List.cons_append, List.append_assoc, List.append_assoc, reads_substr isSubstr,
      ih (complete_eval6 _)]
    simp only [Tree.evaluation, bind_assoc, after, Level.tighter, pure_bind,
      ih' (complete_eval6 _), ih'' (complete_eval6 rest)]
  | tighter next only ih =>
    have stops := complete _ (rank_tighter next)
    rw [reads_chain next, ih (complete.below next)]
    simp only [bind_assoc, after_stops stops, pure_bind, after_chain next]
  | binary next isOp first second ih ih' =>
    have stops := complete _ (rank_tighter next)
    rw [List.append_assoc, List.cons_append, ih (complete_operator isOp)]
    simp only [after_chain next, loops_operator isOp, ih' (complete.below next),
      after_stops stops, Tree.evaluation, bind_assoc, pure_bind]

end Complete

/-! ## What is read is derived -/

section Sound

variable {regcomp : Regcomp} {level tighter : Level} {args : List Text}

def Dies (stop : Stop) : Prop := ∃ message, stop = .die message

/-- There is no value, whatever is answered. -/
def Fails {α : Type} (evaluation : Evaluation α) : Prop :=
  Attempt.Ends Dies (fun _ => False) evaluation

theorem Fails.bind {α β : Type} {first : Evaluation α} {next : α → Evaluation β}
    (fails : Fails first) : Fails (first >>= next) :=
  Attempt.Ends.bind fails fun _ impossible => impossible.elim

theorem fails_syntaxError {α : Type} : Fails (Attempt.fail syntaxError : Evaluation α) := ⟨_, rfl⟩

theorem docolon_ends (regcomp : Regcomp) (l r : Value) :
    Fallible.Ends (docolon regcomp l r) (fun _ => True) Dies := by
  unfold docolon
  split
  · exact ⟨_, rfl⟩
  · simp only
    split
    · split
      · split
        · split <;> trivial
        · trivial
      · trivial
    · trivial

theorem liftExcept_ends {α : Type} {result : Except Stop α}
    (ends : Fallible.Ends result (fun _ => True) Dies) :
    Attempt.Ends Dies (fun _ => True) (liftExcept result) := by
  cases result with
  | error stop => exact ends
  | ok value => exact trivial

theorem apply_ends (regcomp : Regcomp) (l r : Value) (op : Operator) :
    Attempt.Ends Dies (fun _ => True) (apply regcomp l r op) := by
  cases op with
  | or | and => exact trivial
  | compare op => exact (Attempt.Ends.ask _).bind fun _ _ => trivial
  | arithmetic op => exact (Attempt.Ends.ask _).bind fun _ _ => trivial
  | colon => exact liftExcept_ends (docolon_ends regcomp l r)

/-- A tree has a value, or the evaluation dies. -/
theorem Tree.ends (regcomp : Regcomp) (tree : Tree) :
    Attempt.Ends Dies (fun _ => True) (tree.evaluation regcomp) := by
  induction tree with
  | operand arg => exact trivial
  | length string ih => exact ih.bind fun _ _ => trivial
  | match_ string pattern ih ih' =>
    exact ih.bind fun l _ => ih'.bind fun r _ => liftExcept_ends (docolon_ends regcomp l r)
  | index string chars ih ih' => exact ih.bind fun _ _ => ih'.bind fun _ _ => trivial
  | substr string pos len ih ih' ih'' =>
    exact ih.bind fun _ _ => ih'.bind fun _ _ => ih''.bind fun _ _ => trivial
  | binary op left right ih ih' =>
    exact ih.bind fun l _ => ih'.bind fun r _ => apply_ends regcomp l r op

theorem Tree.bind_fails {α : Type} (tree : Tree) {next : Value → Evaluation α}
    (fails : ∀ v, Fails (next v)) : Fails (tree.evaluation regcomp >>= next) :=
  (tree.ends regcomp).bind fun v _ => fails v

theorem Derives.ne_nil {tree : Tree} (derives : Derives level args tree) : args ≠ [] := by
  induction derives with
  | tighter next only ih => exact ih
  | binary => exact List.append_ne_nil_of_right_ne_nil _ (List.cons_ne_nil _ _)
  | _ => exact List.cons_ne_nil _ _

theorem Derives.shorter {tree : Tree} {rest : List Text} (derives : Derives level args tree) :
    rest.length < (args ++ rest).length := by
  have positive := List.length_pos_iff.mpr derives.ne_nil
  rw [List.length_append]
  omega

/-- The arguments fail, or the first of them derive a tree that is evaluated. -/
def Sound (regcomp : Regcomp) (level : Level) (args : List Text) : Prop :=
  Fails (reads regcomp level args) ∨
    ∃ before rest tree, args = before ++ rest ∧ Derives level before tree ∧
      reads regcomp level args = tree.evaluation regcomp >>= fun v => pure (v, rest)

theorem sound_eval7 (inner : ∀ args', args'.length < args.length → Sound regcomp .eval args') :
    Sound regcomp .eval7 args := by
  cases args with
  | nil => exact .inl (by rw [reads_eval7_nil]; exact fails_syntaxError)
  | cons arg args =>
    by_cases isOpen : arg = ascii "("
    · subst isOpen
      rw [Sound, reads_eval7_open]
      rcases inner args (Nat.lt_succ_self _) with fails | ⟨before, rest, tree, rfl, derives, read⟩
      · exact .inl fails.bind
      · rw [read, bind_assoc]
        simp only [pure_bind]
        cases rest with
        | nil => exact .inl (tree.bind_fails fun _ => fails_syntaxError)
        | cons close rest =>
          by_cases isClose : close = ascii ")"
          · subst isClose
            exact .inr ⟨ascii "(" :: (before ++ [ascii ")"]), rest, tree, by simp,
              .parentheses derives, rfl⟩
          · refine .inl (tree.bind_fails fun _ => ?_)
            simp only [closes, if_neg isClose]
            exact fails_syntaxError
    · by_cases isClose : arg = ascii ")"
      · subst isClose
        exact .inl (by rw [reads_eval7_close]; exact fails_syntaxError)
      · exact .inr ⟨[arg], args, .operand arg, rfl, .operand isOpen isClose,
          reads_eval7_operand isOpen isClose⟩

theorem sound_loops (next : level.tighter = some tighter)
    (operands : ∀ args', args'.length < args.length → Sound regcomp tighter args')
    {done : List Text} {left : Tree} (derives : Derives level done left) :
    Fails (left.evaluation regcomp >>= fun v => loops regcomp level tighter v args) ∨
      ∃ before rest tree, args = before ++ rest ∧ Derives level (done ++ before) tree ∧
        (left.evaluation regcomp >>= fun v => loops regcomp level tighter v args) =
          tree.evaluation regcomp >>= fun v => pure (v, rest) := by
  induction size : args.length using Nat.strong_induction_on generalizing args done left with
  | _ size' ih =>
    subst size
    cases args with
    | nil =>
      simp only [loops_nil]
      exact .inr ⟨[], [], left, rfl, by rwa [List.append_nil], rfl⟩
    | cons arg args =>
      cases isOp : level.operator arg with
      | none =>
        simp only [loops_other isOp]
        exact .inr ⟨[], arg :: args, left, rfl, by rwa [List.append_nil], rfl⟩
      | some op =>
        simp only [loops_operator isOp]
        rcases operands args (Nat.lt_succ_self _) with
          fails | ⟨middle, rest, right, rfl, derives', read⟩
        · exact .inl (left.bind_fails fun _ => fails.bind)
        · have shorter : rest.length < (arg :: (middle ++ rest)).length := by
            rw [List.length_cons, List.length_append]
            omega
          have behind : ∀ args', args'.length < rest.length → Sound regcomp tighter args' :=
            fun args' less => operands args' (less.trans shorter)
          have longer := ih _ shorter behind (.binary next isOp derives derives') rfl
          simp only [Tree.evaluation, bind_assoc] at longer
          simp only [read, bind_assoc, pure_bind]
          rcases longer with fails | ⟨before, rest, tree, rfl, derives'', read'⟩
          · exact .inl fails
          · exact .inr ⟨arg :: (middle ++ before), rest, tree, by simp, by simpa using derives'',
              read'⟩

theorem sound_chain (next : level.tighter = some tighter) (operand : Sound regcomp tighter args)
    (operands : ∀ args', args'.length < args.length → Sound regcomp tighter args') :
    Sound regcomp level args := by
  rw [Sound, reads_chain next]
  rcases operand with fails | ⟨before, rest, tree, rfl, derives, read⟩
  · exact .inl fails.bind
  · have behind : ∀ args', args'.length < rest.length → Sound regcomp tighter args' := by
      intro args' less
      refine operands args' (less.trans_le ?_)
      rw [List.length_append]
      exact Nat.le_add_left _ _
    rw [read]
    simp only [bind_assoc, pure_bind]
    rcases sound_loops next behind (.tighter next derives) with
      fails | ⟨more, rest, tree', rfl, derives', read'⟩
    · exact .inl fails
    · exact .inr ⟨before ++ more, rest, tree', by rw [List.append_assoc], derives', read'⟩

theorem sound_eval6 (bare : Sound regcomp .eval7 args)
    (operands : ∀ args', args'.length < args.length → Sound regcomp .eval6 args') :
    Sound regcomp .eval6 args := by
  cases args with
  | nil => exact .inl (by rw [reads_nil]; exact fails_syntaxError)
  | cons arg args =>
    have operand {rest : List Text} (shorter : rest.length ≤ args.length) :
        Sound regcomp .eval6 rest := operands rest (Nat.lt_succ_of_le shorter)
    cases key : keyword arg with
    | none =>
      rw [Sound, reads_plain key]
      rcases bare with fails | ⟨before, rest, tree, parts, derives, read⟩
      · exact .inl fails
      · obtain ⟨head, tail, rfl⟩ := List.exists_cons_of_ne_nil derives.ne_nil
        cases (List.cons.inj parts).1
        exact .inr ⟨_, rest, tree, parts, .plain key derives, read⟩
    | some key' =>
      cases key' with
      | quote =>
        cases args with
        | nil => exact .inl (by rw [reads_quote_nil key]; exact fails_syntaxError)
        | cons arg' args =>
          exact .inr ⟨[arg, arg'], args, .operand arg', rfl, .quote key arg', reads_quote key arg'⟩
      | length =>
        rw [Sound, reads_length key]
        rcases operand le_rfl with fails | ⟨before, rest, string, rfl, derives, read⟩
        · exact .inl fails.bind
        · refine .inr ⟨arg :: before, rest, .length string, rfl, .length key derives, ?_⟩
          simp only [read, Tree.evaluation, bind_assoc, pure_bind]
      | match_ =>
        rw [Sound, reads_match key]
        rcases operand le_rfl with fails | ⟨before, rest, string, rfl, derives, read⟩
        · exact .inl fails.bind
        simp only [read, bind_assoc, pure_bind]
        rcases operand derives.shorter.le with fails | ⟨before', rest, pattern, rfl, derives', read'⟩
        · exact .inl (string.bind_fails fun _ => fails.bind)
        · refine .inr ⟨arg :: (before ++ before'), rest, .match_ string pattern, by simp,
            .match_ key derives derives', ?_⟩
          simp only [read', Tree.evaluation, bind_assoc, pure_bind]
      | index =>
        rw [Sound, reads_index key]
        rcases operand le_rfl with fails | ⟨before, rest, string, rfl, derives, read⟩
        · exact .inl fails.bind
        simp only [read, bind_assoc, pure_bind]
        rcases operand derives.shorter.le with fails | ⟨before', rest, chars, rfl, derives', read'⟩
        · exact .inl (string.bind_fails fun _ => fails.bind)
        · refine .inr ⟨arg :: (before ++ before'), rest, .index string chars, by simp,
            .index key derives derives', ?_⟩
          simp only [read', Tree.evaluation, bind_assoc, pure_bind]
      | substr =>
        rw [Sound, reads_substr key]
        rcases operand le_rfl with fails | ⟨before, rest, string, rfl, derives, read⟩
        · exact .inl fails.bind
        simp only [read, bind_assoc, pure_bind]
        rcases operand derives.shorter.le with fails | ⟨before', rest, pos, rfl, derives', read'⟩
        · exact .inl (string.bind_fails fun _ => fails.bind)
        simp only [read', bind_assoc, pure_bind]
        rcases operand (derives'.shorter.trans derives.shorter).le with
          fails | ⟨before'', rest, len, rfl, derives'', read''⟩
        · exact .inl (string.bind_fails fun _ => pos.bind_fails fun _ => fails.bind)
        · refine .inr ⟨arg :: (before ++ (before' ++ before'')), rest, .substr string pos len,
            by simp, .substr key derives derives' derives'', ?_⟩
          simp only [read'', Tree.evaluation, bind_assoc, pure_bind]

/-- The descent is sound at every level: the levels from the innermost one, for lists of a
length, when shorter lists are. -/
theorem sound (regcomp : Regcomp) (level : Level) (args : List Text) :
    Sound regcomp level args := by
  induction size : args.length using Nat.strong_induction_on generalizing level args with
  | _ size' ih =>
    subst size
    have shorter (level : Level) (args' : List Text) (less : args'.length < args.length) :
        Sound regcomp level args' := ih _ less level args' rfl
    have sound7 : Sound regcomp .eval7 args := sound_eval7 (shorter .eval)
    have sound6 : Sound regcomp .eval6 args := sound_eval6 sound7 (shorter .eval6)
    have sound5 : Sound regcomp .eval5 args := sound_chain rfl sound6 (shorter .eval6)
    have sound4 : Sound regcomp .eval4 args := sound_chain rfl sound5 (shorter .eval5)
    have sound3 : Sound regcomp .eval3 args := sound_chain rfl sound4 (shorter .eval4)
    have sound2 : Sound regcomp .eval2 args := sound_chain rfl sound3 (shorter .eval3)
    have sound1 : Sound regcomp .eval1 args := sound_chain rfl sound2 (shorter .eval2)
    have sound0 : Sound regcomp .eval args := sound_chain rfl sound1 (shorter .eval1)
    cases level <;> assumption

end Sound

/-! ## The whole list -/

theorem exprMain_eq (regcomp : Regcomp) {args : List Text} (some : args ≠ []) :
    exprMain regcomp args = reads regcomp .eval args >>= fun read =>
      if read.2 ≠ [] then Attempt.fail syntaxError
      else pure (tostring read.1 ++ [10], null read.1) := by
  rw [exprMain, if_neg some]
  simp only [reads, map_eq_pure_bind, bind_assoc, pure_bind]

/-- A list that derives a tree is evaluated as that. -/
theorem exprMain_derives (regcomp : Regcomp) {args : List Text} {tree : Tree}
    (derives : Derives .eval args tree) :
    exprMain regcomp args =
      (fun v => (tostring v ++ [10], null v)) <$> tree.evaluation regcomp := by
  have read : reads regcomp .eval (args ++ []) =
      tree.evaluation regcomp >>= fun v => after regcomp .eval v [] :=
    derives.reads fun _ _ => nofun
  have stops : Stops .eval [] := nofun
  simp only [after_stops stops, List.append_nil] at read
  rw [exprMain_eq regcomp derives.ne_nil, read, bind_assoc, map_eq_pure_bind]
  rfl

/-- A list that derives no tree is an error. -/
theorem exprMain_fails (regcomp : Regcomp) {args : List Text}
    (none : ¬∃ tree, Derives .eval args tree) : Fails (exprMain regcomp args) := by
  by_cases empty : args = []
  · rw [exprMain, if_pos empty]
    exact ⟨_, rfl⟩
  · rw [exprMain_eq regcomp empty]
    rcases sound regcomp .eval args with fails | ⟨before, rest, tree, rfl, derives, read⟩
    · exact fails.bind
    · rw [read, bind_assoc]
      refine tree.bind_fails fun v => ?_
      rw [pure_bind]
      cases rest with
      | nil => exact absurd ⟨tree, by rwa [List.append_nil]⟩ none
      | cons arg rest => exact fails_syntaxError

end Busybox.Coreutils.Expr
