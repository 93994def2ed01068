import Busybox.Shell.Parse

/-!
# The evaluator computes what the tree means

By induction over a tree, reading its tokens leaves its own operators pending, and
applying them gives what the tree means. The middle operand of a `?:` is the one
place where the evaluator parses something else: `?` binds as tightly there as
everywhere, so that an operand that binds no more tightly is cut at its own
operators, and the evaluation ends with an error.
-/

namespace Busybox.Shell

open Fallible

/-! ## Faithful results -/

/-- The stack holds what the meaning says, or the operation stopped with an error: the
one of the meaning, where middle operands are `bound`. -/
inductive Faithful (bound : Prop) (below : List VarOrNum) :
    Except Stop (List VarOrNum × Vars) → Except MathError (Operand × Env) → Prop
  | fails {error : MathError} {vars : Vars} {meaning : Except MathError (Operand × Env)}
      (same : bound → meaning = .error error) :
      Faithful bound below (.error (.error error vars)) meaning
  | gives {entry : VarOrNum} {x : Operand} {vars : Vars} {env : Env} (holds : bound)
      (stands : Stands entry x) (numeric : Numeric vars env) :
      Faithful bound below (.ok (entry :: below, vars)) (.ok (x, env))

section Results

variable {bound bound' : Prop} {below below' : List VarOrNum}
  {result : Except Stop (List VarOrNum × Vars)} {meaning : Except MathError (Operand × Env)}

theorem Agrees.faithful (agrees : Agrees result meaning below) :
    Faithful True below result meaning := by
  cases meaning with
  | error error =>
    obtain ⟨vars, rfl⟩ := agrees
    exact .fails fun _ => rfl
  | ok value =>
    obtain ⟨entry, vars, rfl, stands, numeric⟩ := agrees
    exact .gives trivial stands numeric

theorem Faithful.and (faithful : Faithful bound' below result meaning) (holds : bound) :
    Faithful (bound ∧ bound') below result meaning := by
  cases faithful with
  | fails same => exact .fails fun both => same both.2
  | gives holds' stands numeric => exact .gives ⟨holds, holds'⟩ stands numeric

/-- What is done with a faithful result is faithful if it is for every value. -/
theorem Faithful.bind {next : List VarOrNum × Vars → Except Stop (List VarOrNum × Vars)}
    {meant : Operand × Env → Except MathError (Operand × Env)}
    (first : Faithful bound below result meaning)
    (then_ : ∀ {entry vars x env}, Stands entry x → Numeric vars env →
      Faithful bound' below' (next (entry :: below, vars)) (meant (x, env))) :
    Faithful (bound ∧ bound') below' (result >>= next) (meaning >>= meant) := by
  cases first with
  | fails same =>
    refine .fails fun both => ?_
    rw [same both.1, error_bind]
  | gives holds stands numeric =>
    rw [ok_bind, ok_bind]
    exact (then_ stands numeric).and holds

theorem Faithful.congr (faithful : Faithful bound below result meaning) (same : bound ↔ bound') :
    Faithful bound' below result meaning := by
  obtain rfl : bound = bound' := propext same
  exact faithful

end Results

/-! ## Reading a tree -/

/-- The operators after an operand that are pending: applying them from the outermost
inwards fails where the tree does. -/
structure Posts (ops : List Operator) (entry : VarOrNum) (vars : Vars)
    (meaning : Except MathError (Operand × Env)) : Prop where
  isPost : ∀ op ∈ ops, isPostOperator op = true
  same : ∃ x env, Stands entry x ∧ Numeric vars env ∧
    meaning = match ops with
      | [] => .ok (x, env)
      | [op] => x.post op env
      | _ => .error .syntaxError

variable (depth : Nat)

/-- The tokens of a tree have been read, and its operators are pending. -/
structure Parsed (base scan : Scan) (e : Expr) (env : Env) (opened : Nat) (ops : List Operator)
    (rest : Str) : Prop where
  leads : Leads (evaluateString (depth + 1)) [] base (.next scan)
  pending : Pending base scan e.level ops ((LastToken.operator opened).after e.tokens) rest
  result : Faithful e.MiddlesBound base.nums
    (applyAll (evaluateString (depth + 1)) [] ops scan.nums scan.vars) (e.eval env)
  posts : postLevel ≤ e.level → e.MiddlesBound ∧ ∃ entry, scan.nums = entry :: base.nums ∧
    Posts ops entry scan.vars (e.eval env)

/-- Reading the tokens of a tree either ends the evaluation with an error, the tree's own
where middle operands are bound, or leaves its operators pending. -/
inductive Parses (base : Scan) (e : Expr) (env : Env) (opened : Nat) (rest : Str) : Prop
  | fails {error : MathError} {vars : Vars}
      (leads : Leads (evaluateString (depth + 1)) [] base (.done (fail error vars)))
      (same : e.MiddlesBound → e.eval env = .error error)
  | reads {scan : Scan} {ops : List Operator}
      (parsed : Parsed depth base scan e env opened ops rest)

/-- An operand is expected, and the tokens of a tree come next. -/
structure Ready (base : Scan) (e : Expr) (env : Env) (opened : Nat) (rest : Str) : Prop where
  expects : afterPost base.lasttok ≠ .num
  blocks : Blocks e.level base.stack
  reads : Reads (.operator opened) base.expr e.tokens rest
  numeric : Numeric base.vars env

/-- Wherever a tree may come next, it is read. -/
def Readable (e : Expr) : Prop :=
  ∀ ⦃base env opened rest⦄, Ready base e env opened rest → Parses depth base e env opened rest

section Trees

variable {depth} {base scan : Scan} {e left right : Expr} {env : Env} {opened level : Nat} {rest : Str}
  {op : Operator}

/-- Where an operand is expected, the last token was no literal. -/
theorem isLiteral_operator (expects : afterPost base.lasttok ≠ .num) :
    isLiteral base = some (LastToken.operator opened).literal := by
  have noNum : base.lasttok ≠ .num := fun number => expects (by rw [number]; rfl)
  rw [isLiteral, if_neg noNum]
  rfl

/-- An operand with no pending operators. -/
theorem parses_operand {entry : VarOrNum} {x : Operand} {env' : Env}
    (leads : Leads (evaluateString (depth + 1)) [] base (.next scan))
    (number : scan.lasttok = .num) (pushed : scan.nums = entry :: base.nums)
    (same : scan.expr = rest ∧ scan.closing = base.closing ∧ scan.stack = base.stack)
    (literal : entry.var.isNone = ((LastToken.operator opened).after e.tokens).literal)
    (bound : e.MiddlesBound) (meaning : e.eval env = .ok (x, env'))
    (stands : Stands entry x) (numeric : Numeric scan.vars env') :
    Parses depth base e env opened rest := by
  obtain ⟨expr, closing, stack⟩ := same
  have pending : Pending base scan e.level [] ((LastToken.operator opened).after e.tokens) rest :=
    ⟨expr, closing, by rw [number]; rfl, by simp [isLiteral, number, pushed, literal], by simp [stack],
      by simp⟩
  have result : Faithful e.MiddlesBound base.nums
      (applyAll (evaluateString (depth + 1)) [] [] scan.nums scan.vars) (e.eval env) := by
    rw [applyAll, pushed, meaning]
    exact .gives bound stands numeric
  exact .reads ⟨leads, pending, result, fun _ =>
    ⟨bound, entry, pushed, by simp, x, env', stands, numeric, meaning⟩⟩

theorem readable_name (n : Str) : Readable depth (.name n) := by
  rintro base env opened rest ⟨expects, -, reads, numeric⟩
  cases reads with
  | cons read reads =>
    cases reads
    exact parses_operand (.turn (step_token (isLiteral_operator expects) read) .now)
      rfl rfl ⟨rfl, rfl, rfl⟩ rfl trivial rfl ⟨rfl, rfl⟩ numeric

theorem readable_num (val : Int64) : Readable depth (.num val) := by
  rintro base env opened rest ⟨expects, -, reads, numeric⟩
  cases reads with
  | cons read reads =>
    cases reads
    exact parses_operand (.turn (step_token (isLiteral_operator expects) read) .now)
      rfl rfl ⟨rfl, rfl, rfl⟩ rfl trivial rfl stands_number numeric

/-- The reader of tokens remembers whether parentheses hold a name. -/
theorem literal_paren {entry : VarOrNum} {x : Operand} {env' : Env} (wellFormed : e.WellFormed)
    (meaning : e.eval env = .ok (x, env')) (stands : Stands entry x) :
    entry.var.isNone = ((LastToken.operator opened).after e.paren.tokens).literal := by
  have named := eval_target meaning
  rw [after_paren]
  cases x with
  | number val =>
    rw [after_no_target wellFormed named.symm, stands.same.1]
    rfl
  | lvalue name =>
    have var : entry.var = some name := stands.same
    rw [after_target named.symm, var]
    rfl

/-- Parentheses apply everything between them. -/
theorem readable_paren (wellFormed : e.WellFormed) (readable : Readable depth e) :
    Readable depth e.paren := by
  rintro base env opened rest ⟨expects, -, reads, numeric⟩
  obtain ⟨text, reads, close⟩ := reads_append reads
  cases reads with
  | @cons _ _ text' _ _ _ read reads =>
    have opening := step_pre (evaluateString (depth + 1)) [] expects rfl read rfl
    have blocks : Blocks e.level (.lparen :: base.stack) :=
      ⟨_, _, rfl, fun q above _ => .inl (Nat.lt_of_lt_of_le wellFormed.level_pos above)⟩
    have inside : Ready { base with expr := text', lasttok := .lparen, stack := .lparen :: base.stack }
        e env (opened + 1) text := ⟨by simp [afterPost], blocks, reads, numeric⟩
    cases readable inside with
    | fails leads same => exact .fails (.turn opening leads) same
    | @reads scan ops parsed =>
      cases close with
      | cons closeRead close =>
        cases close
        have closing := step_rparen (evaluateString (depth + 1)) []
          parsed.pending closeRead rfl
        have result := parsed.result
        generalize applyAll (evaluateString (depth + 1)) [] ops scan.nums scan.vars = applied
          at closing result
        generalize meaning : e.eval env = m at result
        cases result with
        | fails same =>
          exact .fails (.turn opening (parsed.leads.trans (.done closing))) fun bound =>
            meaning.trans (same bound)
        | @gives entry x vars env' bound stands numeric =>
          exact parses_operand (.turn opening (parsed.leads.trans (.turn closing .now)))
            rfl rfl ⟨rfl, rfl, rfl⟩ (literal_paren wellFormed meaning stands) bound meaning
            stands numeric

/-! ### Operators after their operand -/

theorem isPost_facts (isPost : isPostOperator op = true) :
    isBinary op = false ∧ op ≠ .num ∧ afterPost op = .num ∧ op ≠ .lparen ∧ postLevel ≤ rank op ∧
      ∀ last : LastToken, last.next (.op op) = .operator 0 := by
  cases op <;> cases isPost <;>
    exact ⟨rfl, by simp, rfl, by simp, by decide, fun _ => rfl⟩

theorem applyAll_single (nums : List VarOrNum) (vars : Vars) :
    applyAll (evaluateString (depth + 1)) [] [op] nums vars =
      arithApply (evaluateString (depth + 1)) [] op nums vars := by
  rw [applyAll]
  cases arithApply (evaluateString (depth + 1)) [] op nums vars with
  | error stop => rfl
  | ok applied => rfl

/-- One operator after a number, or after another one's result, is an error. -/
theorem post_post (x : Operand) (op' : Operator) :
    (x.post op' env >>= fun y => y.1.post op y.2) = .error .syntaxError := by
  cases x <;> rfl

theorem Posts.push {ops : List Operator} {entry : VarOrNum} {vars : Vars}
    {meaning : Except MathError (Operand × Env)} (posts : Posts ops entry vars meaning)
    (isPost : isPostOperator op = true) :
    Posts (op :: ops) entry vars (meaning >>= fun x => x.1.post op x.2) := by
  obtain ⟨isPosts, x, env, stands, numeric, rfl⟩ := posts
  refine ⟨List.forall_mem_cons.mpr ⟨isPost, isPosts⟩, x, env, stands, numeric, ?_⟩
  match ops with
  | [] => rfl
  | [op'] => exact post_post x op'
  | _ :: _ :: _ => rfl

theorem Posts.faithful {ops : List Operator} {entry : VarOrNum} {vars : Vars}
    {meaning : Except MathError (Operand × Env)} (posts : Posts ops entry vars meaning)
    (below : List VarOrNum) :
    Faithful True below (applyAll (evaluateString (depth + 1)) [] ops (entry :: below) vars)
      meaning := by
  obtain ⟨isPosts, x, env, stands, numeric, rfl⟩ := posts
  cases ops with
  | nil => exact .gives trivial stands numeric
  | cons op' ops =>
    have apply_ {op vars entry x env} (member : op ∈ op' :: ops) (stands : Stands entry x)
        (numeric : Numeric vars env) :
        Agrees (arithApply (evaluateString (depth + 1)) [] op (entry :: below) vars) (x.post op env)
          below := arithApply_post (isPosts op member) stands numeric
    cases ops with
    | nil =>
      rw [applyAll_single]
      exact (apply_ (List.mem_cons_self ..) stands numeric).faithful
    | cons op ops =>
      -- the operator next to the operand is applied second, to a number
      have second {entry val vars env} (stands : Stands entry (.number val))
          (numeric : Numeric vars env) : ∃ vars', arithApply (evaluateString (depth + 1)) [] op
            (entry :: below) vars = .error (.error .syntaxError vars') :=
        apply_ (List.mem_cons_of_mem _ (List.mem_cons_self ..)) stands numeric
      have first := apply_ (List.mem_cons_self ..) stands numeric
      cases x with
      | number val =>
        obtain ⟨vars', failed⟩ := first
        rw [applyAll, failed]
        exact .fails fun _ => rfl
      | lvalue name =>
        obtain ⟨entry', vars', applied, stands', numeric'⟩ := first
        obtain ⟨vars'', failed⟩ := second stands' numeric'
        rw [applyAll, applied, ok_bind, applyAll, failed]
        exact .fails fun _ => rfl

theorem readable_post (isPost : isPostOperator op = true) (tight : postLevel ≤ e.level)
    (readable : Readable depth e) : Readable depth (.post op e) := by
  rintro base env opened rest ⟨expects, blocks, reads, numeric⟩
  obtain ⟨text, reads, after⟩ := reads_append reads
  cases readable ⟨expects, blocks.mono tight, reads, numeric⟩ with
  | fails leads same =>
    refine .fails leads fun bound => ?_
    rw [Expr.eval, same bound, error_bind]
  | @reads scan ops parsed =>
    cases after with
    | cons read after =>
      cases after
      obtain ⟨noBinary, noNum, post, noParen, loose, last⟩ := isPost_facts isPost
      have pushed := step_post (evaluateString (depth + 1)) []
        parsed.pending read noBinary
      obtain ⟨bound, entry, nums, posts⟩ := parsed.posts tight
      have posts := posts.push isPost
      have read_ : (LastToken.operator opened).after (e.post op).tokens = .operator 0 := by
        rw [Expr.tokens, LastToken.after_append]
        exact last _
      refine .reads ⟨parsed.leads.trans (.turn pushed .now), ⟨rfl, parsed.pending.closing, post, ?_,
        congrArg (op :: ·) parsed.pending.stack, ?_⟩, ?_, fun _ => ⟨bound, entry, nums, posts⟩⟩
      · rw [read_]
        simp [isLiteral, noNum, LastToken.literal]
      · have inner := parsed.pending.tight
        exact List.forall_mem_cons.mpr ⟨⟨noParen, loose⟩, fun o member =>
          ⟨(inner o member).1, le_trans tight (inner o member).2⟩⟩
      · simp only [nums]
        exact (posts.faithful base.nums).congr (by simp [Expr.MiddlesBound, bound])

/-! ### Operators before their operand -/

theorem isPre_facts (isPre : isPreOperator op = true) :
    prefixForm (spelled op) = op ∧ isBinary op = false ∧ afterPost op ≠ .num ∧ op ≠ .lparen ∧
      preLevel ≤ rank op ∧ ∀ last : LastToken, last.next (.op (spelled op)) = .operator 0 := by
  cases op <;> cases isPre <;>
    exact ⟨rfl, rfl, by simp [afterPost], by simp, by decide, fun _ => rfl⟩

/-- Pending operators above others that are part of the tree too. -/
theorem Pending.above {base base' scan : Scan} {level level' : Nat} {ops under : List Operator}
    {last : LastToken} {rest : Str} (pending : Pending base' scan level' ops last rest)
    (stack : base'.stack = under ++ base.stack) (closing : base'.closing = base.closing)
    (looser : level ≤ level') (tight : ∀ op ∈ under, op ≠ .lparen ∧ level ≤ rank op) :
    Pending base scan level (ops ++ under) last rest where
  expr := pending.expr
  closing := pending.closing.trans closing
  number := pending.number
  literal := pending.literal
  stack := by rw [pending.stack, stack, List.append_assoc]
  tight := List.forall_mem_append.mpr ⟨fun op member =>
    ⟨(pending.tight op member).1, le_trans looser (pending.tight op member).2⟩, tight⟩

/-- The operator below the pending ones is applied to what they leave. -/
theorem Faithful.append {bound : Prop} {below below' nums : List VarOrNum} {vars : Vars}
    {ops : List Operator} {meaning : Except MathError (Operand × Env)}
    {meant : Operand × Env → Except MathError (Operand × Env)}
    (first : Faithful bound below' (applyAll (evaluateString (depth + 1)) [] ops nums vars) meaning)
    (next : ∀ {entry vars x env}, Stands entry x → Numeric vars env →
      Agrees (arithApply (evaluateString (depth + 1)) [] op (entry :: below') vars)
        (meant (x, env)) below) :
    Faithful bound below (applyAll (evaluateString (depth + 1)) [] (ops ++ [op]) nums vars)
      (meaning >>= meant) := by
  rw [applyAll_append]
  refine (first.bind fun stands numeric => ?_).congr (iff_of_eq (and_true bound))
  rw [applyAll_single]
  exact (next stands numeric).faithful

theorem readable_pre (isPre : isPreOperator op = true) (tight : preLevel ≤ e.level)
    (readable : Readable depth e) : Readable depth (.pre op e) := by
  rintro base env opened rest ⟨expects, blocks, reads, numeric⟩
  obtain ⟨form, noBinary, opens, noParen, loose, last⟩ := isPre_facts isPre
  cases reads with
  | @cons _ _ text _ _ _ read reads =>
    rw [last] at reads
    have pushed := step_pre (evaluateString (depth + 1)) [] expects rfl read
      (by rw [form]; exact noBinary)
    rw [form] at pushed
    have inside : Ready { base with expr := text, lasttok := op, stack := op :: base.stack }
        e env 0 rest := ⟨opens, blocks_unary tight _ _, reads, numeric⟩
    cases readable inside with
    | fails leads same =>
      refine .fails (.turn pushed leads) fun bound => ?_
      rw [Expr.eval, same bound, error_bind]
    | @reads scan ops parsed =>
      have here : (LastToken.operator opened).after (Expr.pre op e).tokens =
          (LastToken.operator 0).after e.tokens := by
        rw [Expr.tokens, LastToken.after, List.foldl_cons, last]
        rfl
      have pending : Pending base scan preLevel (ops ++ [op])
          ((LastToken.operator opened).after (Expr.pre op e).tokens) rest := by
        rw [here]
        exact parsed.pending.above rfl rfl tight (by simp [noParen, loose])
      have result : Faithful e.MiddlesBound base.nums
          (applyAll (evaluateString (depth + 1)) [] (ops ++ [op]) scan.nums scan.vars)
          ((Expr.pre op e).eval env) :=
        parsed.result.append fun stands numeric => arithApply_pre isPre stands numeric
      exact .reads ⟨.turn pushed parsed.leads, pending, result, fun high =>
        absurd high (show ¬postLevel ≤ preLevel by decide)⟩

/-! ### Binary operators -/

/-- An operand and the binary operator after it have been read. -/
def afterInfix (base : Scan) (op : Operator) (text : Str) (entry : VarOrNum) (vars : Vars) :
    Scan where
  expr := text
  closing := base.closing
  lasttok := op
  nums := entry :: base.nums
  stack := op :: base.stack
  vars := vars

variable (depth) in
/-- Reading an operand and a binary operator either ends the evaluation with an error, or
leaves what the operand stands for on the stack. -/
inductive ParsesInfix (base : Scan) (op : Operator) (e : Expr) (env : Env) (tokens : List Token)
    (rest : Str) : Prop
  | fails {error : MathError} {vars : Vars}
      (leads : Leads (evaluateString (depth + 1)) [] base (.done (fail error vars)))
      (same : e.MiddlesBound → e.eval env = .error error)
  | reads {text : Str} {entry : VarOrNum} {vars : Vars} {x : Operand} {env' : Env}
      (leads : Leads (evaluateString (depth + 1)) [] base (.next (afterInfix base op text entry vars)))
      (bound : e.MiddlesBound) (meaning : e.eval env = .ok (x, env')) (stands : Stands entry x)
      (numeric : Numeric vars env') (after : Reads (.operator 0) text tokens rest)

theorem Readable.thenInfix {text : Str} {tokens : List Token} (readable : Readable depth e)
    (ready : Ready base e env opened text) (isInfix : IsInfix op)
    (reads : Reads ((LastToken.operator opened).after e.tokens) text (.op op :: tokens) rest)
    (yields : ∀ o, e.level ≤ rank o → stopsAt op o = false)
    (blocks : Blocks (rank op) base.stack) :
    ParsesInfix depth base op e env tokens rest := by
  cases readable ready with
  | fails leads same => exact .fails leads same
  | @reads scan ops parsed =>
    cases reads with
    | cons read reads =>
      rw [isInfix.facts.2.2.2.2] at reads
      have turn := step_infix (evaluateString (depth + 1)) [] parsed.pending
        read isInfix (fun o member => yields o (parsed.pending.tight o member).2) blocks
      have result := parsed.result
      generalize applyAll (evaluateString (depth + 1)) [] ops scan.nums scan.vars = applied
        at turn result
      generalize meaning : e.eval env = m at result
      cases result with
      | fails same =>
        exact .fails (parsed.leads.trans (.done turn)) fun bound => meaning.trans (same bound)
      | gives bound stands numeric =>
        exact .reads (parsed.leads.trans (.turn turn .now)) bound meaning stands numeric reads

/-- Which operators of the left operand are applied, and what the operator blocks on its
right. -/
theorem binary_sides (binary : op.level = some level)
    (sides : if op.groupsRight then level < left.level ∧ level ≤ right.level
      else level ≤ left.level ∧ level < right.level) (stack : List Operator) :
    level ≤ left.level ∧ level ≤ right.level ∧
      (∀ o, left.level ≤ rank o → stopsAt op o = false) ∧ Blocks right.level (op :: stack) := by
  obtain ⟨-, ranked, -, right_⟩ := isInfix_of_level binary
  have stops (o : Operator) (above : level ≤ rank o) (stopped : stopsAt op o = true) :
      rank o = level ∧ isRightAssociative level = true := by
    have test : rank o < rank op ∨ rank o = rank op ∧ isRightAssociative (rank op) = true := by
      simpa [stopsAt, rank] using stopped
    rw [ranked] at test
    exact test.resolve_left (Nat.not_lt.mpr above)
  split at sides
  · next groups =>
    refine ⟨le_of_lt sides.1, sides.2, fun o above => ?_, op, stack, rfl, fun q above _ => ?_⟩
    · by_contra stopped
      have := stops o (by omega) (by simpa using stopped)
      omega
    · rw [ranked]
      rcases lt_or_eq_of_le (le_trans sides.2 above) with more | same
      · exact .inl more
      · exact .inr ⟨same, by rw [← same, right_, groups]⟩
  · next groups =>
    refine ⟨sides.1, le_of_lt sides.2, fun o above => ?_, op, stack, rfl, fun q above _ => ?_⟩
    · by_contra stopped
      have := stops o (by omega) (by simpa using stopped)
      rw [right_] at this
      exact groups this.2
    · rw [ranked]
      exact .inl (lt_of_lt_of_le sides.2 above)

theorem readable_binary (binary : op.level = some level)
    (sides : if op.groupsRight then level < left.level ∧ level ≤ right.level
      else level ≤ left.level ∧ level < right.level)
    (readableLeft : Readable depth left) (readableRight : Readable depth right) :
    Readable depth (.binary op left right) := by
  rintro base env opened rest ⟨expects, blocks, reads, numeric⟩
  obtain ⟨looseLeft, looseRight, yields, blocked⟩ := binary_sides binary sides base.stack
  obtain ⟨isInfix, ranked, -, -⟩ := isInfix_of_level binary
  obtain ⟨-, -, opens, small, last⟩ := isInfix.facts
  have outer : (Expr.binary op left right).level = level := by rw [Expr.level, binary]; rfl
  rw [outer] at blocks
  obtain ⟨text, reads, after⟩ := reads_append reads
  have first := readableLeft.thenInfix ⟨expects, blocks.mono looseLeft, reads, numeric⟩ isInfix after
    yields (ranked ▸ blocks)
  cases first with
  | fails leads same =>
    refine .fails leads fun bound => ?_
    rw [Expr.eval, same bound.1, error_bind]
  | @reads text entry vars x env' leads bound meaning stands numeric reads =>
    have rewritten : (Expr.binary op left right).eval env =
        right.eval env' >>= fun y => Operand.binary op x y.1 y.2 := by
      rw [Expr.eval, meaning, ok_bind]
    have inside : Ready (afterInfix base op text entry vars) right env' 0 rest :=
      ⟨opens, blocked, reads, numeric⟩
    cases readableRight inside with
    | fails leads' same =>
      refine .fails (leads.trans leads') fun both => ?_
      rw [rewritten, same both.2, error_bind]
    | @reads scan ops parsed =>
      have here : (LastToken.operator opened).after (Expr.binary op left right).tokens =
          (LastToken.operator 0).after right.tokens := by
        rw [Expr.tokens, LastToken.after_append, LastToken.after, List.foldl_cons, last]
        rfl
      have pending : Pending base scan level (ops ++ [op])
          ((LastToken.operator opened).after (Expr.binary op left right).tokens) rest := by
        rw [here]
        refine parsed.pending.above rfl rfl looseRight (List.forall_mem_singleton.mpr ⟨?_, ranked.ge⟩)
        rintro rfl
        cases binary
      have result : Faithful right.MiddlesBound base.nums
          (applyAll (evaluateString (depth + 1)) [] (ops ++ [op]) scan.nums scan.vars)
          ((Expr.binary op left right).eval env) := by
        rw [rewritten]
        exact parsed.result.append fun stands' numeric' =>
          arithApply_level binary stands stands' numeric'
      refine .reads ⟨leads.trans parsed.leads, outer.symm ▸ pending, result.and bound,
        fun high => ?_⟩
      rw [outer] at high
      rw [ranked] at small
      exact absurd high (Nat.not_le.mpr (lt_of_lt_of_le small (by decide)))

/-! ### Middle operands -/

variable (depth) in
/-- The evaluation ends with an error. -/
def Fails (base : Scan) : Prop :=
  ∃ error vars, Leads (evaluateString (depth + 1)) [] base (.done (fail error vars))

/-- `?` cannot choose before a `:` has paired two values. -/
theorem conditional_fails {entry : VarOrNum} {x : Operand} {vars : Vars} (below : List VarOrNum)
    (stands : Stands entry x) (numeric : Numeric vars env) :
    ∃ error vars', arithApply (evaluateString (depth + 1)) [] .conditional (entry :: below) vars =
      .error (.error error vars') := by
  rw [arithApply_cons, arithLookupVal_stands numeric stands, ok_bind]
  cases below with
  | nil => exact ⟨_, _, rfl⟩
  | cons left below => simp [unaryResult, applyBinary, badSecondVal, stands.single]

/-- `:` cannot pair a pair. -/
theorem conditionalSep_fails {entry left : VarOrNum} {x y : Operand} {vars : Vars}
    (below : List VarOrNum) (ops : List Operator) (stands : Stands entry x)
    (standsLeft : Stands left y) (numeric : Numeric vars env) :
    ∃ error vars', applyAll (evaluateString (depth + 1)) []
      (.conditionalSep :: .conditionalSep :: ops) (entry :: left :: below) vars =
        .error (.error error vars') := by
  have first : arithApply (evaluateString (depth + 1)) [] .conditionalSep
      (entry :: left :: below) vars = if below.length = 0 then
        .error (.error .malformedConditional vars)
      else .ok (⟨y.read env, x.read env, true, none⟩ :: below, vars) := by
    rw [arithApply_cons, arithLookupVal_stands numeric stands, ok_bind]
    simp [unaryResult, applyBinary, badSecondVal, stands.single, resolveLeft,
      arithLookupVal_stands numeric standsLeft, applyResolved, applied, isAssignOp,
      fixAssignmentPrec, Operator.prec, unaryPrec]
  rw [applyAll, first]
  cases below with
  | nil => exact ⟨_, _, rfl⟩
  | cons third below =>
    refine ⟨.malformedConditional, vars, ?_⟩
    rw [if_neg (by simp), ok_bind, applyAll, arithApply_cons]
    simp [arithLookupVal, unaryResult, applyBinary, badSecondVal]

theorem stopsAt_of_lt {o : Operator} (tighter : rank op < rank o) : stopsAt op o = false := by
  have test : ¬(rank o < rank op ∨ rank o = rank op ∧ isRightAssociative (rank op) = true) := by
    omega
  simpa [stopsAt, rank] using test

/-- An operator that binds less tightly than `?` applies it too soon. -/
theorem step_infix_fails {ops : List Operator} {stack : List Operator} {level : Nat} {last : LastToken}
    {rest rest' : Str} (pending : Pending base scan level ops last rest)
    (read : readToken last.literal (skipWhitespace rest) = some (.op op, rest'))
    (isInfix : IsInfix op) (yields : ∀ o ∈ ops ++ [.conditional], stopsAt op o = false)
    (below : base.stack = .conditional :: stack)
    (failed : ∃ error vars, applyAll (evaluateString (depth + 1)) [] (ops ++ [.conditional])
      scan.nums scan.vars = .error (.error error vars)) :
    Fails depth scan := by
  obtain ⟨binary, noParen, -, -, -⟩ := isInfix.facts
  obtain ⟨error, vars, failed⟩ := failed
  have yields : ∀ o ∈ ops ++ [.conditional], Yields op o := fun o member =>
    ⟨fun paren => absurd paren noParen, fun _ => yields o member⟩
  have stacked : scan.stack = (ops ++ [.conditional]) ++ stack := by
    rw [pending.stack, below, List.append_assoc]
    rfl
  refine ⟨error, vars, .done ?_⟩
  rw [step_token pending.literal (pending.expr ▸ read)]
  simp only [pushToken, pushOperator, pending.number, meant, if_pos, pushMeant, binary,
    pushBinary, stacked, unwind_append yields, failed, error_bind]
  rfl

variable (depth) in
/-- A tree that binds less tightly than `?:` cannot be read directly after a `?`. -/
def Chokes (e : Expr) : Prop :=
  ∀ ⦃base env opened rest stack⦄, base.stack = .conditional :: stack →
    afterPost base.lasttok ≠ .num → Reads (.operator opened) base.expr e.tokens rest →
      Numeric base.vars env → Fails depth base

theorem blocks_conditional (tight : conditionalLevel ≤ level) (stack : List Operator)
    (top : op = .conditional ∨ op = .conditionalSep) : Blocks level (op :: stack) := by
  refine ⟨op, stack, rfl, fun q above _ => ?_⟩
  have ranked : rank op = conditionalLevel := by rcases top with rfl | rfl <;> rfl
  rw [ranked]
  rcases lt_or_eq_of_le (le_trans tight above) with more | same
  · exact .inl more
  · exact .inr ⟨same, by rw [← same]; rfl⟩

theorem chokes_binary (binary : op.level = some level) (loose : level < conditionalLevel)
    (readableLeft : Readable depth left)
    (chokesLeft : left.level < conditionalLevel → Chokes depth left) :
    Chokes depth (.binary op left right) := by
  intro base env opened rest stack below expects reads numeric
  obtain ⟨text, reads, after⟩ := reads_append reads
  by_cases looser : left.level < conditionalLevel
  · exact chokesLeft looser below expects reads numeric
  obtain ⟨isInfix, ranked, -, -⟩ := isInfix_of_level binary
  have tight := Nat.le_of_not_lt looser
  have ready : Ready base left env opened text :=
    ⟨expects, below ▸ blocks_conditional tight stack (.inl rfl), reads, numeric⟩
  cases readableLeft ready with
  | @fails error vars leads => exact ⟨error, vars, leads⟩
  | @reads scan ops parsed =>
    cases after with
    | cons read after =>
      have yields : ∀ o ∈ ops ++ [.conditional], stopsAt op o = false :=
        List.forall_mem_append.mpr ⟨fun o member => stopsAt_of_lt
          (by rw [ranked]; exact lt_of_lt_of_le loose (le_trans tight (parsed.pending.tight o member).2)),
          List.forall_mem_singleton.mpr (stopsAt_of_lt (by rw [ranked]; exact loose))⟩
      have failed : ∃ error vars, applyAll (evaluateString (depth + 1)) [] (ops ++ [.conditional])
          scan.nums scan.vars = .error (.error error vars) := by
        rw [applyAll_append]
        have result := parsed.result
        generalize applyAll (evaluateString (depth + 1)) [] ops scan.nums scan.vars = applied,
          left.eval env = meaning at result
        cases result with
        | @fails error vars => exact ⟨error, vars, rfl⟩
        | gives bound stands numeric =>
          rw [ok_bind, applyAll_single]
          exact conditional_fails base.nums stands numeric
      obtain ⟨error, vars, leads⟩ :=
        step_infix_fails parsed.pending read isInfix yields below failed
      exact ⟨error, vars, parsed.leads.trans leads⟩

/-- After a conditional and a second `:` there are two of them on the stack. -/
structure Doubled (base scan : Scan) (tokens : List Token) (rest : Str) : Prop where
  operands : ∃ left y below, scan.nums = left :: below ∧ Stands left y
  stack : ∃ under, scan.stack = .conditionalSep :: .conditionalSep :: under ++ base.stack ∧
    ∀ op ∈ under, op ≠ .lparen ∧ conditionalLevel ≤ rank op
  closing : scan.closing = base.closing
  last : scan.lasttok = .conditionalSep
  after : Reads (.operator 0) scan.expr tokens rest
  numeric : ∃ env, Numeric scan.vars env

variable (depth) in
/-- A `:` directly after a conditional is pushed above the conditional's own one. -/
def Doubles (e : Expr) : Prop :=
  ∀ ⦃base env opened text tokens rest⦄, Ready base e env opened text →
    Reads ((LastToken.operator opened).after e.tokens) text (.op .conditionalSep :: tokens) rest →
      Fails depth base ∨ ∃ scan, Leads (evaluateString (depth + 1)) [] base (.next scan) ∧
        Doubled base scan tokens rest

variable (depth) in
/-- What has been found out about a tree. -/
structure Handled (e : Expr) : Prop where
  readable : Readable depth e
  chokes : e.level < conditionalLevel → Chokes depth e
  doubles : e.level = conditionalLevel → Doubles depth e

/-- Reading a condition, `?`, a middle operand and `:`: the evaluation fails, as the tree
does where the middle operand is bound; or the operands are on the stack; or there is a
second `:`. -/
inductive ParsesMiddle (depth : Nat) (base : Scan) (condition middle : Expr) (env : Env)
    (tokens : List Token) (rest : Str) : Prop
  | fails {error : MathError} {vars : Vars}
      (leads : Leads (evaluateString (depth + 1)) [] base (.done (fail error vars)))
      (same : ∀ last, (Expr.conditional condition middle last).MiddlesBound →
        (Expr.conditional condition middle last).eval env = .error error)
  | reads {text text' : Str} {entry entry' : VarOrNum} {vars vars' : Vars} {c x : Operand}
      {env' : Env}
      (leads : Leads (evaluateString (depth + 1)) [] base (.next (afterInfix
        (afterInfix base .conditional text entry vars) .conditionalSep text' entry' vars')))
      (bound : conditionalLevel < middle.level ∧ condition.MiddlesBound ∧ middle.MiddlesBound)
      (meaning : ∀ last, (Expr.conditional condition middle last).eval env =
        (last.eval env' >>= fun y =>
          .ok (.number (if c.read y.2 ≠ 0 then x.read y.2 else y.1.read y.2), y.2)))
      (stands : Stands entry c) (stands' : Stands entry' x) (numeric : Numeric vars' env')
      (after : Reads (.operator 0) text' tokens rest)
  | doubled {scan : Scan} (leads : Leads (evaluateString (depth + 1)) [] base (.next scan))
      (loose : middle.level = conditionalLevel) (doubled : Doubled base scan tokens rest)

theorem Handled.parsesMiddle {condition middle : Expr} {text : Str} {tokens : List Token}
    (tight : conditionalLevel < condition.level) (handled : Handled depth condition)
    (handled' : Handled depth middle) (expects : afterPost base.lasttok ≠ .num)
    (blocks : Blocks conditionalLevel base.stack)
    (reads : Reads (.operator opened) base.expr condition.tokens text)
    (after : Reads ((LastToken.operator opened).after condition.tokens) text
      (.op .conditional :: middle.tokens ++ .op .conditionalSep :: tokens) rest)
    (numeric : Numeric base.vars env) :
    ParsesMiddle depth base condition middle env tokens rest := by
  have yields {e : Expr} (tight : conditionalLevel < e.level) (o : Operator)
      (above : e.level ≤ rank o) :
      stopsAt .conditional o = false ∧ stopsAt .conditionalSep o = false :=
    have tighter : conditionalLevel < rank o := lt_of_lt_of_le tight above
    ⟨stopsAt_of_lt tighter, stopsAt_of_lt tighter⟩
  have first := handled.readable.thenInfix ⟨expects, blocks.mono (le_of_lt tight), reads, numeric⟩
    (by unfold IsInfix; decide) after (fun o above => (yields tight o above).1) blocks
  cases first with
  | fails leads same =>
    refine .fails leads fun last bound => ?_
    rw [Expr.eval, same bound.2.1, error_bind]
  | @reads text entry vars c env' leads bound meaning stands numeric reads =>
    obtain ⟨text', reads, after⟩ := reads_append reads
    have expects' : afterPost (afterInfix base .conditional text entry vars).lasttok ≠ .num := by
      simp [afterInfix, afterPost]
    have fails (failed : Fails depth (afterInfix base .conditional text entry vars)) 
        (loose : ¬conditionalLevel < middle.level) :
        ParsesMiddle depth base condition middle env tokens rest := by
      obtain ⟨error, vars, leads'⟩ := failed
      exact .fails (leads.trans leads') fun _ bound => absurd bound.1 loose
    rcases Nat.lt_trichotomy middle.level conditionalLevel with looser | same | tighter
    · exact fails (handled'.chokes looser rfl expects' reads numeric) (by omega)
    · have ready : Ready (afterInfix base .conditional text entry vars) middle env' 0 text' :=
        ⟨expects', blocks_conditional same.ge _ (.inl rfl), reads, numeric⟩
      rcases handled'.doubles same ready after with failed | ⟨scan, leads', doubled⟩
      · exact fails failed (by omega)
      · obtain ⟨under, stack, tight⟩ := doubled.stack
        refine .doubled (leads.trans leads') same ⟨doubled.operands, ⟨under ++ [.conditional], ?_, ?_⟩,
          doubled.closing, doubled.last, doubled.after, doubled.numeric⟩
        · rw [stack]
          simp [afterInfix]
        · exact List.forall_mem_append.mpr ⟨tight, by simp [rank, conditionalLevel]; decide⟩
    · have ready : Ready (afterInfix base .conditional text entry vars) middle env' 0 text' :=
        ⟨expects', blocks_conditional (le_of_lt tighter) _ (.inl rfl), reads, numeric⟩
      have second := handled'.readable.thenInfix ready (by unfold IsInfix; decide) after
        (fun o above => (yields tighter o above).2) (blocks_conditional (le_refl _) _ (.inl rfl))
      cases second with
      | fails leads' same =>
        refine .fails (leads.trans leads') fun last bound' => ?_
        rw [Expr.eval, meaning, ok_bind, same bound'.2.2.1, error_bind]
      | reads leads' bound' meaning' stands' numeric' after =>
        refine .reads (leads.trans leads') ⟨tighter, bound, bound'⟩ (fun last => ?_) stands stands'
          numeric' after
        rw [Expr.eval, meaning, ok_bind, meaning', ok_bind]

section Conditional

variable {condition middle last : Expr}

theorem tokens_conditional : (Expr.conditional condition middle last).tokens = condition.tokens ++
    (.op .conditional :: middle.tokens ++ .op .conditionalSep :: last.tokens) := by
  simp [Expr.tokens]

theorem after_conditional :
    (LastToken.operator opened).after (Expr.conditional condition middle last).tokens =
      (LastToken.operator 0).after last.tokens := by
  rw [Expr.tokens, LastToken.after_append]
  rfl

/-- After two `:` and an operand, all that is pending fails. -/
theorem Doubled.fails {scan' : Scan} {tokens : List Token} {rest' : Str} {ops : List Operator}
    (under : List Operator) (doubled : Doubled base scan tokens rest) (parsed : Parsed depth scan scan' e env opened ops rest') :
    ∃ error vars, applyAll (evaluateString (depth + 1)) []
      (ops ++ .conditionalSep :: .conditionalSep :: under) scan'.nums scan'.vars =
        .error (.error error vars) := by
  obtain ⟨left, y, below, nums, standsLeft⟩ := doubled.operands
  rw [applyAll_append]
  have result := parsed.result
  generalize applyAll (evaluateString (depth + 1)) [] ops scan'.nums scan'.vars = applied,
    e.eval env = meaning at result
  cases result with
  | @fails error vars => exact ⟨error, vars, rfl⟩
  | gives bound stands numeric =>
    rw [ok_bind, nums]
    exact conditionalSep_fails below under stands standsLeft numeric

theorem Doubled.ready (doubled : Doubled base scan last.tokens rest)
    (loose : conditionalLevel ≤ last.level) : ∃ env, Ready scan last env 0 rest := by
  obtain ⟨under, stack, -⟩ := doubled.stack
  obtain ⟨env, numeric⟩ := doubled.numeric
  exact ⟨env, by rw [doubled.last]; decide, stack ▸ blocks_conditional loose _ (.inr rfl),
    doubled.after, numeric⟩

theorem readable_conditional (tight : conditionalLevel < condition.level)
    (loose : conditionalLevel ≤ last.level) (handled : Handled depth condition)
    (handled' : Handled depth middle) (handled'' : Handled depth last) :
    Readable depth (.conditional condition middle last) := by
  rintro base env opened rest ⟨expects, blocks, reads, numeric⟩
  rw [tokens_conditional] at reads
  obtain ⟨text, reads, after⟩ := reads_append reads
  cases handled.parsesMiddle tight handled' expects blocks reads after numeric with
  | fails leads same => exact .fails leads (same last)
  | @reads text text' entry entry' vars vars' c x env' leads bound meaning stands stands' numeric after =>
    have inside : Ready (afterInfix (afterInfix base .conditional text entry vars) .conditionalSep
        text' entry' vars') last env' 0 rest :=
      ⟨by simp [afterInfix, afterPost], blocks_conditional loose _ (.inr rfl), after, numeric⟩
    cases handled''.readable inside with
    | fails leads' same =>
      refine .fails (leads.trans leads') fun bound => ?_
      rw [meaning, same bound.2.2.2, error_bind]
    | @reads scan ops parsed =>
      have pending : Pending base scan conditionalLevel (ops ++ [.conditionalSep, .conditional])
          ((LastToken.operator opened).after (Expr.conditional condition middle last).tokens) rest := by
        rw [after_conditional]
        exact parsed.pending.above rfl rfl loose (by simp; decide)
      have result : Faithful (last.MiddlesBound ∧ True) base.nums
          (applyAll (evaluateString (depth + 1)) [] (ops ++ [.conditionalSep, .conditional])
            scan.nums scan.vars) ((Expr.conditional condition middle last).eval env) := by
        rw [meaning, applyAll_append]
        exact parsed.result.bind fun stands'' numeric'' =>
          (applyAll_conditional stands stands' stands'' numeric'').faithful
      refine .reads ⟨leads.trans parsed.leads, pending, result.congr ?_, fun high =>
        absurd high (show ¬postLevel ≤ conditionalLevel by decide)⟩
      simp [Expr.MiddlesBound, bound]
  | @doubled scan leads same doubled =>
    have unbound : ¬(Expr.conditional condition middle last).MiddlesBound := fun bound => by
      have := bound.1
      omega
    obtain ⟨env', ready⟩ := doubled.ready loose
    cases handled''.readable ready with
    | fails leads' => exact .fails (leads.trans leads') fun bound => absurd bound unbound
    | @reads scan' ops parsed =>
      obtain ⟨under, stack, tight⟩ := doubled.stack
      have pending : Pending base scan' conditionalLevel
          (ops ++ .conditionalSep :: .conditionalSep :: under)
          ((LastToken.operator opened).after (Expr.conditional condition middle last).tokens) rest := by
        rw [after_conditional]
        exact parsed.pending.above stack doubled.closing loose
          (List.forall_mem_cons.mpr ⟨by decide, List.forall_mem_cons.mpr ⟨by decide, tight⟩⟩)
      obtain ⟨error, vars, failed⟩ := doubled.fails under parsed
      refine .reads ⟨leads.trans parsed.leads, pending, ?_, fun high =>
        absurd high (show ¬postLevel ≤ conditionalLevel by decide)⟩
      rw [failed]
      exact .fails fun bound => absurd bound unbound

/-- A second `:` after the last operand is pushed above the first one. -/
theorem Handled.lastDoubles {text : Str} {tokens : List Token} (under : List Operator)
    (handled : Handled depth last) (loose : conditionalLevel ≤ last.level)
    (ready : Ready scan last env 0 text)
    (next : Reads ((LastToken.operator 0).after last.tokens) text (.op .conditionalSep :: tokens) rest)
    (stack : scan.stack = .conditionalSep :: under ++ base.stack)
    (tight : ∀ op ∈ under, op ≠ .lparen ∧ conditionalLevel ≤ rank op)
    (closing : scan.closing = base.closing) :
    Fails depth scan ∨ ∃ scan', Leads (evaluateString (depth + 1)) [] scan (.next scan') ∧
      Doubled base scan' tokens rest := by
  rcases lt_or_eq_of_le loose with tighter | same
  · have third := handled.readable.thenInfix ready (by unfold IsInfix; decide) next
      (fun o above => stopsAt_of_lt (show conditionalLevel < rank o from lt_of_lt_of_le tighter above))
      (stack ▸ blocks_conditional (le_refl _) _ (.inr rfl))
    cases third with
    | @fails error vars leads => exact .inl ⟨error, vars, leads⟩
    | reads leads _ _ stands numeric after =>
      refine .inr ⟨_, leads, ⟨⟨_, _, _, rfl, stands⟩, ⟨under, ?_, tight⟩, closing, rfl, after, _, numeric⟩⟩
      exact congrArg (.conditionalSep :: ·) stack
  · rcases handled.doubles same.symm ready next with failed | ⟨scan', leads, doubled⟩
    · exact .inl failed
    · obtain ⟨more, stack', tight'⟩ := doubled.stack
      refine .inr ⟨scan', leads, doubled.operands, ⟨more ++ .conditionalSep :: under, ?_, ?_⟩,
        doubled.closing.trans closing, doubled.last, doubled.after, doubled.numeric⟩
      · rw [stack', stack]
        simp
      · exact List.forall_mem_append.mpr ⟨tight', List.forall_mem_cons.mpr ⟨by decide, tight⟩⟩

theorem doubles_conditional (tight : conditionalLevel < condition.level)
    (loose : conditionalLevel ≤ last.level) (handled : Handled depth condition)
    (handled' : Handled depth middle) (handled'' : Handled depth last) :
    Doubles depth (.conditional condition middle last) := by
  rintro base env opened text tokens rest ⟨expects, blocks, reads, numeric⟩ next
  rw [tokens_conditional] at reads
  rw [after_conditional] at next
  obtain ⟨text', reads, after⟩ := reads_append reads
  have chain {scan : Scan} (leads : Leads (evaluateString (depth + 1)) [] base (.next scan))
      (rest_ : Fails depth scan ∨ ∃ scan', Leads (evaluateString (depth + 1)) [] scan (.next scan') ∧
        Doubled base scan' tokens rest) :
      Fails depth base ∨ ∃ scan', Leads (evaluateString (depth + 1)) [] base (.next scan') ∧
        Doubled base scan' tokens rest := by
    rcases rest_ with ⟨error, vars, leads'⟩ | ⟨scan', leads', doubled⟩
    · exact .inl ⟨error, vars, leads.trans leads'⟩
    · exact .inr ⟨scan', leads.trans leads', doubled⟩
  cases handled.parsesMiddle tight handled' expects blocks reads after numeric with
  | @fails error vars leads => exact .inl ⟨error, vars, leads⟩
  | @reads text text' entry entry' vars vars' c x env' leads bound meaning stands stands' numeric after =>
    refine chain leads (handled''.lastDoubles [.conditional] loose ⟨by simp [afterInfix, afterPost],
      blocks_conditional loose _ (.inr rfl), after, numeric⟩ next rfl (by simp; decide) rfl)
  | @doubled scan leads same doubled =>
    obtain ⟨env', ready⟩ := doubled.ready loose
    obtain ⟨under, stack, tight⟩ := doubled.stack
    exact chain leads (handled''.lastDoubles (.conditionalSep :: under) loose ready next stack
      (List.forall_mem_cons.mpr ⟨by decide, tight⟩) doubled.closing)

end Conditional

/-! ### Every tree -/

theorem Readable.handled (readable : Readable depth e) (tight : conditionalLevel < e.level) :
    Handled depth e where
  readable := readable
  chokes low := absurd low (Nat.lt_asymm tight)
  doubles same := absurd same tight.ne'

/-- Induction over the tree, one case for each of its forms. -/
theorem handled (wellFormed : e.WellFormed) : Handled depth e := by
  induction e with
  | name n => exact (readable_name n).handled (show conditionalLevel < postLevel by decide)
  | num val => exact (readable_num val).handled (show conditionalLevel < postLevel by decide)
  | paren inner ih =>
    have wellInner : inner.WellFormed := wellFormed
    exact (readable_paren wellInner (ih wellInner).readable).handled
      (show conditionalLevel < postLevel by decide)
  | post op operand ih =>
    obtain ⟨isPost, tight, inner⟩ := wellFormed
    exact (readable_post isPost tight (ih inner).readable).handled
      (show conditionalLevel < postLevel by decide)
  | pre op operand ih =>
    obtain ⟨isPre, tight, inner⟩ := wellFormed
    exact (readable_pre isPre tight (ih inner).readable).handled
      (show conditionalLevel < preLevel by decide)
  | binary op left right ihLeft ihRight =>
    obtain ⟨⟨level, binary, sides⟩, wellLeft, wellRight⟩ := wellFormed
    have outer : (Expr.binary op left right).level = level := by rw [Expr.level, binary]; rfl
    refine ⟨readable_binary binary sides (ihLeft wellLeft).readable (ihRight wellRight).readable,
      fun low => chokes_binary binary (outer ▸ low) (ihLeft wellLeft).readable (ihLeft wellLeft).chokes,
      fun same => ?_⟩
    rw [outer] at same
    subst same
    cases op <;> cases binary
  | conditional condition middle last ih ih' ih'' =>
    obtain ⟨tight, loose, wellCondition, wellMiddle, wellLast⟩ := wellFormed
    exact ⟨readable_conditional tight loose (ih wellCondition) (ih' wellMiddle) (ih'' wellLast),
      fun low => absurd low (Nat.lt_irrefl _),
      fun _ => doubles_conditional tight loose (ih wellCondition) (ih' wellMiddle) (ih'' wellLast)⟩

end Trees

end Busybox.Shell
