import Busybox.Shell.Operators

/-!
# Parsing by precedence

Between an operand and the next operator the evaluator keeps the operand's own
operators pending, and applying all of them gives what the operand means. The
induction over a parse tree carries this: an operator of the tree that binds less
tightly applies them, and what is pending on the stack below is left alone because it
binds less tightly still.
-/

namespace Busybox.Shell

open Fallible

/-- The precedence the loop compares, with all assignments on one level. -/
def rank (op : Operator) : Nat := fixAssignmentPrec op.prec

/-- No operator that binds as tightly as the level says applies what is on top of the stack. -/
def Blocks (level : Nat) (stack : List Operator) : Prop :=
  ∃ top rest, stack = top :: rest ∧
    ∀ q, level ≤ q → q < unaryPrec → rank top < q ∨ (rank top = q ∧ isRightAssociative q = true)

theorem Blocks.mono {level level' : Nat} {stack : List Operator} (blocks : Blocks level stack)
    (tighter : level ≤ level') : Blocks level' stack := by
  obtain ⟨top, rest, rfl, stops⟩ := blocks
  exact ⟨top, rest, rfl, fun q above => stops q (le_trans tighter above)⟩

/-- Unary operators and what they apply to push without applying anything. -/
theorem blocks_unary {level : Nat} (tight : unaryPrec ≤ level) (top : Operator)
    (rest : List Operator) : Blocks level (top :: rest) :=
  ⟨top, rest, rfl, fun q above below => by omega⟩

/-- The tokens of an operand have been read, and `ops` are pending on top of the stack. -/
structure Pending (base scan : Scan) (level : Nat) (ops : List Operator) (last : LastToken)
    (rest : Str) : Prop where
  expr : scan.expr = rest
  closing : scan.closing = base.closing
  number : afterPost scan.lasttok = .num
  literal : isLiteral scan = some last.literal
  stack : scan.stack = ops ++ base.stack
  tight : ∀ op ∈ ops, op ≠ .lparen ∧ level ≤ rank op

/-- The last token after some more. -/
def LastToken.after (last : LastToken) (tokens : List Token) : LastToken :=
  tokens.foldl LastToken.next last

theorem LastToken.after_append (last : LastToken) (tokens tokens' : List Token) :
    last.after (tokens ++ tokens') = (last.after tokens).after tokens' :=
  List.foldl_append ..

/-- A binary operator, `?` and `:` included. -/
def IsInfix (op : Operator) : Prop := 0 < op.prec ∧ op.prec < unaryPrec

theorem IsInfix.facts {op : Operator} (isInfix : IsInfix op) :
    isBinary op = true ∧ op ≠ .rparen ∧ afterPost op ≠ .num ∧ rank op < unaryPrec ∧
      ∀ last : LastToken, last.next (.op op) = .operator 0 := by
  have range := isInfix
  unfold IsInfix at range
  refine ⟨by simp [isBinary, range], ?_, ?_, ?_, ?_⟩
  · rintro rfl; exact absurd range.2 (by decide)
  · unfold afterPost
    split
    · next post => rcases post with rfl | rfl <;> exact absurd range.2 (by decide)
    · rintro rfl; exact absurd range.2 (by decide)
  · unfold rank fixAssignmentPrec
    split
    · decide
    · exact range.2
  · intro last
    cases op <;> first | rfl | exact absurd range (by decide)

section Steps

variable (eval : Evaluator) (recursed : List Str) {base scan : Scan} {level : Nat}
  {ops : List Operator} {last : LastToken} {rest rest' : Str} {op : Operator}

/-- Where an operand is expected, an operator before it or a left parenthesis is pushed. -/
theorem step_pre (open_ : afterPost scan.lasttok ≠ .num) (before : last.literal = false)
    (read : readToken last.literal (skipWhitespace scan.expr) = some (.op op, rest))
    (unary : isBinary (prefixForm op) = false) :
    step eval recursed scan =
      .next { scan with
        expr := rest, lasttok := prefixForm op, stack := prefixForm op :: scan.stack } := by
  have known : isLiteral scan = some last.literal := by
    rw [before]
    unfold isLiteral
    rw [if_neg]
    intro number
    exact open_ (by simp [number, afterPost])
  rw [step_token known read]
  simp [pushToken, pushOperator, pushMeant, meant, open_, unary]

/-- An operator after an operand is pushed. -/
theorem step_post (pending : Pending base scan level ops last rest)
    (read : readToken last.literal (skipWhitespace rest) = some (.op op, rest'))
    (unary : isBinary op = false) :
    step eval recursed scan =
      .next { scan with expr := rest', lasttok := op, stack := op :: scan.stack } := by
  rw [step_token pending.literal (pending.expr ▸ read)]
  simp [pushToken, pushOperator, pushMeant, meant, pending.number, unary]

/-- A binary operator applies the operand's pending operators if they yield to it. -/
theorem step_infix (pending : Pending base scan level ops last rest)
    (read : readToken last.literal (skipWhitespace rest) = some (.op op, rest'))
    (isInfix : IsInfix op) (yields : ∀ o ∈ ops, stopsAt op o = false)
    (blocks : Blocks (rank op) base.stack) :
    step eval recursed scan =
      match applyAll eval recursed ops scan.nums scan.vars with
      | .error stop => stop.outcome
      | .ok (nums, vars) =>
        .next { expr := rest', closing := base.closing, lasttok := op, nums := nums
                stack := op :: base.stack, vars := vars } := by
  obtain ⟨binary, noParen, -, small, -⟩ := isInfix.facts
  obtain ⟨top, below, stack, stops⟩ := blocks
  have here : stopsAt op top = true := by
    have := stops (rank op) (le_refl _) small
    simpa [stopsAt, rank] using this
  have yields : ∀ o ∈ ops, Yields op o := fun o member =>
    ⟨fun paren => absurd paren noParen, fun _ => yields o member⟩
  rw [step_token pending.literal (pending.expr ▸ read)]
  simp only [pushToken, pushOperator, pending.number, meant, if_pos, pushMeant, binary,
    pushBinary, pending.stack, unwind_append yields, stack]
  cases applyAll eval recursed ops scan.nums scan.vars with
  | error stop => rfl
  | ok applied =>
    rw [ok_bind, unwind_stops noParen here]
    simp [noParen, pending.closing]

/-- A right parenthesis applies the pending operators, and takes the left one off. -/
theorem step_rparen {stack : List Operator} (pending : Pending base scan level ops last rest)
    (read : readToken last.literal (skipWhitespace rest) = some (.op .rparen, rest'))
    (opened : base.stack = .lparen :: stack) :
    step eval recursed scan =
      match applyAll eval recursed ops scan.nums scan.vars with
      | .error stop => stop.outcome
      | .ok (nums, vars) =>
        .next { expr := rest', closing := base.closing, lasttok := .num, nums := nums
                stack := stack, vars := vars } := by
  have below : scan.stack = ops ++ .lparen :: stack := by rw [pending.stack, opened]
  rw [step_token pending.literal (pending.expr ▸ read),
    pushToken_rparen (by exact pending.number) (by exact below)
      fun op member => (pending.tight op member).1]
  cases applyAll eval recursed ops scan.nums scan.vars with
  | error stop => rfl
  | ok applied => simp only [pending.closing]

end Steps

/-! ## Tokens of a tree -/

theorem reads_append {last : LastToken} {text rest : Str} {tokens tokens' : List Token}
    (reads : Reads last text (tokens ++ tokens') rest) :
    ∃ middle, Reads last text tokens middle ∧ Reads (last.after tokens) middle tokens' rest := by
  induction tokens generalizing last text with
  | nil => exact ⟨text, .nil, reads⟩
  | cons token tokens ih =>
    cases reads with
    | cons read reads =>
      obtain ⟨middle, first, second⟩ := ih reads
      exact ⟨middle, .cons read first, second⟩

theorem after_paren (inner : Expr) (opened : Nat) :
    (LastToken.operator opened).after inner.paren.tokens =
      ((LastToken.operator (opened + 1)).after inner.tokens).next (.op .rparen) := by
  rw [Expr.tokens, LastToken.after_append]
  rfl

/-- The variable that a name, possibly in parentheses, stands for. -/
def Expr.target : Expr → Option Str
  | .name n => some n
  | .paren inner => inner.target
  | _ => none

theorem after_target {e : Expr} {n : Str} (named : e.target = some n) (opened : Nat) :
    (LastToken.operator opened).after e.tokens = .name opened := by
  induction e generalizing opened with
  | name n => rfl
  | paren inner ih =>
    rw [after_paren, ih named]
    rfl
  | _ => cases named

theorem isInfix_of_level {op : Operator} {level : Nat} (binary : op.level = some level) :
    IsInfix op ∧ rank op = level ∧ 0 < level ∧ isRightAssociative level = op.groupsRight := by
  cases op <;> cases binary <;> exact ⟨by unfold IsInfix; decide, rfl, by decide, rfl⟩

theorem Expr.WellFormed.level_pos {e : Expr} (wellFormed : e.WellFormed) : 0 < e.level := by
  cases e with
  | binary op left right =>
    obtain ⟨⟨level, binary, -⟩, -⟩ := wellFormed
    rw [Expr.level, binary]
    exact (isInfix_of_level binary).2.2.1
  | _ => simp [Expr.level, postLevel, preLevel, conditionalLevel]

/-- After any other tree, a right parenthesis ends an operand that is no name. -/
theorem after_no_target {e : Expr} (wellFormed : e.WellFormed) (other : e.target = none)
    (opened : Nat) :
    ((LastToken.operator opened).after e.tokens).next (.op .rparen) = .other := by
  -- a tree that follows an operator ends without an enclosing pair of its own
  have tail (e : Expr) (ih : e.target = none →
      ((LastToken.operator 0).after e.tokens).next (.op .rparen) = .other) :
      ((LastToken.operator 0).after e.tokens).next (.op .rparen) = .other := by
    cases kind : e.target with
    | none => exact ih kind
    | some n => rw [after_target kind]; rfl
  induction e generalizing opened with
  | name n => cases other
  | num val => rfl
  | paren inner ih =>
    rw [after_paren, ih wellFormed other]
    rfl
  | post op operand =>
    obtain ⟨isPost, -, -⟩ := wellFormed
    rw [Expr.tokens, LastToken.after_append]
    cases op <;> first | rfl | cases isPost
  | pre op operand ih =>
    obtain ⟨isPre, -, inner⟩ := wellFormed
    have start : (LastToken.operator opened).next (.op (spelled op)) = .operator 0 := by
      cases op <;> first | rfl | cases isPre
    rw [Expr.tokens, LastToken.after, List.foldl_cons, start]
    exact tail operand fun kind => ih inner kind 0
  | binary op left right _ ih =>
    obtain ⟨⟨level, binary, -⟩, -, inner⟩ := wellFormed
    rw [Expr.tokens, LastToken.after_append, LastToken.after, List.foldl_cons,
      (isInfix_of_level binary).1.facts.2.2.2.2]
    exact tail right fun kind => ih inner kind 0
  | conditional condition middle last _ _ ih =>
    obtain ⟨-, -, -, -, inner⟩ := wellFormed
    rw [Expr.tokens, LastToken.after_append, LastToken.after, List.foldl_cons]
    exact tail last fun kind => ih inner kind 0

theorem assign_ok {x y : Operand} {env env' : Env} {val kept : Int64}
    (result : x.assign env val kept = .ok (y, env')) : y = .number kept := by
  cases x <;> cases result
  rfl

/-- The variable that an operand is. -/
def Operand.target : Operand → Option Str
  | .number _ => none
  | .lvalue n => some n

/-- Only a name, possibly in parentheses, can be assigned to. -/
theorem eval_target {e : Expr} {env env' : Env} {x : Operand}
    (result : e.eval env = .ok (x, env')) : x.target = e.target := by
  induction e generalizing env with
  | name n => cases result; rfl
  | num val => cases result; rfl
  | paren inner ih => exact ih result
  | post op operand =>
    obtain ⟨⟨y, env''⟩, -, result⟩ := bind_eq_ok.mp result
    rw [assign_ok result]
    rfl
  | pre op operand =>
    obtain ⟨⟨y, env''⟩, -, result⟩ := bind_eq_ok.mp result
    unfold Operand.pre at result
    dsimp only at result
    split at result
    · rw [assign_ok result]; rfl
    · rw [assign_ok result]; rfl
    · cases result; rfl
  | binary op left right =>
    obtain ⟨⟨y, env₁⟩, -, result⟩ := bind_eq_ok.mp result
    obtain ⟨⟨z, env₂⟩, -, result⟩ := bind_eq_ok.mp result
    obtain ⟨val, -, result⟩ := bind_eq_ok.mp result
    split at result
    · rw [assign_ok result]; rfl
    · cases result; rfl
  | conditional condition middle last =>
    obtain ⟨⟨y, env₁⟩, -, result⟩ := bind_eq_ok.mp result
    obtain ⟨⟨z, env₂⟩, -, result⟩ := bind_eq_ok.mp result
    obtain ⟨⟨w, env₃⟩, -, result⟩ := bind_eq_ok.mp result
    cases result
    rfl

end Busybox.Shell
