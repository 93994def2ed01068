import Busybox.Shell.Bounds

/-!
# Runs of the evaluator

`Leads` chains turns of the loop. The facts here are about one turn, whatever is
evaluated: which token it reads, which pending operators it applies, and how the
right parenthesis at the end of the text closes the evaluation.
-/

namespace Busybox.Shell

open Fallible

/-! ## Turns in sequence -/

/-- The loop gets from a state to another, or to the end of the evaluation. -/
inductive Leads (eval : Evaluator) (recursed : List Str) : Scan → Outcome → Prop
  | now {scan : Scan} : Leads eval recursed scan (.next scan)
  | done {scan : Scan} {result : Evaluation} (last : step eval recursed scan = .done result) :
      Leads eval recursed scan (.done result)
  | turn {scan scan' : Scan} {outcome : Outcome} (first : step eval recursed scan = .next scan')
      (rest : Leads eval recursed scan' outcome) : Leads eval recursed scan outcome

/-- The turns that a state can still lead to. -/
def Skeleton.left (skeleton : Skeleton) : Nat :=
  skeleton.expr.length + if skeleton.closing then 0 else 2

theorem Skeleton.left_step {skeleton skeleton' : Skeleton}
    (result : skeleton.step = some skeleton') : skeleton'.left < skeleton.left := by
  have trimmed := length_skipWhitespace skeleton.expr
  unfold Skeleton.step at result
  split at result
  · split at result
    · cases result
    · next inText =>
      cases result
      simp only [Skeleton.left, inText, bytes, List.map_cons, List.map_nil, List.length_singleton]
      simp
  · next c rest text =>
    obtain ⟨⟨token, rest'⟩, read, result⟩ := Option.bind_eq_some_iff.mp result
    have shorter := length_readToken read
    obtain ⟨expr, closing⟩ := Skeleton.push_expr result
    rw [text] at trimmed
    simp only [Skeleton.left, expr, closing]
    omega

section Turns

variable {eval : Evaluator} {recursed : List Str} {scan scan' : Scan} {vars : Vars}

theorem Leads.trans {outcome : Outcome} (first : Leads eval recursed scan (.next scan'))
    (rest : Leads eval recursed scan' outcome) : Leads eval recursed scan outcome := by
  generalize reached : Outcome.next scan' = outcome' at first
  induction first with
  | now => cases reached; exact rest
  | done => cases reached
  | turn first _ ih => exact .turn first (ih reached)

/-- With turns enough the loop returns what the state leads to. -/
theorem loop_of_leads {result : Evaluation} (leads : Leads eval recursed scan (.done result))
    {turns : Nat} (enough : scan.skeleton.left < turns) :
    loop eval recursed turns scan = some result := by
  generalize reached : Outcome.done result = outcome at leads
  induction leads generalizing turns with
  | now => cases reached
  | done last =>
    cases reached
    obtain ⟨turns, rfl⟩ := Nat.exists_eq_succ_of_ne_zero (Nat.ne_zero_of_lt enough)
    rw [loop, last]
  | turn first _ ih =>
    have fewer := Skeleton.left_step (step_next first)
    obtain ⟨turns, rfl⟩ := Nat.exists_eq_succ_of_ne_zero (Nat.ne_zero_of_lt enough)
    rw [loop, first]
    exact ih (by omega) reached

theorem evaluateWith_of_leads {text : Str} {result : Evaluation}
    (content : skipWhitespace text ≠ [])
    (leads : Leads eval recursed (startScan (skipWhitespace text) vars) (.done result)) :
    evaluateWith eval recursed vars text = some result := by
  unfold evaluateWith
  split
  · next blank => exact absurd blank content
  · next c rest eq =>
    rw [eq] at leads
    refine loop_of_leads leads ?_
    simp only [Skeleton.left, startScan, Scan.skeleton, List.length_cons]
    simp

/-- A turn reads a token and pushes it. -/
theorem step_token {literal : Bool} {token : Token} {rest : Str}
    (known : isLiteral scan = some literal)
    (read : readToken literal (skipWhitespace scan.expr) = some (token, rest)) :
    step eval recursed scan = pushToken eval recursed token { scan with expr := rest } := by
  unfold step
  cases text : skipWhitespace scan.expr with
  | nil => simp [text, readToken, splitName] at read
  | cons c tail =>
    rw [text] at read
    simp only [known, read]

/-! ## Pending operators -/

/-- Apply operators one after another. -/
def applyAll (eval : Evaluator) (recursed : List Str) :
    List Operator → List VarOrNum → Vars → Except Stop (List VarOrNum × Vars)
  | [], nums, vars => .ok (nums, vars)
  | op :: ops, nums, vars =>
    arithApply eval recursed op nums vars >>= fun applied =>
      applyAll eval recursed ops applied.1 applied.2

theorem applyAll_append (ops ops' : List Operator) (nums : List VarOrNum) (vars : Vars) :
    applyAll eval recursed (ops ++ ops') nums vars =
      (applyAll eval recursed ops nums vars >>= fun applied =>
        applyAll eval recursed ops' applied.1 applied.2) := by
  induction ops generalizing nums vars with
  | nil => rfl
  | cons op ops ih =>
    simp only [List.cons_append, applyAll]
    cases arithApply eval recursed op nums vars with
    | error stop => rfl
    | ok applied => exact ih applied.1 applied.2

/-- The operator is one that `op` has applied before it is pushed. -/
def Yields (op pending : Operator) : Prop :=
  (op = .rparen → pending ≠ .lparen) ∧ (op ≠ .rparen → stopsAt op pending = false)

/-- All the pending operators that yield are applied. -/
theorem unwind_append {op : Operator} {ops stack : List Operator}
    (yields : ∀ pending ∈ ops, Yields op pending) (nums : List VarOrNum) (vars : Vars) :
    unwind eval recursed op (ops ++ stack) nums vars =
      (applyAll eval recursed ops nums vars >>= fun applied =>
        unwind eval recursed op stack applied.1 applied.2) := by
  induction ops generalizing nums vars with
  | nil => rfl
  | cons pending ops ih =>
    obtain ⟨paren, other⟩ := yields pending (List.mem_cons_self ..)
    have rest := fun nums vars =>
      ih (fun o member => yields o (List.mem_cons_of_mem pending member)) nums vars
    rw [List.cons_append, unwind, if_neg (fun both => paren both.1 both.2),
      if_neg (fun both => by simp [other both.1] at both)]
    simp only [applyAll]
    cases arithApply eval recursed pending nums vars with
    | error stop => rfl
    | ok applied => exact rest applied.1 applied.2

/-- A binary operator stops where the top of the stack does not yield. -/
theorem unwind_stops {op top : Operator} {stack : List Operator} (binary : op ≠ .rparen)
    (stops : stopsAt op top = true) (nums : List VarOrNum) (vars : Vars) :
    unwind eval recursed op (top :: stack) nums vars = .ok ⟨false, top :: stack, nums, vars⟩ := by
  rw [unwind, if_neg (fun both => binary both.1), if_pos ⟨binary, stops⟩]

/-- A right parenthesis stops at its left one. -/
theorem unwind_matches (stack : List Operator) (nums : List VarOrNum) (vars : Vars) :
    unwind eval recursed .rparen (.lparen :: stack) nums vars = .ok ⟨true, stack, nums, vars⟩ := by
  rw [unwind, if_pos ⟨rfl, rfl⟩]

/-! ## The end of the text -/

/-- Once a right parenthesis follows the last token, the pending operators down to the
left one are applied. -/
theorem pushToken_rparen {ops stack : List Operator} (number : afterPost scan.lasttok = .num)
    (pending : scan.stack = ops ++ .lparen :: stack) (inside : ∀ op ∈ ops, op ≠ .lparen) :
    pushToken eval recursed (.op .rparen) scan =
      match applyAll eval recursed ops scan.nums scan.vars with
      | .error stop => stop.outcome
      | .ok (nums, vars) =>
        .next { scan with lasttok := .num, stack := stack, nums := nums, vars := vars } := by
  have yields : ∀ op ∈ ops, Yields .rparen op := fun op member =>
    ⟨fun _ => inside op member, fun absurd => (absurd rfl).elim⟩
  simp only [pushToken, pushOperator, number, meant, if_pos, pushMeant,
    show isBinary .rparen = true from rfl, pushBinary, pending, unwind_append yields]
  cases applyAll eval recursed ops scan.nums scan.vars with
  | error stop => rfl
  | ok applied => rw [ok_bind, unwind_matches]; rfl

variable (eval recursed) in
/-- The right parenthesis that the loop supplies. -/
theorem step_close {literal : Bool} (blank : skipWhitespace scan.expr = [])
    (inText : scan.closing = false) (known : isLiteral scan = some literal) :
    ∃ scan' last, step eval recursed scan = .next scan' ∧
      step eval recursed scan' = pushToken eval recursed (.op .rparen) last ∧
      last = { scan with expr := [], closing := true } := by
  have paren : readToken literal (skipWhitespace (bytes [')'])) = some (.op .rparen, []) := by
    cases literal <;> decide
  refine ⟨{ scan with expr := bytes [')'], closing := true }, _, ?_, ?_, rfl⟩
  · simp [step, blank, inText]
  · exact step_token known paren

/-- At the end of the text the pending operators are applied; a failure is the result. -/
theorem leads_close_error (ops : List Operator) {literal : Bool} {error : MathError}
    (blank : skipWhitespace scan.expr = []) (inText : scan.closing = false)
    (known : isLiteral scan = some literal) (number : afterPost scan.lasttok = .num)
    (pending : scan.stack = ops ++ [.lparen]) (inside : ∀ op ∈ ops, op ≠ .lparen)
    (applied : applyAll eval recursed ops scan.nums scan.vars = .error (.error error vars)) :
    Leads eval recursed scan (.done (fail error vars)) := by
  obtain ⟨scan', last, supplied, closed, rfl⟩ := step_close eval recursed blank inText known
  refine .turn supplied (.done ?_)
  rw [closed, pushToken_rparen (by exact number) (by exact pending) inside]
  simp only [applied]
  rfl

/-- At the end of the text the pending operators are applied; the operand that is left
is looked up. -/
theorem leads_close (ops : List Operator) (operand : VarOrNum) {literal : Bool}
    {resolved : VarOrNum} {vars' : Vars} (blank : skipWhitespace scan.expr = []) (inText : scan.closing = false)
    (known : isLiteral scan = some literal) (number : afterPost scan.lasttok = .num)
    (pending : scan.stack = ops ++ [.lparen]) (inside : ∀ op ∈ ops, op ≠ .lparen)
    (applied : applyAll eval recursed ops scan.nums scan.vars = .ok ([operand], vars))
    (looked : arithLookupVal eval recursed vars operand = .ok (resolved, vars')) :
    Leads eval recursed scan (.done ⟨resolved.val, none, vars'⟩) := by
  obtain ⟨scan', last, supplied, closed, rfl⟩ := step_close eval recursed blank inText known
  rw [pushToken_rparen (by exact number) (by exact pending) inside] at closed
  simp only [applied] at closed
  refine .turn supplied (.turn closed (.done ?_))
  simp [step, skipWhitespace, finish, looked]

end Turns

end Busybox.Shell
