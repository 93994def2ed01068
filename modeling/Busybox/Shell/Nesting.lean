import Busybox.Shell.Values

/-!
# Variables that name variables

The value of a variable is evaluated when the variable is looked up. Here one call
of `evaluate_string` is a dialogue that asks for these values; answered by an
evaluator it is the evaluator's call.
-/

namespace Busybox.Shell

open Fallible Dialogue

/-- A variable that is set is looked up, while the values of those in `recursed` are
being evaluated. -/
structure Reference where
  recursed : List Str
  name : Str
  vars : Vars
  text : Str

/-- A part of the evaluation that can stop. -/
abbrev Asking (α : Type) := Dialogue Reference Evaluation (Except Stop α)

/-- What follows if the first part has not stopped. -/
def Asking.andThen {α β : Type} (first : Asking α) (next : α → Asking β) : Asking β :=
  first.bind fun
    | .error stop => .done (.error stop)
    | .ok result => next result

/-- The value of an operand when the evaluation of its text has ended. -/
def settle (t : VarOrNum) (result : Evaluation) : Except Stop (VarOrNum × Vars) :=
  match result.error with
  | some error => .error (.error error result.vars)
  | none => .ok ({ t with val := result.val }, result.vars)

/-- `arith_lookup_val`. -/
def askVal (recursed : List Str) (vars : Vars) (t : VarOrNum) : Asking (VarOrNum × Vars) :=
  match t.var with
  | none => .done (.ok (t, vars))
  | some name =>
    match vars name with
    | none => .done (.ok ({ t with val := 0 }, vars))
    | some text => .ask ⟨recursed, name, vars, text⟩ fun result => .done (settle t result)

/-- The binary half of `arith_apply`. -/
def askBinary (recursed : List Str) (op : Operator) (top left : VarOrNum)
    (below : List VarOrNum) (vars : Vars) : Asking (List VarOrNum × Vars) :=
  if badSecondVal op top then .done (.error (.error .malformedConditional vars))
  else
    Asking.andThen (if op = .assign then .done (.ok (left, vars)) else askVal recursed vars left)
      fun (left, vars) => .done (applyResolved op top left below vars)

/-- `arith_apply`. -/
def askApply (recursed : List Str) (op : Operator) (nums : List VarOrNum) (vars : Vars) :
    Asking (List VarOrNum × Vars) :=
  match nums with
  | [] => .done (.error (.error .syntaxError vars))
  | top :: below =>
    (askVal recursed vars top).andThen fun (top, vars) =>
      match unaryResult op top.val, below with
      | some rez, below => .done (applied op rez top below vars)
      | none, [] => .done (.error (.error .syntaxError vars))
      | none, left :: below => askBinary recursed op top left below vars

/-- The loop over pending operators. -/
def askUnwind (recursed : List Str) (op : Operator) :
    List Operator → List VarOrNum → Vars → Asking Unwound
  | [], nums, vars => .done (.ok ⟨false, [], nums, vars⟩)
  | prev :: stack, nums, vars =>
    if op = .rparen ∧ prev = .lparen then .done (.ok ⟨true, stack, nums, vars⟩)
    else if op ≠ .rparen ∧ stopsAt op prev then .done (.ok ⟨false, prev :: stack, nums, vars⟩)
    else
      (askApply recursed prev nums vars).andThen fun (nums, vars) =>
        askUnwind recursed op stack nums vars

/-- A turn of the loop. -/
abbrev Turn := Dialogue Reference Evaluation Outcome

/-- What becomes of a binary operator when pending operators have been applied. -/
def pushed (op : Operator) (scan : Scan) : Except Stop Unwound → Outcome
  | .error stop => stop.outcome
  | .ok unwound =>
    if unwound.matched then
      .next { scan with
        lasttok := .num, stack := unwound.stack, nums := unwound.nums, vars := unwound.vars }
    else if op = .rparen then .done (fail .syntaxError unwound.vars)
    else
      .next { scan with
        lasttok := op, stack := op :: unwound.stack, nums := unwound.nums, vars := unwound.vars }

def askMeant (recursed : List Str) (lasttok op : Operator) (scan : Scan) : Turn :=
  if isBinary op then
    if lasttok = .num then
      (askUnwind recursed op scan.stack scan.nums scan.vars).bind fun unwound =>
        .done (pushed op scan unwound)
    else .done (.done (fail .syntaxError scan.vars))
  else .done (.next { scan with lasttok := op, stack := op :: scan.stack })

def askPush (recursed : List Str) (token : Token) (scan : Scan) : Turn :=
  match token with
  | .name name => .done (.next { scan with lasttok := .num, nums := .ofName name :: scan.nums })
  | .num val => .done (.next { scan with lasttok := .num, nums := .ofNum val :: scan.nums })
  | .op op =>
    let lasttok := afterPost scan.lasttok
    askMeant recursed lasttok (meant lasttok op) scan

/-- The result, when the last operand has been looked up. -/
def finished : Except Stop (VarOrNum × Vars) → Outcome
  | .error stop => stop.outcome
  | .ok (operand, vars) => .done ⟨operand.val, none, vars⟩

def askFinish (recursed : List Str) (scan : Scan) : Turn :=
  match scan.nums with
  | [operand] => (askVal recursed scan.vars operand).bind fun resolved => .done (finished resolved)
  | _ => .done (.done (fail .syntaxError scan.vars))

def askStep (recursed : List Str) (scan : Scan) : Turn :=
  match skipWhitespace scan.expr with
  | [] =>
    if scan.closing then askFinish recursed scan
    else .done (.next { scan with expr := bytes [')'], closing := true })
  | c :: rest =>
    match isLiteral scan with
    | none => .done .belowStack
    | some literal =>
      match readToken literal (c :: rest) with
      | none => .done (.done (fail .syntaxError scan.vars))
      | some (token, rest) => askPush recursed token { scan with expr := rest }

def askLoop (recursed : List Str) :
    Nat → Scan → Dialogue Reference Evaluation (Option Evaluation)
  | 0, _ => .done none
  | turns + 1, scan =>
    (askStep recursed scan).bind fun
      | .next scan => askLoop recursed turns scan
      | .done result => .done (some result)
      | .belowStack => .done none

/-- One call of `evaluate_string`. -/
def evaluation (recursed : List Str) (vars : Vars) (expr : Str) :
    Dialogue Reference Evaluation Evaluation :=
  match skipWhitespace expr with
  | [] => .done ⟨0, none, vars⟩
  | c :: rest =>
    (askLoop recursed (rest.length + 4) (startScan (c :: rest) vars)).bind fun result =>
      .done (result.getD (fail .syntaxError vars))

/-- The rest of `arith_lookup_val`: a name that is being evaluated already is an
error, for any other the text is evaluated. -/
def follow (reference : Reference) : Dialogue Reference Evaluation Evaluation :=
  if reference.name ∈ reference.recursed then .done (fail .recursionLoop reference.vars)
  else evaluation (reference.name :: reference.recursed) reference.vars reference.text

/-- A reference that an evaluator follows. -/
def answerWith (eval : Evaluator) (reference : Reference) : Evaluation :=
  if reference.name ∈ reference.recursed then fail .recursionLoop reference.vars
  else eval (reference.name :: reference.recursed) reference.vars reference.text

/-! ## The dialogues are the evaluator -/

section Run

variable {eval : Evaluator} {recursed : List Str} {op : Operator} {vars : Vars}

theorem run_andThen {α β : Type} (first : Asking α) (next : α → Asking β) :
    (first.andThen next).run (answerWith eval)
      = (first.run (answerWith eval) >>= fun result => (next result).run (answerWith eval)) := by
  rw [Asking.andThen, run_bind]
  cases first.run (answerWith eval) with
  | error stop => rfl
  | ok result => rfl

theorem askVal_run (t : VarOrNum) :
    (askVal recursed vars t).run (answerWith eval) = arithLookupVal eval recursed vars t := by
  obtain ⟨val, secondVal, secondValPresent, var⟩ := t
  cases var with
  | none => rfl
  | some name =>
    unfold askVal arithLookupVal
    dsimp only
    cases vars name with
    | none => rfl
    | some text =>
      show settle _ (answerWith eval ⟨recursed, name, vars, text⟩) = _
      unfold answerWith
      split
      · rfl
      · rfl

theorem askBinary_run (top left : VarOrNum) (below : List VarOrNum) :
    (askBinary recursed op top left below vars).run (answerWith eval)
      = applyBinary eval recursed op top left below vars := by
  unfold askBinary applyBinary resolveLeft
  split
  · rfl
  · rw [run_andThen]
    split
    · rfl
    · rw [askVal_run]
      rfl

theorem askApply_run (nums : List VarOrNum) :
    (askApply recursed op nums vars).run (answerWith eval)
      = arithApply eval recursed op nums vars := by
  cases nums with
  | nil => rfl
  | cons top below =>
    rw [arithApply_cons, askApply, run_andThen, askVal_run]
    congr 1
    funext resolved
    cases effect : unaryResult op resolved.1.val with
    | some rez => simp only [effect, run_done]
    | none =>
      cases below with
      | nil => simp only [effect, run_done]
      | cons left below =>
        simp only [effect]
        exact askBinary_run _ _ _

theorem askUnwind_run (stack : List Operator) (nums : List VarOrNum) (vars : Vars) :
    (askUnwind recursed op stack nums vars).run (answerWith eval)
      = unwind eval recursed op stack nums vars := by
  induction stack generalizing nums vars with
  | nil => rfl
  | cons prev stack ih =>
    unfold askUnwind unwind
    split
    · rfl
    · split
      · rfl
      · rw [run_andThen, askApply_run]
        congr 1
        funext applied
        exact ih applied.1 applied.2

theorem askPush_run (token : Token) (scan : Scan) :
    (askPush recursed token scan).run (answerWith eval) = pushToken eval recursed token scan := by
  cases token with
  | name name => rfl
  | num val => rfl
  | op op =>
    simp only [askPush, pushToken, pushOperator, askMeant, pushMeant, pushBinary]
    split
    · split
      · rw [run_bind, askUnwind_run]
        cases unwind eval recursed (meant (afterPost scan.lasttok) op) scan.stack scan.nums
          scan.vars with
        | error stop => rfl
        | ok unwound => rfl
      · rfl
    · rfl

theorem askFinish_run (scan : Scan) :
    (askFinish recursed scan).run (answerWith eval) = finish eval recursed scan := by
  unfold askFinish finish
  cases scan.nums with
  | nil => rfl
  | cons operand others =>
    cases others with
    | nil =>
      dsimp only
      rw [run_bind, askVal_run]
      cases arithLookupVal eval recursed scan.vars operand with
      | error stop => rfl
      | ok resolved => rfl
    | cons second others => rfl

theorem askStep_run (scan : Scan) :
    (askStep recursed scan).run (answerWith eval) = step eval recursed scan := by
  unfold askStep step
  cases skipWhitespace scan.expr with
  | nil =>
    dsimp only
    split
    · exact askFinish_run scan
    · rfl
  | cons c rest =>
    cases isLiteral scan with
    | none => rfl
    | some literal =>
      dsimp only
      cases readToken literal (c :: rest) with
      | none => rfl
      | some read => exact askPush_run read.1 _

theorem askLoop_run (turns : Nat) (scan : Scan) :
    (askLoop recursed turns scan).run (answerWith eval) = loop eval recursed turns scan := by
  induction turns generalizing scan with
  | zero => rfl
  | succ turns ih =>
    rw [askLoop, run_bind, askStep_run, loop]
    cases step eval recursed scan with
    | next scan => exact ih scan
    | done result => rfl
    | belowStack => rfl

theorem evaluation_run (expr : Str) :
    (evaluation recursed vars expr).run (answerWith eval)
      = (evaluateWith eval recursed vars expr).getD (fail .syntaxError vars) := by
  unfold evaluation evaluateWith
  cases skipWhitespace expr with
  | nil => rfl
  | cons c rest =>
    dsimp only
    rw [run_bind, askLoop_run]
    rfl

/-- So many nested calls are so many levels of references that are followed. -/
theorem answerWith_evaluateString (depth : Nat) :
    answerWith (evaluateString depth) = unrolled follow (answerWith (evaluateString 0)) depth := by
  induction depth with
  | zero => rfl
  | succ depth ih =>
    funext reference
    rw [unrolled, ← ih, answerWith, follow]
    split
    · rfl
    · rw [evaluation_run, evaluateString]

end Run

end Busybox.Shell
