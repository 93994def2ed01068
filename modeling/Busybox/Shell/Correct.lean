import Busybox.Shell.Trees

/-!
# The order of evaluation

`Expr.eval` reads a name when its operator is applied. `Expr.inOrder` reads every
operand as soon as it is evaluated, from left to right. The two differ only where an
operand assigns to a variable that another one to its left names; `Settled` says that
none does.
-/

namespace Busybox.Shell

open Fallible

/-- The meaning of a tree when each operand is read before the next one is evaluated. -/
def Expr.inOrder : Expr → Env → Except MathError (Operand × Env)
  | .name n, env => .ok (.lvalue n, env)
  | .num val, env => .ok (.number val, env)
  | .paren inner, env => inner.inOrder env
  | .post op operand, env => operand.inOrder env >>= fun x => x.1.post op x.2
  | .pre op operand, env => operand.inOrder env >>= fun x => x.1.pre op x.2
  | .binary op left right, env =>
    left.inOrder env >>= fun x =>
      right.inOrder x.2 >>= fun y =>
        binaryValue op (x.1.read x.2) (y.1.read y.2) >>= fun val =>
          if op.level = some 2 then x.1.assign y.2 val val else .ok (.number val, y.2)
  | .conditional condition middle last, env =>
    condition.inOrder env >>= fun c =>
      middle.inOrder c.2 >>= fun x =>
        last.inOrder x.2 >>= fun y =>
          .ok (.number (if c.1.read c.2 ≠ 0 then x.1.read x.2 else y.1.read y.2), y.2)

/-- The variables that a tree assigns to. -/
def Expr.assigned : Expr → List Str
  | .name _ | .num _ => []
  | .paren inner => inner.assigned
  | .post _ operand => operand.target.toList ++ operand.assigned
  | .pre op operand =>
    (if op = .preInc ∨ op = .preDec then operand.target.toList else []) ++ operand.assigned
  | .binary op left right =>
    (if op.level = some 2 then left.target.toList else []) ++ left.assigned ++ right.assigned
  | .conditional condition middle last =>
    condition.assigned ++ middle.assigned ++ last.assigned

/-- No operand that is read assigns to a variable that an operand to its left names. -/
def Expr.Settled : Expr → Prop
  | .name _ | .num _ => True
  | .paren inner => inner.Settled
  | .post _ operand | .pre _ operand => operand.Settled
  | .binary op left right =>
    (op = .assign ∨ ∀ n ∈ left.target, n ∉ right.assigned) ∧ left.Settled ∧ right.Settled
  | .conditional condition middle last =>
    (∀ n ∈ condition.target, n ∉ middle.assigned ∧ n ∉ last.assigned) ∧
      (∀ n ∈ middle.target, n ∉ last.assigned) ∧
        condition.Settled ∧ middle.Settled ∧ last.Settled

/-- Assigning changes the variable that the operand is. -/
theorem assign_other {x y : Operand} {env env' : Env} {val kept : Int64} {n : Str}
    (result : x.assign env val kept = .ok (y, env')) (other : n ∉ x.target.toList) :
    env' n = env n := by
  cases x with
  | number val => cases result
  | lvalue name =>
    cases result
    have different : n ≠ name := by simpa [Operand.target] using other
    rw [Env.set, if_neg different]

/-- A tree leaves the variables alone that it does not assign to. -/
theorem eval_unassigned {e : Expr} {env env' : Env} {x : Operand} {n : Str}
    (result : e.eval env = .ok (x, env')) (unassigned : n ∉ e.assigned) : env' n = env n := by
  induction e generalizing env env' x with
  | name name => cases result; rfl
  | num val => cases result; rfl
  | paren inner ih => exact ih result unassigned
  | post op operand ih =>
    obtain ⟨⟨y, env₁⟩, inner, result⟩ := bind_eq_ok.mp result
    rw [Expr.assigned, List.mem_append, not_or, ← eval_target inner] at unassigned
    exact (assign_other result unassigned.1).trans (ih inner unassigned.2)
  | pre op operand ih =>
    obtain ⟨⟨y, env₁⟩, inner, result⟩ := bind_eq_ok.mp result
    rw [Expr.assigned, List.mem_append, not_or, ← eval_target inner] at unassigned
    refine Eq.trans ?_ (ih inner unassigned.2)
    unfold Operand.pre at result
    dsimp only at result
    split at result
    · exact assign_other result unassigned.1
    · exact assign_other result unassigned.1
    · cases result; rfl
  | binary op left right ihLeft ihRight =>
    obtain ⟨⟨y, env₁⟩, first, result⟩ := bind_eq_ok.mp result
    obtain ⟨⟨z, env₂⟩, second, result⟩ := bind_eq_ok.mp result
    obtain ⟨val, -, result⟩ := bind_eq_ok.mp result
    rw [Expr.assigned, List.mem_append, List.mem_append, not_or, not_or, ← eval_target first]
      at unassigned
    obtain ⟨⟨here, inLeft⟩, inRight⟩ := unassigned
    refine Eq.trans ?_ ((ihRight second inRight).trans (ihLeft first inLeft))
    split at result
    · next assigns =>
      rw [if_pos assigns] at here
      exact assign_other result here
    · cases result; rfl
  | conditional condition middle last ih ih' ih'' =>
    obtain ⟨⟨y, env₁⟩, first, result⟩ := bind_eq_ok.mp result
    obtain ⟨⟨z, env₂⟩, second, result⟩ := bind_eq_ok.mp result
    obtain ⟨⟨w, env₃⟩, third, result⟩ := bind_eq_ok.mp result
    cases result
    rw [Expr.assigned, List.mem_append, List.mem_append, not_or, not_or] at unassigned
    obtain ⟨⟨inFirst, inSecond⟩, inThird⟩ := unassigned
    exact (ih'' third inThird).trans ((ih' second inSecond).trans (ih first inFirst))

/-- An operand reads the same later on if nothing has been assigned to it. -/
theorem read_later {e : Expr} {env env₁ env₂ : Env} {x : Operand}
    (result : e.eval env = .ok (x, env₁)) (same : ∀ n ∈ e.target, env₂ n = env₁ n) :
    x.read env₂ = x.read env₁ := by
  cases x with
  | number val => rfl
  | lvalue n => exact same n (eval_target result).symm

/-- Where no operand disturbs one to its left, the order of reading makes no difference. -/
theorem eval_eq_inOrder {e : Expr} (settled : e.Settled) (env : Env) :
    e.eval env = e.inOrder env := by
  induction e generalizing env with
  | name n => rfl
  | num val => rfl
  | paren inner ih => exact ih settled env
  | post op operand ih => rw [Expr.eval, Expr.inOrder, ih settled]
  | pre op operand ih => rw [Expr.eval, Expr.inOrder, ih settled]
  | binary op left right ihLeft ihRight =>
    obtain ⟨undisturbed, settledLeft, settledRight⟩ := settled
    rw [Expr.eval, Expr.inOrder, ← ihLeft settledLeft]
    refine Fallible.bind_congr fun x first => ?_
    rw [← ihRight settledRight]
    refine Fallible.bind_congr fun y second => ?_
    rcases undisturbed with rfl | undisturbed
    · rfl
    · have later : x.1.read y.2 = x.1.read x.2 := read_later first fun n named =>
        eval_unassigned second (undisturbed n named)
      rw [Operand.binary, later]
  | conditional condition middle last ih ih' ih'' =>
    obtain ⟨undisturbed, undisturbed', settled, settled', settled''⟩ := settled
    rw [Expr.eval, Expr.inOrder, ← ih settled]
    refine Fallible.bind_congr fun c first => ?_
    rw [← ih' settled']
    refine Fallible.bind_congr fun x second => ?_
    rw [← ih'' settled'']
    refine Fallible.bind_congr fun y third => ?_
    have laterCondition : c.1.read y.2 = c.1.read c.2 := read_later first fun n named =>
      (eval_unassigned third (undisturbed n named).2).trans
        (eval_unassigned second (undisturbed n named).1)
    have laterMiddle : x.1.read y.2 = x.1.read x.2 := read_later second fun n named =>
      eval_unassigned third (undisturbed' n named)
    rw [laterCondition, laterMiddle]

/-!
## The evaluator computes what the tree means

The text of a tree is read from an empty stack, and the right parenthesis at its end
applies what is pending.
-/

/-- The evaluation returns the value and makes the assignments; it reports an error
exactly where there is no value. -/
def Computes (result : Evaluation) (meaning : Except MathError (Int64 × Env)) : Prop :=
  match meaning with
  | .ok (val, env) => result.error = none ∧ result.val = val ∧ Numeric result.vars env
  | .error _ => result.error ≠ none

/-- What the evaluation of a text ends in: an error, the tree's own where middle operands
are bound; or the tree's value, and then middle operands are bound. -/
inductive Ends (e : Expr) (env : Env) : Evaluation → Prop
  | fails {error : MathError} {vars : Vars} (same : e.MiddlesBound → e.value env = .error error) :
      Ends e env (fail error vars)
  | gives {val : Int64} {vars : Vars} {env' : Env} (bound : e.MiddlesBound)
      (meaning : e.value env = .ok (val, env')) (numeric : Numeric vars env') :
      Ends e env ⟨val, none, vars⟩

theorem tokens_ne_nil (e : Expr) : e.tokens ≠ [] := by
  cases e <;> simp [Expr.tokens]

theorem skipWhitespace_idem (s : Str) : skipWhitespace (skipWhitespace s) = skipWhitespace s :=
  List.dropWhile_idempotent isspace s

/-- Space before the first token makes no difference. -/
theorem reads_skipWhitespace {last : LastToken} {text rest : Str} {tokens : List Token}
    (some_ : tokens ≠ []) (reads : Reads last text tokens rest) :
    Reads last (skipWhitespace text) tokens rest ∧ skipWhitespace text ≠ [] := by
  cases reads with
  | nil => exact absurd rfl some_
  | cons read reads =>
    refine ⟨.cons (by rw [skipWhitespace_idem]; exact read) reads, fun blank => ?_⟩
    rw [blank] at read
    cases read

/-- The evaluation of a text that spells a tree. -/
theorem evaluateWith_ends {e : Expr} {env : Env} {vars : Vars} {text : Str} (depth : Nat)
    (wellFormed : e.WellFormed) (spells : Spells text e.tokens) (numeric : Numeric vars env) :
    ∃ result, evaluateWith (evaluateString (depth + 1)) [] vars text = some result ∧
      Ends e env result := by
  obtain ⟨rest, reads, blank⟩ := spells
  obtain ⟨reads, content⟩ := reads_skipWhitespace (tokens_ne_nil e) reads
  have ready : Ready (startScan (skipWhitespace text) vars) e env 0 rest :=
    ⟨by simp [startScan, afterPost], ⟨.lparen, [], rfl, fun q above _ =>
      .inl (lt_of_lt_of_le wellFormed.level_pos above)⟩, reads, numeric⟩
  cases (handled wellFormed).readable ready with
  | fails leads same =>
    refine ⟨_, evaluateWith_of_leads content leads, .fails fun bound => ?_⟩
    rw [Expr.value, same bound, error_bind]
  | @reads scan ops parsed =>
    obtain ⟨expr, closing, number, literal, stack, tight⟩ := parsed.pending
    have noParen : ∀ op ∈ ops, op ≠ .lparen := fun op member => (tight op member).1
    rw [← expr] at blank
    have result := parsed.result
    generalize applied : applyAll (evaluateString (depth + 1)) [] ops scan.nums scan.vars = outcome,
      meaning : e.eval env = m at result
    cases result with
    | fails same =>
      have close := leads_close_error ops blank closing literal number stack noParen applied
      refine ⟨_, evaluateWith_of_leads content (parsed.leads.trans close), .fails fun bound => ?_⟩
      rw [Expr.value, meaning, same bound, error_bind]
    | @gives entry x vars' env' bound stands numeric =>
      have close := leads_close ops entry blank closing literal number stack noParen applied
        (arithLookupVal_stands numeric stands)
      refine ⟨_, evaluateWith_of_leads content (parsed.leads.trans close), .gives bound ?_ numeric⟩
      rw [Expr.value, meaning, ok_bind]

/-- The value of a tree whose operands are read from left to right, and the variables
after it. -/
def Expr.valueInOrder (e : Expr) (env : Env) : Except MathError (Int64 × Env) :=
  e.inOrder env >>= fun x => .ok (x.1.read x.2, x.2)

/-- A text that spells a tree is evaluated as the tree says if no middle operand of `?:`
is itself a `?:`, an assignment or a comma expression without parentheses. Otherwise an
error is reported, also for a tree that has a value. -/
theorem arith_computes_iff {e : Expr} {env : Env} {vars : Vars} {text : Str} (depth : Nat)
    (wellFormed : e.WellFormed) (spells : Spells text e.tokens) (numeric : Numeric vars env) :
    (Computes (arith (depth + 2) vars text) (e.value env) ↔
      e.MiddlesBound ∨ ∃ error, e.value env = .error error) ∧
    (e.MiddlesBound → ∀ error, e.value env = .error error →
      (arith (depth + 2) vars text).error = some error) ∧
    (¬e.MiddlesBound → (arith (depth + 2) vars text).error ≠ none) ∧
    (e.MiddlesBound → e.Settled →
      Computes (arith (depth + 2) vars text) (e.valueInOrder env)) := by
  obtain ⟨result, evaluated, ends⟩ := evaluateWith_ends depth wellFormed spells numeric
  have returned : arith (depth + 2) vars text = result := by
    rw [arith, evaluateString, evaluated, Option.getD_some]
  have inOrder (settled : e.Settled) : e.valueInOrder env = e.value env := by
    rw [Expr.valueInOrder, Expr.value, eval_eq_inOrder settled]
  rw [returned]
  cases ends with
  | @fails error vars' same =>
    have computes : Computes (fail error vars') (e.value env) ↔
        ∃ error, e.value env = .error error := by
      cases e.value env with
      | ok value => simp [Computes, fail]
      | error error => simp [Computes, fail]
    refine ⟨computes.trans ⟨.inr, fun either => either.elim (fun bound => ⟨_, same bound⟩) id⟩,
      fun bound error' meaning => ?_, fun _ => by rintro ⟨⟩, fun bound settled => ?_⟩
    · rw [same bound] at meaning
      cases meaning
      rfl
    · rw [inOrder settled]
      exact computes.mpr ⟨_, same bound⟩
  | @gives val vars' env' bound meaning numeric' =>
    have computes : Computes ⟨val, none, vars'⟩ (e.value env) := by
      rw [meaning]
      exact ⟨rfl, rfl, numeric'⟩
    refine ⟨iff_of_true computes (.inl bound), fun _ error failed => ?_, absurd bound,
      fun _ settled => ?_⟩
    · rw [meaning] at failed
      cases failed
    · rw [inOrder settled]
      exact computes

/-- `1?2:3` -/
theorem arith_computes_conditional :
    Computes (arith 2 (fun _ => none) (bytes ['1', '?', '2', ':', '3'])) (.ok (2, fun _ => 0)) :=
  (arith_computes_iff (e := .conditional (.num 1) (.num 2) (.num 3)) 0
    (by simp only [Expr.WellFormed, Expr.level]; decide)
    ⟨[], .cons rfl (.cons rfl (.cons rfl (.cons rfl (.cons rfl .nil)))), rfl⟩
    (fun _ => rfl)).1.mpr (.inl (by simp only [Expr.MiddlesBound, Expr.level]; decide))

/-- `1?2?3:4:5` is 3, but the evaluator reports an error. -/
theorem arith_nested_conditional :
    let e : Expr := .conditional (.num 1) (.conditional (.num 2) (.num 3) (.num 4)) (.num 5)
    let text := bytes ['1', '?', '2', '?', '3', ':', '4', ':', '5']
    e.WellFormed ∧ Spells text e.tokens ∧ Numeric (fun _ => none) (fun _ => 0) ∧
      e.value (fun _ => 0) = .ok (3, fun _ => 0) ∧
        (arith 2 (fun _ => none) text).error = some .malformedConditional := by
  refine ⟨?_, ⟨[], .cons rfl (.cons rfl (.cons rfl (.cons rfl (.cons rfl (.cons rfl (.cons rfl
    (.cons rfl (.cons rfl .nil)))))))), rfl⟩, fun _ => rfl, rfl, rfl⟩
  simp only [Expr.WellFormed, Expr.level]
  decide

end Busybox.Shell
