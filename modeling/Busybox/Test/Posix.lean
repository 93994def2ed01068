import Busybox.Test.Reads

/-!
# The POSIX rules for few arguments

What POSIX prescribes for up to four arguments, and where `test` does something else.
-/

namespace Busybox.Test

open Fallible

variable {w : World}

def Connective (s : Text) : Prop := checkOperator (some s) = .band ∨ checkOperator (some s) = .bor

/-- An argument that makes the parser read on. -/
def Opens (s : Text) : Prop :=
  s = ascii "!" ∨ s = ascii "(" ∨ ∃ meaning, checkOperator (some s) = .unary meaning

/-- Two arguments; `none` where the results are unspecified. -/
def posixTwo (w : World) (arg1 arg2 : Text) : Option (Except Complaint Bool) :=
  if arg1 = ascii "!" then some (.ok (arg2 = []))
  else
    match checkOperator (some arg1) with
    | .unary meaning => some (unaryExpression w meaning arg2)
    | _ => none

/-- Three arguments. `-a` and `-o` are binary primaries as well. -/
def posixThree (w : World) (arg1 arg2 arg3 : Text) : Option (Except Complaint Bool) :=
  match checkOperator (some arg2) with
  | .binary meaning => some (compareOperands w meaning arg1 arg3)
  | .band => some (.ok (arg1 ≠ [] && arg3 ≠ []))
  | .bor => some (.ok (arg1 ≠ [] || arg3 ≠ []))
  | _ =>
    if arg1 = ascii "!" then (posixTwo w arg2 arg3).map (·.map not)
    else if arg1 = ascii "(" ∧ arg3 = ascii ")" then some (.ok (arg2 ≠ []))
    else none

/-- What POSIX prescribes for zero to four arguments. -/
def posix (w : World) : List Text → Option (Except Complaint Bool)
  | [] => some (.ok false)
  | [arg] => some (.ok (arg ≠ []))
  | [arg1, arg2] => posixTwo w arg1 arg2
  | [arg1, arg2, arg3] => posixThree w arg1 arg2 arg3
  | [arg1, arg2, arg3, arg4] =>
    if arg1 = ascii "!" then (posixThree w arg2 arg3 arg4).map (·.map not)
    else if arg1 = ascii "(" ∧ arg4 = ascii ")" then posixTwo w arg2 arg3
    else none
  | _ => none

def statusOf : Except Complaint Bool → Nat
  | .ok truth => status truth
  | .error _ => 2

/-- The exit status is the one for a truth value or an error. -/
def Agrees (outcome : Outcome) (truth : Except Complaint Bool) : Prop :=
  ∃ message, outcome = .exit (statusOf truth) message

/-- Three arguments that are not treated as POSIX says. -/
def MisreadThree (arg1 arg2 arg3 : Text) : Prop :=
  Connective arg2 ∧
      (arg1 = ascii "!" ∨ (∃ meaning, checkOperator (some arg1) = .unary meaning) ∨
        arg1 = ascii "(" ∧ arg3 ≠ ascii ")" ∨ arg1 ≠ ascii "(" ∧ arg3 = ascii "(") ∨
    arg1 = ascii "(" ∧ arg3 = ascii ")" ∧ Opens arg2

/-- The lists of up to four arguments that are not treated as POSIX says: those that the
special cases leave to the parser without adjusting where it begins, and those where
"!" is applied to the first operand of `-a` or `-o` alone. -/
def Misread : List Text → Prop
  | [arg1, arg2, arg3] => MisreadThree arg1 arg2 arg3
  | [arg1, arg2, arg3, arg4] =>
    arg1 = ascii "(" ∧ arg4 = ascii ")" ∧
        (∃ meaning, checkOperator (some arg2) = .unary meaning ∧
          (meaning = .filtt → ∃ n, getn arg3 = .ok n)) ∨
      arg1 = ascii "!" ∧
        (MisreadThree arg2 arg3 arg4 ∨
          Connective arg3 ∧ arg2 ≠ ascii "(" ∧ (arg3 = ascii "-a" ↔ arg4 = []))
  | _ => False

/-- An error, or `left` is left over. -/
def StopsBefore (left : List Text) (parsed : Parsed) : Prop :=
  Leaves parsed ∨ ∃ truth opnd, parsed = .ok (truth, opnd :: left)

/-- At most one argument is left: an operator there has no operand. -/
theorem chain_stopsBefore {left : List Text} {parsed : Parsed} (stops : StopsBefore left parsed)
    (single : left.length ≤ 1) (again : List Text → Parsed) (fails : Leaves (again []))
    (joined : Bool → Bool → Bool) {token : Token} (isToken : token ≠ .eoi) :
    StopsBefore left (parsed >>= fun (res, args) => do
      let ahead ← advance args
      if checkOperator ahead.head? = token then
        let args ← advance ahead
        let (res', args) ← again args
        return (joined res' res, args)
      else return (res, args)) := by
  rcases stops with ⟨complaint, same⟩ | ⟨truth, opnd, same⟩
  · rw [same]
    exact .inl ⟨complaint, rfl⟩
  · rw [same, ok_bind]
    change StopsBefore left (if checkOperator left.head? = token then _ else _)
    by_cases more : checkOperator left.head? = token
    · rw [if_pos more]
      match left, single with
      | [], _ => exact absurd more.symm isToken
      | [op], _ =>
        obtain ⟨complaint, leaves⟩ := fails
        rw [advance_cons, ok_bind, leaves]
        exact .inl ⟨complaint, rfl⟩
    · rw [if_neg more]
      exact .inr ⟨truth, opnd, rfl⟩

theorem oexpr_stopsBefore {fuel : Nat} {n : Token} {args left : List Text}
    (stops : StopsBefore left (nexpr w (fuel + 1) n args)) (single : left.length ≤ 1) :
    StopsBefore left (oexpr w (fuel + 1) n args) := by
  have inner : StopsBefore left (aexpr w (fuel + 1) n args) := by
    rw [aexpr]
    exact chain_stopsBefore stops single
      (fun args => aexpr w fuel (checkOperator args.head?) args) (aexpr_nil w fuel) (· && ·) (by decide)
  rw [oexpr]
  exact chain_stopsBefore inner single
    (fun args => oexpr w fuel (checkOperator args.head?) args) (oexpr_nil w fuel) (· || ·) (by decide)

/-- An argument left over is an error. -/
theorem generalCase_fails {arg : Text} {args : List Text} {left : Text}
    (stops : StopsBefore [left] (nexpr w (args.length + 1) (checkOperator (some arg)) (arg :: args))) :
    ∃ message, generalCase w (arg :: args) = .exit 2 message := by
  rcases oexpr_stopsBefore stops (Nat.le_refl 1) with ⟨complaint, same⟩ | ⟨truth, opnd, same⟩
  · exact ⟨_, by rw [generalCase, List.head?_cons, List.length_cons, same]; rfl⟩
  · exact ⟨_, by rw [generalCase, List.head?_cons, List.length_cons, same]⟩

/-- An opening parenthesis whose closing one does not come next. -/
theorem nexpr_paren_leaves {fuel : Nat} {args left : List Text}
    (stops : StopsBefore left (oexpr w fuel (checkOperator args.head?) args))
    (unclosed : checkOperator left.head? ≠ .rparen) :
    Leaves (nexpr w (fuel + 1) (checkOperator (some (ascii "("))) (ascii "(" :: args)) := by
  rw [nexpr, checkOperator_facts.2.2.2.1, if_neg (by decide), primary, if_neg (by decide), if_pos rfl,
    advance_cons, ok_bind]
  rcases stops with ⟨complaint, same⟩ | ⟨truth, opnd, same⟩
  · exact ⟨complaint, by simp only [same]; rfl⟩
  · refine ⟨⟨none, "closing paren expected"⟩, ?_⟩
    simp only [same, ok_bind, advance_cons, ne_eq, unclosed, not_false_eq_true, if_true]
    rfl

theorem nexpr_bang {fuel : Nat} {arg : Text} {args : List Text} :
    nexpr w (fuel + 1) (checkOperator (some (ascii "!"))) (ascii "!" :: arg :: args) = do
      let (res, args) ← nexpr w fuel (checkOperator (some arg)) (arg :: args)
      return (!res, args) := by
  rw [nexpr, checkOperator_facts.1, if_pos rfl, advance_cons, ok_bind]
  simp only [List.head?_cons, checkOperator_ne_eoi, if_false]

/-- "!" before what stops. -/
theorem nexpr_bang_stopsBefore {fuel : Nat} {arg : Text} {args left : List Text}
    (stops : StopsBefore left (nexpr w fuel (checkOperator (some arg)) (arg :: args))) :
    StopsBefore left
      (nexpr w (fuel + 1) (checkOperator (some (ascii "!"))) (ascii "!" :: arg :: args)) := by
  rw [nexpr_bang]
  rcases stops with ⟨complaint, same⟩ | ⟨truth, opnd, same⟩
  · exact .inl ⟨complaint, by rw [same]; rfl⟩
  · exact .inr ⟨!truth, opnd, by rw [same]; rfl⟩

theorem nexpr_operand {fuel : Nat} {arg : Text} (notBang : arg ≠ ascii "!")
    (notParen : arg ≠ ascii "(") (args : List Text) :
    nexpr w fuel (checkOperator (some arg)) (arg :: args) =
      operandPrimary w (checkOperator (some arg)) (arg :: args) := by
  rw [nexpr, if_neg (mt checkOperator_unot.1 notBang), primary, if_neg (checkOperator_ne_eoi arg),
    if_neg (mt checkOperator_lparen.1 notParen)]

theorem ne_of_token {s : Text} {token : Token} (found : checkOperator (some s) = token)
    (notBang : token ≠ .unot) (notParen : token ≠ .lparen) : s ≠ ascii "!" ∧ s ≠ ascii "(" := by
  constructor
  · rintro rfl
    exact notBang (found.symm.trans checkOperator_facts.1)
  · rintro rfl
    exact notParen (found.symm.trans checkOperator_facts.2.2.2.1)

theorem leave_stopsBefore {truth : Except Complaint Bool} {opnd : Text} {left : List Text} :
    StopsBefore left (do
      let res ← leave truth
      return (res, opnd :: left)) := by
  cases truth with
  | error complaint => exact .inl ⟨complaint, rfl⟩
  | ok value => exact .inr ⟨value, opnd, rfl⟩

/-- A unary operator whose operand is not taken for a binary operator. -/
theorem nexpr_unary {fuel : Nat} {op : Text} {meaning : UnaryOp}
    (isOp : checkOperator (some op) = .unary meaning) (opnd : Text) {left : List Text}
    (notBinop : (checkOperator (some opnd)).isBinop → left = []) :
    nexpr w fuel (checkOperator (some op)) (op :: opnd :: left) = do
      let res ← leave (unaryExpression w meaning opnd)
      return (res, opnd :: left) := by
  obtain ⟨notBang, notParen⟩ := ne_of_token isOp (by simp) (by simp)
  rw [nexpr_operand notBang notParen, operandPrimary_cons, isOp,
    if_neg fun both => both.1 (notBinop both.2)]

/-- An operator that stands for itself, one argument before the end. -/
theorem nexpr_itself {fuel : Nat} {arg : Text} (notBang : arg ≠ ascii "!")
    (notParen : arg ≠ ascii "(") (notUnary : ∀ meaning, checkOperator (some arg) ≠ .unary meaning)
    (left : Text) :
    StopsBefore [left] (nexpr w fuel (checkOperator (some arg)) [arg, left]) := by
  rw [nexpr_operand notBang notParen, operandPrimary_cons, if_neg (by simp)]
  cases token : checkOperator (some arg) with
  | unary meaning => exact absurd token (notUnary meaning)
  | _ =>
    dsimp only
    split_ifs
    · exact .inl ⟨_, rfl⟩
    · exact .inr ⟨_, arg, rfl⟩

theorem Connective.facts {s : Text} (connective : Connective s) :
    s ≠ ascii "!" ∧ s ≠ ascii "(" ∧ (∀ meaning, checkOperator (some s) ≠ .unary meaning) ∧
      (checkOperator (some s)).isBinop = false := by
  rcases connective with token | token
  all_goals
    obtain ⟨notBang, notParen⟩ := ne_of_token token (by decide) (by decide)
    exact ⟨notBang, notParen, by simp [token], by rw [token]; rfl⟩

/-- A connective in the place of an operand. -/
theorem nexpr_connective {fuel : Nat} {op : Text} (connective : Connective op) (left : Text) :
    StopsBefore [left] (nexpr w fuel (checkOperator (some op)) [op, left]) :=
  nexpr_itself connective.facts.1 connective.facts.2.1 connective.facts.2.2.1 left

/-- A connective in the place of a unary operator's operand. -/
theorem nexpr_unary_connective {fuel : Nat} {op opnd : Text} {meaning : UnaryOp}
    (isOp : checkOperator (some op) = .unary meaning) (connective : Connective opnd) (left : Text) :
    StopsBefore [left] (nexpr w fuel (checkOperator (some op)) [op, opnd, left]) := by
  rw [nexpr_unary isOp opnd fun isBinop => by rw [connective.facts.2.2.2] at isBinop; cases isBinop]
  exact leave_stopsBefore

theorem nexpr_last {fuel : Nat} {arg : Text} (notBang : arg ≠ ascii "!") (notParen : arg ≠ ascii "(") :
    StopsBefore [] (nexpr w fuel (checkOperator (some arg)) [arg]) := by
  rw [nexpr_operand notBang notParen, operandPrimary_last]
  exact .inr ⟨_, arg, rfl⟩

/-- The arguments end before the closing parenthesis. -/
theorem nexpr_paren_end {fuel : Nat} {arg : Text} {args : List Text}
    (stops : StopsBefore [] (nexpr w (fuel + 1) (checkOperator (some arg)) (arg :: args))) :
    Leaves (nexpr w (fuel + 2) (checkOperator (some (ascii "("))) (ascii "(" :: arg :: args)) :=
  nexpr_paren_leaves (oexpr_stopsBefore stops (Nat.zero_le 1))
    (show checkOperator ([] : List Text).head? ≠ .rparen by decide)

theorem nexpr_paren_unary {fuel : Nat} {op : Text} {meaning : UnaryOp}
    (isOp : checkOperator (some op) = .unary meaning) (opnd : Text) :
    Leaves (nexpr w (fuel + 2) (checkOperator (some (ascii "("))) [ascii "(", op, opnd]) := by
  apply nexpr_paren_end
  rw [nexpr_unary isOp opnd fun _ => rfl]
  exact leave_stopsBefore

/-- The closing parenthesis is taken for an operand. -/
theorem nexpr_paren_opens {fuel : Nat} {arg : Text} (opens : Opens arg) :
    Leaves (nexpr w (fuel + 3) (checkOperator (some (ascii "("))) [ascii "(", arg, ascii ")"]) := by
  have last (fuel : Nat) :
      StopsBefore [] (nexpr w fuel (checkOperator (some (ascii ")"))) [ascii ")"]) :=
    nexpr_last (by decide) (by decide)
  rcases opens with rfl | rfl | ⟨meaning, isOp⟩
  · exact nexpr_paren_end (nexpr_bang_stopsBefore (last _))
  · exact nexpr_paren_end (.inl (nexpr_paren_end (last _)))
  · exact nexpr_paren_unary isOp (ascii ")")

theorem nexpr_paren_connective {fuel : Nat} {op arg : Text} (connective : Connective op)
    (unclosed : arg ≠ ascii ")") :
    Leaves (nexpr w (fuel + 2) (checkOperator (some (ascii "("))) [ascii "(", op, arg]) := by
  refine @nexpr_paren_leaves _ _ _ [arg] (oexpr_stopsBefore (nexpr_connective connective arg)
    (Nat.le_refl 1)) fun token => ?_
  exact unclosed ((opsTable_facts _ (checkOperator_mem token (by decide))).2.2.2.1 rfl)

/-- A connective with an opening parenthesis for its second operand. -/
theorem oexpr_connective_paren {fuel : Nat} {n : Token} {args : List Text} {truth : Bool}
    {opnd op : Text} (connective : Connective op)
    (parsed : nexpr w (fuel + 2) n args = .ok (truth, [opnd, op, ascii "("])) :
    Leaves (oexpr w (fuel + 2) n args) := by
  have inner : Leaves (nexpr w (fuel + 1) (checkOperator (some (ascii "("))) [ascii "("]) :=
    nexpr_paren_leaves (.inl (oexpr_nil w fuel))
      (show checkOperator ([] : List Text).head? ≠ .rparen by decide)
  obtain ⟨complaint, leaves⟩ := inner
  have again : aexpr w (fuel + 1) (checkOperator (some (ascii "("))) [ascii "("] =
      .error (.leaving complaint) := by
    rw [aexpr, leaves]
    rfl
  have again' : oexpr w (fuel + 1) (checkOperator (some (ascii "("))) [ascii "("] =
      .error (.leaving complaint) := by
    rw [oexpr, again]
    rfl
  refine ⟨complaint, ?_⟩
  rcases connective with token | token
  · have fails : aexpr w (fuel + 2) n args = .error (.leaving complaint) := by
      rw [aexpr, parsed]
      simp only [ok_bind, advance_cons, List.head?_cons, token, if_true, again, error_bind]
    rw [oexpr, fails]
    rfl
  · have goes : aexpr w (fuel + 2) n args = .ok (truth, [opnd, op, ascii "("]) := by
      rw [aexpr, parsed]
      simp only [ok_bind, advance_cons, List.head?_cons, token]
      rfl
    rw [oexpr, goes]
    simp only [ok_bind, advance_cons, List.head?_cons, token, if_true, again', error_bind]

theorem nexpr_before_connective {fuel : Nat} {arg op : Text} (plain : ¬ Opens arg)
    (connective : Connective op) (left : List Text) :
    nexpr w fuel (checkOperator (some arg)) (arg :: op :: left) =
      .ok (arg ≠ [], arg :: op :: left) := by
  rw [nexpr_operand (fun same => plain (.inl same)) fun same => plain (.inr (.inl same)),
    operandPrimary_cons, if_neg (by simp [connective.facts.2.2.2])]
  cases token : checkOperator (some arg) with
  | unary meaning => exact absurd (.inr (.inr ⟨meaning, token⟩)) plain
  | _ => simp only [connective.facts.2.2.2, Bool.false_eq_true, if_false]; rfl

end Busybox.Test
