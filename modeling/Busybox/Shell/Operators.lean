import Busybox.Shell.Values

/-!
# Operators on the stack

`arith_apply` does to the top of `numstack` what the operator means: where the
entries stand for operands, the entry left stands for the result, and the same
error is reported otherwise.
-/

namespace Busybox.Shell

open Fallible

/-! ## Arithmetic -/

theorem exponentLoop_eq (rez : Int64) (count : Nat) (c : Int64) :
    exponentLoop rez count c = c * rez ^ count := by
  induction count generalizing c with
  | zero => rw [exponentLoop, Int64.pow_zero, Int64.mul_one]
  | succ count ih =>
    rw [exponentLoop, ih, Int64.pow_succ, Int64.mul_assoc, Int64.mul_comm rez]

/-- Only 0 and the least number have nothing but the sign bit, and negating them
changes nothing. -/
theorem neg_eq_of_shiftLeft_one {x : Int64} (sign : x <<< 1 = 0) : -x = x := by
  have bits : (x.toBitVec <<< 1 : BitVec 64) = 0 := congrArg Int64.toBitVec sign
  have value := congrArg BitVec.toNat bits
  rw [BitVec.toNat_shiftLeft, Nat.shiftLeft_eq] at value
  have bound := x.toBitVec.isLt
  apply Int64.toBitVec_inj.mp
  apply BitVec.eq_of_toNat_eq
  rw [Int64.toBitVec_neg, BitVec.toNat_neg]
  rw [show BitVec.toNat (0 : BitVec 64) = 0 from rfl] at value
  omega

/-- Dividing by 1 where -1 is asked for makes no difference where it is done. -/
theorem div_guard (x y : Int64) :
    x / (if y = -1 ∧ x <<< 1 = 0 then 1 else y) = x / y ∧
      x % (if y = -1 ∧ x <<< 1 = 0 then 1 else y) = x % y := by
  split
  · next both =>
    obtain ⟨rfl, sign⟩ := both
    have quotient : x / -1 = -x := by
      apply Int64.toInt_inj.mp
      rw [Int64.toInt_div, Int64.toInt_neg]
      simp
    have remainder : x % -1 = 0 := by
      apply Int64.toInt_inj.mp
      rw [Int64.toInt_mod]
      simp
    rw [Int64.div_one, Int64.mod_one, quotient, remainder, neg_eq_of_shiftLeft_one sign]
    exact ⟨rfl, rfl⟩
  · exact ⟨rfl, rfl⟩

/-- Binary operators do what they mean. -/
theorem binaryResult_eq {op : Operator} {level : Nat} (binary : op.level = some level)
    (left right : Int64) : binaryResult op left right = binaryValue op left right := by
  cases op with
  | or => simp only [binaryResult, binaryValue, Bool.or_comm]
  | exponent => simp only [binaryResult, binaryValue, exponentLoop_eq, Int64.one_mul]
  | div | divAssign =>
    simp only [binaryResult, binaryValue, (div_guard left right).1]
  | rem | remAssign =>
    simp only [binaryResult, binaryValue, (div_guard left right).2]
  | lparen | rparen | num | conditional | conditionalSep | bnot | not | uminus | uplus | preInc
  | preDec | postInc | postDec => cases binary
  | _ => rfl

/-! ## Applying operators to operands -/

/-- The stack holds what the meaning says, or the operation stopped with its error. -/
def Agrees (result : Except Stop (List VarOrNum × Vars))
    (meaning : Except MathError (Operand × Env)) (below : List VarOrNum) : Prop :=
  match meaning with
  | .error error => ∃ vars, result = .error (.error error vars)
  | .ok (x, env) =>
    ∃ entry vars, result = .ok (entry :: below, vars) ∧ Stands entry x ∧ Numeric vars env

section Operators

variable {depth : Nat} {op : Operator} {vars : Vars} {env : Env} {entry : VarOrNum} {x : Operand}
  {below : List VarOrNum}

/-- An operator that assigns nothing leaves a number. -/
theorem applied_number (rez : Int64) (noAssign : isAssignOp op = false)
    (single : entry.secondValPresent = false) (numeric : Numeric vars env) :
    Agrees (applied op rez entry below vars) (.ok (.number rez, env)) below := by
  refine ⟨{ entry with val := rez, var := none }, vars, ?_, ⟨single, rfl, rfl⟩, numeric⟩
  rw [applied, if_neg (by simp [noAssign])]

/-- An operator that assigns saves the value to a variable, and fails on a number. -/
theorem applied_assign (rez kept : Int64) (assigns : isAssignOp op = true)
    (keeps : keptValue op rez = kept) (stands : Stands entry x)
    (numeric : Numeric vars env) (old : Int64) :
    Agrees (applied op rez { entry with val := old } below vars) (x.assign env rez kept) below := by
  rw [applied, if_pos assigns]
  cases x with
  | number val =>
    obtain ⟨noName, -⟩ := stands.same
    exact ⟨vars, by simp only [noName]⟩
  | lvalue name =>
    have named : entry.var = some name := stands.same
    refine ⟨{ entry with val := kept, var := none }, vars.set name (decimal rez), ?_,
      ⟨stands.single, rfl, rfl⟩, numeric.set name rez⟩
    simp only [named, keeps]

theorem arithApply_post (isPost : isPostOperator op = true) (stands : Stands entry x)
    (numeric : Numeric vars env) :
    Agrees (arithApply (evaluateString (depth + 1)) [] op (entry :: below) vars) (x.post op env)
      below := by
  rw [arithApply_cons, arithLookupVal_stands numeric stands, ok_bind]
  cases op with
  | postInc =>
    have kept : keptValue .postInc (x.read env + 1) = x.read env := Int64.add_sub_cancel _ _
    exact applied_assign _ _ rfl kept stands numeric _
  | postDec =>
    have kept : keptValue .postDec (x.read env - 1) = x.read env := Int64.sub_add_cancel _ _
    exact applied_assign _ _ rfl kept stands numeric _
  | _ => cases isPost

theorem arithApply_pre (isPre : isPreOperator op = true) (stands : Stands entry x)
    (numeric : Numeric vars env) :
    Agrees (arithApply (evaluateString (depth + 1)) [] op (entry :: below) vars) (x.pre op env)
      below := by
  rw [arithApply_cons, arithLookupVal_stands numeric stands, ok_bind]
  cases op with
  | preInc => exact applied_assign (x.read env + 1) _ rfl rfl stands numeric _
  | preDec => exact applied_assign (x.read env - 1) _ rfl rfl stands numeric _
  | uplus => exact applied_number _ rfl stands.single numeric
  | uminus => exact applied_number _ rfl stands.single numeric
  | bnot => exact applied_number _ rfl stands.single numeric
  | not =>
    have value : (if x.read env = 0 then 1 else 0) = unaryValue .not (x.read env) := by
      simp [unaryValue, ofBool]
    simp only [Operand.pre, ← value]
    exact applied_number _ rfl stands.single numeric
  | _ => cases isPre

/-- What the level of a binary operator says about it. -/
theorem level_facts {level : Nat} (binary : op.level = some level) :
    (∀ rez, unaryResult op rez = none) ∧ op ≠ .conditional ∧ op ≠ .conditionalSep ∧
      isAssignOp op = (level == 2) := by
  cases op <;> cases binary <;> exact ⟨fun _ => rfl, by simp, by simp, rfl⟩

theorem arithApply_level {level : Nat} {entry' : VarOrNum} {y : Operand}
    (binary : op.level = some level) (left : Stands entry x) (right : Stands entry' y)
    (numeric : Numeric vars env) :
    Agrees (arithApply (evaluateString (depth + 1)) [] op (entry' :: entry :: below) vars)
      (Operand.binary op x y env) below := by
  obtain ⟨noUnary, noCond, noSep, assigns⟩ := level_facts binary
  rw [arithApply_cons, arithLookupVal_stands numeric right, ok_bind]
  simp only [noUnary, applyBinary, badSecondVal, if_neg noCond, right.single]
  -- `=` leaves its left side as it is, the others look it up
  have resolved : ∃ val, resolveLeft (evaluateString (depth + 1)) [] op vars entry =
      .ok ({ entry with val := val }, vars) ∧ (op ≠ .assign → val = x.read env) := by
    unfold resolveLeft
    split
    · next isAssign => exact ⟨entry.val, rfl, fun other => absurd isAssign other⟩
    · exact ⟨_, arithLookupVal_stands numeric left, fun _ => rfl⟩
  obtain ⟨val, resolved, looked⟩ := resolved
  have value : binaryResult op val (y.read env) = binaryValue op (x.read env) (y.read env) := by
    by_cases isAssign : op = .assign
    · rw [isAssign]; rfl
    · rw [binaryResult_eq binary, looked isAssign]
  simp only [Bool.false_eq_true, ↓reduceIte, resolved, ok_bind, applyResolved, if_neg noCond,
    if_neg noSep, value, Operand.binary]
  cases binaryValue op (x.read env) (y.read env) with
  | error error => exact ⟨vars, rfl⟩
  | ok rez =>
    rw [ok_bind, binary]
    by_cases isAssign : level = 2
    · subst isAssign
      have kept : keptValue op rez = rez := by
        cases op <;> first | rfl | cases binary
      rw [if_pos rfl]
      exact applied_assign rez rez (by rw [assigns]; rfl) kept left numeric val
    · rw [if_neg (by simpa using isAssign)]
      exact applied_number rez (by rw [assigns]; simpa using isAssign) left.single numeric

/-- `:` and then `?` choose by the condition. -/
theorem applyAll_conditional {entry' condition : VarOrNum} {c y : Operand}
    (first : Stands condition c) (middle : Stands entry x) (last : Stands entry' y)
    (numeric : Numeric vars env) :
    Agrees (applyAll (evaluateString (depth + 1)) [] [.conditionalSep, .conditional]
        (entry' :: entry :: condition :: below) vars)
      (.ok (.number (if c.read env ≠ 0 then x.read env else y.read env), env)) below := by
  have pair : arithApply (evaluateString (depth + 1)) [] .conditionalSep
      (entry' :: entry :: condition :: below) vars =
      .ok (⟨x.read env, y.read env, true, none⟩ :: condition :: below, vars) := by
    rw [arithApply_cons, arithLookupVal_stands numeric last, ok_bind]
    simp [unaryResult, applyBinary, badSecondVal, last.single, resolveLeft,
      arithLookupVal_stands numeric middle, applyResolved, applied, isAssignOp,
      fixAssignmentPrec, Operator.prec, unaryPrec]
  have chosen : arithApply (evaluateString (depth + 1)) [] .conditional
      (⟨x.read env, y.read env, true, none⟩ :: condition :: below) vars =
      .ok ({ condition with
        val := if c.read env ≠ 0 then x.read env else y.read env, var := none } :: below,
        vars) := by
    have paired : arithLookupVal (evaluateString (depth + 1)) [] vars
        ⟨x.read env, y.read env, true, none⟩ = .ok (⟨x.read env, y.read env, true, none⟩, vars) :=
      rfl
    rw [arithApply_cons, paired, ok_bind]
    simp [unaryResult, applyBinary, badSecondVal, resolveLeft,
      arithLookupVal_stands numeric first, applyResolved, applied, isAssignOp,
      fixAssignmentPrec, Operator.prec, unaryPrec]
  rw [applyAll, pair, ok_bind, applyAll, chosen, ok_bind, applyAll]
  exact ⟨_, vars, rfl, ⟨first.single, rfl, rfl⟩, numeric⟩

end Operators

end Busybox.Shell
