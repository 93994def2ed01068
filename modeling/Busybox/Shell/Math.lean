import Mathlib.Data.List.Basic
import Mathlib.Logic.Relation
import Mathlib.Tactic.Common

/-!
# Shell arithmetic

`evaluate_string` reads an expression with one loop over two stacks: `numstack`
for operands, which are numbers or names not looked up yet, and a stack of
operators, which are applied as soon as one that binds less tightly is read.
A variable's value is an expression too, so the evaluator calls itself; `Evaluator`
is what it is given for that, and `evaluateString` ties the knot over the depth of
such calls.
-/

namespace Busybox.Shell

/-- The characters of a C string, without the final NUL. -/
abbrev Str := List UInt8

/-- Membership in lists of strings is decided with it. -/
scoped instance lawfulStr : LawfulBEq Str := inferInstance

/-- A string given by its characters. -/
def bytes (chars : List Char) : Str := chars.map fun c => UInt8.ofNat c.toNat

/-! ## Tokens -/

/-- The `TOK_` constants. -/
inductive Operator
  | lparen
  | comma
  | assign | andAssign | orAssign | xorAssign | plusAssign | minusAssign
  | lshiftAssign | rshiftAssign | mulAssign | divAssign | remAssign
  | conditional | conditionalSep
  | or | and | bor | bxor | band
  | eq | ne
  | lt | gt | ge | le
  | lshift | rshift
  | add | sub
  | mul | div | rem
  | exponent
  | bnot | not
  | uminus | uplus
  | preInc | preDec
  | postInc | postDec
  | num | rparen
deriving DecidableEq, Repr

/-- `UNARYPREC`. -/
def unaryPrec : Nat := 16

/-- `SPEC_PREC`. -/
def specPrec : Nat := 20

/-- `PREC`. -/
def Operator.prec : Operator → Nat
  | .lparen => 0
  | .comma => 1
  | .assign | .andAssign | .orAssign | .xorAssign | .plusAssign | .minusAssign
  | .lshiftAssign | .rshiftAssign => 2
  | .mulAssign | .divAssign | .remAssign => 3
  | .conditional | .conditionalSep => 4
  | .or => 5
  | .and => 6
  | .bor => 7
  | .bxor => 8
  | .band => 9
  | .eq | .ne => 10
  | .lt | .gt | .ge | .le => 11
  | .lshift | .rshift => 12
  | .add | .sub => 13
  | .mul | .div | .rem => 14
  | .exponent => 15
  | .bnot | .not => unaryPrec
  | .uminus | .uplus => unaryPrec + 1
  | .preInc | .preDec => unaryPrec + 2
  | .postInc | .postDec => unaryPrec + 3
  | .num | .rparen => specPrec

/-- `fix_assignment_prec`: all assignments have one precedence. -/
def fixAssignmentPrec (prec : Nat) : Nat := if prec = 3 then 2 else prec

/-- `is_assign_op`. -/
def isAssignOp (op : Operator) : Bool :=
  let prec := fixAssignmentPrec op.prec
  prec == 2 || prec == unaryPrec + 2 || prec == unaryPrec + 3

/-- `is_right_associative`. -/
def isRightAssociative (prec : Nat) : Bool := prec == 2 || prec == 15 || prec == 4

/-- The error messages. -/
inductive MathError
  | syntaxError
  | malformedConditional
  | negativeExponent
  | divideByZero
  | recursionLoop
deriving DecidableEq, Repr

def MathError.message : MathError → String
  | .syntaxError => "arithmetic syntax error"
  | .malformedConditional => "malformed ?: operator"
  | .negativeExponent => "exponent less than 0"
  | .divideByZero => "divide by zero"
  | .recursionLoop => "expression recursion loop detected"

/-! ## Operands -/

/-- `var_or_num_t`: a named variable if `var` is there, else just a number. The
second value is there when "expr1 : expr2" has been evaluated. -/
structure VarOrNum where
  val : Int64
  secondVal : Int64
  secondValPresent : Bool
  var : Option Str
deriving DecidableEq, Repr

/-- The entry the loop pushes for a number. -/
def VarOrNum.ofNum (val : Int64) : VarOrNum := ⟨val, 0, false, none⟩

/-- The entry the loop pushes for a name; `val` is set when the name is looked up. -/
def VarOrNum.ofName (name : Str) : VarOrNum := ⟨0, 0, false, some name⟩

/-- The shell variables: what `lookupvar` returns. -/
abbrev Vars := Str → Option Str

/-- `setvar`. -/
def Vars.set (vars : Vars) (name value : Str) : Vars :=
  fun other => if other = name then some value else vars other

/-- The decimal digits of a number, at most `count` of them. -/
def decimalDigits : Nat → Nat → Str
  | 0, _ => []
  | count + 1, n =>
    if n < 10 then [UInt8.ofNat (48 + n)]
    else decimalDigits count (n / 10) ++ [UInt8.ofNat (48 + n % 10)]

/-- `sprintf` with `ARITH_FMT`. -/
def decimal (val : Int64) : Str :=
  if val.toInt < 0 then 45 :: decimalDigits 20 (-val.toInt).toNat
  else decimalDigits 20 val.toInt.toNat

/-- What `evaluate_string` leaves behind: its result, `errmsg` and the variables. -/
structure Evaluation where
  val : Int64
  error : Option MathError
  vars : Vars

/-- An evaluator of variable values, given `list_of_recursed_names`, the variables
and the text. -/
abbrev Evaluator := List Str → Vars → Str → Evaluation

/-- Why an operation stops: with an error message, or by an access below the bottom
of `numstack`. -/
inductive Stop
  | error (error : MathError) (vars : Vars)
  | belowStack

/-- `arith_lookup_val`. -/
def arithLookupVal (eval : Evaluator) (recursed : List Str) (vars : Vars) (t : VarOrNum) :
    Except Stop (VarOrNum × Vars) :=
  match t.var with
  | none => .ok (t, vars)
  | some name =>
    match vars name with
    | none => .ok ({ t with val := 0 }, vars)
    | some text =>
      if name ∈ recursed then
        .error (.error .recursionLoop vars)
      else
        let result := eval (name :: recursed) vars text
        match result.error with
        | some error => .error (.error error result.vars)
        | none => .ok ({ t with val := result.val }, result.vars)

/-! ## Applying operators -/

/-- The effect of a unary operator, `none` for a binary one. -/
def unaryResult (op : Operator) (rez : Int64) : Option Int64 :=
  match op with
  | .uminus => some (-rez)
  | .not => some (if rez = 0 then 1 else 0)
  | .bnot => some (~~~rez)
  | .postInc | .preInc => some (rez + 1)
  | .postDec | .preDec => some (rez - 1)
  | .uplus => some rez
  | _ => none

/-- The loop of the exponent operator, `count` turns to go. -/
def exponentLoop (rez : Int64) : Nat → Int64 → Int64
  | 0, c => c
  | count + 1, c => exponentLoop rez count (c * rez)

/-- A truth value as a number. -/
def ofBool (b : Bool) : Int64 := if b then 1 else 0

/-- The effect of a binary operator other than `?` and `:`. -/
def binaryResult (op : Operator) (rez rightSideVal : Int64) : Except MathError Int64 :=
  match op with
  | .bor | .orAssign => .ok (rez ||| rightSideVal)
  | .or => .ok (ofBool (rightSideVal != 0 || rez != 0))
  | .band | .andAssign => .ok (rez &&& rightSideVal)
  | .bxor | .xorAssign => .ok (rez ^^^ rightSideVal)
  | .and => .ok (ofBool (rez != 0 && rightSideVal != 0))
  | .eq => .ok (ofBool (rez == rightSideVal))
  | .ne => .ok (ofBool (rez != rightSideVal))
  | .ge => .ok (ofBool (rez ≥ rightSideVal))
  | .rshift | .rshiftAssign => .ok (rez >>> rightSideVal)
  | .lshift | .lshiftAssign => .ok (rez <<< rightSideVal)
  | .gt => .ok (ofBool (rez > rightSideVal))
  | .lt => .ok (ofBool (rez < rightSideVal))
  | .le => .ok (ofBool (rez ≤ rightSideVal))
  | .mul | .mulAssign => .ok (rez * rightSideVal)
  | .add | .plusAssign => .ok (rez + rightSideVal)
  | .sub | .minusAssign => .ok (rez - rightSideVal)
  | .assign | .comma => .ok rightSideVal
  | .exponent =>
    if rightSideVal < 0 then .error .negativeExponent
    else .ok (exponentLoop rez rightSideVal.toInt.toNat 1)
  | op =>
    if rightSideVal = 0 then
      .error .divideByZero
    else
      -- MAX_NEGATIVE_INT / -1 is not representable
      let rightSideVal := if rightSideVal = -1 ∧ rez <<< 1 = 0 then 1 else rightSideVal
      match op with
      | .div | .divAssign => .ok (rez / rightSideVal)
      | .rem | .remAssign => .ok (rez % rightSideVal)
      | _ => .ok rez

/-- The value left after saving `rez`: the previous value for v++ or v--. -/
def keptValue (op : Operator) (rez : Int64) : Int64 :=
  match op with
  | .postInc => rez - 1
  | .postDec => rez + 1
  | _ => rez

/-- The end of `arith_apply`: an assigning operator saves `rez` to the variable of
`entry`, and `entry` becomes just a number. -/
def applied (op : Operator) (rez : Int64) (entry : VarOrNum) (below : List VarOrNum)
    (vars : Vars) : Except Stop (List VarOrNum × Vars) :=
  if isAssignOp op then
    match entry.var with
    | none => .error (.error .syntaxError vars)
    | some name =>
      .ok ({ entry with val := keptValue op rez, var := none } :: below,
        vars.set name (decimal rez))
  else
    .ok ({ entry with val := rez, var := none } :: below, vars)

/-- `bad_second_val`: only the right side of `?` has, and must have, a second value. -/
def badSecondVal (op : Operator) (top : VarOrNum) : Bool :=
  if op = .conditional then !top.secondValPresent else top.secondValPresent

/-- The left side value, resolved unless the operator is `=`. -/
def resolveLeft (eval : Evaluator) (recursed : List Str) (op : Operator) (vars : Vars)
    (left : VarOrNum) : Except Stop (VarOrNum × Vars) :=
  if op = .assign then .ok (left, vars) else arithLookupVal eval recursed vars left

/-- A binary operator on its resolved operands. -/
def applyResolved (op : Operator) (top left : VarOrNum) (below : List VarOrNum) (vars : Vars) :
    Except Stop (List VarOrNum × Vars) :=
  if op = .conditional then
    applied op (if left.val ≠ 0 then top.val else top.secondVal) left below vars
  else if op = .conditionalSep then
    if below.length = 0 then
      .error (.error .malformedConditional vars)
    else
      applied op left.val { left with secondValPresent := true, secondVal := top.val } below vars
  else
    match binaryResult op left.val top.val with
    | .error error => .error (.error error vars)
    | .ok rez => applied op rez left below vars

/-- The binary half of `arith_apply`, with the top of the stack resolved and popped. -/
def applyBinary (eval : Evaluator) (recursed : List Str) (op : Operator) (top left : VarOrNum)
    (below : List VarOrNum) (vars : Vars) : Except Stop (List VarOrNum × Vars) :=
  if badSecondVal op top then
    .error (.error .malformedConditional vars)
  else do
    let (left, vars) ← resolveLeft eval recursed op vars left
    applyResolved op top left below vars

/-- The rest of `arith_apply` when the top of the stack is resolved. -/
def applyTop (eval : Evaluator) (recursed : List Str) (op : Operator) (nums : List VarOrNum)
    (top : VarOrNum) (vars : Vars) : Except Stop (List VarOrNum × Vars) :=
  match unaryResult op top.val with
  | some rez => applied op rez top (nums.drop 1) vars
  | none =>
    -- binary operators need two arguments
    if nums.length = 1 then
      .error (.error .syntaxError vars)
    else
      match nums[1]? with
      | none => .error .belowStack
      | some left => applyBinary eval recursed op top left (nums.drop 2) vars

/-- `arith_apply`: apply an operator to the top elements of `numstack`. -/
def arithApply (eval : Evaluator) (recursed : List Str) (op : Operator) (nums : List VarOrNum)
    (vars : Vars) : Except Stop (List VarOrNum × Vars) :=
  -- there is no operator that can work without arguments
  if nums.length = 0 then
    .error (.error .syntaxError vars)
  else
    match nums[0]? with
    | none => .error .belowStack
    | some top => do
      let (top, vars) ← arithLookupVal eval recursed vars top
      applyTop eval recursed op nums top vars

end Busybox.Shell
