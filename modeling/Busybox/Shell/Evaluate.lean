import Mathlib
import Busybox.Shell.Math

/-!
# The evaluator

`step` is one turn of the loop of `evaluate_string`: it reads a token, and then
pushes an operand, or applies pending operators and pushes the one it read. The
text ends with a right parenthesis that matches the left one at the bottom of the
operator stack; `closing` says that it has been supplied.
-/

namespace Busybox.Shell

/-! ## Reading a token -/

/-- `isspace`. -/
def isspace (c : UInt8) : Bool := c == 32 || (9 ≤ c && c ≤ 13)

/-- `isdigit`. -/
def isdigit (c : UInt8) : Bool := 48 ≤ c && c ≤ 57

/-- `isalpha`. -/
def isalpha (c : UInt8) : Bool := (65 ≤ c && c ≤ 90) || (97 ≤ c && c ≤ 122)

/-- `is_name`. -/
def isName (c : UInt8) : Bool := c == 95 || isalpha c

/-- `is_in_name`. -/
def isInName (c : UInt8) : Bool := c == 95 || isalpha c || isdigit c

/-- `skip_whitespace`. -/
def skipWhitespace (s : Str) : Str := s.dropWhile isspace

/-- The text before and after `endofname`. -/
def splitName (s : Str) : Str × Str :=
  match s with
  | [] => ([], [])
  | c :: rest =>
    if isName c then (c :: rest.takeWhile isInName, rest.dropWhile isInName) else ([], s)

/-- The value of a digit in the bases up to 36. -/
def digitValue (c : UInt8) : Option Nat :=
  if 48 ≤ c ∧ c ≤ 57 then some (c.toNat - 48)
  else if 97 ≤ c ∧ c ≤ 122 then some (c.toNat - 97 + 10)
  else if 65 ≤ c ∧ c ≤ 90 then some (c.toNat - 65 + 10)
  else none

/-- The digits of a number: its value, and the text after it. -/
def readDigits (base acc : Nat) : Str → Nat × Str
  | [] => (acc, [])
  | c :: rest =>
    match digitValue c with
    | none => (acc, c :: rest)
    | some digit => if digit < base then readDigits base (acc * base + digit) rest
        else (acc, c :: rest)

/-- A hexadecimal digit comes next. -/
def startsHex (s : Str) : Bool :=
  match s with
  | [] => false
  | c :: _ => (digitValue c).any (· < 16)

/-- `strtoull` with base 0 on text that starts with a digit: the value before it is
cut to 64 bits, and the text after the number. -/
def strtoull (nptr : Str) : Nat × Str :=
  match nptr with
  | 48 :: x :: rest =>
    if (x = 120 ∨ x = 88) ∧ startsHex rest then readDigits 16 0 rest
    else readDigits 8 0 nptr
  | 48 :: rest => readDigits 8 0 (48 :: rest)
  | _ => readDigits 10 0 nptr

/-- A `char` as an `unsigned`. -/
def charToUnsigned (c : UInt8) (minus : Int) : Nat :=
  let char : Int := if c < 128 then c.toNat else c.toNat - 256
  ((char - minus) % 2 ^ 32).toNat

/-- The digit that the loop of `strto_arith_t` makes of a character, `none` where the
number ends. -/
def baseDigit (base : Nat) (c : UInt8) : Option Nat :=
  let digit := charToUnsigned c 48
  let digit? :=
    if 10 ≤ digit ∧ digit ≤ 122 - 48 then
      -- in bases up to 36, case does not matter for a-z
      let digit := charToUnsigned (c ||| 0x20) (97 - 10)
      if 36 < base ∧ c ≤ 95 then
        -- otherwise, A-Z,@,_ are 36-61,62,63
        if c = 95 then some 63
        else if c = 64 then some 62
        else if digit < 36 then some (digit + (36 - 10))
        else none
      else some digit
    else some digit
  digit?.filter (· < base)

/-- The loop of `strto_arith_t`. -/
def readBaseDigits (base : Nat) (n : Int64) : Str → Int64 × Str
  | [] => (n, [])
  | c :: rest =>
    match baseDigit base c with
    | none => (n, c :: rest)
    | some digit => readBaseDigits base (n * Int64.ofNat base + Int64.ofNat digit) rest

/-- `strto_arith_t` on text that starts with a digit, with the number replaced by 0
where `errno` is set. -/
def strtoArith (nptr : Str) : Int64 × Str :=
  let (value, endptr) := strtoull nptr
  let n := Int64.ofNat value
  if value < 2 ^ 64 ∧ endptr.head? = some 35 ∧ nptr.head? ≠ some 48 ∧ 2 ≤ n ∧ n ≤ 64 then
    -- "N#nnnn" or "NN#nnnn" syntax
    readBaseDigits value 0 (endptr.drop 1)
  else
    (if value < 2 ^ 64 then n else 0, endptr)

/-- `op_tokens`; longest must be first. -/
def opTokens : List (Str × Operator) :=
  [(bytes ['<', '<', '='], .lshiftAssign),
    (bytes ['>', '>', '='], .rshiftAssign),
    (bytes ['<', '<'], .lshift),
    (bytes ['>', '>'], .rshift),
    (bytes ['|', '|'], .or),
    (bytes ['&', '&'], .and),
    (bytes ['!', '='], .ne),
    (bytes ['<', '='], .le),
    (bytes ['>', '='], .ge),
    (bytes ['=', '='], .eq),
    (bytes ['|', '='], .orAssign),
    (bytes ['&', '='], .andAssign),
    (bytes ['*', '='], .mulAssign),
    (bytes ['/', '='], .divAssign),
    (bytes ['%', '='], .remAssign),
    (bytes ['+', '='], .plusAssign),
    (bytes ['-', '='], .minusAssign),
    (bytes ['-', '-'], .postDec),
    (bytes ['^', '='], .xorAssign),
    (bytes ['+', '+'], .postInc),
    (bytes ['*', '*'], .exponent),
    (bytes ['!'], .not),
    (bytes ['<'], .lt),
    (bytes ['>'], .gt),
    (bytes ['='], .assign),
    (bytes ['|'], .bor),
    (bytes ['&'], .band),
    (bytes ['*'], .mul),
    (bytes ['/'], .div),
    (bytes ['%'], .rem),
    (bytes ['+'], .add),
    (bytes ['-'], .sub),
    (bytes ['^'], .bxor),
    (bytes ['~'], .bnot),
    (bytes [','], .comma),
    (bytes ['?'], .conditional),
    (bytes [':'], .conditionalSep),
    (bytes [')'], .rparen),
    (bytes ['('], .lparen)]

/-- The first entry of `op_tokens` that the text starts with, and the text after it. -/
def matchOperator (s : Str) : Option (Operator × Str) :=
  (opTokens.find? fun entry => entry.1.isPrefixOf s).map
    fun entry => (entry.2, s.drop entry.1.length)

/-- A name, a number or an operator of `op_tokens`. -/
inductive Token
  | name (name : Str)
  | num (val : Int64)
  | op (op : Operator)
deriving DecidableEq, Repr

/-- Read the token at the start of a nonempty text without leading space, `none` if
there is none. `NUM--` and `NUM++` are not recognized when `literal` is set. -/
def readToken (literal : Bool) (s : Str) : Option (Token × Str) :=
  match splitName s with
  | (c :: name, rest) => some (.name (c :: name), rest)
  | ([], _) =>
    match s with
    | [] => none
    | c :: rest =>
      if isdigit c then
        let (val, rest) := strtoArith s
        some (.num val, rest)
      else if literal ∧ (c = 43 ∨ c = 45) ∧ rest.head? = some c then
        some (.op (if c = 43 then .add else .sub), rest)
      else
        (matchOperator s).map fun (op, rest) => (.op op, rest)

/-! ## The loop -/

/-- The variables of `evaluate_string` and the shell variables between two turns of
its loop. Both stacks are kept top first. -/
structure Scan where
  expr : Str
  closing : Bool
  lasttok : Operator
  nums : List VarOrNum
  stack : List Operator
  vars : Vars

/-- What a turn of the loop ends in. -/
inductive Outcome
  | next (scan : Scan)
  | done (result : Evaluation)
  | belowStack

/-- `err_with_custom_msg`. -/
def fail (error : MathError) (vars : Vars) : Evaluation := ⟨-1, some error, vars⟩

/-- An operation that stopped ends the evaluation. -/
def Stop.outcome : Stop → Outcome
  | .error message vars => .done (fail message vars)
  | .belowStack => .belowStack

/-- The test that ends the `while` loop over the operator stack: `prev` binds less
tightly than `op`, or as tightly and to the right. -/
def stopsAt (op prev : Operator) : Bool :=
  let prec := fixAssignmentPrec op.prec
  let prevPrec := fixAssignmentPrec prev.prec
  prevPrec < prec || (prevPrec == prec && isRightAssociative prec)

/-- What the `while` loop leaves of the stacks and the variables; `matched` says that a
right parenthesis found its left one. -/
structure Unwound where
  matched : Bool
  stack : List Operator
  nums : List VarOrNum
  vars : Vars

/-- The `while` loop that applies pending operators before `op`. -/
def unwind (eval : Evaluator) (recursed : List Str) (op : Operator) :
    List Operator → List VarOrNum → Vars → Except Stop Unwound
  | [], nums, vars => .ok ⟨false, [], nums, vars⟩
  | prev :: stack, nums, vars =>
    if op = .rparen ∧ prev = .lparen then
      .ok ⟨true, stack, nums, vars⟩
    else if op ≠ .rparen ∧ stopsAt op prev then
      .ok ⟨false, prev :: stack, nums, vars⟩
    else do
      let (nums, vars) ← arithApply eval recursed prev nums vars
      unwind eval recursed op stack nums vars

/-- `a++` reduces to a number. -/
def afterPost (lasttok : Operator) : Operator :=
  if lasttok = .postInc ∨ lasttok = .postDec then .num else lasttok

/-- The operator meant where no operand stands on the left. -/
def prefixForm (op : Operator) : Operator :=
  match op with
  | .add => .uplus
  | .sub => .uminus
  | .postInc => .preInc
  | .postDec => .preDec
  | op => op

/-- Plus, minus and their doubles are binary only after a number. -/
def meant (lasttok op : Operator) : Operator := if lasttok = .num then op else prefixForm op

/-- Not a left parenthesis or unary operator. -/
def isBinary (op : Operator) : Bool := (0 < op.prec && op.prec < unaryPrec) || op.prec == specPrec

/-- Pending operators are applied, and then the operator is pushed, or a right
parenthesis met with its left one. -/
def pushBinary (eval : Evaluator) (recursed : List Str) (op : Operator) (scan : Scan) : Outcome :=
  match unwind eval recursed op scan.stack scan.nums scan.vars with
  | .error stop => stop.outcome
  | .ok unwound =>
    if unwound.matched then
      -- any operator directly after a close paren should consider itself binary
      .next { scan with
        lasttok := .num, stack := unwound.stack, nums := unwound.nums, vars := unwound.vars }
    else if op = .rparen then
      .done (fail .syntaxError unwound.vars)
    else
      .next { scan with
        lasttok := op, stack := op :: unwound.stack, nums := unwound.nums, vars := unwound.vars }

/-- What the loop does with an operator, once it is known which one is meant. -/
def pushMeant (eval : Evaluator) (recursed : List Str) (lasttok op : Operator) (scan : Scan) :
    Outcome :=
  if isBinary op then
    -- binary op must be preceded by a num
    if lasttok = .num then pushBinary eval recursed op scan
    else .done (fail .syntaxError scan.vars)
  else
    .next { scan with lasttok := op, stack := op :: scan.stack }

/-- What the loop does with an operator of `op_tokens`. -/
def pushOperator (eval : Evaluator) (recursed : List Str) (op : Operator) (scan : Scan) :
    Outcome :=
  let lasttok := afterPost scan.lasttok
  pushMeant eval recursed lasttok (meant lasttok op) scan

/-- What the loop does with a token it has read. -/
def pushToken (eval : Evaluator) (recursed : List Str) (token : Token) (scan : Scan) : Outcome :=
  match token with
  | .name name => .next { scan with lasttok := .num, nums := .ofName name :: scan.nums }
  | .num val => .next { scan with lasttok := .num, nums := .ofNum val :: scan.nums }
  | .op op => pushOperator eval recursed op scan

/-- The end of the text: a single operand must be left. -/
def finish (eval : Evaluator) (recursed : List Str) (scan : Scan) : Outcome :=
  match scan.nums with
  | [operand] =>
    match arithLookupVal eval recursed scan.vars operand with
    | .error stop => stop.outcome
    | .ok (operand, vars) => .done ⟨operand.val, none, vars⟩
  | _ => .done (fail .syntaxError scan.vars)

/-- The test for a number literal before `++` or `--`; `none` when `numstackptr[-1]` is
below the bottom of the stack. -/
def isLiteral (scan : Scan) : Option Bool :=
  if scan.lasttok = .num then
    (scan.nums[0]?).map fun top => top.var.isNone
  else some false

/-- One turn of the loop. -/
def step (eval : Evaluator) (recursed : List Str) (scan : Scan) : Outcome :=
  match skipWhitespace scan.expr with
  | [] =>
    if scan.closing then
      -- at this point, we're done with the expression
      finish eval recursed scan
    else
      -- append a closing right paren and let the loop process it
      .next { scan with expr := bytes [')'], closing := true }
  | c :: rest =>
    match isLiteral scan with
    | none => .belowStack
    | some literal =>
      match readToken literal (c :: rest) with
      | none => .done (fail .syntaxError scan.vars)
      | some (token, rest) => pushToken eval recursed token { scan with expr := rest }

/-- The loop, for at most so many turns. -/
def loop (eval : Evaluator) (recursed : List Str) : Nat → Scan → Option Evaluation
  | 0, _ => none
  | turns + 1, scan =>
    match step eval recursed scan with
    | .next scan => loop eval recursed turns scan
    | .done result => some result
    | .belowStack => none

/-- The state before the first turn: the stack starts with a left paren. -/
def startScan (expr : Str) (vars : Vars) : Scan where
  expr := expr
  closing := false
  lasttok := .lparen
  nums := []
  stack := [.lparen]
  vars := vars

/-- One call of `evaluate_string`, with `eval` for the values of variables; `none` when
an access goes below the bottom of a stack. -/
def evaluateWith (eval : Evaluator) (recursed : List Str) (vars : Vars) (expr : Str) :
    Option Evaluation :=
  match skipWhitespace expr with
  | [] => some ⟨0, none, vars⟩
  | c :: rest => loop eval recursed (rest.length + 4) (startScan (c :: rest) vars)

/-- `evaluate_string`, with at most `depth` nested calls for the values of variables. -/
def evaluateString : Nat → Evaluator
  | 0, _, vars, _ => fail .recursionLoop vars
  | depth + 1, recursed, vars, expr =>
    (evaluateWith (evaluateString depth) recursed vars expr).getD (fail .syntaxError vars)

/-- `arith`. -/
def arith (depth : Nat) (vars : Vars) (expr : Str) : Evaluation :=
  evaluateString depth [] vars expr

end Busybox.Shell
