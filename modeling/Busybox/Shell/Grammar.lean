import Busybox.Shell.Evaluate

/-!
# The grammar of shell arithmetic

`Expr` is a parse tree, `WellFormed` says that it is one of the C-like grammar, in
which every operand binds at least as tightly as its place asks for, and `eval` is
its meaning. A name is an lvalue: it is read when the operator it is an operand of is
applied, and so after the other operands. `Spells` relates a text to the tokens of a
tree.
-/

namespace Busybox.Shell

/-- A parse tree. The sides of `binary`, and the operand of `pre` and `post`, carry
their own parentheses. -/
inductive Expr
  | name (name : Str)
  | num (val : Int64)
  | paren (inner : Expr)
  | post (op : Operator) (operand : Expr)
  | pre (op : Operator) (operand : Expr)
  | binary (op : Operator) (left right : Expr)
  | conditional (condition middle last : Expr)
deriving DecidableEq, Repr

/-! ## Precedence -/

/-- The binding levels of the binary operators, loosest first; all assignments share one. -/
def Operator.level : Operator → Option Nat
  | .comma => some 1
  | .assign | .andAssign | .orAssign | .xorAssign | .plusAssign | .minusAssign
  | .lshiftAssign | .rshiftAssign | .mulAssign | .divAssign | .remAssign => some 2
  | .or => some 5
  | .and => some 6
  | .bor => some 7
  | .bxor => some 8
  | .band => some 9
  | .eq | .ne => some 10
  | .lt | .gt | .ge | .le => some 11
  | .lshift | .rshift => some 12
  | .add | .sub => some 13
  | .mul | .div | .rem => some 14
  | .exponent => some 15
  | _ => none

/-- The level of `?:`, between the assignments and `||`. -/
def conditionalLevel : Nat := 4

/-- The level of the unary operators before their operand. -/
def preLevel : Nat := 16

/-- The level of the operators after their operand, and of what needs no operator. -/
def postLevel : Nat := 17

/-- Assignments and `**` group to the right, the other binary operators to the left. -/
def Operator.groupsRight (op : Operator) : Bool := op.level == some 2 || op == .exponent

/-- How tightly the outermost operator of a tree binds. -/
def Expr.level : Expr → Nat
  | .name _ | .num _ | .paren _ | .post _ _ => postLevel
  | .pre _ _ => preLevel
  | .binary op _ _ => op.level.getD 0
  | .conditional _ _ _ => conditionalLevel

/-- The unary operators of the grammar before their operand. -/
def isPreOperator (op : Operator) : Bool :=
  op matches .uplus | .uminus | .not | .bnot | .preInc | .preDec

/-- The unary operators of the grammar after their operand. -/
def isPostOperator (op : Operator) : Bool := op matches .postInc | .postDec

/-- Every operator stands where the grammar has it, with operands that bind tightly
enough. The middle operand of `?:` may be any expression. -/
def Expr.WellFormed : Expr → Prop
  | .name _ | .num _ => True
  | .paren inner => inner.WellFormed
  | .post op operand => isPostOperator op ∧ postLevel ≤ operand.level ∧ operand.WellFormed
  | .pre op operand => isPreOperator op ∧ preLevel ≤ operand.level ∧ operand.WellFormed
  | .binary op left right =>
    (∃ level, op.level = some level ∧
      if op.groupsRight then level < left.level ∧ level ≤ right.level
      else level ≤ left.level ∧ level < right.level) ∧
    left.WellFormed ∧ right.WellFormed
  | .conditional condition middle last =>
    conditionalLevel < condition.level ∧ conditionalLevel ≤ last.level ∧
      condition.WellFormed ∧ middle.WellFormed ∧ last.WellFormed

/-- No middle operand of a `?:` is, without parentheses, itself a `?:`, an assignment
or a comma expression. -/
def Expr.MiddlesBound : Expr → Prop
  | .name _ | .num _ => True
  | .paren inner => inner.MiddlesBound
  | .post _ operand | .pre _ operand => operand.MiddlesBound
  | .binary _ left right => left.MiddlesBound ∧ right.MiddlesBound
  | .conditional condition middle last =>
    conditionalLevel < middle.level ∧
      condition.MiddlesBound ∧ middle.MiddlesBound ∧ last.MiddlesBound

/-! ## Meaning -/

/-- The values of the variables; an undefined one is 0. -/
abbrev Env := Str → Int64

def Env.set (env : Env) (name : Str) (val : Int64) : Env :=
  fun other => if other = name then val else env other

/-- What a tree stands for: a value, or a variable that can be assigned to. -/
inductive Operand
  | number (val : Int64)
  | lvalue (name : Str)
deriving DecidableEq, Repr

/-- The value of an operand. -/
def Operand.read (env : Env) : Operand → Int64
  | .number val => val
  | .lvalue name => env name

/-- Assigning to an operand that is no variable is an error. -/
def Operand.assign (env : Env) (val kept : Int64) : Operand → Except MathError (Operand × Env)
  | .number _ => .error .syntaxError
  | .lvalue name => .ok (.number kept, env.set name val)

/-- The value of a unary operator that assigns nothing. -/
def unaryValue (op : Operator) (val : Int64) : Int64 :=
  match op with
  | .uminus => -val
  | .not => ofBool (val == 0)
  | .bnot => ~~~val
  | _ => val

/-- The value of a binary operator, in 64 bits that wrap around; for an assignment, the
value assigned. -/
def binaryValue (op : Operator) (left right : Int64) : Except MathError Int64 :=
  match op with
  | .or => .ok (ofBool (left != 0 || right != 0))
  | .and => .ok (ofBool (left != 0 && right != 0))
  | .bor | .orAssign => .ok (left ||| right)
  | .bxor | .xorAssign => .ok (left ^^^ right)
  | .band | .andAssign => .ok (left &&& right)
  | .eq => .ok (ofBool (left == right))
  | .ne => .ok (ofBool (left != right))
  | .lt => .ok (ofBool (left < right))
  | .gt => .ok (ofBool (left > right))
  | .ge => .ok (ofBool (left ≥ right))
  | .le => .ok (ofBool (left ≤ right))
  | .lshift | .lshiftAssign => .ok (left <<< right)
  | .rshift | .rshiftAssign => .ok (left >>> right)
  | .add | .plusAssign => .ok (left + right)
  | .sub | .minusAssign => .ok (left - right)
  | .mul | .mulAssign => .ok (left * right)
  | .div | .divAssign => if right = 0 then .error .divideByZero else .ok (left / right)
  | .rem | .remAssign => if right = 0 then .error .divideByZero else .ok (left % right)
  | .exponent =>
    if right < 0 then .error .negativeExponent
    else .ok (left ^ right.toInt.toNat)
  | _ => .ok right

/-- `x++` and `x--`. -/
def Operand.post (op : Operator) (x : Operand) (env : Env) : Except MathError (Operand × Env) :=
  let val := x.read env
  x.assign env (if op = .postInc then val + 1 else val - 1) val

/-- `++x`, `--x` and the signs. -/
def Operand.pre (op : Operator) (x : Operand) (env : Env) : Except MathError (Operand × Env) :=
  let val := x.read env
  match op with
  | .preInc => x.assign env (val + 1) (val + 1)
  | .preDec => x.assign env (val - 1) (val - 1)
  | op => .ok (.number (unaryValue op val), env)

/-- A binary operator on its operands. -/
def Operand.binary (op : Operator) (x y : Operand) (env : Env) :
    Except MathError (Operand × Env) :=
  binaryValue op (x.read env) (y.read env) >>= fun val =>
    if op.level = some 2 then x.assign env val val else .ok (.number val, env)

/-- The meaning of a tree: what it stands for and the variables after its assignments.
All operands are evaluated, from left to right; then names among them are read. -/
def Expr.eval : Expr → Env → Except MathError (Operand × Env)
  | .name n, env => .ok (.lvalue n, env)
  | .num val, env => .ok (.number val, env)
  | .paren inner, env => inner.eval env
  | .post op operand, env => operand.eval env >>= fun x => x.1.post op x.2
  | .pre op operand, env => operand.eval env >>= fun x => x.1.pre op x.2
  | .binary op left right, env =>
    left.eval env >>= fun x =>
      right.eval x.2 >>= fun y => Operand.binary op x.1 y.1 y.2
  | .conditional condition middle last, env =>
    condition.eval env >>= fun c =>
      middle.eval c.2 >>= fun x =>
        last.eval x.2 >>= fun y =>
          .ok (.number (if c.1.read y.2 ≠ 0 then x.1.read y.2 else y.1.read y.2), y.2)

/-- The value of a tree and the variables after it. -/
def Expr.value (e : Expr) (env : Env) : Except MathError (Int64 × Env) :=
  e.eval env >>= fun x => .ok (x.1.read x.2, x.2)

/-! ## Spelling -/

/-- How an operator before its operand is spelled. -/
def spelled (op : Operator) : Operator :=
  match op with
  | .uplus => .add
  | .uminus => .sub
  | .preInc => .postInc
  | .preDec => .postDec
  | op => op

/-- The tokens of a tree, from left to right. -/
def Expr.tokens : Expr → List Token
  | .name n => [.name n]
  | .num val => [.num val]
  | .paren inner => .op .lparen :: inner.tokens ++ [.op .rparen]
  | .post op operand => operand.tokens ++ [.op op]
  | .pre op operand => .op (spelled op) :: operand.tokens
  | .binary op left right => left.tokens ++ .op op :: right.tokens
  | .conditional condition middle last =>
    condition.tokens ++ .op .conditional :: middle.tokens ++
      .op .conditionalSep :: last.tokens

/-- What the reader of tokens remembers of the last one: an operator, with how many left
parentheses stand directly before the next token; a name, possibly in parentheses, with
how many more stand directly around it; or another operand. -/
inductive LastToken
  | operator (opened : Nat)
  | name (wrapped : Nat)
  | other
deriving DecidableEq, Repr

/-- `++` and `--` after an operand that is no name are two signs. -/
def LastToken.literal (last : LastToken) : Bool := last == .other

/-- The last token, after one more. -/
def LastToken.next (last : LastToken) : Token → LastToken
  | .num _ => .other
  | .name _ =>
    match last with
    | .operator opened => .name opened
    | _ => .name 0
  | .op .lparen =>
    match last with
    | .operator opened => .operator (opened + 1)
    | _ => .operator 1
  | .op .rparen =>
    match last with
    | .name (wrapped + 1) => .name wrapped
    | _ => .other
  | .op _ => .operator 0

/-- The tokens that stand at the start of a text, each the longest there, with the text
after them. -/
inductive Reads : LastToken → Str → List Token → Str → Prop
  | nil {last : LastToken} {text : Str} : Reads last text [] text
  | cons {last : LastToken} {text rest rest' : Str} {token : Token} {tokens : List Token}
      (read : readToken last.literal (skipWhitespace text) = some (token, rest))
      (reads : Reads (last.next token) rest tokens rest') :
      Reads last text (token :: tokens) rest'

/-- The text consists of the tokens, with white space between them. -/
def Spells (text : Str) (tokens : List Token) : Prop :=
  ∃ rest, Reads (.operator 0) text tokens rest ∧ skipWhitespace rest = []

end Busybox.Shell
