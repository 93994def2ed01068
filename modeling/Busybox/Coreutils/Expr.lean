import Busybox.Lib.Fallible
import Busybox.Sort.Compare
import Busybox.Test.Parser

/-!
# `expr`

The functions `eval` to `eval7` descend through the arguments and evaluate on the way. What
`cmp_common` and `arithmetic_common` do with two operands is asked for, so that the steps of
an evaluation are a list; `perform` answers as the code does. `arith_t` has 64 bits.
-/

namespace Busybox.Coreutils.Expr

/-- A C string. -/
abbrev Text := List UInt8

/-! ## Values -/

/-- `VALUE`. -/
inductive Value
  | integer (i : Int)
  | string (s : Text)
deriving DecidableEq, Repr

def arithMin : Int := -2 ^ 63
def arithMax : Int := 2 ^ 63 - 1

/-- `null`. -/
def null : Value → Bool
  | .integer i => i = 0
  | .string s => s = [] ∨ s = [48]

/-- The text after `tostring`. -/
def tostring : Value → Text
  | .integer i => ascii (toString i)
  | .string s => s

/-- The integer after `toarith`, `none` where that returns 0. `strtoll` stops at the bounds of its
type. -/
def toarith : Value → Option Int
  | .integer i => some i
  | .string s =>
    match Test.strtoll s with
    | some (i, []) => some (max arithMin (min arithMax i))
    | _ => none

/-- What `toarith` leaves behind. -/
def converted (v : Value) : Value := ((toarith v).map Value.integer).getD v

/-! ## Operators -/

inductive CompareOp
  | lt | le | eq | eqEq | ne | ge | gt
deriving DecidableEq, Repr

inductive ArithmeticOp
  | mul | div | rem | add | sub
deriving DecidableEq, Repr

inductive Operator
  | or
  | and
  | compare (op : CompareOp)
  | arithmetic (op : ArithmeticOp)
  | colon
deriving DecidableEq, Repr

/-- Why there is no value: a message, or an operation that is undefined in C. -/
inductive Stop
  | die (message : Text)
  | undefined
deriving DecidableEq, Repr

def syntaxError : Stop := .die (ascii "syntax error")

def CompareOp.holds (ll rr : Int) : CompareOp → Bool
  | .lt => ll < rr
  | .le => ll ≤ rr
  | .eq | .eqEq => ll = rr
  | .ne => ll ≠ rr
  | .gt => rr < ll
  | .ge => rr ≤ ll

/-- A comparison or an arithmetic operation with its operands. -/
inductive Step
  | compare (op : CompareOp) (l r : Value)
  | arithmetic (op : ArithmeticOp) (l r : Value)
deriving DecidableEq, Repr

/-- `cmp_common`. -/
def cmpCommon (l r : Value) (op : CompareOp) : Int :=
  let (ll, rr) : Int × Int :=
    match l, r with
    | .integer l, .integer r => (l, r)
    | l, r => (Sort.strcmp (tostring l) (tostring r), 0)
  if op.holds ll rr then 1 else 0

/-- A sum, a difference or a product. -/
def inRange (value : Int) : Except Stop Int :=
  if arithMin ≤ value ∧ value ≤ arithMax then .ok value else .error .undefined

/-- `arithmetic_common`. -/
def arithmeticCommon (l r : Value) (op : ArithmeticOp) : Except Stop Int :=
  match toarith l, toarith r with
  | some li, some ri =>
    match op with
    | .add => inRange (li + ri)
    | .sub => inRange (li - ri)
    | .mul => inRange (li * ri)
    | .div =>
      if ri = 0 then .error (.die (ascii "division by zero"))
      else if li = arithMin ∧ ri = -1 then .error .undefined
      else .ok (li.tdiv ri)
    | .rem =>
      if ri = 0 then .error (.die (ascii "division by zero"))
      else if li = arithMin ∧ ri = -1 then .error .undefined
      else .ok (li.tmod ri)
  | _, _ => .error (.die (ascii "non-numeric argument"))

/-- What the code does with two operands. `eval2` converts them before `cmp_common`. -/
def perform : Step → Except Stop Int
  | .compare op l r => .ok (cmpCommon (converted l) (converted r) op)
  | .arithmetic op l r => arithmeticCommon l r op

/-! ## Patterns and keywords -/

/-- A compiled pattern: the number of its groups, and where it matches with the first group. -/
structure Regex where
  nsub : Nat
  exec : Text → Option ((Nat × Nat) × Option (Nat × Nat))

/-- The library function that compiles a pattern, with a message where it is wrong. -/
abbrev Regcomp := Text → Except Text Regex

/-- `docolon`, without its warning. -/
def docolon (regcomp : Regcomp) (sv pv : Value) : Except Stop Value :=
  match regcomp (tostring pv) with
  | .error errmsg => .error (.die (ascii "bad regex '" ++ tostring pv ++ ascii "': " ++ errmsg))
  | .ok re =>
    let failed : Value := if 0 < re.nsub then .string [] else .integer 0
    match re.exec (tostring sv) with
    | some ((so, eo), group) =>
      if so = 0 then
        match group with
        | some (so, eo') =>
          if 0 < re.nsub then .ok (.string (((tostring sv).take eo').drop so))
          else .ok (.integer eo)
        | none => .ok (.integer eo)
      else .ok failed
    | none => .ok failed

inductive Keyword
  | quote | length | match_ | index | substr
deriving DecidableEq, Repr

/-- `index_in_strings` on the keywords. -/
def keyword (arg : Text) : Option Keyword :=
  if arg = ascii "quote" then some .quote
  else if arg = ascii "length" then some .length
  else if arg = ascii "match" then some .match_
  else if arg = ascii "index" then some .index
  else if arg = ascii "substr" then some .substr
  else none

def length (r : Value) : Value := .integer (tostring r).length

/-- `strcspn` counts the characters before the first one of a set. -/
def index (l r : Value) : Value :=
  let before := ((tostring l).takeWhile (· ∉ tostring r)).length
  if before = (tostring l).length then .integer 0 else .integer (before + 1)

/-- `xstrndup` with its argument of type `int`; `strndup` takes a negative one for a huge size. -/
def xstrndup (s : Text) (n : Int) : Text :=
  let n := n.bmod (2 ^ 32)
  if n < 0 then s else s.take n.toNat

def substr (l i1 i2 : Value) : Value :=
  match toarith i1, toarith i2 with
  | some i1, some i2 =>
    if (tostring l).length < i1 ∨ i1 ≤ 0 ∨ i2 ≤ 0 then .string []
    else .string (xstrndup ((tostring l).drop (i1 - 1).toNat) i2)
  | _, _ => .string []

/-! ## Evaluation -/

/-- An evaluation asks for comparisons and arithmetic operations. -/
abbrev Evaluation := Attempt Step Int Stop

def liftExcept {α : Type} : Except Stop α → Evaluation α
  | .ok value => pure value
  | .error stop => Attempt.fail stop

/-- What is done with an operator and its operands. -/
def apply (regcomp : Regcomp) (l r : Value) : Operator → Evaluation Value
  | .or => pure (if null l then r else l)
  | .and => pure (if null l ∨ null r then .integer 0 else l)
  | .compare op => Value.integer <$> Attempt.ask (.compare op l r)
  | .arithmetic op => Value.integer <$> Attempt.ask (.arithmetic op l r)
  | .colon => liftExcept (docolon regcomp l r)

/-- The functions that descend. -/
inductive Level
  | eval | eval1 | eval2 | eval3 | eval4 | eval5 | eval6 | eval7
deriving DecidableEq, Repr

/-- The operators that the loop of a function looks for. -/
def Level.operators : Level → List (Text × Operator)
  | .eval => [(ascii "|", .or)]
  | .eval1 => [(ascii "&", .and)]
  | .eval2 =>
    [(ascii "<", .compare .lt), (ascii "<=", .compare .le), (ascii "=", .compare .eq),
      (ascii "==", .compare .eqEq), (ascii "!=", .compare .ne), (ascii ">=", .compare .ge),
      (ascii ">", .compare .gt)]
  | .eval3 => [(ascii "+", .arithmetic .add), (ascii "-", .arithmetic .sub)]
  | .eval4 =>
    [(ascii "*", .arithmetic .mul), (ascii "/", .arithmetic .div), (ascii "%", .arithmetic .rem)]
  | .eval5 => [(ascii ":", .colon)]
  | .eval6 | .eval7 => []

/-- `nextarg` with one operator after another. -/
def Level.operator (level : Level) (arg : Text) : Option Operator :=
  (level.operators.find? fun op => op.1 = arg).map (·.2)

/-- `G.args` moves on. -/
abbrev Shorter (args : List Text) := {rest : List Text // rest.length < args.length}

/-- The functions from the innermost one. -/
def Level.rank : Level → Nat
  | .eval7 => 0
  | .eval6 => 1
  | .eval5 => 2
  | .eval4 => 3
  | .eval3 => 4
  | .eval2 => 5
  | .eval1 => 6
  | .eval => 7

variable (regcomp : Regcomp)

mutual

/-- `eval7`: bare operands and parentheses. -/
def eval7 : (args : List Text) → Evaluation (Value × Shorter args)
  | [] => Attempt.fail syntaxError
  | arg :: args =>
    if arg = ascii "(" then do
      let (v, rest) ← eval .eval args
      match rest with
      | ⟨[], _⟩ => Attempt.fail syntaxError
      | ⟨close :: rest, shorter⟩ =>
        if close = ascii ")" then
          pure (v, ⟨rest, by simp only [List.length_cons] at shorter ⊢; omega⟩)
        else Attempt.fail syntaxError
    else if arg = ascii ")" then Attempt.fail syntaxError
    else pure (.string arg, ⟨args, Nat.lt_succ_self _⟩)
termination_by args => (args.length, 0)

/-- `eval6`: the keywords. -/
def eval6 : (args : List Text) → Evaluation (Value × Shorter args)
  | [] => eval7 []
  | arg :: args =>
    match keyword arg with
    | none => eval7 (arg :: args)
    | some .quote =>
      match args with
      | [] => Attempt.fail syntaxError
      | arg' :: args => pure (.string arg', ⟨args, by simp only [List.length_cons]; omega⟩)
    | some .length => do
      let (r, rest) ← eval6 args
      have shorter := rest.2
      pure (length r, ⟨rest.1, Nat.lt_succ_of_lt shorter⟩)
    | some .match_ => do
      let (l, rest) ← eval6 args
      have shorter := rest.2
      let (r, rest') ← eval6 rest.1
      have shorter' := rest'.2
      let v ← liftExcept (docolon regcomp l r)
      pure (v, ⟨rest'.1, by simp only [List.length_cons]; omega⟩)
    | some .index => do
      let (l, rest) ← eval6 args
      have shorter := rest.2
      let (r, rest') ← eval6 rest.1
      have shorter' := rest'.2
      pure (index l r, ⟨rest'.1, by simp only [List.length_cons]; omega⟩)
    | some .substr => do
      let (l, rest) ← eval6 args
      have shorter := rest.2
      let (i1, rest') ← eval6 rest.1
      have shorter' := rest'.2
      let (i2, rest'') ← eval6 rest'.1
      have shorter'' := rest''.2
      pure (substr l i1 i2, ⟨rest''.1, by simp only [List.length_cons]; omega⟩)
termination_by args => (args.length, 1)

/-- The loop of `eval` to `eval5`, behind its first operand. -/
def loop (level tighter : Level) (l : Value) :
    (args : List Text) → Evaluation (Value × {rest : List Text // rest.length ≤ args.length})
  | [] => pure (l, ⟨[], Nat.le_refl _⟩)
  | arg :: args =>
    match level.operator arg with
    | none => pure (l, ⟨arg :: args, Nat.le_refl _⟩)
    | some op => do
      let (r, rest) ← eval tighter args
      have shorter := rest.2
      let v ← apply regcomp l r op
      let (v, rest') ← loop level tighter v rest.1
      have shorter' := rest'.2
      pure (v, ⟨rest'.1, by simp only [List.length_cons]; omega⟩)
termination_by args => (args.length, 0)

/-- A function with a loop: an operand of the function below it, and the loop. -/
def chain (level tighter : Level) (args : List Text) : Evaluation (Value × Shorter args) := do
  let (l, rest) ← eval tighter args
  have shorter := rest.2
  let (v, rest') ← loop level tighter l rest.1
  pure (v, ⟨rest'.1, Nat.lt_of_le_of_lt rest'.2 shorter⟩)
termination_by (args.length, 2 * tighter.rank + 3)

/-- `eval`, `eval1` and so on. -/
def eval (level : Level) (args : List Text) : Evaluation (Value × Shorter args) :=
  match level with
  | .eval => chain .eval .eval1 args
  | .eval1 => chain .eval1 .eval2 args
  | .eval2 => chain .eval2 .eval3 args
  | .eval3 => chain .eval3 .eval4 args
  | .eval4 => chain .eval4 .eval5 args
  | .eval5 => chain .eval5 .eval6 args
  | .eval6 => eval6 args
  | .eval7 => eval7 args
termination_by (args.length, 2 * level.rank + 2)
decreasing_by all_goals exact Prod.Lex.right _ (by decide)

end

/-- `expr_main`: the line that is printed and whether the exit status is 1. -/
def exprMain (args : List Text) : Evaluation (Text × Bool) :=
  if args = [] then Attempt.fail (.die (ascii "too few arguments"))
  else do
    let (v, rest) ← eval regcomp .eval args
    if rest.1 ≠ [] then Attempt.fail syntaxError
    else pure (tostring v ++ [10], null v)

end Busybox.Coreutils.Expr
