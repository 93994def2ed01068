import Mathlib
import Busybox.Libbb.Strings

/-!
# Operators of `test`

`check_operator` looks an argument up in the table of operators. `binop` and the end
of `primary` evaluate a binary and a unary operator on their operands, in a state of
the file system and of the process.
-/

namespace Busybox.Test

/-- A C string. -/
abbrev Text := List UInt8

/-- The operators of type `UNOP`. -/
inductive UnaryOp where
  | filrd | filwr | filex
  | filexist
  | filreg | fildir | filcdev | filbdev | filfifo | filsock
  | filsym | filgz | filtt
  | filsuid | filsgid | filstck
  | filuid | filgid
  | strez | strnz
  deriving DecidableEq, Repr

/-- The operators of type `BINOP`. -/
inductive BinaryOp where
  | filnt | filot | fileq
  | streq | strne | strlt | strgt
  | inteq | intne | intge | intgt | intle | intlt
  deriving DecidableEq, Repr

/-- `enum token`. The type of an operator can be read off; `EOI` and `OPERAND` have the
bogus type of `no_op`. -/
inductive Token where
  | eoi
  | unary (op : UnaryOp)
  | binary (op : BinaryOp)
  | unot | band | bor | lparen | rparen
  | operand
  deriving DecidableEq, Repr

/-- `ops_texts` beside `ops_table`. -/
def opsTable : List (Text × Token) :=
  [(ascii "-r", .unary .filrd), (ascii "-w", .unary .filwr), (ascii "-x", .unary .filex),
    (ascii "-e", .unary .filexist), (ascii "-f", .unary .filreg), (ascii "-d", .unary .fildir),
    (ascii "-c", .unary .filcdev), (ascii "-b", .unary .filbdev), (ascii "-p", .unary .filfifo),
    (ascii "-u", .unary .filsuid), (ascii "-g", .unary .filsgid), (ascii "-k", .unary .filstck),
    (ascii "-s", .unary .filgz), (ascii "-t", .unary .filtt), (ascii "-z", .unary .strez),
    (ascii "-n", .unary .strnz), (ascii "-h", .unary .filsym), (ascii "-O", .unary .filuid),
    (ascii "-G", .unary .filgid), (ascii "-L", .unary .filsym), (ascii "-S", .unary .filsock),
    (ascii "=", .binary .streq), (ascii "==", .binary .streq), (ascii "!=", .binary .strne),
    (ascii "<", .binary .strlt), (ascii ">", .binary .strgt), (ascii "-eq", .binary .inteq),
    (ascii "-ne", .binary .intne), (ascii "-ge", .binary .intge), (ascii "-gt", .binary .intgt),
    (ascii "-le", .binary .intle), (ascii "-lt", .binary .intlt), (ascii "-nt", .binary .filnt),
    (ascii "-ot", .binary .filot), (ascii "-ef", .binary .fileq), (ascii "!", .unot),
    (ascii "-a", .band), (ascii "-o", .bor), (ascii "(", .lparen), (ascii ")", .rparen)]

/-- `check_operator`; `none` is the terminating `NULL`. -/
def checkOperator : Option Text → Token
  | none => .eoi
  | some s => ((opsTable.find? fun entry => entry.1 = s).map (·.2)).getD .operand

def Token.isBinop : Token → Bool
  | .binary _ => true
  | _ => false

/-- What `syntax` prints before it jumps out with 2. -/
structure Complaint where
  op : Option Text
  msg : String
  deriving DecidableEq, Repr

/-- `struct stat` -/
structure Stat where
  dev : Nat
  ino : Nat
  mode : Nat
  uid : Nat
  gid : Nat
  size : Int
  mtime : Int
  deriving Repr

/-- The file system and the process, as the operators ask for them. -/
structure World where
  stat : Text → Option Stat
  lstat : Text → Option Stat
  isatty : Int → Bool
  euid : Nat
  gid : Nat
  egid : Nat
  groups : List Nat

def isspace (c : UInt8) : Bool := c == 32 || (9 ≤ c && c ≤ 13)

def isdigit (c : UInt8) : Bool := 48 ≤ c && c ≤ 57

def decimal (digits : Text) : Nat := digits.foldl (fun n c => n * 10 + (c.toNat - 48)) 0

/-- `strtoll` with base 10: the value without the bounds of its type, and the text after
the number; `none` where there are no digits. -/
def strtoll (s : Text) : Option (Int × Text) :=
  let s := s.dropWhile isspace
  let negative := s.head? == some 45
  let s := if negative || s.head? == some 43 then s.drop 1 else s
  let digits := s.takeWhile isdigit
  if digits = [] then none
  else some (if negative then - (decimal digits : Int) else decimal digits, s.dropWhile isdigit)

/-- `atoi` with error detection. -/
def getn (s : Text) : Except Complaint Int :=
  match strtoll s with
  | none => .error ⟨some s, "bad number"⟩
  | some (r, p) =>
    if r < - 2 ^ 63 ∨ 2 ^ 63 ≤ r then .error ⟨some s, "out of range"⟩
    else if p.dropWhile isspace ≠ [] then .error ⟨some s, "bad number"⟩
    else .ok r

/-- The comparison that `binop` makes once it has both operands. -/
def compareOperands (w : World) (op : BinaryOp) (opnd1 opnd2 : Text) : Except Complaint Bool :=
  let ints (holds : Int → Int → Bool) : Except Complaint Bool := do
    let val1 ← getn opnd1
    let val2 ← getn opnd2
    return holds val1 val2
  -- false if at least one stat failed
  let files (holds : Stat → Stat → Bool) : Except Complaint Bool :=
    .ok (match w.stat opnd1, w.stat opnd2 with
      | some b1, some b2 => holds b1 b2
      | _, _ => false)
  match op with
  | .inteq => ints fun val1 val2 => val1 = val2
  | .intne => ints fun val1 val2 => val1 ≠ val2
  | .intge => ints fun val1 val2 => val1 ≥ val2
  | .intgt => ints fun val1 val2 => val1 > val2
  | .intle => ints fun val1 val2 => val1 ≤ val2
  | .intlt => ints fun val1 val2 => val1 < val2
  | .streq => .ok (opnd1 = opnd2)
  | .strne => .ok (opnd1 ≠ opnd2)
  | .strlt => .ok (opnd1 < opnd2)
  | .strgt => .ok (opnd2 < opnd1)
  | .filnt => files fun b1 b2 => b1.mtime > b2.mtime
  | .filot => files fun b1 b2 => b1.mtime < b2.mtime
  | .fileq => files fun b1 b2 => b1.dev = b2.dev ∧ b1.ino = b2.ino

/-- `is_a_group_member` -/
def isAGroupMember (w : World) (gid : Nat) : Bool :=
  gid = w.gid || gid = w.egid || w.groups.contains gid

/-- `test_eaccess`, true for its 0; `mode` is `R_OK`, `W_OK` or `X_OK`. -/
def testEaccess (w : World) (st : Stat) (mode : Nat) : Bool :=
  -- root can read or write any file, and execute any file that has an execute bit
  if w.euid = 0 ∧ mode ≠ 1 then true
  else if w.euid = 0 ∧ st.mode &&& 0o111 ≠ 0 then true
  else
    let mode :=
      if st.uid = w.euid then mode <<< 6
      else if isAGroupMember w st.gid then mode <<< 3
      else mode
    st.mode &&& mode ≠ 0

/-- `S_IFMT` -/
def fileType (st : Stat) : Nat := st.mode &&& 0o170000

/-- `filstat`; the operators that are not about files do not come here. -/
def filstat (w : World) (nm : Text) (mode : UnaryOp) : Bool :=
  if mode = .filsym then
    match w.lstat nm with
    | some s => fileType s = 0o120000
    | none => false
  else
    match w.stat nm with
    | none => false
    | some s =>
      match mode with
      | .filexist => true
      | .filrd => testEaccess w s 4
      | .filwr => testEaccess w s 2
      | .filex => testEaccess w s 1
      | .filreg => fileType s = 0o100000
      | .fildir => fileType s = 0o040000
      | .filcdev => fileType s = 0o020000
      | .filbdev => fileType s = 0o060000
      | .filfifo => fileType s = 0o010000
      | .filsock => fileType s = 0o140000
      | .filsuid => s.mode &&& 0o4000 ≠ 0
      | .filsgid => s.mode &&& 0o2000 ≠ 0
      | .filstck => s.mode &&& 0o1000 ≠ 0
      | .filgz => s.size > 0
      | .filuid => s.uid = w.euid
      | .filgid => s.gid = w.egid
      | _ => true

/-- `isatty` takes an `int`. -/
def toInt (n : Int) : Int := (BitVec.ofInt 32 n).toInt

/-- The unary expressions of `primary`. -/
def unaryExpression (w : World) (op : UnaryOp) (arg : Text) : Except Complaint Bool :=
  match op with
  | .strez => .ok (arg = [])
  | .strnz => .ok (arg ≠ [])
  | .filtt => (getn arg).map fun n => w.isatty (toInt n)
  | _ => .ok (filstat w arg op)

/-!
## The parser of `test`

`args` is the list from the argument that the cursor is at; the empty list stands for
the cursor at the terminating `NULL`, so that moving on from there, or looking behind
it, reads past the arguments. `n` is the token of the argument at the cursor and also
says what `last_operator` points to.
-/

/-- Why the parser stops: `longjmp`, a read past the terminating `NULL`, or, in the
model alone, more recursive calls than it was given. -/
inductive Stop where
  | leaving (complaint : Complaint)
  | overrun
  | outOfFuel
  deriving DecidableEq, Repr

/-- A truth value and the cursor. -/
abbrev Parsed := Except Stop (Bool × List Text)

/-- `syntax` -/
def syntaxError {α : Type} (op : Option Text) (msg : String) : Except Stop α :=
  .error (.leaving ⟨op, msg⟩)

/-- `++args` -/
def advance : List Text → Except Stop (List Text)
  | [] => .error .overrun
  | _ :: args => .ok args

/-- `args[k]` -/
def peek (args : List Text) (k : Nat) : Except Stop (Option Text) :=
  if k ≤ args.length then .ok args[k]? else .error .overrun

def leave {α : Type} : Except Complaint α → Except Stop α
  | .ok value => .ok value
  | .error complaint => .error (.leaving complaint)

/-- `binop`; an operator of another class is taken for `-ef`. -/
def binop (w : World) (args : List Text) : Parsed := do
  let opnd1 := args.headD []
  let args ← advance args
  let op := checkOperator args.head?
  let operator := args.headD []
  let args ← advance args
  match args with
  | [] => syntaxError (some operator) "argument expected"
  | opnd2 :: _ =>
    let res ← leave (compareOperands w (match op with | .binary op => op | _ => .fileq) opnd1 opnd2)
    return (res, args)

/-- The part of `primary` behind the parentheses: a binary operator in the next argument
comes first when it has its second operand, a unary operator second. -/
def operandPrimary (w : World) (n : Token) (args : List Text) : Parsed := do
  let next ← peek args 1
  let lastOperator := checkOperator next
  let hasOperand ← if lastOperator ≠ .eoi then (·.isSome) <$> peek args 2 else pure false
  if hasOperand ∧ lastOperator.isBinop then binop w args
  else
    match n, next with
    | .unary op, some _ =>
      let args ← advance args
      let res ← leave (unaryExpression w op (args.headD []))
      return (res, args)
    | .unary _, none => return (args.headD [] ≠ [], args)
    | _, _ =>
      -- args[2] is NULL here
      if lastOperator.isBinop then binop w args
      else return (args.headD [] ≠ [], args)

mutual

def nexpr (w : World) (fuel : Nat) (n : Token) (args : List Text) : Parsed :=
  if n = .unot then do
    let operand ← advance args
    let n := checkOperator operand.head?
    -- "! ARG" may miss ARG
    if n = .eoi then return (true, args)
    else
      match fuel with
      | 0 => .error .outOfFuel
      | fuel + 1 =>
        let (res, args) ← nexpr w fuel n operand
        return (!res, args)
  else primary w fuel n args
termination_by fuel * 4 + 1

def aexpr (w : World) (fuel : Nat) (n : Token) (args : List Text) : Parsed := do
  let (res, args) ← nexpr w fuel n args
  let ahead ← advance args
  if checkOperator ahead.head? = .band then
    let args ← advance ahead
    match fuel with
    | 0 => .error .outOfFuel
    | fuel + 1 =>
      let (res', args) ← aexpr w fuel (checkOperator args.head?) args
      return (res' && res, args)
  else return (res, args)
termination_by fuel * 4 + 2

def oexpr (w : World) (fuel : Nat) (n : Token) (args : List Text) : Parsed := do
  let (res, args) ← aexpr w fuel n args
  let ahead ← advance args
  if checkOperator ahead.head? = .bor then
    let args ← advance ahead
    match fuel with
    | 0 => .error .outOfFuel
    | fuel + 1 =>
      let (res', args) ← oexpr w fuel (checkOperator args.head?) args
      return (res' || res, args)
  else return (res, args)
termination_by fuel * 4 + 3

def primary (w : World) (fuel : Nat) (n : Token) (args : List Text) : Parsed :=
  if n = .eoi then syntaxError none "argument expected"
  else if n = .lparen then do
    let args ← advance args
    match fuel with
    | 0 => .error .outOfFuel
    | fuel + 1 =>
      let (res, args) ← oexpr w fuel (checkOperator args.head?) args
      let args ← advance args
      if checkOperator args.head? ≠ .rparen then syntaxError none "closing paren expected"
      else return (res, args)
  else operandPrimary w n args
termination_by fuel * 4

end

def Leaves (parsed : Parsed) : Prop := ∃ complaint, parsed = .error (.leaving complaint)

/-- Without an argument there is no expression. -/
theorem aexpr_nil (w : World) (fuel : Nat) : Leaves (aexpr w fuel (checkOperator none) []) := by
  rw [aexpr, nexpr, primary]
  exact ⟨_, rfl⟩

theorem oexpr_nil (w : World) (fuel : Nat) : Leaves (oexpr w fuel (checkOperator none) []) := by
  rw [oexpr, aexpr, nexpr, primary]
  exact ⟨_, rfl⟩

/-- How `test_main` ends: with an exit status and perhaps a message. -/
inductive Outcome where
  | exit (status : Nat) (message : Option Complaint)
  | overrun
  | outOfFuel
  deriving DecidableEq, Repr

def Stop.outcome : Stop → Outcome
  | .leaving complaint => .exit 2 (some complaint)
  | .overrun => .overrun
  | .outOfFuel => .outOfFuel

/-- `res` after the `goto ret`, for a truth value. -/
def status (truth : Bool) : Nat := if truth then 0 else 1

/-- `res ^= negate` -/
def specialOutcome (negate : Bool) : Except Stop Bool → Outcome
  | .ok truth => .exit (status (truth != negate)) none
  | .error stop => stop.outcome

/-- The general parser, from `args` as it was before the special cases. -/
def generalCase (w : World) (args : List Text) : Outcome :=
  match oexpr w args.length (checkOperator args.head?) args with
  | .error stop => stop.outcome
  | .ok (truth, args) =>
    match args with
    | _ :: operand :: _ => .exit 2 (some ⟨some operand, "unknown operand"⟩)
    | _ => .exit (status truth) none

/-- `LONE_CHAR` -/
def loneChar (arg : Text) (c : UInt8) : Bool := arg = [c]

/-- The special cases. `passed` is what `argv` has left behind: the parser still begins
there, also where the closing parenthesis has been overwritten with `NULL`. -/
def specialCases (w : World) (passed : List Text) (negate : Bool) (argv : List Text) : Outcome :=
  match argv with
  | [] => specialOutcome negate (.ok false)
  | [arg] => specialOutcome negate (.ok (arg ≠ []))
  | [arg1, op, arg2] =>
    if (checkOperator op).isBinop then
      specialOutcome negate ((binop w [arg1, op, arg2]).map (·.1))
    else if loneChar arg1 33 then specialCases w (passed ++ [arg1]) (!negate) [op, arg2]
    else generalCase w (passed ++ [arg1, op, arg2])
  | [arg1, x, y, arg4] =>
    if loneChar arg1 40 ∧ loneChar arg4 41 then
      if loneChar x 33 then specialCases w (passed ++ [arg1, x]) (!negate) [y]
      else generalCase w (passed ++ [arg1, x, y])
    else if loneChar arg1 33 then specialCases w (passed ++ [arg1]) (!negate) [x, y, arg4]
    else generalCase w (passed ++ [arg1, x, y, arg4])
  | arg1 :: argv =>
    if loneChar arg1 33 then specialCases w (passed ++ [arg1]) (!negate) argv
    else generalCase w (passed ++ arg1 :: argv)
termination_by argv.length

section

attribute [local simp] specialCases

end

/-- `test_main` for `test`. -/
def test (w : World) (args : List Text) : Outcome := specialCases w [] false args

/-- `bb_basename` -/
def basename (path : Text) : Text := ((path.reverse).takeWhile (· ≠ 47)).reverse

/-- `test_main`: `[` and `[[` need their closing bracket and remove it. -/
def testMain (w : World) (argv0 : Text) (args : List Text) : Outcome :=
  match basename argv0 with
  | 91 :: more =>
    let closing := if more = [] then ascii "]" else ascii "]]"
    if (args.getLast?).getD argv0 ≠ closing then
      .exit 2 (some ⟨none, if more = [] then "missing ]" else "missing ]]"⟩)
    else test w args.dropLast
  | _ => test w args

end Busybox.Test
