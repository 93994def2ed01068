import Busybox.Shell.Evaluate
import Busybox.Lib.Fallible

/-!
# The size of the stacks

`evaluate_string` allocates `strlen + 2` operators and `(strlen + 2) / 2` operands.
Every turn of its loop takes a character off the text for what it pushes, which
bounds the operators. Operands may stand side by side with nothing in between, as
the three of `09a` do. How many are pending depends on the text alone as long as
the evaluation goes on: `Skeleton` is the evaluator without its values.
-/

namespace Busybox.Shell

open Fallible

/-! ## What reading a token leaves of the text -/

theorem length_readDigits (base acc : Nat) (s : Str) :
    (readDigits base acc s).2.length ≤ s.length := by
  induction s generalizing acc with
  | nil => exact le_refl _
  | cons c rest ih =>
    rw [readDigits]
    split
    · exact le_refl _
    · split
      · exact le_trans (ih _) (Nat.le_succ _)
      · exact le_refl _

/-- A first digit that fits the base is read. -/
theorem length_readDigits_lt {base acc digit : Nat} {c : UInt8} {rest : Str}
    (value : digitValue c = some digit) (fits : digit < base) :
    (readDigits base acc (c :: rest)).2.length < (c :: rest).length := by
  rw [readDigits, value]
  simp only [if_pos fits, List.length_cons]
  exact Nat.lt_succ_of_le (length_readDigits _ _ _)

theorem digitValue_of_isdigit {c : UInt8} (digit : isdigit c = true) :
    digitValue c = some (c.toNat - 48) ∧ c.toNat - 48 < 10 := by
  have range : 48 ≤ c ∧ c ≤ 57 := by simpa [isdigit] using digit
  have upper := UInt8.le_iff_toNat_le.mp range.2
  refine ⟨by simp [digitValue, range], ?_⟩
  have : (57 : UInt8).toNat = 57 := rfl
  omega

theorem length_strtoull {c : UInt8} (rest : Str) (digit : isdigit c = true) :
    (strtoull (c :: rest)).2.length < (c :: rest).length := by
  obtain ⟨value, small⟩ := digitValue_of_isdigit digit
  unfold strtoull
  split
  · next x rest' same =>
    split
    · exact lt_of_le_of_lt (length_readDigits _ _ _) (by rw [same, List.length_cons, List.length_cons]; omega)
    · rw [same]
      exact length_readDigits_lt (show digitValue 48 = some 0 from rfl) (by decide)
  · next same =>
    rw [same]
    exact length_readDigits_lt (show digitValue 48 = some 0 from rfl) (by decide)
  · exact length_readDigits_lt value small

theorem length_readBaseDigits (base : Nat) (n : Int64) (s : Str) :
    (readBaseDigits base n s).2.length ≤ s.length := by
  induction s generalizing n with
  | nil => exact le_refl _
  | cons c rest ih =>
    rw [readBaseDigits]
    split
    · exact le_refl _
    · exact le_trans (ih _) (Nat.le_succ _)

theorem length_strtoArith {c : UInt8} {rest : Str} (digit : isdigit c = true) :
    (strtoArith (c :: rest)).2.length < (c :: rest).length := by
  have shorter := length_strtoull rest digit
  unfold strtoArith
  dsimp only
  split
  · exact lt_of_le_of_lt (le_trans (length_readBaseDigits _ _ _) (by simp)) shorter
  · exact shorter

theorem length_matchOperator {s rest : Str} {op : Operator}
    (found : matchOperator s = some (op, rest)) : rest.length < s.length := by
  obtain ⟨entry, first, same⟩ := Option.map_eq_some_iff.mp found
  have starts : entry.1.isPrefixOf s := by simpa using List.find?_some first
  have nonempty : ∀ entry ∈ opTokens, 0 < entry.1.length := by decide
  have positive := nonempty entry (List.mem_of_find?_eq_some first)
  have fits := (List.isPrefixOf_iff_prefix.mp starts).length_le
  obtain ⟨-, rfl⟩ := Prod.mk.inj same
  rw [List.length_drop]
  omega

/-- Reading a token takes at least a character off the text. -/
theorem length_readToken {literal : Bool} {s rest : Str} {token : Token}
    (read : readToken literal s = some (token, rest)) : rest.length < s.length := by
  unfold readToken splitName at read
  cases s with
  | nil => simp at read
  | cons c tail =>
    dsimp only at read
    split at read
    · next named =>
      split at named
      · obtain ⟨-, rfl⟩ := Prod.mk.inj named
        obtain ⟨-, rfl⟩ := Prod.mk.inj (Option.some.inj read)
        exact Nat.lt_succ_of_le (List.dropWhile_suffix _).length_le
      · simp at named
    · split at read
      · next digit =>
        obtain ⟨-, rfl⟩ := Prod.mk.inj (Option.some.inj read)
        exact length_strtoArith digit
      · split at read
        · obtain ⟨-, rfl⟩ := Prod.mk.inj (Option.some.inj read)
          simp
        · obtain ⟨⟨op, after⟩, found, same⟩ := Option.map_eq_some_iff.mp read
          obtain ⟨-, rfl⟩ := Prod.mk.inj same
          exact length_matchOperator found

theorem length_skipWhitespace (s : Str) : (skipWhitespace s).length ≤ s.length :=
  (List.dropWhile_suffix _).length_le

/-! ## The evaluator without its values -/

/-- What decides how many operands are pending: which of them are names, but no value. -/
structure Skeleton where
  expr : Str
  closing : Bool
  lasttok : Operator
  names : List Bool
  stack : List Operator
deriving DecidableEq, Repr

/-- Which of the operands are names. -/
def kinds (nums : List VarOrNum) : List Bool := nums.map fun num => num.var.isSome

@[simp] theorem kinds_nil : kinds [] = [] := rfl

@[simp] theorem kinds_cons (top : VarOrNum) (below : List VarOrNum) :
    kinds (top :: below) = top.var.isSome :: kinds below := rfl

/-- The evaluator's state without its values. -/
def Scan.skeleton (scan : Scan) : Skeleton where
  expr := scan.expr
  closing := scan.closing
  lasttok := scan.lasttok
  names := kinds scan.nums
  stack := scan.stack

/-- The operator changes the top operand only. -/
def isUnary : Operator → Bool
  | .uminus | .uplus | .not | .bnot | .preInc | .preDec | .postInc | .postDec => true
  | _ => false

/-- The operands after an operator has been applied: its result is a number. -/
def Skeleton.apply (op : Operator) : List Bool → Option (List Bool)
  | [] => none
  | _ :: below =>
    if isUnary op then some (false :: below)
    else
      match below with
      | [] => none
      | _ :: below => some (false :: below)

/-- `unwind` on the operands' kinds. -/
def Skeleton.unwind (op : Operator) :
    List Operator → List Bool → Option (Bool × List Operator × List Bool)
  | [], names => some (false, [], names)
  | prev :: stack, names =>
    if op = .rparen ∧ prev = .lparen then some (true, stack, names)
    else if op ≠ .rparen ∧ stopsAt op prev then some (false, prev :: stack, names)
    else (Skeleton.apply prev names).bind (Skeleton.unwind op stack)

/-- `pushMeant` on the operands' kinds. -/
def Skeleton.pushMeant (lasttok op : Operator) (skeleton : Skeleton) : Option Skeleton :=
  if isBinary op then
    if lasttok = .num then
      (Skeleton.unwind op skeleton.stack skeleton.names).bind fun (matched, stack, names) =>
        if matched then some { skeleton with lasttok := .num, stack := stack, names := names }
        else if op = .rparen then none
        else some { skeleton with lasttok := op, stack := op :: stack, names := names }
    else none
  else some { skeleton with lasttok := op, stack := op :: skeleton.stack }

/-- `pushToken` on the operands' kinds. -/
def Skeleton.push (token : Token) (skeleton : Skeleton) : Option Skeleton :=
  match token with
  | .name _ => some { skeleton with lasttok := .num, names := true :: skeleton.names }
  | .num _ => some { skeleton with lasttok := .num, names := false :: skeleton.names }
  | .op op =>
    let lasttok := afterPost skeleton.lasttok
    skeleton.pushMeant lasttok (meant lasttok op)

/-- One turn of the loop on the operands' kinds; `none` at the end of the text or at a
syntax error. -/
def Skeleton.step (skeleton : Skeleton) : Option Skeleton :=
  match skipWhitespace skeleton.expr with
  | [] =>
    if skeleton.closing then none
    else some { skeleton with expr := bytes [')'], closing := true }
  | c :: rest =>
    let literal := skeleton.lasttok = .num ∧ skeleton.names.head? = some false
    (readToken literal (c :: rest)).bind fun (token, rest) =>
      Skeleton.push token { skeleton with expr := rest }

/-- The skeleton after so many turns, as long as there are so many. -/
def Skeleton.turns : Nat → Skeleton → Option Skeleton
  | 0, skeleton => some skeleton
  | n + 1, skeleton => skeleton.step.bind (Skeleton.turns n)

/-- The evaluator after so many turns of its loop, as long as there are so many. -/
def turns (eval : Evaluator) (recursed : List Str) : Nat → Scan → Option Scan
  | 0, scan => some scan
  | n + 1, scan =>
    match step eval recursed scan with
    | .next scan => turns eval recursed n scan
    | _ => none

section Simulation

variable {eval : Evaluator} {recursed : List Str} {vars vars' : Vars} {op : Operator}
  {nums nums' : List VarOrNum}

theorem unaryResult_isSome (op : Operator) (rez : Int64) :
    (unaryResult op rez).isSome = isUnary op := by
  cases op <;> rfl

theorem arithLookupVal_ne_belowStack {t : VarOrNum} :
    arithLookupVal eval recursed vars t ≠ .error .belowStack := by
  unfold arithLookupVal
  split
  · simp
  · split
    · simp
    · split
      · simp
      · dsimp only
        split <;> simp

/-- What is pushed for the result of an operator is a number. -/
theorem applied_ok {rez : Int64} {entry : VarOrNum} {below : List VarOrNum}
    (result : applied op rez entry below vars = .ok (nums', vars')) :
    kinds nums' = false :: kinds below := by
  unfold applied at result
  split at result
  · split at result <;> cases result
    rfl
  · cases result
    rfl

/-- The operands below the bottom are asked for by no operator. -/
theorem arithApply_cons (top : VarOrNum) (below : List VarOrNum) :
    arithApply eval recursed op (top :: below) vars =
      (arithLookupVal eval recursed vars top >>= fun resolved =>
        match unaryResult op resolved.1.val, below with
        | some rez, below => applied op rez resolved.1 below resolved.2
        | none, [] => .error (.error .syntaxError resolved.2)
        | none, left :: below =>
          applyBinary eval recursed op resolved.1 left below resolved.2) := by
  rw [arithApply, if_neg (by simp), List.getElem?_cons_zero]
  dsimp only
  congr 1
  funext resolved
  simp only [applyTop]
  cases unaryResult op resolved.1.val <;> cases below <;> simp

/-- What a binary operator leaves in the place of its left operand is a number. -/
theorem applyResolved_ok {top left : VarOrNum} {below : List VarOrNum}
    (result : applyResolved op top left below vars = .ok (nums', vars')) :
    kinds nums' = false :: kinds below := by
  unfold applyResolved at result
  split at result
  · exact applied_ok result
  · split at result
    · split at result
      · cases result
      · exact applied_ok result
    · split at result
      · cases result
      · exact applied_ok result

theorem applyBinary_ok {top left : VarOrNum} {below : List VarOrNum}
    (result : applyBinary eval recursed op top left below vars = .ok (nums', vars')) :
    kinds nums' = false :: kinds below := by
  unfold applyBinary at result
  split at result
  · cases result
  · obtain ⟨⟨left', vars''⟩, -, result⟩ := bind_eq_ok.mp result
    exact applyResolved_ok result

/-- An operator that is applied leaves the kinds of operands that `Skeleton.apply` says. -/
theorem arithApply_ok
    (result : arithApply eval recursed op nums vars = .ok (nums', vars')) :
    Skeleton.apply op (kinds nums) = some (kinds nums') := by
  cases nums with
  | nil => simp [arithApply] at result
  | cons top below =>
    rw [arithApply_cons] at result
    obtain ⟨⟨top', vars''⟩, -, result⟩ := bind_eq_ok.mp result
    have kind := unaryResult_isSome op top'.val
    cases effect : unaryResult op top'.val with
    | some rez =>
      simp only [effect] at result
      simp [Skeleton.apply, ← kind, effect, applied_ok result]
    | none =>
      cases below with
      | nil => simp [effect] at result
      | cons left below =>
        simp only [effect] at result
        simp [Skeleton.apply, ← kind, effect, applyBinary_ok result]

theorem unwind_ok {stack : List Operator} {unwound : Unwound}
    (result : unwind eval recursed op stack nums vars = .ok unwound) :
    Skeleton.unwind op stack (kinds nums) =
      some (unwound.matched, unwound.stack, kinds unwound.nums) := by
  induction stack generalizing nums vars with
  | nil =>
    cases result
    rfl
  | cons prev stack ih =>
    unfold unwind at result
    unfold Skeleton.unwind
    split at result
    · cases result
      rw [if_pos ‹_›]
    · rw [if_neg ‹_›]
      split at result
      · cases result
        rw [if_pos ‹_›]
      · rw [if_neg ‹_›]
        obtain ⟨⟨nums', vars'⟩, applied, rest⟩ := bind_eq_ok.mp result
        rw [arithApply_ok applied, Option.bind_some]
        exact ih rest

theorem pushMeant_next {lasttok : Operator} {scan scan' : Scan}
    (result : pushMeant eval recursed lasttok op scan = .next scan') :
    scan.skeleton.pushMeant lasttok op = some scan'.skeleton := by
  unfold pushMeant at result
  unfold Skeleton.pushMeant
  split at result
  · rw [if_pos ‹_›]
    split at result
    · rw [if_pos ‹_›]
      unfold pushBinary at result
      split at result
      · next stop _ => cases stop <;> cases result
      · next unwound unwinding =>
        rw [show Skeleton.unwind op scan.skeleton.stack scan.skeleton.names = _ from
          unwind_ok unwinding, Option.bind_some]
        dsimp only
        split at result
        · cases result
          exact if_pos ‹_›
        · rw [if_neg ‹_›]
          split at result
          · cases result
          · cases result
            exact if_neg ‹_›
    · cases result
  · cases result
    exact if_neg ‹_›

theorem pushToken_next {token : Token} {scan scan' : Scan}
    (result : pushToken eval recursed token scan = .next scan') :
    Skeleton.push token scan.skeleton = some scan'.skeleton := by
  cases token with
  | name name => cases result; rfl
  | num val => cases result; rfl
  | op op => exact pushMeant_next result

/-- The end of the text is no further turn. -/
theorem finish_ne_next {scan scan' : Scan} : finish eval recursed scan ≠ .next scan' := by
  unfold finish
  split
  · split
    · next stop _ => cases stop <;> simp [Stop.outcome]
    · simp
  · simp

/-- The test for a literal looks at the kind of the top operand. -/
theorem isLiteral_skeleton {scan : Scan} {literal : Bool} (known : isLiteral scan = some literal) :
    decide (scan.skeleton.lasttok = .num ∧ scan.skeleton.names.head? = some false) = literal := by
  unfold isLiteral at known
  split at known
  · next isNum =>
    cases nums : scan.nums with
    | nil => simp [nums] at known
    | cons top below =>
      simp only [nums, List.getElem?_cons_zero, Option.map_some, Option.some.injEq] at known
      subst known
      cases kind : top.var <;> simp [Scan.skeleton, isNum, nums, kind]
  · next notNum =>
    cases known
    simp [Scan.skeleton, notNum]

/-- A turn of the evaluator is one of its skeleton. -/
theorem step_next {scan scan' : Scan} (result : step eval recursed scan = .next scan') :
    scan.skeleton.step = some scan'.skeleton := by
  unfold step at result
  unfold Skeleton.step
  rw [show scan.skeleton.expr = scan.expr from rfl]
  cases trimmed : skipWhitespace scan.expr with
  | nil =>
    simp only [trimmed] at result
    split at result
    · exact absurd result finish_ne_next
    · next inText =>
      cases result
      exact if_neg inText
  | cons c rest =>
    simp only [trimmed] at result
    split at result
    · cases result
    · next literal known =>
      simp only [isLiteral_skeleton known]
      split at result
      · cases result
      · next token rest' read =>
        rw [read, Option.bind_some]
        exact pushToken_next result

theorem turns_skeleton {n : Nat} {scan scan' : Scan}
    (reached : turns eval recursed n scan = some scan') :
    Skeleton.turns n scan.skeleton = some scan'.skeleton := by
  induction n generalizing scan with
  | zero => cases reached; rfl
  | succ n ih =>
    unfold turns at reached
    split at reached
    · next next stepped =>
      rw [Skeleton.turns, step_next stepped, Option.bind_some]
      exact ih reached
    · cases reached

/-! ## No access below the bottom -/

theorem applied_ne_belowStack {rez : Int64} {entry : VarOrNum} {below : List VarOrNum} :
    applied op rez entry below vars ≠ .error .belowStack := by
  unfold applied
  split
  · split <;> simp
  · simp

theorem applyResolved_ne_belowStack {top left : VarOrNum} {below : List VarOrNum} :
    applyResolved op top left below vars ≠ .error .belowStack := by
  unfold applyResolved
  split
  · exact applied_ne_belowStack
  · split
    · split
      · simp
      · exact applied_ne_belowStack
    · split
      · simp
      · exact applied_ne_belowStack

theorem applyBinary_ne_belowStack {top left : VarOrNum} {below : List VarOrNum} :
    applyBinary eval recursed op top left below vars ≠ .error .belowStack := by
  unfold applyBinary
  split
  · simp
  · intro fault
    rcases bind_eq_error.mp fault with lookup | ⟨_, -, store⟩
    · unfold resolveLeft at lookup
      split at lookup
      · cases lookup
      · exact arithLookupVal_ne_belowStack lookup
    · exact applyResolved_ne_belowStack store

/-- `arith_apply` never reads below the bottom of `numstack`. -/
theorem arithApply_ne_belowStack : arithApply eval recursed op nums vars ≠ .error .belowStack := by
  cases nums with
  | nil => simp [arithApply]
  | cons top below =>
    rw [arithApply_cons]
    intro fault
    rcases bind_eq_error.mp fault with lookup | ⟨resolved, -, rest⟩
    · exact arithLookupVal_ne_belowStack lookup
    · split at rest
      · exact applied_ne_belowStack rest
      · cases rest
      · exact applyBinary_ne_belowStack rest

theorem unwind_ne_belowStack {stack : List Operator} :
    unwind eval recursed op stack nums vars ≠ .error .belowStack := by
  induction stack generalizing nums vars with
  | nil => simp [unwind]
  | cons prev stack ih =>
    unfold unwind
    split
    · simp
    · split
      · simp
      · intro fault
        rcases bind_eq_error.mp fault with apply | ⟨_, -, rest⟩
        · exact arithApply_ne_belowStack apply
        · exact ih rest

theorem outcome_ne_belowStack {stop : Stop} (error : stop ≠ .belowStack) :
    stop.outcome ≠ .belowStack := by
  cases stop <;> simp_all [Stop.outcome]

theorem pushToken_ne_belowStack {token : Token} {scan : Scan} :
    pushToken eval recursed token scan ≠ .belowStack := by
  cases token with
  | name name => simp [pushToken]
  | num val => simp [pushToken]
  | op op =>
    simp only [pushToken, pushOperator, pushMeant, pushBinary]
    split
    · split
      · split
        · next stop unwinding =>
          refine outcome_ne_belowStack ?_
          rintro rfl
          exact unwind_ne_belowStack unwinding
        · split
          · simp
          · split <;> simp
      · simp
    · simp

theorem finish_ne_belowStack {scan : Scan} : finish eval recursed scan ≠ .belowStack := by
  unfold finish
  split
  · split
    · next stop lookup =>
      refine outcome_ne_belowStack ?_
      rintro rfl
      exact arithLookupVal_ne_belowStack lookup
    · simp
  · simp

/-- Where the last token counts as a number, there is an operand. -/
def Grounded (skeleton : Skeleton) : Prop :=
  afterPost skeleton.lasttok = .num → skeleton.names ≠ []

theorem step_ne_belowStack {scan : Scan} (grounded : Grounded scan.skeleton) :
    step eval recursed scan ≠ .belowStack := by
  unfold step
  split
  · split
    · exact finish_ne_belowStack
    · simp
  · split
    · next unknown =>
      unfold isLiteral at unknown
      split at unknown
      · next isNum =>
        have operand : scan.nums ≠ [] := by
          intro empty
          exact grounded (by simp [Scan.skeleton, isNum, afterPost])
            (by simp [Scan.skeleton, empty])
        cases nums : scan.nums with
        | nil => exact absurd nums operand
        | cons top below => simp [nums] at unknown
      · cases unknown
    · split
      · simp
      · exact pushToken_ne_belowStack

end Simulation

/-! ## Bounds -/

/-- The operators on the stack, and those the rest of the text may add. -/
def Skeleton.weight (skeleton : Skeleton) : Nat :=
  skeleton.stack.length + skeleton.expr.length + if skeleton.closing then 0 else 1

theorem Skeleton.apply_ne_nil {op : Operator} {names names' : List Bool}
    (result : Skeleton.apply op names = some names') : names' ≠ [] := by
  unfold Skeleton.apply at result
  split at result
  · cases result
  · split at result
    · cases result; simp
    · split at result <;> cases result
      simp

theorem Skeleton.unwind_some {op : Operator} {stack stack' : List Operator}
    {names names' : List Bool} {matched : Bool} (operand : names ≠ [])
    (result : Skeleton.unwind op stack names = some (matched, stack', names')) :
    names' ≠ [] ∧ stack'.length ≤ stack.length := by
  induction stack generalizing names with
  | nil => cases result; exact ⟨operand, le_refl _⟩
  | cons prev stack ih =>
    unfold Skeleton.unwind at result
    split at result
    · cases result; exact ⟨operand, Nat.le_succ _⟩
    · split at result
      · cases result; exact ⟨operand, le_refl _⟩
      · obtain ⟨names'', applied, rest⟩ := Option.bind_eq_some_iff.mp result
        obtain ⟨still, shorter⟩ := ih (Skeleton.apply_ne_nil applied) rest
        exact ⟨still, Nat.le_succ_of_le shorter⟩

/-- Pushing a token leaves the rest of the text alone. -/
theorem Skeleton.push_expr {token : Token} {skeleton skeleton' : Skeleton}
    (result : Skeleton.push token skeleton = some skeleton') :
    skeleton'.expr = skeleton.expr ∧ skeleton'.closing = skeleton.closing := by
  cases token with
  | name name => cases result; exact ⟨rfl, rfl⟩
  | num val => cases result; exact ⟨rfl, rfl⟩
  | op op =>
    simp only [Skeleton.push, Skeleton.pushMeant] at result
    split at result
    · split at result
      · obtain ⟨⟨matched, stack, names⟩, -, result⟩ := Option.bind_eq_some_iff.mp result
        split at result
        · cases result; exact ⟨rfl, rfl⟩
        · split at result <;> cases result
          exact ⟨rfl, rfl⟩
      · cases result
    · cases result; exact ⟨rfl, rfl⟩

/-- What pushing a token does: an operand is there for it, and at most one operator is
added. -/
theorem Skeleton.push_some {token : Token} {skeleton skeleton' : Skeleton}
    (grounded : Grounded skeleton) (result : Skeleton.push token skeleton = some skeleton') :
    Grounded skeleton' ∧ skeleton'.stack.length ≤ skeleton.stack.length + 1 := by
  cases token with
  | name name => cases result; simp [Grounded]
  | num val => cases result; simp [Grounded]
  | op op =>
    simp only [Skeleton.push, Skeleton.pushMeant] at result
    split at result
    · split at result
      · next binary isNum =>
        obtain ⟨⟨matched, stack, names⟩, unwinding, result⟩ := Option.bind_eq_some_iff.mp result
        obtain ⟨operand, shorter⟩ := Skeleton.unwind_some (grounded isNum) unwinding
        split at result
        · cases result
          exact ⟨fun _ => operand, Nat.le_succ_of_le shorter⟩
        · split at result
          · cases result
          · cases result
            exact ⟨fun _ => operand, Nat.succ_le_succ shorter⟩
      · cases result
    · next unary =>
      cases result
      refine ⟨?_, le_refl _⟩
      intro pushedPost
      refine grounded ?_
      by_contra notNum
      -- after an operator only prefix operators are pushed
      simp only [meant, if_neg notNum] at pushedPost unary
      cases op <;> simp_all [prefixForm, afterPost, isBinary, Operator.prec]

theorem Skeleton.step_some {skeleton skeleton' : Skeleton} (grounded : Grounded skeleton)
    (result : skeleton.step = some skeleton') :
    Grounded skeleton' ∧ skeleton'.weight ≤ skeleton.weight := by
  have trimmed := length_skipWhitespace skeleton.expr
  unfold Skeleton.step at result
  split at result
  · split at result
    · cases result
    · next inText =>
      cases result
      refine ⟨grounded, ?_⟩
      simp [Skeleton.weight, inText, bytes]
  · next c rest text =>
    obtain ⟨⟨token, rest'⟩, read, result⟩ := Option.bind_eq_some_iff.mp result
    have shorter := length_readToken read
    obtain ⟨expr, closing⟩ := Skeleton.push_expr result
    obtain ⟨grounded', stack⟩ :=
      Skeleton.push_some (show Grounded { skeleton with expr := rest' } from grounded) result
    refine ⟨grounded', ?_⟩
    rw [text] at trimmed
    simp only [Skeleton.weight, expr, closing]
    dsimp only at stack
    omega

theorem Skeleton.turns_some {n : Nat} {skeleton skeleton' : Skeleton}
    (grounded : Grounded skeleton) (result : Skeleton.turns n skeleton = some skeleton') :
    Grounded skeleton' ∧ skeleton'.weight ≤ skeleton.weight := by
  induction n generalizing skeleton with
  | zero => cases result; exact ⟨grounded, le_refl _⟩
  | succ n ih =>
    obtain ⟨next, stepped, rest⟩ := Option.bind_eq_some_iff.mp result
    obtain ⟨grounded', lighter⟩ := Skeleton.step_some grounded stepped
    obtain ⟨grounded'', lighter'⟩ := ih grounded' rest
    exact ⟨grounded'', le_trans lighter' lighter⟩

/-- The operators that a string asks for always fit, and nothing is ever read below
the bottom of `numstack`. -/
theorem turns_bounds {eval : Evaluator} {recursed : List Str} {vars : Vars} {expr : Str} {n : Nat}
    {scan : Scan} (reached : turns eval recursed n (startScan expr vars) = some scan) :
    scan.stack.length ≤ expr.length + 2 ∧ step eval recursed scan ≠ .belowStack := by
  have start : Grounded (startScan expr vars).skeleton := by
    simp [Grounded, startScan, Scan.skeleton, afterPost]
  obtain ⟨grounded, light⟩ := Skeleton.turns_some start (turns_skeleton reached)
  refine ⟨?_, step_ne_belowStack grounded⟩
  simp only [Skeleton.weight, Scan.skeleton, startScan, List.length_singleton] at light
  simp at light
  omega

/-! ## Operands side by side -/

/-- The skeleton before the first turn. -/
def startSkeleton (text : Str) : Skeleton := ⟨text, false, .lparen, [], [.lparen]⟩

/-- A letter, a digit or an underscore comes next. -/
def startsInName (s : Str) : Bool := s.head?.any isInName

/-- No number that is read is directly followed by a letter, a digit or an underscore. -/
def Separated (text : Str) : Prop :=
  ∀ n skeleton literal val rest, Skeleton.turns n (startSkeleton text) = some skeleton →
    readToken literal (skipWhitespace skeleton.expr) = some (.num val, rest) →
      startsInName rest = false

/-- Every operand has taken two characters off the text, the last one only one where the
text goes on with an operator or a space. -/
def Spaced (length : Nat) (skeleton : Skeleton) : Prop :=
  if skeleton.closing then
    2 * skeleton.names.length ≤ length + 1 ∧ (skeleton.expr = bytes [')'] ∨ skeleton.expr = [])
  else 2 * skeleton.names.length + skeleton.expr.length ≤ length ∨
    2 * skeleton.names.length + skeleton.expr.length ≤ length + 1 ∧
      startsInName skeleton.expr = false

theorem Skeleton.apply_length {op : Operator} {names names' : List Bool}
    (result : Skeleton.apply op names = some names') : names'.length ≤ names.length := by
  unfold Skeleton.apply at result
  split at result
  · cases result
  · split at result
    · cases result; simp
    · split at result <;> cases result
      simp

theorem Skeleton.unwind_length {op : Operator} {stack stack' : List Operator}
    {names names' : List Bool} {matched : Bool}
    (result : Skeleton.unwind op stack names = some (matched, stack', names')) :
    names'.length ≤ names.length := by
  induction stack generalizing names with
  | nil => cases result; exact le_refl _
  | cons prev stack ih =>
    unfold Skeleton.unwind at result
    split at result
    · cases result; exact le_refl _
    · split at result
      · cases result; exact le_refl _
      · obtain ⟨names'', applied, rest⟩ := Option.bind_eq_some_iff.mp result
        exact le_trans (ih rest) (Skeleton.apply_length applied)

/-- An operator adds no operand. -/
theorem Skeleton.push_op_length {op : Operator} {skeleton skeleton' : Skeleton}
    (result : Skeleton.push (.op op) skeleton = some skeleton') :
    skeleton'.names.length ≤ skeleton.names.length := by
  simp only [Skeleton.push, Skeleton.pushMeant] at result
  split at result
  · split at result
    · obtain ⟨⟨matched, stack, names⟩, unwinding, result⟩ := Option.bind_eq_some_iff.mp result
      have fewer := Skeleton.unwind_length unwinding
      split at result
      · cases result; exact fewer
      · split at result <;> cases result
        exact fewer
    · cases result
  · cases result; exact le_refl _

theorem Skeleton.push_length {token : Token} {skeleton skeleton' : Skeleton}
    (result : Skeleton.push token skeleton = some skeleton') :
    skeleton'.names.length ≤ skeleton.names.length + 1 := by
  cases token with
  | name name => cases result; exact le_refl _
  | num val => cases result; exact le_refl _
  | op op => exact Nat.le_succ_of_le (Skeleton.push_op_length result)

theorem startsInName_dropWhile (s : Str) : startsInName (s.dropWhile isInName) = false := by
  induction s with
  | nil => rfl
  | cons c rest ih =>
    rw [List.dropWhile_cons]
    split
    · exact ih
    · next other => simpa [startsInName] using other

/-- A name or a number starts with a letter, a digit or an underscore, and a name does not
end before one. -/
theorem readToken_operand {literal : Bool} {s rest : Str} {token : Token}
    (read : readToken literal s = some (token, rest)) (operand : ∀ op, token ≠ .op op) :
    startsInName s = true ∧ ∀ name, token = .name name → startsInName rest = false := by
  unfold readToken splitName at read
  cases s with
  | nil => simp at read
  | cons c tail =>
    dsimp only at read
    split at read
    · next named =>
      split at named
      · next isName_ =>
        obtain ⟨-, rfl⟩ := Prod.mk.inj named
        obtain ⟨-, rfl⟩ := Prod.mk.inj (Option.some.inj read)
        refine ⟨?_, fun _ _ => startsInName_dropWhile tail⟩
        simp only [isName] at isName_
        simp [startsInName, isInName, isName_]
      · simp at named
    · split at read
      · next digit =>
        obtain ⟨rfl, -⟩ := Prod.mk.inj (Option.some.inj read)
        exact ⟨by simp [startsInName, isInName, digit], nofun⟩
      · split at read
        · obtain ⟨rfl, -⟩ := Prod.mk.inj (Option.some.inj read)
          exact absurd rfl (operand _)
        · obtain ⟨⟨op, after⟩, found, same⟩ := Option.map_eq_some_iff.mp read
          obtain ⟨rfl, -⟩ := Prod.mk.inj same
          exact absurd rfl (operand op)

/-- Where a letter, a digit or an underscore comes next, no space has been skipped, or one
character at least. -/
theorem skipWhitespace_shorter {s : Str} (before : startsInName s = false)
    (after : startsInName (skipWhitespace s) = true) :
    (skipWhitespace s).length < s.length := by
  cases s with
  | nil => cases before.symm.trans after
  | cons c rest =>
    unfold skipWhitespace at after ⊢
    rw [List.dropWhile_cons] at after ⊢
    split at after
    · next space =>
      rw [if_pos space]
      exact Nat.lt_succ_of_le (length_skipWhitespace rest)
    · exact absurd (before.symm.trans after) (by decide)

/-- One turn keeps operands apart. -/
theorem Skeleton.step_spaced {length : Nat} {skeleton skeleton' : Skeleton}
    (spaced : Spaced length skeleton) (result : skeleton.step = some skeleton')
    (apart : ∀ literal val rest, readToken literal (skipWhitespace skeleton.expr) =
      some (.num val, rest) → startsInName rest = false) : Spaced length skeleton' := by
  have trimmed := length_skipWhitespace skeleton.expr
  unfold Skeleton.step at result
  split at result
  · split at result
    · cases result
    · next inText =>
      cases result
      rw [Spaced, if_neg inText] at spaced
      rw [Spaced, if_pos rfl]
      exact ⟨by dsimp only; omega, .inl rfl⟩
  · next c rest text =>
    obtain ⟨⟨token, rest'⟩, read, result⟩ := Option.bind_eq_some_iff.mp result
    have shorter := length_readToken read
    have atMost := Skeleton.push_length result
    obtain ⟨expr, closing⟩ := Skeleton.push_expr result
    rw [← text] at read shorter
    dsimp only at read atMost expr closing
    unfold Spaced at spaced ⊢
    rw [expr, closing]
    by_cases operator : ∃ op, token = .op op
    · obtain ⟨op, rfl⟩ := operator
      have operands := Skeleton.push_op_length result
      dsimp only at operands
      split at spaced
      · next closed =>
        rw [if_pos closed]
        refine ⟨by omega, .inr (List.length_eq_zero_iff.mp ?_)⟩
        have short : skeleton.expr.length ≤ 1 := by
          rcases spaced.2 with text | text <;> simp [text, bytes]
        omega
      · next inText =>
        rw [if_neg inText]
        exact .inl (by omega)
    · obtain ⟨starts, ends⟩ := readToken_operand read fun op same => operator ⟨op, same⟩
      have ended : startsInName rest' = false := by
        cases token with
        | name name => exact ends name rfl
        | num val => exact apart _ val rest' read
        | op op => exact absurd ⟨op, rfl⟩ operator
      split at spaced
      · rcases spaced.2 with text | text <;> (rw [text] at starts; cases starts)
      · next inText =>
        rw [if_neg inText]
        refine .inr ⟨?_, ended⟩
        rcases spaced with room | ⟨tight, apart⟩
        · omega
        · have := skipWhitespace_shorter apart starts
          omega

theorem Skeleton.turns_spaced {length n : Nat} {skeleton skeleton' : Skeleton}
    (spaced : Spaced length skeleton) (result : Skeleton.turns n skeleton = some skeleton')
    (apart : ∀ n reached literal val rest, Skeleton.turns n skeleton = some reached →
      readToken literal (skipWhitespace reached.expr) = some (.num val, rest) →
        startsInName rest = false) : Spaced length skeleton' := by
  induction n generalizing skeleton with
  | zero => cases result; exact spaced
  | succ n ih =>
    obtain ⟨next, stepped, rest⟩ := Option.bind_eq_some_iff.mp result
    refine ih (Skeleton.step_spaced spaced stepped fun literal val rest read => ?_) rest
      fun n reached literal val rest after read => ?_
    · exact apart 0 skeleton literal val rest rfl read
    · refine apart (n + 1) reached literal val rest ?_ read
      rw [Skeleton.turns, stepped, Option.bind_some, after]

/-- Operands that are kept apart fit. -/
theorem Separated.fits {text : Str} (separated : Separated text) {n : Nat} {skeleton : Skeleton}
    (result : Skeleton.turns n (startSkeleton text) = some skeleton) :
    skeleton.names.length ≤ (text.length + 2) / 2 := by
  have start : Spaced text.length (startSkeleton text) := .inl (by simp [startSkeleton])
  have spaced := Skeleton.turns_spaced start result separated
  unfold Spaced at spaced
  split at spaced <;> omega

end Busybox.Shell
