import Busybox.Coreutils.ExprGrammar

/-!
# The steps of `expr`

What the documentation says of a comparison and of an arithmetic operation, and where the
code does it. `eval2` converts each operand that is an integer, also where the other one is
none, so that a comparison of strings sees the integer in its shortest spelling.
-/

namespace Busybox.Coreutils.Expr

/-- Comparisons are arithmetic if both operands are integers, else they are those of the strings.
An arithmetic operation has the value that its operands have. -/
def prescribed : Step → Except Stop Int
  | .compare op l r =>
    let holds :=
      match toarith l, toarith r with
      | some li, some ri => op.holds li ri
      | _, _ => op.holds (Sort.strcmp (tostring l) (tostring r)) 0
    .ok (if holds then 1 else 0)
  | .arithmetic op l r =>
    match toarith l, toarith r with
    | some li, some ri =>
      match op with
      | .add => .ok (li + ri)
      | .sub => .ok (li - ri)
      | .mul => .ok (li * ri)
      | .div => if ri = 0 then .error (.die (ascii "division by zero")) else .ok (li.tdiv ri)
      | .rem => if ri = 0 then .error (.die (ascii "division by zero")) else .ok (li.tmod ri)
    | _, _ => .error (.die (ascii "non-numeric argument"))

/-- Of two operands that are not both integers, one that is an integer compares as it is written;
and a result has 64 bits, where for a quotient the operands are looked at. -/
def Harmless : Step → Prop
  | .compare op l r =>
    match toarith l, toarith r with
    | some _, some _ => True
    | _, _ =>
      op.holds (Sort.strcmp (tostring (converted l)) (tostring (converted r))) 0 =
        op.holds (Sort.strcmp (tostring l) (tostring r)) 0
  | .arithmetic op l r =>
    match toarith l, toarith r with
    | some li, some ri =>
      match op with
      | .add => arithMin ≤ li + ri ∧ li + ri ≤ arithMax
      | .sub => arithMin ≤ li - ri ∧ li - ri ≤ arithMax
      | .mul => arithMin ≤ li * ri ∧ li * ri ≤ arithMax
      | .div | .rem => ¬(li = arithMin ∧ ri = -1)
    | _, _ => True

/-! ## One step -/

variable {l r : Value}

theorem converted_integer {li : Int} (is : toarith l = some li) : converted l = .integer li := by
  rw [converted, is]
  rfl

theorem converted_other (not : toarith l = none) : converted l = l := by
  rw [converted, not]
  rfl

/-- What is no integer is a string. -/
theorem string_of_toarith (not : toarith l = none) : ∃ s, l = .string s := by
  cases l with
  | integer i => cases not
  | string s => exact ⟨s, rfl⟩

/-- A comparison of operands that are not both integers is one of strings. -/
theorem cmpCommon_strings (not : toarith l = none ∨ toarith r = none) (op : CompareOp) :
    cmpCommon (converted l) (converted r) op =
      if op.holds (Sort.strcmp (tostring (converted l)) (tostring (converted r))) 0 then 1
      else 0 := by
  rcases not with not | not
  · obtain ⟨s, rfl⟩ := string_of_toarith not
    rw [converted_other not]
    rfl
  · obtain ⟨s, rfl⟩ := string_of_toarith not
    rw [converted_other not]
    cases converted l <;> rfl

theorem ok_ite_inj (p q : Bool) :
    (.ok (if p then 1 else 0) : Except Stop Int) = .ok (if q then 1 else 0) ↔ p = q := by
  cases p <;> cases q <;> simp

theorem inRange_iff (value : Int) :
    inRange value = .ok value ↔ arithMin ≤ value ∧ value ≤ arithMax := by
  unfold inRange
  split
  case isTrue within => exact ⟨fun _ => within, fun _ => rfl⟩
  case isFalse outside => exact ⟨nofun, fun within => absurd within outside⟩

/-- A quotient or a remainder. -/
theorem quotient_iff (li ri value : Int) (zero : Stop) :
    ((if ri = 0 then .error zero
      else if li = arithMin ∧ ri = -1 then .error .undefined
      else .ok value : Except Stop Int) = if ri = 0 then .error zero else .ok value) ↔
      ¬(li = arithMin ∧ ri = -1) := by
  by_cases isZero : ri = 0
  · subst isZero
    rw [if_pos rfl]
    exact ⟨fun _ overflow => absurd overflow.2 (by decide), fun _ => rfl⟩
  · rw [if_neg isZero, if_neg isZero]
    split
    case isTrue overflow => exact ⟨nofun, fun not => absurd overflow not⟩
    case isFalse not => exact ⟨fun _ => not, fun _ => rfl⟩

/-- The code does what the documentation says exactly in the steps that are harmless. -/
theorem perform_iff (step : Step) : perform step = prescribed step ↔ Harmless step := by
  cases step with
  | compare op l r =>
    have strings (not : toarith l = none ∨ toarith r = none) :
        (.ok (cmpCommon (converted l) (converted r) op) : Except Stop Int) =
            .ok (if op.holds (Sort.strcmp (tostring l) (tostring r)) 0 then 1 else 0) ↔
          op.holds (Sort.strcmp (tostring (converted l)) (tostring (converted r))) 0 =
            op.holds (Sort.strcmp (tostring l) (tostring r)) 0 := by
      rw [cmpCommon_strings not]
      exact ok_ite_inj _ _
    simp only [perform, prescribed, Harmless]
    cases left : toarith l with
    | none => exact strings (.inl left)
    | some li =>
      cases right : toarith r with
      | none => exact strings (.inr right)
      | some ri =>
        rw [converted_integer left, converted_integer right]
        exact ⟨fun _ => trivial, fun _ => rfl⟩
  | arithmetic op l r =>
    simp only [perform, prescribed, Harmless, arithmeticCommon]
    cases toarith l with
    | none => exact ⟨fun _ => trivial, fun _ => rfl⟩
    | some li =>
      cases toarith r with
      | none => exact ⟨fun _ => trivial, fun _ => rfl⟩
      | some ri =>
        cases op with
        | add | sub | mul => exact inRange_iff _
        | div | rem => exact quotient_iff li ri _ _

/-- Where something is prescribed it is defined. -/
theorem prescribed_ends (step : Step) :
    Fallible.Ends (prescribed step) (fun _ => True) Dies := by
  cases step with
  | compare op l r => exact trivial
  | arithmetic op l r =>
    have quotient (ri value : Int) : Fallible.Ends
        (if ri = 0 then .error (.die (ascii "division by zero")) else .ok value)
        (fun _ => True) Dies := by
      split
      · exact ⟨_, rfl⟩
      · exact trivial
    simp only [prescribed]
    cases toarith l with
    | none => exact ⟨_, rfl⟩
    | some li =>
      cases toarith r with
      | none => exact ⟨_, rfl⟩
      | some ri =>
        cases op with
        | add | sub | mul => exact trivial
        | div | rem => exact quotient ri _

/-! ## The documentation -/

/-- The documented value of an operator. -/
def applied (regcomp : Regcomp) (l r : Value) : Operator → Except Stop Value
  | .or => .ok (if null l then r else l)
  | .and => .ok (if null l ∨ null r then .integer 0 else l)
  | .compare op => Value.integer <$> prescribed (.compare op l r)
  | .arithmetic op => Value.integer <$> prescribed (.arithmetic op l r)
  | .colon => docolon regcomp l r

/-- The documented value of a syntax tree. -/
def Tree.value (regcomp : Regcomp) : Tree → Except Stop Value
  | operand arg => .ok (.string arg)
  | length string => do
    let r ← string.value regcomp
    .ok (Expr.length r)
  | match_ string pattern => do
    let l ← string.value regcomp
    let r ← pattern.value regcomp
    docolon regcomp l r
  | index string chars => do
    let l ← string.value regcomp
    let r ← chars.value regcomp
    .ok (Expr.index l r)
  | substr string pos len => do
    let l ← string.value regcomp
    let i1 ← pos.value regcomp
    let i2 ← len.value regcomp
    .ok (Expr.substr l i1 i2)
  | binary op left right => do
    let l ← left.value regcomp
    let r ← right.value regcomp
    applied regcomp l r op

theorem run_liftExcept {α : Type} (answer : Step → Except Stop Int) (result : Except Stop α) :
    (liftExcept result).run answer = result := by
  cases result <;> rfl

theorem run_apply (regcomp : Regcomp) (l r : Value) (op : Operator) :
    (apply regcomp l r op).run prescribed = applied regcomp l r op := by
  cases op with
  | or | and => rfl
  | compare | arithmetic => exact Attempt.run_map _ _ _
  | colon => exact run_liftExcept _ _

/-- With the prescribed steps the evaluation of a tree gives its documented value. -/
theorem Tree.run_evaluation (regcomp : Regcomp) (tree : Tree) :
    (tree.evaluation regcomp).run prescribed = tree.value regcomp := by
  induction tree with
  | operand arg => rfl
  | length string ih => simp only [evaluation, value, Attempt.run_bind, ih, Attempt.run_pure]
  | match_ string pattern ih ih' =>
    simp only [evaluation, value, Attempt.run_bind, ih, ih', run_liftExcept]
  | index string chars ih ih' =>
    simp only [evaluation, value, Attempt.run_bind, ih, ih', Attempt.run_pure]
  | substr string pos len ih ih' ih'' =>
    simp only [evaluation, value, Attempt.run_bind, ih, ih', ih'', Attempt.run_pure]
  | binary op left right ih ih' =>
    simp only [evaluation, value, Attempt.run_bind, ih, ih', run_apply]

/-- A list of arguments is evaluated as documented: as the tree that it derives, if it derives
one, and with every step as prescribed and none undefined. -/
structure Documented (regcomp : Regcomp) (args : List Text) : Prop where
  derived : ∀ tree, Derives .eval args tree →
    (exprMain regcomp args).run perform =
      (fun v => (tostring v ++ [10], null v)) <$> tree.value regcomp
  other : (¬∃ tree, Derives .eval args tree) →
    ∃ message, (exprMain regcomp args).run perform = .error (.die message)
  steps : ∀ step ∈ (exprMain regcomp args).asked perform, perform step = prescribed step
  defined : ∀ step ∈ (exprMain regcomp args).asked perform, perform step ≠ .error .undefined

/-- A bare operand at a level with operators. -/
theorem derives_operand {arg : Text} (notOpen : arg ≠ ascii "(") (notClose : arg ≠ ascii ")")
    (notKeyword : keyword arg = none) {level tighter : Level}
    (next : level.tighter = some tighter) : Derives level [arg] (.operand arg) := by
  have bare : Derives .eval6 [arg] (.operand arg) := .plain notKeyword (.operand notOpen notClose)
  have level5 : Derives .eval5 [arg] (.operand arg) := .tighter rfl bare
  have level4 : Derives .eval4 [arg] (.operand arg) := .tighter rfl level5
  have level3 : Derives .eval3 [arg] (.operand arg) := .tighter rfl level4
  have level2 : Derives .eval2 [arg] (.operand arg) := .tighter rfl level3
  have level1 : Derives .eval1 [arg] (.operand arg) := .tighter rfl level2
  cases level <;> first | assumption | exact .tighter rfl level1 | cases next

end Busybox.Coreutils.Expr
