import Busybox.Test.Parser
import Busybox.Lib.Fallible

/-!
# The grammar of `test`

Derivations of the grammar are trees, with any texts for operands. The parser follows
a derivation whose operands stand where it does not take them for something else: this
is `Placed`, and `Expr.reads` is the run over such a derivation.
-/

namespace Busybox.Test

open Fallible

inductive Level where
  | oexpr | aexpr | nexpr | primary
  deriving DecidableEq

/-- Derivations. The unary and the binary operators are those of `ops_table`. -/
inductive Expr : Level → Type where
  | or (left : Expr .aexpr) (right : Expr .oexpr) : Expr .oexpr
  | ofAexpr (only : Expr .aexpr) : Expr .oexpr
  | and (left : Expr .nexpr) (right : Expr .aexpr) : Expr .aexpr
  | ofNexpr (only : Expr .nexpr) : Expr .aexpr
  | not (negated : Expr .primary) : Expr .nexpr
  | ofPrimary (only : Expr .primary) : Expr .nexpr
  | unary (op : Text) (opnd : Text) (meaning : UnaryOp)
      (isOp : checkOperator (some op) = .unary meaning) : Expr .primary
  | binary (opnd1 op opnd2 : Text) (meaning : BinaryOp)
      (isOp : checkOperator (some op) = .binary meaning) : Expr .primary
  | operand (opnd : Text) : Expr .primary
  | paren (inner : Expr .oexpr) : Expr .primary

namespace Expr

/-- The arguments that a derivation derives. -/
def args {level : Level} : Expr level → List Text
  | or left right => left.args ++ ascii "-o" :: right.args
  | ofAexpr only => only.args
  | and left right => left.args ++ ascii "-a" :: right.args
  | ofNexpr only => only.args
  | not negated => ascii "!" :: negated.args
  | ofPrimary only => only.args
  | unary op opnd _ _ => [op, opnd]
  | binary opnd1 op opnd2 _ _ => [opnd1, op, opnd2]
  | operand opnd => [opnd]
  | paren inner => ascii "(" :: (inner.args ++ [ascii ")"])

/-- The last of the arguments. -/
def last {level : Level} : Expr level → Text
  | or _ right => right.last
  | ofAexpr only => only.last
  | and _ right => right.last
  | ofNexpr only => only.last
  | not negated => negated.last
  | ofPrimary only => only.last
  | unary _ opnd _ _ => opnd
  | binary _ _ opnd2 _ _ => opnd2
  | operand opnd => opnd
  | paren _ => ascii ")"

/-- The truth value, or the complaint about an operand that is no number. Both sides of
`-a` and `-o` are evaluated. -/
def truth (w : World) {level : Level} : Expr level → Except Complaint Bool
  | or left right => do
    let l ← left.truth w
    let r ← right.truth w
    return l || r
  | ofAexpr only => only.truth w
  | and left right => do
    let l ← left.truth w
    let r ← right.truth w
    return l && r
  | ofNexpr only => only.truth w
  | not negated => do
    let truth ← negated.truth w
    return !truth
  | ofPrimary only => only.truth w
  | unary _ opnd meaning _ => unaryExpression w meaning opnd
  | binary opnd1 _ opnd2 meaning _ => compareOperands w meaning opnd1 opnd2
  | operand opnd => .ok (opnd ≠ [])
  | paren inner => inner.truth w

/-- The operands stand where they are taken for operands, when `rest` comes after the
derivation: "!" and "(" do not begin a primary, except that the last argument may be "!";
a unary operator stands alone only as the last argument, and takes a binary operator
for its operand only there. -/
def Placed {level : Level} : Expr level → List Text → Prop
  | or left right, rest => left.Placed (ascii "-o" :: (right.args ++ rest)) ∧ right.Placed rest
  | ofAexpr only, rest => only.Placed rest
  | and left right, rest => left.Placed (ascii "-a" :: (right.args ++ rest)) ∧ right.Placed rest
  | ofNexpr only, rest => only.Placed rest
  | not negated, rest => negated.Placed rest
  | ofPrimary only, rest => only.Placed rest
  | unary _ opnd _ _, rest => (checkOperator (some opnd)).isBinop → rest = []
  | binary opnd1 _ _ _ _, _ => opnd1 ≠ ascii "!" ∧ opnd1 ≠ ascii "("
  | operand opnd, rest =>
    opnd ≠ ascii "(" ∧
      (opnd = ascii "!" ∨ (∃ meaning, checkOperator (some opnd) = .unary meaning) → rest = [])
  | paren inner, rest => inner.Placed (ascii ")" :: rest)

section

attribute [local simp] args last truth Placed

theorem args_ne_nil {level : Level} (e : Expr level) : e.args ≠ [] := by
  induction e <;> simp_all

end

end Expr

/-- The texts that a token stands for, where there is only one. -/
theorem checkOperator_facts :
    checkOperator (some (ascii "!")) = .unot ∧ checkOperator (some (ascii "-a")) = .band ∧
      checkOperator (some (ascii "-o")) = .bor ∧ checkOperator (some (ascii "(")) = .lparen ∧
      checkOperator (some (ascii ")")) = .rparen := by
  decide

theorem checkOperator_mem {s : Text} {token : Token} (found : checkOperator (some s) = token)
    (other : token ≠ .operand) : (s, token) ∈ opsTable := by
  rw [checkOperator] at found
  cases entry : opsTable.find? fun entry => entry.1 = s with
  | none =>
    rw [entry] at found
    exact absurd found.symm other
  | some pair =>
    rw [entry] at found
    have inTable := List.mem_of_find?_eq_some entry
    have same := List.find?_some entry
    simp only [decide_eq_true_eq] at same
    change pair.2 = token at found
    rwa [← same, ← found]

/-- No operator is the end of the arguments, and the operators that the parser itself looks
for have one text each. -/
theorem opsTable_facts : ∀ entry ∈ opsTable, entry.2 ≠ .eoi ∧
    (entry.2 = .unot → entry.1 = ascii "!") ∧ (entry.2 = .lparen → entry.1 = ascii "(") ∧
    (entry.2 = .rparen → entry.1 = ascii ")") ∧ (entry.2 = .band → entry.1 = ascii "-a") ∧
    (entry.2 = .bor → entry.1 = ascii "-o") := by
  decide

theorem checkOperator_ne_eoi (s : Text) : checkOperator (some s) ≠ .eoi := by
  intro found
  exact (opsTable_facts _ (checkOperator_mem found (by decide))).1 rfl

theorem checkOperator_unot {s : Text} : checkOperator (some s) = .unot ↔ s = ascii "!" := by
  constructor
  · intro found
    exact (opsTable_facts _ (checkOperator_mem found (by decide))).2.1 rfl
  · rintro rfl
    exact checkOperator_facts.1

theorem checkOperator_lparen {s : Text} : checkOperator (some s) = .lparen ↔ s = ascii "(" := by
  constructor
  · intro found
    exact (opsTable_facts _ (checkOperator_mem found (by decide))).2.2.1 rfl
  · rintro rfl
    exact checkOperator_facts.2.2.2.1

end Busybox.Test
