import Busybox.Test.Posix

/-!
# What `test` returns

For up to four arguments `test` returns what POSIX prescribes exactly where the
arguments are not misread, and for more the truth value of each derivation whose
operands are in place, as long as the special cases have not dropped a closing
parenthesis.
-/

namespace Busybox.Test

open Fallible

variable {w : World}

@[simp] theorem loneChar_bang (arg : Text) : loneChar arg 33 = true ↔ arg = ascii "!" := by
  simp [loneChar, show ascii "!" = [33] from rfl]

@[simp] theorem loneChar_lparen (arg : Text) : loneChar arg 40 = true ↔ arg = ascii "(" := by
  simp [loneChar, show ascii "(" = [40] from rfl]

@[simp] theorem loneChar_rparen (arg : Text) : loneChar arg 41 = true ↔ arg = ascii ")" := by
  simp [loneChar, show ascii ")" = [41] from rfl]

/-- A primary alone, and a negated one. -/
def Expr.alone (p : Expr .primary) : Expr .oexpr := .ofAexpr (.ofNexpr (.ofPrimary p))

def Expr.negated (p : Expr .primary) : Expr .oexpr := .ofAexpr (.ofNexpr (.not p))

theorem agrees_exitOf (truth : Except Complaint Bool) : Agrees (exitOf truth) truth := by
  cases truth with
  | error complaint => exact ⟨some complaint, rfl⟩
  | ok value => exact ⟨none, rfl⟩

theorem not_agrees_of_fails {outcome : Outcome} (fails : ∃ message, outcome = .exit 2 message)
    (value : Bool) : ¬ Agrees outcome (.ok value) := by
  obtain ⟨message, rfl⟩ := fails
  rintro ⟨message', same⟩
  have two : 2 = status value := (Outcome.exit.inj same).1
  cases value <;> cases two

theorem exitOf_special (negate value : Bool) :
    specialOutcome negate (.ok value) = exitOf (.ok (value != negate)) := rfl

theorem binop_outcome (negate : Bool) {op : Text} {meaning : BinaryOp}
    (isOp : checkOperator (some op) = .binary meaning) (opnd1 opnd2 : Text) :
    specialOutcome negate ((binop w [opnd1, op, opnd2]).map (·.1)) =
      exitOf ((compareOperands w meaning opnd1 opnd2).map (· != negate)) := by
  rw [binop_cons isOp]
  cases compareOperands w meaning opnd1 opnd2 <;> rfl

/-- The unary tests that are no errors. -/
theorem unaryExpression_isOk (meaning : UnaryOp) (opnd : Text) :
    (∃ value, unaryExpression w meaning opnd = .ok value) ↔
      (meaning = .filtt → ∃ n, getn opnd = .ok n) := by
  by_cases isNumber : meaning = .filtt
  · subst isNumber
    simp only [unaryExpression, forall_const]
    cases getn opnd <;> simp [Except.map]
  · constructor
    · intro _ same
      exact absurd same isNumber
    · intro _
      cases meaning
      case filtt => exact absurd rfl isNumber
      all_goals exact ⟨_, rfl⟩

theorem generalCase_unary {op : Text} {meaning : UnaryOp}
    (isOp : checkOperator (some op) = .unary meaning) (opnd : Text) :
    generalCase w [op, opnd] = exitOf (unaryExpression w meaning opnd) :=
  generalCase_reads (.alone (.unary op opnd meaning isOp)) fun _ => rfl

theorem generalCase_not_unary {op : Text} {meaning : UnaryOp}
    (isOp : checkOperator (some op) = .unary meaning) (opnd : Text) :
    generalCase w [ascii "!", op, opnd] = exitOf ((unaryExpression w meaning opnd).map not) := by
  have run := @generalCase_reads w (.negated (.unary op opnd meaning isOp)) fun _ => rfl
  refine run.trans ?_
  simp only [Expr.negated, Expr.truth]
  cases unaryExpression w meaning opnd <;> rfl

theorem generalCase_not_not_unary {op : Text} {meaning : UnaryOp}
    (isOp : checkOperator (some op) = .unary meaning) (opnd : Text) :
    generalCase w [ascii "!", ascii "!", op, opnd] = exitOf (unaryExpression w meaning opnd) := by
  have parsed : nexpr w 4 (checkOperator (some (ascii "!"))) [ascii "!", ascii "!", op, opnd] =
      result (unaryExpression w meaning opnd) opnd [] := by
    rw [nexpr_bang, nexpr_bang, nexpr_unary isOp opnd fun _ => rfl]
    cases unaryExpression w meaning opnd with
    | error complaint => rfl
    | ok value => cases value <;> rfl
  have run : oexpr w 4 (checkOperator (some (ascii "!"))) [ascii "!", ascii "!", op, opnd] =
      result (unaryExpression w meaning opnd) opnd [] := by
    rw [oexpr, aexpr, parsed]
    cases unaryExpression w meaning opnd <;> rfl
  have whole : oexpr w [ascii "!", ascii "!", op, opnd].length
      (checkOperator [ascii "!", ascii "!", op, opnd].head?) [ascii "!", ascii "!", op, opnd] =
      result (unaryExpression w meaning opnd) opnd [] := run
  rw [generalCase, whole]
  cases unaryExpression w meaning opnd <;> rfl

theorem connective_cases {op : Text} (connective : Connective op) :
    op = ascii "-a" ∧ checkOperator (some op) = .band ∨
      op = ascii "-o" ∧ checkOperator (some op) = .bor := by
  rcases connective with token | token
  · exact .inl ⟨(opsTable_facts _ (checkOperator_mem token (by decide))).2.2.2.2.1 rfl, token⟩
  · exact .inr ⟨(opsTable_facts _ (checkOperator_mem token (by decide))).2.2.2.2.2 rfl, token⟩

/-- Two operands around a connective, the second one last. -/
def joined (op : Text) (left right : Bool) : Bool :=
  if op = ascii "-a" then left && right else left || right

theorem placed_operand {opnd : Text} (plain : ¬ Opens opnd) (rest : List Text) :
    (Expr.operand opnd).Placed rest :=
  ⟨fun same => plain (.inr (.inl same)), fun opens =>
    absurd (opens.elim .inl fun meaning => .inr (.inr meaning)) plain⟩

theorem generalCase_connective {arg1 op arg3 : Text} (plain : ¬ Opens arg1)
    (connective : Connective op) (notParen : arg3 ≠ ascii "(") :
    generalCase w [arg1, op, arg3] = exitOf (.ok (joined op (arg1 ≠ []) (arg3 ≠ []))) := by
  have last : (Expr.operand arg3).Placed [] := ⟨notParen, fun _ => rfl⟩
  rcases connective_cases connective with ⟨rfl, -⟩ | ⟨rfl, -⟩
  · exact generalCase_reads (.ofAexpr (.and (.ofPrimary (.operand arg1))
      (.ofNexpr (.ofPrimary (.operand arg3))))) ⟨placed_operand plain _, last⟩
  · exact generalCase_reads (.or (.ofNexpr (.ofPrimary (.operand arg1)))
      (.ofAexpr (.ofNexpr (.ofPrimary (.operand arg3))))) ⟨placed_operand plain _, last⟩

/-- "!" is applied to the first operand alone. -/
theorem generalCase_not_connective {arg1 op arg3 : Text} (plain : ¬ Opens arg1)
    (connective : Connective op) (notParen : arg3 ≠ ascii "(") :
    generalCase w [ascii "!", arg1, op, arg3] =
      exitOf (.ok (joined op (!decide (arg1 ≠ [])) (arg3 ≠ []))) := by
  have last : (Expr.operand arg3).Placed [] := ⟨notParen, fun _ => rfl⟩
  rcases connective_cases connective with ⟨rfl, -⟩ | ⟨rfl, -⟩
  · exact generalCase_reads (.ofAexpr (.and (.not (.operand arg1))
      (.ofNexpr (.ofPrimary (.operand arg3))))) ⟨placed_operand plain _, last⟩
  · exact generalCase_reads (.or (.ofNexpr (.not (.operand arg1)))
      (.ofAexpr (.ofNexpr (.ofPrimary (.operand arg3))))) ⟨placed_operand plain _, last⟩

theorem generalCase_paren {arg : Text} (plain : ¬ Opens arg) :
    generalCase w [ascii "(", arg, ascii ")"] = exitOf (.ok (arg ≠ [])) :=
  generalCase_reads (.alone (.paren (.alone (.operand arg)))) (placed_operand plain _)

theorem generalCase_not_paren {arg : Text} (plain : ¬ Opens arg) :
    generalCase w [ascii "!", ascii "(", arg, ascii ")"] = exitOf (.ok (!decide (arg ≠ []))) :=
  generalCase_reads (.negated (.paren (.alone (.operand arg)))) (placed_operand plain _)

theorem generalCase_leaves {args : List Text}
    (leaves : Leaves (oexpr w args.length (checkOperator args.head?) args)) :
    ∃ message, generalCase w args = .exit 2 message := by
  obtain ⟨complaint, same⟩ := leaves
  exact ⟨complaint, by rw [generalCase, same]; rfl⟩

/-- What is misread is an error, also behind "!". -/
theorem misreadThree_fails {arg1 arg2 arg3 : Text} (misread : MisreadThree arg1 arg2 arg3) :
    (∃ message, generalCase w [arg1, arg2, arg3] = .exit 2 message) ∧
      ∃ message, generalCase w [ascii "!", arg1, arg2, arg3] = .exit 2 message := by
  have fails : ∀ {left}, StopsBefore [left]
        (nexpr w 3 (checkOperator (some arg1)) [arg1, arg2, arg3]) →
      (∃ message, generalCase w [arg1, arg2, arg3] = .exit 2 message) ∧
        ∃ message, generalCase w [ascii "!", arg1, arg2, arg3] = .exit 2 message :=
    fun stops => ⟨generalCase_fails stops, generalCase_fails (nexpr_bang_stopsBefore stops)⟩
  rcases misread with ⟨connective, rfl | ⟨meaning, isOp⟩ | ⟨rfl, unclosed⟩ | ⟨notParen, rfl⟩⟩ |
    ⟨rfl, rfl, opens⟩
  · exact fails (nexpr_bang_stopsBefore (nexpr_connective connective arg3))
  · exact fails (nexpr_unary_connective isOp connective arg3)
  · exact @fails [] (.inl (nexpr_paren_connective connective unclosed))
  · by_cases opens : Opens arg1
    · rcases opens with rfl | same | ⟨meaning, isOp⟩
      · exact fails (nexpr_bang_stopsBefore (nexpr_connective connective _))
      · exact absurd same notParen
      · exact fails (nexpr_unary_connective isOp connective _)
    · have before := @nexpr_before_connective w 3 _ _ opens connective [ascii "("]
      have behind : nexpr w 4 (checkOperator (some (ascii "!"))) [ascii "!", arg1, arg2, ascii "("] =
          .ok (!decide (arg1 ≠ []), [arg1, arg2, ascii "("]) := by
        rw [nexpr_bang, before]
        rfl
      exact ⟨generalCase_leaves (oexpr_connective_paren connective before),
        generalCase_leaves (oexpr_connective_paren connective behind)⟩
  · exact @fails [] (.inl (nexpr_paren_opens opens))

/-- `test` exits as POSIX prescribes, where it prescribes anything. -/
def MeetsPosix (w : World) (args : List Text) : Prop :=
  ∀ truth, posix w args = some truth → Agrees (test w args) truth

theorem meetsPosix_of_some {args : List Text} {truth : Except Complaint Bool}
    (prescribed : posix w args = some truth) :
    MeetsPosix w args ↔ Agrees (test w args) truth := by
  rw [MeetsPosix, prescribed]
  constructor
  · intro meets
    exact meets truth rfl
  · rintro agrees _ ⟨⟩
    exact agrees

theorem meetsPosix_of_none {args : List Text} (prescribed : posix w args = none) :
    MeetsPosix w args := by
  intro truth some
  rw [prescribed] at some
  cases some

theorem not_misreadThree_of_binary {arg1 op arg3 : Text} {meaning : BinaryOp}
    (isOp : checkOperator (some op) = .binary meaning) : ¬ MisreadThree arg1 op arg3 := by
  rintro (⟨connective, -⟩ | ⟨-, -, opens⟩)
  · have notBinop := connective.facts.2.2.2
    rw [isOp] at notBinop
    cases notBinop
  · obtain ⟨notBang, notParen⟩ := ne_of_token isOp (by simp) (by simp)
    rcases opens with same | same | ⟨meaning', other⟩
    · exact notBang same
    · exact notParen same
    · rw [isOp] at other
      cases other

theorem specialCases_two (passed : List Text) (negate : Bool) (arg1 arg2 : Text) :
    specialCases w passed negate [arg1, arg2] =
      if loneChar arg1 33 then specialOutcome (!negate) (.ok (arg2 ≠ []))
      else generalCase w (passed ++ [arg1, arg2]) := by
  rw [specialCases, specialCases] <;> simp

@[simp] theorem map_bne_false (truth : Except Complaint Bool) :
    truth.map (· != false) = truth := by
  cases truth <;> simp [Except.map]

@[simp] theorem map_bne_true (truth : Except Complaint Bool) :
    truth.map (· != true) = truth.map not := by
  cases truth <;> simp [Except.map]

/-- Two arguments behind any number of "!". -/
theorem specialCases_posixTwo {passed : List Text} {negate : Bool} {arg1 arg2 : Text}
    (general : ∀ meaning, checkOperator (some arg1) = .unary meaning →
      generalCase w (passed ++ [arg1, arg2]) =
        exitOf ((unaryExpression w meaning arg2).map (· != negate)))
    {truth : Except Complaint Bool} (prescribed : posixTwo w arg1 arg2 = some truth) :
    specialCases w passed negate [arg1, arg2] = exitOf (truth.map (· != negate)) := by
  rw [specialCases_two]
  by_cases bang : arg1 = ascii "!"
  · rw [posixTwo, if_pos bang] at prescribed
    cases prescribed
    rw [if_pos ((loneChar_bang arg1).2 bang), exitOf_special]
    by_cases empty : arg2 = [] <;> simp [empty, Except.map]
  · rw [posixTwo, if_neg bang] at prescribed
    rw [if_neg (mt (loneChar_bang arg1).1 bang)]
    cases token : checkOperator (some arg1) with
    | unary meaning =>
      rw [token] at prescribed
      cases prescribed
      exact general meaning token
    | _ =>
      rw [token] at prescribed
      cases prescribed

theorem meetsPosix_two (arg1 arg2 : Text) : MeetsPosix w [arg1, arg2] := by
  intro truth prescribed
  have run := @specialCases_posixTwo w [] false arg1 arg2
    (fun meaning isOp => by rw [map_bne_false]; exact generalCase_unary isOp arg2) _ prescribed
  rw [test, run, map_bne_false]
  exact agrees_exitOf truth

theorem agrees_iff_of_misread {outcome : Outcome} {value : Bool} {misread : Prop}
    (fails : misread → ∃ message, outcome = .exit 2 message)
    (agrees : ¬ misread → outcome = exitOf (.ok value)) :
    Agrees outcome (.ok value) ↔ ¬ misread := by
  constructor
  · intro same isMisread
    exact not_agrees_of_fails (fails isMisread) value same
  · intro notMisread
    rw [agrees notMisread]
    exact agrees_exitOf _

/-- A connective between operands that is not misread. -/
theorem plain_of_not_misreadThree {arg1 op arg3 : Text} (connective : Connective op)
    (notMisread : ¬ MisreadThree arg1 op arg3) :
    arg1 = ascii "(" ∧ arg3 = ascii ")" ∨ ¬ Opens arg1 ∧ arg1 ≠ ascii "(" ∧ arg3 ≠ ascii "(" := by
  have clear : ¬ (arg1 = ascii "!" ∨ (∃ meaning, checkOperator (some arg1) = .unary meaning) ∨
      arg1 = ascii "(" ∧ arg3 ≠ ascii ")" ∨ arg1 ≠ ascii "(" ∧ arg3 = ascii "(") :=
    fun other => notMisread (.inl ⟨connective, other⟩)
  simp only [not_or, not_and, not_not] at clear
  by_cases paren : arg1 = ascii "("
  · exact .inl ⟨paren, clear.2.2.1 paren⟩
  · refine .inr ⟨?_, paren, clear.2.2.2 paren⟩
    rintro (same | same | meaning)
    · exact clear.1 same
    · exact paren same
    · exact clear.2.1 meaning

theorem posixThree_connective {op : Text} (connective : Connective op) (arg1 arg3 : Text) :
    posixThree w arg1 op arg3 = some (.ok (joined op (arg1 ≠ []) (arg3 ≠ []))) := by
  rcases connective_cases connective with ⟨rfl, token⟩ | ⟨rfl, token⟩ <;> rw [posixThree, token] <;>
    rfl

theorem posixThree_other {op : Text} (notBinop : (checkOperator (some op)).isBinop = false)
    (notConnective : ¬ Connective op) (arg1 arg3 : Text) :
    posixThree w arg1 op arg3 =
      if arg1 = ascii "!" then (posixTwo w op arg3).map (·.map not)
      else if arg1 = ascii "(" ∧ arg3 = ascii ")" then some (.ok (op ≠ []))
      else none := by
  rw [posixThree]
  cases token : checkOperator (some op) with
  | binary meaning =>
    rw [token] at notBinop
    cases notBinop
  | band => exact absurd (.inl token) notConnective
  | bor => exact absurd (.inr token) notConnective
  | _ => rfl

/-- What comes second of three arguments. -/
theorem operator_cases (op : Text) :
    (∃ meaning, checkOperator (some op) = .binary meaning) ∨ Connective op ∨
      (checkOperator (some op)).isBinop = false ∧ ¬ Connective op := by
  by_cases connective : Connective op
  · exact .inr (.inl connective)
  · cases token : checkOperator (some op) with
    | binary meaning => exact .inl ⟨meaning, rfl⟩
    | _ => exact .inr (.inr ⟨rfl, connective⟩)

theorem specialCases_three (passed : List Text) (negate : Bool) {op : Text}
    (notBinop : (checkOperator (some op)).isBinop = false) (arg1 arg3 : Text) :
    specialCases w passed negate [arg1, op, arg3] =
      if arg1 = ascii "!" then specialCases w (passed ++ [arg1]) (!negate) [op, arg3]
      else generalCase w (passed ++ [arg1, op, arg3]) := by
  rw [specialCases, notBinop, if_neg Bool.false_ne_true]
  simp only [loneChar_bang]

/-- With a connective in the middle the special cases change nothing. -/
theorem specialCases_connective (passed : List Text) (negate : Bool) {op : Text}
    (connective : Connective op) (arg1 arg3 : Text) :
    specialCases w passed negate [arg1, op, arg3] = generalCase w (passed ++ [arg1, op, arg3]) := by
  rw [specialCases_three passed negate connective.facts.2.2.2, specialCases_two,
    if_neg (mt (loneChar_bang op).1 connective.facts.1)]
  simp

theorem not_opens_connective {op : Text} (connective : Connective op) : ¬ Opens op := by
  obtain ⟨notBang, notParen, notUnary, -⟩ := connective.facts
  rintro (same | same | ⟨meaning, isOp⟩)
  · exact notBang same
  · exact notParen same
  · exact notUnary meaning isOp

theorem specialCases_binary (passed : List Text) (negate : Bool) {op : Text} {meaning : BinaryOp}
    (isOp : checkOperator (some op) = .binary meaning) (arg1 arg3 : Text) :
    specialCases w passed negate [arg1, op, arg3] =
      exitOf ((compareOperands w meaning arg1 arg3).map (· != negate)) := by
  rw [specialCases, isOp, if_pos (show (Token.binary meaning).isBinop = true from rfl),
    binop_outcome negate isOp]

/-- Only parentheses can be misread where the operator is neither binary nor a connective. -/
theorem misreadThree_other {op : Text} (notConnective : ¬ Connective op) (arg1 arg3 : Text) :
    MisreadThree arg1 op arg3 ↔ arg1 = ascii "(" ∧ arg3 = ascii ")" ∧ Opens op := by
  constructor
  · rintro (⟨connective, -⟩ | parens)
    · exact absurd connective notConnective
    · exact parens
  · exact .inr

theorem bang_ne_paren : ascii "!" ≠ ascii "(" := by decide

theorem meetsPosix_three (arg1 op arg3 : Text) :
    MeetsPosix w [arg1, op, arg3] ↔ ¬ MisreadThree arg1 op arg3 := by
  rcases operator_cases op with ⟨meaning, isOp⟩ | connective | ⟨notBinop, notConnective⟩
  · have prescribed : posix w [arg1, op, arg3] = some (compareOperands w meaning arg1 arg3) := by
      rw [posix, posixThree, isOp]
    rw [meetsPosix_of_some prescribed, test, specialCases_binary [] false isOp, map_bne_false]
    exact iff_of_true (agrees_exitOf _) (not_misreadThree_of_binary isOp)
  · have prescribed := @posixThree_connective w _ connective arg1 arg3
    change posix w [arg1, op, arg3] = _ at prescribed
    rw [meetsPosix_of_some prescribed, test, specialCases_connective [] false connective]
    refine agrees_iff_of_misread (fun misread => (misreadThree_fails misread).1) fun notMisread => ?_
    rcases plain_of_not_misreadThree connective notMisread with ⟨rfl, rfl⟩ | ⟨plain, -, notParen⟩
    · refine (generalCase_paren (not_opens_connective connective)).trans ?_
      rcases connective_cases connective with ⟨rfl, -⟩ | ⟨rfl, -⟩ <;> decide
    · exact generalCase_connective plain connective notParen
  · have prescribed := @posixThree_other w _ notBinop notConnective arg1 arg3
    change posix w [arg1, op, arg3] = _ at prescribed
    have run := @specialCases_three w [] false _ notBinop arg1 arg3
    change test w [arg1, op, arg3] = _ at run
    rw [misreadThree_other notConnective]
    by_cases bang : arg1 = ascii "!"
    · subst bang
      refine iff_of_true ?_ fun misread => bang_ne_paren misread.1
      rw [if_pos rfl] at prescribed run
      intro truth some
      rw [prescribed] at some
      obtain ⟨inner, two, rfl⟩ := Option.map_eq_some_iff.1 some
      have negated := @specialCases_posixTwo w [ascii "!"] true op arg3
        (fun meaning isOp => by rw [map_bne_true]; exact generalCase_not_unary isOp arg3) _ two
      rw [run]
      refine negated ▸ ?_
      rw [map_bne_true]
      exact agrees_exitOf _
    · rw [if_neg bang] at prescribed run
      by_cases parens : arg1 = ascii "(" ∧ arg3 = ascii ")"
      · obtain ⟨rfl, rfl⟩ := parens
        rw [if_pos ⟨rfl, rfl⟩] at prescribed
        rw [meetsPosix_of_some prescribed, run]
        exact agrees_iff_of_misread
          (fun misread => (misreadThree_fails (.inr misread)).1)
          fun notMisread => generalCase_paren fun opens => notMisread ⟨rfl, rfl, opens⟩
      · rw [if_neg parens] at prescribed
        exact iff_of_true (meetsPosix_of_none prescribed) fun misread =>
          parens ⟨misread.1, misread.2.1⟩

/-- Whether "!" may be applied to the first operand alone. -/
theorem joined_not_iff {op : Text} (connective : Connective op) (arg1 arg3 : Text) :
    joined op (!decide (arg1 ≠ [])) (arg3 ≠ []) = !joined op (arg1 ≠ []) (arg3 ≠ []) ↔
      ¬ (op = ascii "-a" ↔ arg3 = []) := by
  have other : ascii "-o" ≠ ascii "-a" := by decide
  by_cases empty1 : arg1 = [] <;> by_cases empty3 : arg3 = [] <;>
    rcases connective_cases connective with ⟨rfl, -⟩ | ⟨rfl, -⟩ <;>
    simp [joined, other, empty1, empty3]

theorem agrees_ok_iff (value value' : Bool) :
    Agrees (exitOf (.ok value)) (.ok value') ↔ value = value' := by
  constructor
  · rintro ⟨message, same⟩
    have statuses : status value = status value' := (Outcome.exit.inj same).1
    revert statuses
    cases value <;> cases value' <;> decide
  · rintro rfl
    exact agrees_exitOf _

theorem specialCases_four (passed : List Text) (negate : Bool) (arg1 arg2 arg3 arg4 : Text) :
    specialCases w passed negate [arg1, arg2, arg3, arg4] =
      if arg1 = ascii "(" ∧ arg4 = ascii ")" then
        if arg2 = ascii "!" then specialOutcome (!negate) (.ok (arg3 ≠ []))
        else generalCase w (passed ++ [arg1, arg2, arg3])
      else if arg1 = ascii "!" then specialCases w (passed ++ [arg1]) (!negate) [arg2, arg3, arg4]
      else generalCase w (passed ++ [arg1, arg2, arg3, arg4]) := by
  conv_lhs => rw [specialCases]
  rw [specialCases]
  simp only [loneChar_bang, loneChar_lparen, loneChar_rparen]

theorem test_bang (arg2 arg3 arg4 : Text) :
    test w [ascii "!", arg2, arg3, arg4] = specialCases w [ascii "!"] true [arg2, arg3, arg4] := by
  rw [test, specialCases_four, if_neg fun parens => bang_ne_paren parens.1, if_pos rfl]
  rfl

/-- Four arguments behind which POSIX negates the test of three. -/
theorem meetsPosix_bang (arg2 arg3 arg4 : Text) :
    MeetsPosix w [ascii "!", arg2, arg3, arg4] ↔
      ¬ (MisreadThree arg2 arg3 arg4 ∨
        Connective arg3 ∧ arg2 ≠ ascii "(" ∧ (arg3 = ascii "-a" ↔ arg4 = [])) := by
  have prescribed : posix w [ascii "!", arg2, arg3, arg4] =
      (posixThree w arg2 arg3 arg4).map (·.map not) := by
    rw [posix, if_pos rfl]
  rcases operator_cases arg3 with ⟨meaning, isOp⟩ | connective | ⟨notBinop, notConnective⟩
  · have three : posixThree w arg2 arg3 arg4 = some (compareOperands w meaning arg2 arg4) := by
      rw [posixThree, isOp]
    rw [three] at prescribed
    rw [meetsPosix_of_some prescribed, test_bang, specialCases_binary [ascii "!"] true isOp,
      map_bne_true]
    refine iff_of_true (agrees_exitOf _) ?_
    rintro (misread | ⟨connective, -⟩)
    · exact not_misreadThree_of_binary isOp misread
    · have notBinop := connective.facts.2.2.2
      rw [isOp] at notBinop
      cases notBinop
  · rw [posixThree_connective connective] at prescribed
    rw [meetsPosix_of_some prescribed, test_bang, specialCases_connective [ascii "!"] true connective]
    by_cases misread : MisreadThree arg2 arg3 arg4
    · exact iff_of_false (not_agrees_of_fails (misreadThree_fails misread).2 _)
        fun clear => clear (.inl misread)
    · rcases plain_of_not_misreadThree connective misread with ⟨rfl, rfl⟩ | ⟨plain, notOpen, notParen⟩
      · have run := generalCase_not_paren (w := w) (not_opens_connective connective)
        change generalCase w ([ascii "!"] ++ _) = _ at run
        rw [run]
        refine iff_of_true ((agrees_ok_iff _ _).2 ?_) ?_
        · rcases connective_cases connective with ⟨rfl, -⟩ | ⟨rfl, -⟩ <;> decide
        · rintro (other | ⟨-, notOpen, -⟩)
          · exact misread other
          · exact notOpen rfl
      · have run := generalCase_not_connective (w := w) plain connective notParen
        change generalCase w ([ascii "!"] ++ _) = _ at run
        rw [run]
        refine (agrees_ok_iff _ _).trans ((joined_not_iff connective arg2 arg4).trans ?_)
        constructor
        · rintro differs (other | ⟨-, -, same⟩)
          · exact misread other
          · exact differs same
        · intro clear same
          exact clear (.inr ⟨connective, notOpen, same⟩)
  · have only : (MisreadThree arg2 arg3 arg4 ∨
        Connective arg3 ∧ arg2 ≠ ascii "(" ∧ (arg3 = ascii "-a" ↔ arg4 = [])) ↔
        arg2 = ascii "(" ∧ arg4 = ascii ")" ∧ Opens arg3 := by
      rw [misreadThree_other notConnective]
      exact or_iff_left fun other => notConnective other.1
    have run := specialCases_three (w := w) [ascii "!"] true notBinop arg2 arg4
    rw [posixThree_other notBinop notConnective] at prescribed
    rw [only]
    by_cases bang : arg2 = ascii "!"
    · subst bang
      refine iff_of_true ?_ fun misread => bang_ne_paren misread.1
      rw [if_pos rfl] at prescribed run
      intro truth some
      rw [prescribed, Option.map_map] at some
      obtain ⟨inner, two, rfl⟩ := Option.map_eq_some_iff.1 some
      have twice := @specialCases_posixTwo w [ascii "!", ascii "!"] false arg3 arg4
        (fun meaning isOp => by rw [map_bne_false]; exact generalCase_not_not_unary isOp arg4) _ two
      rw [test_bang, run]
      refine twice ▸ ?_
      rw [map_bne_false]
      have same : ((fun truth : Except Complaint Bool => truth.map not) ∘ fun truth => truth.map not)
          inner = inner := by
        cases inner <;> simp [Except.map]
      rw [same]
      exact agrees_exitOf _
    · rw [if_neg bang] at prescribed run
      by_cases parens : arg2 = ascii "(" ∧ arg4 = ascii ")"
      · obtain ⟨rfl, rfl⟩ := parens
        rw [if_pos ⟨rfl, rfl⟩] at prescribed
        rw [meetsPosix_of_some prescribed, test_bang, run]
        exact agrees_iff_of_misread (fun misread => (misreadThree_fails (.inr misread)).2)
          fun notMisread => generalCase_not_paren fun opens => notMisread ⟨rfl, rfl, opens⟩
      · rw [if_neg parens] at prescribed
        exact iff_of_true (meetsPosix_of_none prescribed) fun misread =>
          parens ⟨misread.1, misread.2.1⟩

/-- Four arguments between parentheses: the two-argument test of what is inside. -/
theorem meetsPosix_parens (arg2 arg3 : Text) :
    MeetsPosix w [ascii "(", arg2, arg3, ascii ")"] ↔
      ¬ ∃ meaning, checkOperator (some arg2) = .unary meaning ∧
        (meaning = .filtt → ∃ n, getn arg3 = .ok n) := by
  have prescribed : posix w [ascii "(", arg2, arg3, ascii ")"] = posixTwo w arg2 arg3 := by
    rw [posix, if_neg bang_ne_paren.symm, if_pos ⟨rfl, rfl⟩]
  have run : test w [ascii "(", arg2, arg3, ascii ")"] =
      if arg2 = ascii "!" then specialOutcome true (.ok (arg3 ≠ []))
      else generalCase w [ascii "(", arg2, arg3] := by
    rw [test, specialCases_four, if_pos ⟨rfl, rfl⟩]
    rfl
  by_cases bang : arg2 = ascii "!"
  · subst bang
    rw [posixTwo, if_pos rfl] at prescribed
    rw [if_pos rfl, exitOf_special] at run
    rw [meetsPosix_of_some prescribed, run, agrees_ok_iff]
    refine iff_of_true (by by_cases empty : arg3 = [] <;> simp [empty]) ?_
    rintro ⟨meaning, isOp, -⟩
    rw [checkOperator_facts.1] at isOp
    cases isOp
  · rw [if_neg bang] at run
    rw [posixTwo, if_neg bang] at prescribed
    cases token : checkOperator (some arg2) with
    | unary meaning =>
      rw [token] at prescribed
      have fails : ∃ message, test w [ascii "(", arg2, arg3, ascii ")"] = .exit 2 message := by
        rw [run]
        exact @generalCase_fails w _ _ [] (.inl (nexpr_paren_unary token arg3))
      have isOk := unaryExpression_isOk (w := w) meaning arg3
      rw [meetsPosix_of_some prescribed]
      cases value : unaryExpression w meaning arg3 with
      | ok value' =>
        refine iff_of_false (not_agrees_of_fails fails value') fun clear => clear ⟨meaning, rfl, ?_⟩
        exact isOk.1 ⟨value', value⟩
      | error complaint =>
        refine iff_of_true fails ?_
        rintro ⟨meaning', same, number⟩
        cases same
        obtain ⟨value', other⟩ := isOk.2 number
        rw [value] at other
        cases other
    | _ =>
      rw [token] at prescribed
      refine iff_of_true (meetsPosix_of_none prescribed) ?_
      rintro ⟨meaning, isOp, -⟩
      cases isOp

theorem meetsPosix_four (arg1 arg2 arg3 arg4 : Text) :
    MeetsPosix w [arg1, arg2, arg3, arg4] ↔ ¬ Misread [arg1, arg2, arg3, arg4] := by
  by_cases bang : arg1 = ascii "!"
  · subst bang
    rw [meetsPosix_bang, Misread]
    simp [bang_ne_paren]
  · by_cases parens : arg1 = ascii "(" ∧ arg4 = ascii ")"
    · obtain ⟨rfl, rfl⟩ := parens
      rw [meetsPosix_parens, Misread]
      simp [bang_ne_paren.symm]
    · have prescribed : posix w [arg1, arg2, arg3, arg4] = none := by
        rw [posix, if_neg bang, if_neg parens]
      refine iff_of_true (meetsPosix_of_none prescribed) ?_
      rintro (⟨isParen, closes, -⟩ | ⟨isBang, -⟩)
      · exact parens ⟨isParen, closes⟩
      · exact bang isBang

/-- For up to four arguments `test` does what POSIX prescribes exactly where they are not
misread. -/
theorem meetsPosix_iff {args : List Text} (few : args.length ≤ 4) :
    MeetsPosix w args ↔ ¬ Misread args := by
  match args, few with
  | [], _ =>
    refine iff_of_true ?_ id
    rintro _ ⟨⟩
    rw [test, specialCases]
    exact ⟨none, rfl⟩
  | [arg], _ =>
    refine iff_of_true ?_ id
    rintro _ ⟨⟩
    rw [test, specialCases, exitOf_special]
    simpa using agrees_exitOf _
  | [arg1, arg2], _ => exact iff_of_true (meetsPosix_two arg1 arg2) id
  | [arg1, op, arg3], _ => exact meetsPosix_three arg1 op arg3
  | [arg1, arg2, arg3, arg4], _ => exact meetsPosix_four arg1 arg2 arg3 arg4

/-- A second "!" in front is the last argument. -/
theorem Expr.placed_bangs {level : Level} {e : Expr level} {rest more : List Text}
    (placed : e.Placed rest) (bangs : e.args ++ rest = ascii "!" :: ascii "!" :: more) : more = [] := by
  induction e generalizing rest with
  | or left right ihLeft _ =>
    exact ihLeft placed.1 (by simpa [args] using bangs)
  | ofAexpr only ih => exact ih placed bangs
  | and left right ihLeft _ =>
    exact ihLeft placed.1 (by simpa [args] using bangs)
  | ofNexpr only ih => exact ih placed bangs
  | not negated _ =>
    have inner : negated.args ++ rest = ascii "!" :: more := (List.cons.inj bangs).2
    have token : checkOperator (negated.args ++ rest).head? = .unot := by
      rw [inner]
      exact checkOperator_facts.1
    obtain ⟨rfl, rfl⟩ := last_of_unot placed token
    exact (List.cons.inj inner).2.symm
  | ofPrimary only ih => exact ih placed bangs
  | unary op opnd meaning isOp =>
    have same : op = ascii "!" := (List.cons.inj bangs).1
    rw [same, checkOperator_facts.1] at isOp
    cases isOp
  | binary opnd1 op opnd2 meaning isOp => exact absurd (List.cons.inj bangs).1 placed.1
  | operand opnd =>
    rw [placed.2 (.inl (List.cons.inj bangs).1)] at bangs
    cases (List.cons.inj bangs).2
  | paren inner _ => exact absurd (List.cons.inj bangs).1.symm bang_ne_paren

/-- Behind "!" and "(" there is a closing parenthesis. -/
theorem Expr.placed_bang_paren {level : Level} {e : Expr level} {rest more : List Text}
    (placed : e.Placed rest) (begins : e.args ++ rest = ascii "!" :: ascii "(" :: more) :
    4 ≤ e.args.length := by
  induction e generalizing rest with
  | or left right ihLeft _ =>
    refine Nat.le_trans (ihLeft placed.1 (by simpa [args] using begins)) ?_
    simp [args]
  | ofAexpr only ih => exact ih placed begins
  | and left right ihLeft _ =>
    refine Nat.le_trans (ihLeft placed.1 (by simpa [args] using begins)) ?_
    simp [args]
  | ofNexpr only ih => exact ih placed begins
  | not negated _ =>
    have inner : negated.args ++ rest = ascii "(" :: more := (List.cons.inj begins).2
    cases negated with
    | unary op opnd meaning isOp =>
      rw [(List.cons.inj inner).1, checkOperator_facts.2.2.2.1] at isOp
      cases isOp
    | binary opnd1 op opnd2 meaning isOp => exact absurd (List.cons.inj inner).1 placed.2
    | operand opnd => exact absurd (List.cons.inj inner).1 placed.1
    | paren inside =>
      have nonempty := List.length_pos_iff.2 inside.args_ne_nil
      simp only [args, List.length_cons, List.length_append, List.length_nil]
      omega
  | ofPrimary only ih => exact ih placed begins
  | unary op opnd meaning isOp =>
    rw [(List.cons.inj begins).1, checkOperator_facts.1] at isOp
    cases isOp
  | binary opnd1 op opnd2 meaning isOp => exact absurd (List.cons.inj begins).1 placed.1
  | operand opnd =>
    rw [placed.2 (.inl (List.cons.inj begins).1)] at begins
    cases (List.cons.inj begins).2
  | paren inner _ => exact absurd (List.cons.inj begins).1.symm bang_ne_paren

/-- Two arguments derive a unary test or a negated operand. -/
theorem Expr.of_two {e : Expr .oexpr} {x y : Text} (shape : e.args = [x, y]) :
    (∃ meaning isOp, e = .alone (.unary x y meaning isOp)) ∨
      x = ascii "!" ∧ e = .negated (.operand y) := by
  have length := congrArg List.length shape
  cases e with
  | or left right =>
    have first := List.length_pos_iff.2 left.args_ne_nil
    have second := List.length_pos_iff.2 right.args_ne_nil
    simp only [args, List.length_append, List.length_cons, List.length_nil] at length
    omega
  | ofAexpr only =>
    cases only with
    | and left right =>
      have first := List.length_pos_iff.2 left.args_ne_nil
      have second := List.length_pos_iff.2 right.args_ne_nil
      simp only [args, List.length_append, List.length_cons, List.length_nil] at length
      omega
    | ofNexpr only =>
      cases only with
      | not p =>
        cases p with
        | operand opnd =>
          obtain ⟨rfl, rest⟩ := List.cons.inj shape
          obtain ⟨rfl, -⟩ := List.cons.inj rest
          exact .inr ⟨rfl, rfl⟩
        | unary | binary => cases (List.cons.inj (List.cons.inj shape).2).2
        | paren inner =>
          simp [args] at length
      | ofPrimary p =>
        cases p with
        | unary op opnd meaning isOp =>
          obtain ⟨rfl, rest⟩ := List.cons.inj shape
          obtain ⟨rfl, -⟩ := List.cons.inj rest
          exact .inl ⟨meaning, isOp, rfl⟩
        | binary | operand => simp [args] at length
        | paren inner =>
          have nonempty := List.length_pos_iff.2 inner.args_ne_nil
          simp only [args, List.length_append, List.length_cons, List.length_nil] at length
          omega

/-- "!" before two arguments in parentheses. -/
theorem Expr.of_parens {e : Expr .oexpr} {x y : Text} (placed : e.Placed [])
    (shape : e.args = [ascii "!", ascii "(", x, y, ascii ")"]) :
    ∃ inner : Expr .oexpr, e = .negated (.paren inner) ∧ inner.args = [x, y] := by
  cases e with
  | or left right =>
    have long := placed_bang_paren placed.1 (by simpa [args] using shape)
    have length := congrArg List.length shape
    have second := List.length_pos_iff.2 right.args_ne_nil
    simp only [args, List.length_append, List.length_cons, List.length_nil] at length
    omega
  | ofAexpr only =>
    cases only with
    | and left right =>
      have long := placed_bang_paren placed.1 (by simpa [args] using shape)
      have length := congrArg List.length shape
      have second := List.length_pos_iff.2 right.args_ne_nil
      simp only [args, List.length_append, List.length_cons, List.length_nil] at length
      omega
    | ofNexpr only =>
      cases only with
      | not p =>
        cases p with
        | unary | binary | operand => cases (List.cons.inj (List.cons.inj shape).2).2
        | paren inner =>
          have inside : inner.args ++ [ascii ")"] = [x, y] ++ [ascii ")"] :=
            (List.cons.inj (List.cons.inj shape).2).2
          exact ⟨inner, rfl, List.append_cancel_right inside⟩
      | ofPrimary p =>
        cases p with
        | unary | binary | operand => cases (List.cons.inj shape).2
        | paren inner => exact absurd (List.cons.inj shape).1.symm bang_ne_paren

/-- "!" before a unary test in parentheses that is no error: the special cases overwrite
the closing parenthesis, and the parser, which begins before the opening one, misses it. -/
def ParenDropped (args : List Text) : Prop :=
  ∃ x y meaning, args = [ascii "!", ascii "(", x, y, ascii ")"] ∧
    checkOperator (some x) = .unary meaning ∧ (meaning = .filtt → ∃ n, getn y = .ok n)

theorem specialCases_many (passed : List Text) (negate : Bool) (arg : Text) {args : List Text}
    (many : 4 ≤ args.length) :
    specialCases w passed negate (arg :: args) =
      if arg = ascii "!" then specialCases w (passed ++ [arg]) (!negate) args
      else generalCase w (passed ++ arg :: args) := by
  match args, many with
  | a :: b :: c :: d :: more, _ =>
    conv_lhs => rw [specialCases.eq_def]
    simp only [loneChar_bang]

/-- "!" and parentheses around two arguments. -/
theorem test_parens_iff {e : Expr .oexpr} {x y : Text} (placed : e.Placed [])
    (shape : e.args = [ascii "!", ascii "(", x, y, ascii ")"]) :
    Agrees (test w e.args) (e.truth w) ↔ ¬ ParenDropped e.args := by
  have run : test w e.args =
      if x = ascii "!" then specialOutcome false (.ok (y ≠ []))
      else generalCase w [ascii "!", ascii "(", x, y] := by
    rw [shape, test, specialCases_many [] false (ascii "!") (by simp), if_pos rfl,
      specialCases_four, if_pos ⟨rfl, rfl⟩]
    rfl
  have dropped : ParenDropped e.args ↔ ∃ meaning, checkOperator (some x) = .unary meaning ∧
      (meaning = .filtt → ∃ n, getn y = .ok n) := by
    rw [shape]
    constructor
    · rintro ⟨x', y', meaning, same, isOp, number⟩
      cases same
      exact ⟨meaning, isOp, number⟩
    · rintro ⟨meaning, isOp, number⟩
      exact ⟨x, y, meaning, rfl, isOp, number⟩
  obtain ⟨inner, rfl, two⟩ := Expr.of_parens placed shape
  rw [run, dropped]
  rcases Expr.of_two two with ⟨meaning, isOp, rfl⟩ | ⟨rfl, rfl⟩
  · have fails : ∃ message, generalCase w [ascii "!", ascii "(", x, y] = .exit 2 message :=
      @generalCase_fails w _ _ [] (nexpr_bang_stopsBefore (.inl (nexpr_paren_unary isOp y)))
    have isOk := unaryExpression_isOk (w := w) meaning y
    rw [if_neg (ne_of_token isOp (by simp) (by simp)).1]
    simp only [Expr.negated, Expr.alone, Expr.truth]
    cases value : unaryExpression w meaning y with
    | ok value' =>
      refine iff_of_false (not_agrees_of_fails fails _) fun clear => clear ⟨meaning, isOp, ?_⟩
      exact isOk.1 ⟨value', value⟩
    | error complaint =>
      refine iff_of_true fails ?_
      rintro ⟨meaning', same, number⟩
      rw [isOp] at same
      cases same
      obtain ⟨value', other⟩ := isOk.2 number
      rw [value] at other
      cases other
  · rw [if_pos rfl, exitOf_special]
    refine iff_of_true ((agrees_ok_iff _ _).2 (by simp)) ?_
    rintro ⟨meaning, isOp, -⟩
    rw [checkOperator_facts.1] at isOp
    cases isOp

/-- Five arguments and more: the truth value of a derivation whose operands are in place,
exactly where no closing parenthesis is dropped. -/
theorem test_derivation_iff {e : Expr .oexpr} (placed : e.Placed []) (many : 4 < e.args.length) :
    Agrees (test w e.args) (e.truth w) ↔ ¬ ParenDropped e.args := by
  by_cases parens : ∃ x y, e.args = [ascii "!", ascii "(", x, y, ascii ")"]
  · obtain ⟨x, y, shape⟩ := parens
    exact test_parens_iff placed shape
  · have kept : ¬ ParenDropped e.args := by
      rintro ⟨x, y, -, shape, -⟩
      exact parens ⟨x, y, shape⟩
    refine iff_of_true ?_ kept
    have general := generalCase_reads (w := w) e placed
    have run : test w e.args = generalCase w e.args := by
      cases shape : e.args with
      | nil => exact absurd shape e.args_ne_nil
      | cons arg args =>
        rw [shape, List.length_cons] at many
        rw [test, specialCases_many [] false arg (Nat.le_of_lt_succ many)]
        by_cases bang : arg = ascii "!"
        · subst bang
          -- a second "!" would be the last argument
          have notBang : ∀ b more, args = b :: more → b ≠ ascii "!" := by
            rintro b more rfl rfl
            have short := Expr.placed_bangs placed (by rw [shape, List.append_nil])
            rw [short] at many
            simp at many
          rw [if_pos rfl]
          match args, many with
          | [b, x, y, d], _ =>
            have open_ : ¬ (b = ascii "(" ∧ d = ascii ")") := by
              rintro ⟨rfl, rfl⟩
              exact parens ⟨x, y, shape⟩
            rw [specialCases_four, if_neg open_, if_neg (notBang _ _ rfl)]
            rfl
          | b :: c :: d :: f :: g :: more, _ =>
            rw [specialCases_many _ _ b (by simp), if_neg (notBang _ _ rfl)]
            rfl
        · rw [if_neg bang]
          rfl
    rw [run, general]
    exact agrees_exitOf _

/-- `[` with its closing bracket is `test`. -/
theorem testMain_bracket {argv0 : Text} (isBracket : basename argv0 = ascii "[")
    (args : List Text) : testMain w argv0 (args ++ [ascii "]"]) = test w args := by
  rw [testMain, isBracket]
  change (if ((args ++ [ascii "]"]).getLast?).getD argv0 ≠ ascii "]" then _
    else test w (args ++ [ascii "]"]).dropLast) = _
  rw [List.getLast?_concat, Option.getD_some, if_neg (not_not.2 rfl), List.dropLast_concat]

/-- An empty file system. -/
def noFiles : World where
  stat _ := none
  lstat _ := none
  isatty _ := false
  euid := 0
  gid := 0
  egid := 0
  groups := []

theorem placed_word {opnd : Text} (isWord : checkOperator (some opnd) = .operand)
    (rest : List Text) : (Expr.operand opnd).Placed rest := by
  refine placed_operand ?_ rest
  rintro (rfl | rfl | ⟨meaning, isOp⟩)
  · cases isWord.symm.trans checkOperator_facts.1
  · cases isWord.symm.trans checkOperator_facts.2.2.2.1
  · cases isWord.symm.trans isOp

end Busybox.Test
