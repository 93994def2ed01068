import Busybox.Test.Grammar

/-!
# Runs of the parser

The parser never reads past the terminating `NULL`, whatever the arguments are, and over
a derivation with its operands in place it computes the truth value of the derivation.
-/

namespace Busybox.Test

open Fallible

variable {w : World}

@[simp] theorem advance_cons (arg : Text) (args : List Text) : advance (arg :: args) = .ok args := rfl

@[simp] theorem leave_ok {α : Type} (value : α) : leave (.ok value) = .ok value := rfl

@[simp] theorem leave_error {α : Type} (complaint : Complaint) :
    leave (.error complaint : Except Complaint α) = .error (.leaving complaint) := rfl

/-- A result that comes from no read past the arguments: the cursor is left at one of them. -/
def Sound (args : List Text) : Parsed → Prop
  | .error (.leaving _) => True
  | .error _ => False
  | .ok (_, args') => args' ≠ [] ∧ args'.length ≤ args.length

theorem Sound.mono {args more : List Text} {parsed : Parsed} (sound : Sound args parsed)
    (longer : args.length ≤ more.length) : Sound more parsed := by
  match parsed, sound with
  | .error (.leaving _), _ => exact trivial
  | .ok (_, args'), sound => exact ⟨sound.1, Nat.le_trans sound.2 longer⟩

/-- What follows a sound result may rely on where the cursor is. -/
theorem Sound.bind {args more : List Text} {parsed : Parsed} {next : Bool × List Text → Parsed}
    (sound : Sound args parsed)
    (later : ∀ truth args', args' ≠ [] → args'.length ≤ args.length → Sound more (next (truth, args'))) :
    Sound more (parsed >>= next) := by
  match parsed, sound with
  | .error (.leaving _), _ => exact trivial
  | .ok (truth, args'), sound => exact later truth args' sound.1 sound.2

theorem leave_sound {args : List Text} {result : Except Complaint Bool} {next : Bool → Parsed}
    (later : ∀ truth, Sound args (next truth)) : Sound args (leave result >>= next) := by
  cases result with
  | error complaint => exact trivial
  | ok truth => exact later truth

theorem operandPrimary_last (n : Token) (arg : Text) :
    operandPrimary w n [arg] = .ok (arg ≠ [], [arg]) := by
  cases n <;> rfl

theorem operandPrimary_cons (n : Token) (arg op : Text) (args : List Text) :
    operandPrimary w n (arg :: op :: args) =
      if args ≠ [] ∧ (checkOperator (some op)).isBinop then binop w (arg :: op :: args)
      else
        match n with
        | .unary meaning => do
          let res ← leave (unaryExpression w meaning op)
          return (res, op :: args)
        | _ =>
          if (checkOperator (some op)).isBinop then binop w (arg :: op :: args)
          else return (arg ≠ [], arg :: op :: args) := by
  have first : peek (arg :: op :: args) 1 = .ok (some op) := by simp [peek]
  have second : peek (arg :: op :: args) 2 = .ok args.head? := by
    cases args <;> simp [peek]
  have more : args.head?.isSome ↔ args ≠ [] := by cases args <;> simp
  simp only [operandPrimary, first, second, ok_bind, ne_eq, checkOperator_ne_eoi,
    not_false_eq_true, if_true, Functor.map, Except.map, more]
  cases n <;> rfl

theorem binop_cons {op : Text} {meaning : BinaryOp} (isOp : checkOperator (some op) = .binary meaning)
    (opnd1 opnd2 : Text) (args : List Text) :
    binop w (opnd1 :: op :: opnd2 :: args) = do
      let res ← leave (compareOperands w meaning opnd1 opnd2)
      return (res, opnd2 :: args) := by
  simp only [binop, advance_cons, ok_bind, List.head?_cons, isOp]
  rfl

theorem binop_sound (arg op : Text) (args : List Text) :
    Sound (arg :: op :: args) (binop w (arg :: op :: args)) := by
  cases args with
  | nil => exact trivial
  | cons opnd2 args =>
    exact leave_sound fun truth => ⟨List.cons_ne_nil _ _, by simp⟩

theorem operandPrimary_sound (n : Token) (arg : Text) (args : List Text) :
    Sound (arg :: args) (operandPrimary w n (arg :: args)) := by
  cases args with
  | nil =>
    rw [operandPrimary_last]
    exact ⟨List.cons_ne_nil _ _, Nat.le_refl _⟩
  | cons op args =>
    have emptiness : Sound (arg :: op :: args)
        (if (checkOperator (some op)).isBinop then binop w (arg :: op :: args)
          else return (arg ≠ [], arg :: op :: args)) := by
      split_ifs
      · exact binop_sound arg op args
      · exact ⟨List.cons_ne_nil _ _, Nat.le_refl _⟩
    rw [operandPrimary_cons]
    by_cases both : args ≠ [] ∧ (checkOperator (some op)).isBinop
    · rw [if_pos both]
      exact binop_sound arg op args
    · rw [if_neg both]
      cases n with
      | unary meaning => exact leave_sound fun truth => ⟨List.cons_ne_nil _ _, by simp⟩
      | _ => exact emptiness

/-- The cursor before its next argument, which starts with its own token. -/
theorem advance_sound {args more : List Text} {next : List Text → Parsed} (nonempty : args ≠ [])
    (later : ∀ arg args', args = arg :: args' → Sound more (next args')) :
    Sound more (advance args >>= next) := by
  cases args with
  | nil => exact absurd rfl nonempty
  | cons arg args' => exact later arg args' rfl

/-- An operand, and if an operator comes next, what the same function makes of the rest. -/
theorem chain_sound {args : List Text} {parsed : Parsed} (sound : Sound args parsed)
    (joined : Bool → Bool → Bool) {token : Token} (isToken : token ≠ .eoi)
    {again : List Text → Parsed}
    (later : ∀ rest, rest.length + 2 ≤ args.length → Sound rest (again rest)) :
    Sound args (parsed >>= fun (res, args) => do
      let ahead ← advance args
      if checkOperator ahead.head? = token then
        let args ← advance ahead
        let (res', args) ← again args
        return (joined res' res, args)
      else return (res, args)) := by
  refine sound.bind fun truth args' nonempty shorter => ?_
  refine advance_sound nonempty fun arg ahead same => ?_
  by_cases more : checkOperator ahead.head? = token
  · simp only [more, if_true]
    have nonempty' : ahead ≠ [] := by
      rintro rfl
      exact isToken more.symm
    refine advance_sound nonempty' fun op rest same' => ?_
    rw [same, same', List.length_cons, List.length_cons] at shorter
    refine (later rest shorter).bind fun truth' args'' nonempty'' shorter' => ⟨nonempty'', ?_⟩
    change args''.length ≤ _
    omega
  · simp only [more, if_false]
    exact ⟨nonempty, shorter⟩

theorem parens_sound {args : List Text} {parsed : Parsed} (sound : Sound args parsed) :
    Sound args (parsed >>= fun (res, args) => do
      let args ← advance args
      if checkOperator args.head? ≠ .rparen then syntaxError none "closing paren expected"
      else return (res, args)) := by
  refine sound.bind fun truth args' nonempty shorter => ?_
  refine advance_sound nonempty fun arg' rest same => ?_
  by_cases closed : checkOperator rest.head? = .rparen
  · simp only [closed, ne_eq, not_true_eq_false, if_false]
    refine ⟨?_, ?_⟩
    · rintro rfl
      cases closed
    · rw [same, List.length_cons] at shorter
      omega
  · simp only [closed, ne_eq, not_false_eq_true, if_true]
    exact trivial

/-- No call reads past the arguments or runs out of fuel. -/
theorem parse_sound (fuel : Nat) (args : List Text) (enough : args.length ≤ fuel) :
    Sound args (nexpr w fuel (checkOperator args.head?) args) ∧
    Sound args (aexpr w fuel (checkOperator args.head?) args) ∧
    Sound args (oexpr w fuel (checkOperator args.head?) args) := by
  induction fuel generalizing args with
  | zero =>
    rw [List.length_eq_zero_iff.1 (Nat.le_zero.1 enough), oexpr, aexpr, nexpr, primary]
    exact ⟨trivial, trivial, trivial⟩
  | succ fuel ih =>
    have primarySound : Sound args (primary w (fuel + 1) (checkOperator args.head?) args) := by
      rw [primary]
      cases args with
      | nil => exact trivial
      | cons arg args =>
        rw [List.head?_cons, if_neg (checkOperator_ne_eoi arg)]
        by_cases isParen : checkOperator (some arg) = .lparen
        · rw [if_pos isParen, advance_cons, ok_bind]
          have inner := (ih args (Nat.le_of_succ_le_succ enough)).2.2
          exact (parens_sound inner).mono (Nat.le_succ _)
        · rw [if_neg isParen]
          exact operandPrimary_sound _ arg args
    have nexprSound : Sound args (nexpr w (fuel + 1) (checkOperator args.head?) args) := by
      rw [nexpr]
      by_cases isNot : checkOperator args.head? = .unot
      · rw [if_pos isNot]
        have nonempty : args ≠ [] := by
          rintro rfl
          cases isNot
        refine advance_sound nonempty fun arg operand same => ?_
        by_cases last : checkOperator operand.head? = .eoi
        · simp only [last, if_true]
          exact ⟨nonempty, Nat.le_refl _⟩
        · simp only [last, if_false]
          rw [same, List.length_cons] at enough
          refine (ih operand (Nat.le_of_succ_le_succ enough)).1.bind
            fun truth args' nonempty' shorter => ⟨nonempty', ?_⟩
          change args'.length ≤ _
          rw [same, List.length_cons]
          omega
      · rw [if_neg isNot]
        exact primarySound
    have aexprSound : Sound args (aexpr w (fuel + 1) (checkOperator args.head?) args) := by
      rw [aexpr]
      exact chain_sound nexprSound (· && ·) (by decide) fun rest shorter =>
        (ih rest (by omega)).2.1
    refine ⟨nexprSound, aexprSound, ?_⟩
    rw [oexpr]
    exact chain_sound aexprSound (· || ·) (by decide) fun rest shorter =>
      (ih rest (by omega)).2.2

/-- Exits with one of the three statuses. -/
def Outcome.Exits : Outcome → Prop
  | .exit status _ => status ≤ 2
  | _ => False

theorem exits_status (truth : Bool) : (Outcome.exit (status truth) none).Exits := by
  cases truth
  · exact Nat.le_succ 1
  · exact Nat.zero_le 2

theorem generalCase_exits (args : List Text) : (generalCase w args).Exits := by
  have sound := (parse_sound (w := w) args.length args (Nat.le_refl _)).2.2
  rw [generalCase]
  match oexpr w args.length (checkOperator args.head?) args, sound with
  | .error (.leaving _), _ => exact Nat.le_refl 2
  | .ok (truth, []), sound => exact absurd rfl sound.1
  | .ok (truth, [_]), _ => exact exits_status truth
  | .ok (_, _ :: _ :: _), _ => exact Nat.le_refl 2

theorem binop_exits (negate : Bool) (opnd1 op opnd2 : Text) :
    (specialOutcome negate ((binop w [opnd1, op, opnd2]).map (·.1))).Exits := by
  have sound := binop_sound (w := w) opnd1 op [opnd2]
  match binop w [opnd1, op, opnd2], sound with
  | .error (.leaving _), _ => exact Nat.le_refl 2
  | .ok (truth, _), _ => exact exits_status _

theorem specialCases_exits (passed : List Text) (negate : Bool) (argv : List Text) :
    (specialCases w passed negate argv).Exits := by
  induction passed, negate, argv using specialCases.induct with
  | case1 => rw [specialCases]; exact exits_status _
  | case2 => rw [specialCases]; exact exits_status _
  | case3 passed negate arg1 op arg2 isOp =>
    rw [specialCases, if_pos isOp]
    exact binop_exits negate arg1 op arg2
  | case4 passed negate arg1 op arg2 isOp bang ih =>
    rw [specialCases, if_neg isOp, if_pos bang]
    exact ih
  | case5 passed negate arg1 op arg2 isOp bang =>
    rw [specialCases, if_neg isOp, if_neg bang]
    exact generalCase_exits _
  | case6 passed negate arg1 x y arg4 parens bang ih =>
    rw [specialCases, if_pos parens, if_pos bang]
    exact ih
  | case7 passed negate arg1 x y arg4 parens bang =>
    rw [specialCases, if_pos parens, if_neg bang]
    exact generalCase_exits _
  | case8 passed negate arg1 x y arg4 parens bang ih =>
    rw [specialCases, if_neg parens, if_pos bang]
    exact ih
  | case9 passed negate arg1 x y arg4 parens bang =>
    rw [specialCases, if_neg parens, if_neg bang]
    exact generalCase_exits _
  | case10 passed negate arg1 argv notNil notThree notFour bang ih =>
    rw [specialCases, if_pos bang]
    · exact ih
    all_goals assumption
  | case11 passed negate arg1 argv notNil notThree notFour bang =>
    rw [specialCases, if_neg bang]
    · exact generalCase_exits _
    all_goals assumption

/-- For no list an argument past the terminating `NULL` is read. -/
theorem test_exits (args : List Text) : (test w args).Exits := specialCases_exits [] false args

/-- What can come behind a derivation of a level. -/
def follow : Level → List Token
  | .oexpr => [.eoi, .rparen]
  | .aexpr => [.eoi, .rparen, .bor]
  | .nexpr | .primary => [.eoi, .rparen, .bor, .band]

def Follows (level : Level) (rest : List Text) : Prop := checkOperator rest.head? ∈ follow level

def parse (w : World) : Level → Nat → Token → List Text → Parsed
  | .oexpr => oexpr w
  | .aexpr => aexpr w
  | .nexpr => nexpr w
  | .primary => primary w

/-- The result of a run over a derivation. -/
def result (truth : Except Complaint Bool) (last : Text) (rest : List Text) : Parsed := do
  let truth ← leave truth
  return (truth, last :: rest)

namespace Expr

/-- The run over a derivation, given the token that it begins with. -/
def Reads (w : World) {level : Level} (e : Expr level) : Prop :=
  ∀ rest fuel, e.Placed rest → Follows level rest → (e.args ++ rest).length ≤ fuel →
    parse w level fuel (checkOperator (e.args ++ rest).head?) (e.args ++ rest) =
      result (e.truth w) e.last rest

theorem reads_operand (opnd : Text) : (operand opnd).Reads w := by
  rintro rest fuel ⟨notParen, alone⟩ follows -
  have other : checkOperator (some opnd) ≠ .lparen := mt checkOperator_lparen.1 notParen
  change primary w fuel (checkOperator (some opnd)) (opnd :: rest) = _
  rw [primary, if_neg (checkOperator_ne_eoi opnd), if_neg other]
  cases rest with
  | nil => rw [operandPrimary_last]; rfl
  | cons next rest =>
    have notBinop : (checkOperator (some next)).isBinop = false := by
      change checkOperator (some next) ∈ follow .primary at follows
      simp only [follow, List.mem_cons, List.not_mem_nil, or_false] at follows
      rcases follows with token | token | token | token <;> rw [token] <;> rfl
    rw [operandPrimary_cons, if_neg (by simp [notBinop])]
    cases token : checkOperator (some opnd) with
    | unary meaning => exact absurd (alone (.inr ⟨meaning, token⟩)) (List.cons_ne_nil _ _)
    | _ => simp only [notBinop, Bool.false_eq_true, if_false]; rfl

theorem reads_unary (op opnd : Text) (meaning : UnaryOp)
    (isOp : checkOperator (some op) = .unary meaning) : (unary op opnd meaning isOp).Reads w := by
  intro rest fuel placed follows _
  change primary w fuel (checkOperator (some op)) (op :: opnd :: rest) = _
  rw [primary, if_neg (checkOperator_ne_eoi op), isOp, if_neg (by simp), operandPrimary_cons,
    if_neg fun both => both.1 (placed both.2)]
  rfl

theorem reads_binary (opnd1 op opnd2 : Text) (meaning : BinaryOp)
    (isOp : checkOperator (some op) = .binary meaning) :
    (binary opnd1 op opnd2 meaning isOp).Reads w := by
  rintro rest fuel ⟨-, notParen⟩ follows -
  change primary w fuel (checkOperator (some opnd1)) (opnd1 :: op :: opnd2 :: rest) = _
  rw [primary, if_neg (checkOperator_ne_eoi opnd1), if_neg (mt checkOperator_lparen.1 notParen),
    operandPrimary_cons, if_pos ⟨List.cons_ne_nil _ _, by rw [isOp]; rfl⟩, binop_cons isOp]
  rfl

theorem reads_paren {inner : Expr .oexpr} (reads : inner.Reads w) : (paren inner).Reads w := by
  intro rest fuel placed follows enough
  have shape : (paren inner).args ++ rest = ascii "(" :: (inner.args ++ ascii ")" :: rest) := by
    simp [args]
  rw [shape] at enough ⊢
  rw [List.length_cons] at enough
  obtain ⟨fuel, rfl⟩ := Nat.exists_eq_succ_of_ne_zero (Nat.ne_zero_of_lt enough)
  have closes : Follows .oexpr (ascii ")" :: rest) := by
    rw [Follows, List.head?_cons, checkOperator_facts.2.2.2.2]
    decide
  have inside := reads (ascii ")" :: rest) fuel placed closes (Nat.le_of_succ_le_succ enough)
  change oexpr w fuel _ _ = _ at inside
  change primary w (fuel + 1) (checkOperator (some (ascii "("))) _ = _
  rw [primary, checkOperator_facts.2.2.2.1, if_neg (by decide), if_pos rfl, advance_cons, ok_bind]
  simp only [inside, result]
  cases truth : inner.truth w with
  | error complaint => simp [Expr.truth, truth]
  | ok value =>
    simp only [Expr.truth, truth, leave_ok, ok_bind]
    simp only [pure, Except.pure, ok_bind, advance_cons, List.head?_cons,
      checkOperator_facts.2.2.2.2, ne_eq, not_true_eq_false, if_false, last]

/-- Where a primary begins with "!", it is the last argument. -/
theorem last_of_unot {p : Expr .primary} {rest : List Text} (placed : p.Placed rest)
    (isNot : checkOperator (p.args ++ rest).head? = .unot) :
    p = operand (ascii "!") ∧ rest = [] := by
  cases p with
  | unary op opnd meaning isOp =>
    change checkOperator (some op) = .unot at isNot
    rw [isOp] at isNot
    cases isNot
  | binary opnd1 op opnd2 meaning isOp => exact absurd (checkOperator_unot.1 isNot) placed.1
  | operand opnd =>
    have same : opnd = ascii "!" := checkOperator_unot.1 isNot
    exact ⟨congrArg operand same, placed.2 (.inl same)⟩
  | paren inner =>
    change checkOperator (some (ascii "(")) = .unot at isNot
    rw [checkOperator_facts.2.2.2.1] at isNot
    cases isNot

theorem nexpr_reads {p : Expr .primary} (reads : p.Reads w) {rest : List Text} {fuel : Nat}
    (placed : p.Placed rest) (follows : Follows .primary rest)
    (enough : (p.args ++ rest).length ≤ fuel) :
    nexpr w fuel (checkOperator (p.args ++ rest).head?) (p.args ++ rest) =
      result (p.truth w) p.last rest := by
  by_cases isNot : checkOperator (p.args ++ rest).head? = .unot
  · obtain ⟨rfl, rfl⟩ := last_of_unot placed isNot
    rw [nexpr, if_pos isNot]
    rfl
  · rw [nexpr, if_neg isNot]
    exact reads rest fuel placed follows enough

theorem reads_not {p : Expr .primary} (reads : p.Reads w) : (not p).Reads w := by
  intro rest fuel placed follows enough
  have shape : (not p).args ++ rest = ascii "!" :: (p.args ++ rest) := rfl
  rw [shape] at enough ⊢
  rw [List.length_cons] at enough
  obtain ⟨fuel, rfl⟩ := Nat.exists_eq_succ_of_ne_zero (Nat.ne_zero_of_lt enough)
  have inside := nexpr_reads reads placed follows (Nat.le_of_succ_le_succ enough)
  obtain ⟨arg, args, same⟩ := List.exists_cons_of_ne_nil (args_ne_nil p)
  have notLast : checkOperator (p.args ++ rest).head? ≠ .eoi := by
    rw [same]
    exact checkOperator_ne_eoi arg
  change nexpr w (fuel + 1) (checkOperator (some (ascii "!"))) _ = _
  rw [nexpr, checkOperator_facts.1, if_pos rfl, advance_cons, ok_bind]
  simp only [notLast, if_false, inside, result]
  cases truth : p.truth w <;> simp only [Expr.truth, truth] <;> rfl

/-- A chain that goes on behind an operator. -/
theorem chain_goes_on {truth truth' : Except Complaint Bool} {last last' op : Text}
    {rest rest' : List Text} {token : Token} (again : List Text → Parsed)
    (joined : Bool → Bool → Bool) (isOp : checkOperator (some op) = token)
    (later : again rest' = result truth' last' rest) :
    (result truth last (op :: rest') >>= fun (res, args) => do
      let ahead ← advance args
      if checkOperator ahead.head? = token then
        let args ← advance ahead
        let (res', args) ← again args
        return (joined res' res, args)
      else return (res, args)) =
      result (do
        let l ← truth
        let r ← truth'
        return joined r l) last' rest := by
  cases truth with
  | error complaint => rfl
  | ok value =>
    change (if checkOperator (some op) = token then again rest' >>= _ else _) = _
    rw [if_pos isOp, later]
    cases truth' <;> rfl

theorem follows_mono {rest : List Text} :
    (checkOperator rest.head? ∈ follow .oexpr → Follows .aexpr rest) ∧
      (checkOperator rest.head? ∈ follow .aexpr → Follows .nexpr rest) := by
  constructor <;> intro follows <;> simp only [Follows, follow, List.mem_cons] at follows ⊢ <;> tauto

theorem reads_and {left : Expr .nexpr} {right : Expr .aexpr} (readsLeft : left.Reads w)
    (readsRight : right.Reads w) : (and left right).Reads w := by
  rintro rest fuel ⟨placedLeft, placedRight⟩ follows enough
  have shape : (and left right).args ++ rest = left.args ++ ascii "-a" :: (right.args ++ rest) := by
    simp [args]
  rw [shape] at enough ⊢
  have isOp := checkOperator_facts.2.1
  have next : Follows .nexpr (ascii "-a" :: (right.args ++ rest)) := by
    rw [Follows, List.head?_cons, isOp]
    decide
  have front := readsLeft _ fuel placedLeft next enough
  rw [List.length_append, List.length_cons] at enough
  obtain ⟨fuel, rfl⟩ := Nat.exists_eq_succ_of_ne_zero (show fuel ≠ 0 by omega)
  have back := readsRight rest fuel placedRight follows (by omega)
  change nexpr w (fuel + 1) _ _ = _ at front
  change aexpr w (fuel + 1) _ _ = _
  rw [aexpr, front]
  refine (chain_goes_on (fun args => aexpr w fuel (checkOperator args.head?) args) (· && ·) isOp
    back).trans ?_
  simp only [truth, Bool.and_comm]
  rfl

theorem reads_or {left : Expr .aexpr} {right : Expr .oexpr} (readsLeft : left.Reads w)
    (readsRight : right.Reads w) : (or left right).Reads w := by
  rintro rest fuel ⟨placedLeft, placedRight⟩ follows enough
  have shape : (or left right).args ++ rest = left.args ++ ascii "-o" :: (right.args ++ rest) := by
    simp [args]
  rw [shape] at enough ⊢
  have isOp := checkOperator_facts.2.2.1
  have next : Follows .aexpr (ascii "-o" :: (right.args ++ rest)) := by
    rw [Follows, List.head?_cons, isOp]
    decide
  have front := readsLeft _ fuel placedLeft next enough
  rw [List.length_append, List.length_cons] at enough
  obtain ⟨fuel, rfl⟩ := Nat.exists_eq_succ_of_ne_zero (show fuel ≠ 0 by omega)
  have back := readsRight rest fuel placedRight follows (by omega)
  change aexpr w (fuel + 1) _ _ = _ at front
  change oexpr w (fuel + 1) _ _ = _
  rw [oexpr, front]
  refine (chain_goes_on (fun args => oexpr w fuel (checkOperator args.head?) args) (· || ·) isOp
    back).trans ?_
  simp only [truth, Bool.or_comm]
  rfl

theorem reads_ofNexpr {only : Expr .nexpr} (reads : only.Reads w) : (ofNexpr only).Reads w := by
  intro rest fuel placed follows enough
  change checkOperator rest.head? ∈ follow .aexpr at follows
  have stops : checkOperator rest.head? ≠ .band := by
    intro same
    rw [same] at follows
    revert follows
    decide
  have alone := reads rest fuel placed (follows_mono.2 follows) enough
  change nexpr w fuel _ _ = _ at alone
  change aexpr w fuel _ _ = _
  rw [aexpr]
  change nexpr w fuel (checkOperator (only.args ++ rest).head?) (only.args ++ rest) >>= _ = _
  rw [alone, result, result]
  cases value : only.truth w <;> simp [truth, value, stops, last, pure, Except.pure]

theorem reads_ofAexpr {only : Expr .aexpr} (reads : only.Reads w) : (ofAexpr only).Reads w := by
  intro rest fuel placed follows enough
  change checkOperator rest.head? ∈ follow .oexpr at follows
  have stops : checkOperator rest.head? ≠ .bor := by
    intro same
    rw [same] at follows
    revert follows
    decide
  have alone := reads rest fuel placed (follows_mono.1 follows) enough
  change aexpr w fuel _ _ = _ at alone
  change oexpr w fuel _ _ = _
  rw [oexpr]
  change aexpr w fuel (checkOperator (only.args ++ rest).head?) (only.args ++ rest) >>= _ = _
  rw [alone, result, result]
  cases value : only.truth w <;> simp [truth, value, stops, last, pure, Except.pure]

/-- The parser follows every derivation whose operands are in place. -/
theorem reads {level : Level} (e : Expr level) : e.Reads w := by
  induction e with
  | or left right readsLeft readsRight => exact reads_or readsLeft readsRight
  | ofAexpr only reads => exact reads_ofAexpr reads
  | and left right readsLeft readsRight => exact reads_and readsLeft readsRight
  | ofNexpr only reads => exact reads_ofNexpr reads
  | not negated reads => exact reads_not reads
  | ofPrimary only reads => exact fun rest fuel => nexpr_reads reads
  | unary op opnd meaning isOp => exact reads_unary op opnd meaning isOp
  | binary opnd1 op opnd2 meaning isOp => exact reads_binary opnd1 op opnd2 meaning isOp
  | operand opnd => exact reads_operand opnd
  | paren inner reads => exact reads_paren reads

end Expr

/-- The exit for a truth value or a complaint. -/
def exitOf : Except Complaint Bool → Outcome
  | .ok truth => .exit (status truth) none
  | .error complaint => .exit 2 (some complaint)

theorem generalCase_reads (e : Expr .oexpr) (placed : e.Placed []) :
    generalCase w e.args = exitOf (e.truth w) := by
  have run := e.reads (w := w) [] e.args.length placed (List.mem_cons_self ..) (by simp)
  rw [List.append_nil] at run
  change oexpr w _ _ _ = _ at run
  rw [generalCase, run]
  cases e.truth w <;> rfl

end Busybox.Test
