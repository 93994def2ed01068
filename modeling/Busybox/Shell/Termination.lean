import Busybox.Shell.Scope

/-!
# Termination of `arith`

The loop of one call ends because every turn shortens what is left of the text.
Calls for the values of variables end because a name that is being evaluated is not
followed again: the names in progress are different ones. Only the innermost can be
one that an assignment has created, since what it holds is a plain number, which
mentions no name.
-/

namespace Busybox.Shell

open Dialogue

/-! ## One call -/

/-- With turns enough the loop ends, and never below the bottom of the stack. -/
theorem loop_ends {eval : Evaluator} {recursed : List Str} {turns : Nat} {scan : Scan}
    (grounded : Grounded scan.skeleton) (enough : scan.skeleton.left < turns) :
    loop eval recursed turns scan ≠ none := by
  induction turns generalizing scan with
  | zero => exact absurd enough (Nat.not_lt_zero _)
  | succ turns ih =>
    unfold loop
    cases stepped : step eval recursed scan with
    | next scan' =>
      have shape := step_next stepped
      have fewer := Skeleton.left_step shape
      exact ih (Skeleton.step_some grounded shape).1 (by omega)
    | done result => exact Option.some_ne_none result
    | belowStack => exact absurd stepped (step_ne_belowStack grounded)

theorem evaluateWith_ends_always (eval : Evaluator) (recursed : List Str) (vars : Vars)
    (expr : Str) : evaluateWith eval recursed vars expr ≠ none := by
  unfold evaluateWith
  split
  · exact Option.some_ne_none _
  · next c rest text =>
    apply loop_ends
    · simp [Grounded, startScan, Scan.skeleton, afterPost]
    · simp only [Skeleton.left, startScan, Scan.skeleton, List.length_cons]
      simp

/-! ## Numbers mention no names -/

/-- What is left to read of a plain number. -/
def LeftOfNumber (s : Str) : Prop :=
  s = [] ∨ s = bytes [')'] ∨ ∃ val, NumericText s val

theorem NumericText.visible {s : Str} {val : Int64} (numeric : NumericText s val) :
    skipWhitespace s = s := by
  rcases numeric with ⟨c, rest, rfl, digit, -⟩ | ⟨c, rest, magnitude, rfl, -⟩
  · exact skipWhitespace_cons (isdigit_facts digit).2.1
  · rfl

theorem readToken_sign {literal : Bool} {c : UInt8} {rest : Str} (digit : isdigit c = true) :
    readToken literal (45 :: c :: rest) = some (.op .sub, c :: rest) := by
  obtain ⟨-, -, noMinus, noEqual⟩ := isdigit_facts digit
  have matched : matchOperator (45 :: c :: rest) = some (.sub, c :: rest) := by
    simp [matchOperator, opTokens, bytes, List.isPrefixOf, noMinus.symm, noEqual.symm]
  simp [readToken, splitName, isName, isalpha, isdigit, matched, noMinus]

theorem LeftOfNumber.token {literal : Bool} {s rest : Str} {token : Token}
    (left : LeftOfNumber s) (read : readToken literal s = some (token, rest)) :
    LeftOfNumber rest ∧ ∀ name, token ≠ .name name := by
  rcases left with rfl | rfl | ⟨val, numeric⟩
  · simp [readToken, splitName] at read
  · have paren : readToken literal (bytes [')']) = some (.op .rparen, []) := by
      cases literal <;> decide
    rw [paren] at read
    cases read
    exact ⟨.inl rfl, by rintro _ ⟨⟩⟩
  · rcases numeric with ⟨c, rest', rfl, digit, number⟩ | ⟨c, rest', magnitude, rfl, digit, number, -⟩
    · rw [readToken_num literal digit number] at read
      cases read
      exact ⟨.inl rfl, by rintro _ ⟨⟩⟩
    · rw [readToken_sign digit] at read
      cases read
      exact ⟨.inr (.inr ⟨magnitude, .inl ⟨c, rest', rfl, digit, number⟩⟩), by rintro _ ⟨⟩⟩

/-! ## What variables hold -/

/-- Variables other than those of `names` hold plain numbers. -/
def Settled (names : List Str) (vars : Vars) : Prop :=
  ∀ name text, vars name = some text → name ∈ names ∨ ∃ val, text = decimal val

theorem Settled.set {names : List Str} {vars : Vars} {name : Str} {val : Int64}
    (settled : Settled names vars) : Settled names (vars.set name (decimal val)) := by
  intro other text holds
  unfold Vars.set at holds
  split at holds
  · exact .inr ⟨val, (Option.some.inj holds).symm⟩
  · exact settled other text holds

/-- Variables that stay set. -/
def AllSet (kept : List Str) (vars : Vars) : Prop := ∀ name ∈ kept, vars name ≠ none

theorem AllSet.set {kept : List Str} {vars : Vars} {name : Str} {val : Int64}
    (allSet : AllSet kept vars) : AllSet kept (vars.set name (decimal val)) := by
  intro other member
  unfold Vars.set
  split
  · exact Option.some_ne_none _
  · exact allSet other member

/-- Any text, while the variables are as `holds` says. -/
def Scope.any (holds : Vars → Prop)
    (set : ∀ {vars name val}, holds vars → holds (vars.set name (decimal val))) : Scope where
  mentions _ := True
  holds := holds
  reads _ := True
  set := set
  space _ := trivial
  token _ _ := ⟨trivial, fun _ _ => trivial⟩
  closing := trivial

/-- A plain number. -/
def Scope.number (names : List Str) : Scope where
  mentions _ := False
  holds := Settled names
  reads := LeftOfNumber
  set := Settled.set
  space left := by
    rcases left with rfl | rfl | ⟨val, numeric⟩
    · exact .inl rfl
    · exact .inr (.inl rfl)
    · rw [numeric.visible]
      exact .inr (.inr ⟨val, numeric⟩)
  token left read := by
    obtain ⟨rest, noName⟩ := left.token read
    exact ⟨rest, fun name same => noName name same⟩
  closing := .inr (.inl rfl)

/-! ## References in progress -/

/-- The names in progress are different ones, of those that were set at the start. -/
structure Orderly (names : List Str) (reference : Reference) : Prop where
  nodup : reference.recursed.Nodup
  within : reference.recursed ⊆ names
  settled : Settled names reference.vars
  set : reference.vars reference.name = some reference.text

/-- How many names can still be in progress within the value of this one. -/
def Reference.rank (names : List Str) (reference : Reference) : Nat :=
  if reference.name ∈ reference.recursed ∨ reference.name ∉ names then 0
  else names.length - reference.recursed.length

theorem Orderly.room {names : List Str} {reference : Reference}
    (orderly : Orderly names reference) (known : reference.name ∈ names)
    (fresh : reference.name ∉ reference.recursed) :
    reference.recursed.length < names.length := by
  have nodup : (reference.name :: reference.recursed).Nodup :=
    List.nodup_cons.mpr ⟨fresh, orderly.nodup⟩
  have within : reference.name :: reference.recursed ⊆ names :=
    List.cons_subset.mpr ⟨known, orderly.within⟩
  exact (nodup.subperm within).length_le

theorem Orderly.follow_meets {names : List Str} {reference : Reference}
    (orderly : Orderly names reference) :
    (follow reference).Meets
      (fun inner => Orderly names inner ∧ inner.rank names < reference.rank names)
      (fun result => Settled names result.vars) (fun result => Settled names result.vars) := by
  unfold follow
  split
  · exact orderly.settled
  · next fresh =>
    by_cases known : reference.name ∈ names
    · have room := orderly.room known fresh
      have nodup := List.nodup_cons.mpr ⟨fresh, orderly.nodup⟩
      have within := List.cons_subset.mpr ⟨known, orderly.within⟩
      refine (evaluation_meets (.any (Settled names) Settled.set) orderly.settled trivial).mono (fun inner asked => ?_) fun result ends => ends
      have inProgress := asked.recursed
      refine ⟨⟨inProgress ▸ nodup, inProgress ▸ within, asked.held, asked.set⟩, ?_⟩
      unfold Reference.rank
      rw [if_neg (not_or.mpr ⟨fresh, not_not_intro known⟩)]
      split
      · omega
      · rw [inProgress, List.length_cons]
        omega
    · rcases orderly.settled _ _ orderly.set with listed | ⟨val, number⟩
      · exact absurd listed known
      · have left : LeftOfNumber reference.text :=
          .inr (.inr ⟨val, number ▸ numericText_decimal val⟩)
        exact (evaluation_meets (.number names) orderly.settled left).mono
          (fun inner asked => absurd asked.mentioned id) fun result ends => ends

theorem Reference.rank_le (names : List Str) (reference : Reference) :
    reference.rank names ≤ names.length := by
  unfold Reference.rank
  split
  · exact Nat.zero_le _
  · exact Nat.sub_le ..

/-- Every reference is answered, and so many nested calls are enough. -/
theorem Orderly.answered {names : List Str} {reference : Reference} {depth : Nat}
    (orderly : Orderly names reference) (enough : names.length < depth) :
    Returns follow (follow reference) (answerWith (evaluateString depth) reference) ∧
      Settled names (answerWith (evaluateString depth) reference).vars := by
  rw [answerWith_evaluateString]
  exact Dialogue.answered (Reference.rank names) _ (fun _ => Orderly.follow_meets) orderly
    (Nat.lt_of_le_of_lt (reference.rank_le names) enough)

/-- What holds of the variables and survives assignments survives evaluations. -/
theorem follow_holds {holds : Vars → Prop}
    (set : ∀ {vars name val}, holds vars → holds (vars.set name (decimal val)))
    {reference : Reference} {result : Evaluation}
    (returns : Returns follow (follow reference) result) (held : holds reference.vars) :
    holds result.vars := by
  have calls : ∀ reference : Reference, holds reference.vars →
      (follow reference).Meets (fun inner => holds inner.vars)
        (fun result => holds result.vars) (fun result => holds result.vars) := by
    intro reference held
    unfold follow
    split
    · exact held
    · exact (evaluation_meets (.any holds set) held trivial).mono
        (fun inner asked => asked.held) fun result ends => ends
  exact returns.met calls (calls reference held)

section Chains

variable {names recursed : List Str} {vars : Vars} {expr : Str} {reference inner : Reference}
  {outer : List Reference}

/-- The innermost of the references in progress: `list_of_recursed_names` holds the
names of the others, and all of these are set. -/
structure Innermost (names : List Str) (reference : Reference) (outer : List Reference) :
    Prop where
  orderly : Orderly names reference
  recursed : reference.recursed = outer.map Reference.name
  allSet : AllSet reference.recursed reference.vars

/-- What an evaluation gets to ask. -/
theorem asked_reference (nodup : recursed.Nodup) (within : recursed ⊆ names)
    (settled : Settled names vars) (allSet : AllSet recursed vars)
    (asks : Asks follow (evaluation recursed vars expr) inner) :
    Orderly names inner ∧ inner.recursed = recursed ∧ AllSet recursed inner.vars := by
  have kept : ∀ {vars name val}, Settled names vars ∧ AllSet recursed vars →
      Settled names (vars.set name (decimal val)) ∧
        AllSet recursed (vars.set name (decimal val)) :=
    fun both => ⟨both.1.set, both.2.set⟩
  have asked := asks.met
    (evaluation_meets (.any (fun vars => Settled names vars ∧ AllSet recursed vars) kept)
      ⟨settled, allSet⟩ trivial)
    fun _ _ asked returns => follow_holds kept returns asked.held
  have same := asked.recursed
  exact ⟨⟨same ▸ nodup, same ▸ within, asked.held.1, asked.set⟩, same, asked.held.2⟩

/-- A reference whose value refers to another is followed, and was set at the start. -/
theorem Orderly.of_asks (orderly : Orderly names reference)
    (asks : Asks follow (follow reference) inner) :
    reference.name ∉ reference.recursed ∧ reference.name ∈ names ∧
      Asks follow (evaluation (reference.name :: reference.recursed) reference.vars
        reference.text) inner := by
  unfold follow at asks
  split at asks
  · cases asks
  · next fresh =>
    refine ⟨fresh, ?_, asks⟩
    rcases orderly.settled _ _ orderly.set with known | ⟨val, number⟩
    · exact known
    · have left : LeftOfNumber reference.text :=
        .inr (.inr ⟨val, number ▸ numericText_decimal val⟩)
      have asked := asks.met (evaluation_meets (.number names) orderly.settled left)
        fun _ _ asked => absurd asked.mentioned id
      exact absurd asked.mentioned id

theorem Innermost.nested (innermost : Innermost names reference outer)
    (asks : Asks follow (follow reference) inner) :
    Innermost names inner (reference :: outer) := by
  obtain ⟨fresh, known, asks⟩ := innermost.orderly.of_asks asks
  have allSet : AllSet (reference.name :: reference.recursed) reference.vars := by
    intro name member
    rcases List.mem_cons.mp member with rfl | member
    · rw [innermost.orderly.set]
      exact Option.some_ne_none _
    · exact innermost.allSet name member
  obtain ⟨orderly, same, allSet⟩ := asked_reference
    (List.nodup_cons.mpr ⟨fresh, innermost.orderly.nodup⟩)
    (List.cons_subset.mpr ⟨known, innermost.orderly.within⟩) innermost.orderly.settled allSet asks
  refine ⟨orderly, ?_, same ▸ allSet⟩
  rw [same, innermost.recursed, List.map_cons]

theorem chain_innermost (settled : Settled names vars)
    (chain : Chain follow (evaluation [] vars expr) (reference :: outer)) :
    Innermost names reference outer := by
  generalize whole : reference :: outer = references at chain
  induction chain generalizing reference outer with
  | call asks =>
    cases whole
    obtain ⟨orderly, same, allSet⟩ := asked_reference List.nodup_nil (List.nil_subset names) settled
      (fun _ member => absurd member List.not_mem_nil) asks
    exact ⟨orderly, same, same ▸ allSet⟩
  | nested chain asks ih =>
    cases whole
    exact (ih rfl).nested asks

/-- An error within references in progress ends the outermost evaluation. -/
theorem chain_reports {result answer : Evaluation} {error : MathError}
    (settled : Settled names vars)
    (chain : Chain follow (evaluation [] vars expr) (reference :: outer))
    (returns : Returns follow (evaluation [] vars expr) result)
    (answered : Returns follow (follow reference) answer) (failed : answer.error = some error) :
    result.error = some error := by
  generalize whole : reference :: outer = references at chain
  induction chain generalizing reference outer answer with
  | call asks =>
    cases whole
    exact asks.reported (evaluation_reports expr) answered failed returns
  | nested chain asks ih =>
    cases whole
    have innermost := chain_innermost settled chain
    obtain ⟨asked, -⟩ := innermost.orderly.answered (Nat.lt_succ_self names.length)
    refine ih asked ?_ rfl
    obtain ⟨-, -, within⟩ := innermost.orderly.of_asks asks
    refine Asks.reported asks ?_ answered failed asked
    unfold follow
    split
    · trivial
    · exact evaluation_reports _

end Chains

/-! ## `arith` -/

/-- So many nested calls are enough. -/
theorem evaluation_returns {names : List Str} {vars : Vars} {depth : Nat} (expr : Str)
    (settled : Settled names vars) (enough : names.length < depth) :
    Returns follow (evaluation [] vars expr) (arith (depth + 1) vars expr) := by
  have meets : (evaluation [] vars expr).Meets (Orderly names)
      (fun result => Settled names result.vars) (fun result => Settled names result.vars) := by
    refine (evaluation_meets (.any (Settled names) Settled.set) settled trivial).mono
      (fun reference asked => ?_) fun _ ends => ends
    exact ⟨asked.recursed ▸ List.nodup_nil, asked.recursed ▸ List.nil_subset names, asked.held,
      asked.set⟩
  have answered := fun reference (orderly : Orderly names reference) => orderly.answered enough
  rw [answerWith_evaluateString] at answered
  rw [arith, evaluateString, ← evaluation_run, answerWith_evaluateString]
  exact (meets.returns answered).1

/-- `arith` terminates, for any expression and any variables of which finitely many
are set: the loop of each call ends whatever nested calls return, and nested calls
return. Of the references in progress at once the names on `list_of_recursed_names`
are different ones. One that is followed is nested in at most as many calls of
`evaluate_string` as there are variables by then, and one more than there were at
the start. One that refers back is not followed, and its error is the result. -/
theorem arith_terminates (vars : Vars) (names : List Str)
    (finite : ∀ name, vars name ≠ none → name ∈ names) (expr : Str) :
    (∀ eval recursed vars text, evaluateWith eval recursed vars text ≠ none) ∧
    ∃ result, Returns follow (evaluation [] vars expr) result ∧
      (∀ depth, names.length + 2 ≤ depth → arith depth vars expr = result) ∧
      ∀ reference outer, Chain follow (evaluation [] vars expr) (reference :: outer) →
        (reference.recursed = outer.map Reference.name ∧ reference.recursed.Nodup) ∧
        (reference.name ∉ reference.recursed →
          outer.length + 2 ≤ names.length + 2 ∧
          ∀ current : List Str, (∀ name, reference.vars name ≠ none → name ∈ current) →
            outer.length + 2 ≤ current.length + 1) ∧
        (reference.name ∈ reference.recursed →
          (∀ inner, ¬ Asks follow (follow reference) inner) ∧
          result.error = some .recursionLoop) := by
  have settled : Settled names vars := by
    intro name text holds
    refine .inl (finite name ?_)
    rw [holds]
    exact Option.some_ne_none text
  have returns := evaluation_returns expr settled (Nat.lt_succ_self names.length)
  refine ⟨evaluateWith_ends_always, _, returns, fun depth enough => ?_, fun reference outer chain => ?_⟩
  · obtain ⟨depth, rfl⟩ := Nat.exists_eq_add_of_le' (Nat.le_trans (Nat.le_add_left 1 _) enough)
    exact (evaluation_returns expr settled (Nat.lt_of_succ_le (Nat.le_of_succ_le_succ enough))).unique returns
  · have innermost := chain_innermost settled chain
    have inProgress : reference.recursed.length = outer.length := by
      rw [innermost.recursed, List.length_map]
    refine ⟨⟨innermost.recursed, innermost.orderly.nodup⟩, fun fresh => ⟨?_, fun current all => ?_⟩,
      fun back => ⟨fun inner asks => ?_, ?_⟩⟩
    · have within := (innermost.orderly.nodup.subperm innermost.orderly.within).length_le
      omega
    · have nodup : (reference.name :: reference.recursed).Nodup :=
        List.nodup_cons.mpr ⟨fresh, innermost.orderly.nodup⟩
      have within : reference.name :: reference.recursed ⊆ current := by
        refine List.cons_subset.mpr ⟨all _ ?_, fun name member => all name ?_⟩
        · rw [innermost.orderly.set]
          exact Option.some_ne_none _
        · exact innermost.allSet name member
      have fits := (nodup.subperm within).length_le
      rw [List.length_cons] at fits
      omega
    · exact (innermost.orderly.of_asks asks).1 back
    · have refused : Returns follow (follow reference) (fail .recursionLoop reference.vars) := by
        rw [follow, if_pos back]
        exact .done
      exact chain_reports settled chain returns refused rfl

/-- Two variables that name each other. -/
def cycle : Vars :=
  Vars.set (Vars.set (fun _ => none) (bytes ['a']) (bytes ['b'])) (bytes ['b']) (bytes ['a'])

theorem arith_terminates_cycle :
    (arith 4 cycle (bytes ['a'])).error = some .recursionLoop ∧
      arith 1000 cycle (bytes ['a']) = arith 4 cycle (bytes ['a']) := by
  have finite : ∀ name, cycle name ≠ none → name ∈ [bytes ['a'], bytes ['b']] := by
    intro name isSet
    by_contra other
    obtain ⟨notA, notB⟩ := not_or.mp (mt List.mem_pair.mpr other)
    exact isSet (by simp only [cycle, Vars.set, if_neg notA, if_neg notB])
  obtain ⟨-, result, -, same, -⟩ := arith_terminates cycle _ finite (bytes ['a'])
  exact ⟨by decide, (same 1000 (by decide)).trans (same 4 (by decide)).symm⟩

/-- The variable that an assignment creates is one more than there were. -/
theorem arith_creates_variable :
    ¬ ∀ (vars : Vars) (names : List Str), (∀ name, vars name ≠ none → name ∈ names) →
      ∀ expr reference outer, Chain follow (evaluation [] vars expr) (reference :: outer) →
        reference.name ∉ reference.recursed → outer.length + 2 ≤ names.length + 1 := by
  intro claim
  have asked : Asks follow (evaluation [] (fun _ => none) (bytes ['w', '=', '1', ',', 'w']))
      ⟨[], bytes ['w'], Vars.set (fun _ => none) (bytes ['w']) (decimal 1), decimal 1⟩ := by
    have asks : ∃ next, evaluation [] (fun _ => none) (bytes ['w', '=', '1', ',', 'w']) =
        .ask ⟨[], bytes ['w'], Vars.set (fun _ => none) (bytes ['w']) (decimal 1), decimal 1⟩
          next := ⟨_, rfl⟩
    obtain ⟨next, asks⟩ := asks
    rw [asks]
    exact .now
  have depth := claim (fun _ => none) [] (fun _ set => absurd rfl set) _ _ [] (.call asked)
    List.not_mem_nil
  exact absurd depth (by decide)

end Busybox.Shell
