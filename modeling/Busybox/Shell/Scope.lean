import Busybox.Shell.Nesting

/-!
# What an evaluation asks for

An evaluation mentions the names of its text and assigns plain numbers; `Scope`
says which names and which variables these can be. An error of a nested evaluation
is the error of the whole.
-/

namespace Busybox.Shell

open Dialogue

/-- Names that can be mentioned, variables that can be around, texts that can be
left to read. -/
structure Scope where
  mentions : Str → Prop
  holds : Vars → Prop
  reads : Str → Prop
  set : ∀ {vars name val}, holds vars → holds (vars.set name (decimal val))
  space : ∀ {s}, reads s → reads (skipWhitespace s)
  token : ∀ {literal s token rest}, reads s → readToken literal s = some (token, rest) →
    reads rest ∧ ∀ name, token = .name name → mentions name
  closing : reads (bytes [')'])

namespace Scope

/-- What an evaluation asks for. -/
structure Asked (scope : Scope) (recursed : List Str) (reference : Reference) : Prop where
  recursed : reference.recursed = recursed
  mentioned : scope.mentions reference.name
  held : scope.holds reference.vars
  set : reference.vars reference.name = some reference.text

variable (scope : Scope)

/-- What it is answered. -/
def Answered (result : Evaluation) : Prop := scope.holds result.vars

def Named (nums : List VarOrNum) : Prop :=
  ∀ num ∈ nums, ∀ name, num.var = some name → scope.mentions name

/-- The variables of an operation that has stopped hold, the result of another is
as `results` says. -/
def Ends {α : Type} (results : α → Prop) : Except Stop α → Prop
  | .error (.error _ vars) => scope.holds vars
  | .error .belowStack => True
  | .ok result => results result

/-- The operands and the variables after an operation. -/
def Leaves (left : List VarOrNum × Vars) : Prop := scope.Named left.1 ∧ scope.holds left.2

def Fits (scan : Scan) : Prop :=
  scope.Named scan.nums ∧ scope.holds scan.vars ∧ scope.reads scan.expr

def OutcomeFits : Outcome → Prop
  | .next scan => scope.Fits scan
  | .done result => scope.holds result.vars
  | .belowStack => True

end Scope

section Meets

variable {scope : Scope} {recursed : List Str} {op : Operator} {vars : Vars}
  {nums below : List VarOrNum}

theorem meets_andThen {α β : Type} {first : Asking α} {next : α → Asking β} {mid : α → Prop}
    {results : β → Prop}
    (meets : first.Meets (scope.Asked recursed) scope.Answered (scope.Ends mid))
    (rest : ∀ result, mid result →
      (next result).Meets (scope.Asked recursed) scope.Answered (scope.Ends results)) :
    (first.andThen next).Meets (scope.Asked recursed) scope.Answered (scope.Ends results) := by
  apply meets.bind
  intro result ends
  cases result with
  | ok result => exact rest result ends
  | error stop =>
    cases stop with
    | error error vars => exact ends
    | belowStack => trivial

theorem askVal_meets {t : VarOrNum} (named : ∀ name, t.var = some name → scope.mentions name)
    (holds : scope.holds vars) :
    (askVal recursed vars t).Meets (scope.Asked recursed) scope.Answered
      (scope.Ends fun resolved => resolved.1.var = t.var ∧ scope.holds resolved.2) := by
  unfold askVal
  split
  · exact ⟨rfl, holds⟩
  · next name isVar =>
    split
    · exact ⟨rfl, holds⟩
    · next text set =>
      refine ⟨⟨rfl, named name isVar, holds, set⟩, fun result accepted => ?_⟩
      show scope.Ends _ (settle t result)
      rw [settle]
      split
      · exact accepted
      · exact ⟨rfl, accepted⟩

theorem Scope.Named.tail {top : VarOrNum} (named : scope.Named (top :: below)) :
    scope.Named below :=
  fun num member => named num (List.mem_cons_of_mem top member)

/-- What is pushed for a result is no name. -/
theorem Scope.Named.number {entry : VarOrNum} (named : scope.Named below)
    (number : entry.var = none) : scope.Named (entry :: below) := by
  intro num member name isVar
  rcases List.mem_cons.mp member with rfl | member
  · rw [number] at isVar
    cases isVar
  · exact named num member name isVar

theorem applied_ends {rez : Int64} {entry : VarOrNum} (named : scope.Named below)
    (holds : scope.holds vars) : scope.Ends scope.Leaves (applied op rez entry below vars) := by
  unfold applied
  split
  · split
    · exact holds
    · exact ⟨named.number rfl, scope.set holds⟩
  · exact ⟨named.number rfl, holds⟩

theorem applyResolved_ends {top left : VarOrNum} (named : scope.Named below)
    (holds : scope.holds vars) :
    scope.Ends scope.Leaves (applyResolved op top left below vars) := by
  unfold applyResolved
  split
  · exact applied_ends named holds
  · split
    · split
      · exact holds
      · exact applied_ends named holds
    · split
      · exact holds
      · exact applied_ends named holds

theorem askBinary_meets {top left : VarOrNum} (named : scope.Named (left :: below))
    (holds : scope.holds vars) :
    (askBinary recursed op top left below vars).Meets (scope.Asked recursed) scope.Answered
      (scope.Ends scope.Leaves) := by
  unfold askBinary
  split
  · exact holds
  · have resolves : Dialogue.Meets (scope.Asked recursed) scope.Answered
        (scope.Ends fun resolved : VarOrNum × Vars => resolved.1.var = left.var ∧
          scope.holds resolved.2)
        (if op = .assign then .done (.ok (left, vars)) else askVal recursed vars left) := by
      split
      · exact ⟨rfl, holds⟩
      · exact askVal_meets (named left (List.mem_cons_self ..)) holds
    exact meets_andThen resolves fun resolved ends => applyResolved_ends named.tail ends.2

theorem askApply_meets (named : scope.Named nums) (holds : scope.holds vars) :
    (askApply recursed op nums vars).Meets (scope.Asked recursed) scope.Answered
      (scope.Ends scope.Leaves) := by
  cases nums with
  | nil => exact holds
  | cons top below =>
    apply meets_andThen (askVal_meets (named top (List.mem_cons_self ..)) holds)
    rintro ⟨resolved, vars'⟩ ⟨same, held⟩
    dsimp only
    split
    · exact applied_ends named.tail held
    · exact held
    · exact askBinary_meets named.tail held

theorem askUnwind_meets {stack : List Operator} (named : scope.Named nums)
    (holds : scope.holds vars) :
    (askUnwind recursed op stack nums vars).Meets (scope.Asked recursed) scope.Answered
      (scope.Ends fun unwound => scope.Named unwound.nums ∧ scope.holds unwound.vars) := by
  induction stack generalizing nums vars with
  | nil => exact ⟨named, holds⟩
  | cons prev stack ih =>
    unfold askUnwind
    split
    · exact ⟨named, holds⟩
    · split
      · exact ⟨named, holds⟩
      · exact meets_andThen (askApply_meets named holds) fun left ends => ih ends.1 ends.2

theorem Scope.OutcomeFits.stop {α : Type} {results : α → Prop} {stop : Stop}
    (ends : scope.Ends results (.error stop)) : scope.OutcomeFits stop.outcome := by
  cases stop with
  | error error vars => exact ends
  | belowStack => trivial

theorem askPush_meets {scan : Scan} {token : Token} (fits : scope.Fits scan)
    (named : ∀ name, token = .name name → scope.mentions name) :
    (askPush recursed token scan).Meets (scope.Asked recursed) scope.Answered
      scope.OutcomeFits := by
  obtain ⟨operands, holds, reads⟩ := fits
  cases token with
  | name name =>
    refine ⟨fun num member other isVar => ?_, holds, reads⟩
    rcases List.mem_cons.mp member with rfl | member
    · cases isVar
      exact named name rfl
    · exact operands num member other isVar
  | num val => exact ⟨operands.number rfl, holds, reads⟩
  | op op =>
    unfold askPush askMeant
    dsimp only
    split
    · split
      · refine (askUnwind_meets operands holds).bind fun result ends => ?_
        cases result with
        | error stop => exact Scope.OutcomeFits.stop ends
        | ok unwound =>
          obtain ⟨operands', holds'⟩ := ends
          show scope.OutcomeFits (pushed _ scan (.ok unwound))
          unfold pushed
          dsimp only
          split
          · exact ⟨operands', holds', reads⟩
          · split
            · exact holds'
            · exact ⟨operands', holds', reads⟩
      · exact holds
    · exact ⟨operands, holds, reads⟩

theorem askFinish_meets {scan : Scan} (fits : scope.Fits scan) :
    (askFinish recursed scan).Meets (scope.Asked recursed) scope.Answered scope.OutcomeFits := by
  obtain ⟨operands, holds, -⟩ := fits
  unfold askFinish
  split
  · next operand single =>
    have named := operands operand (by rw [single]; exact List.mem_singleton_self operand)
    refine (askVal_meets named holds).bind fun result ends => ?_
    cases result with
    | error stop => exact Scope.OutcomeFits.stop ends
    | ok resolved => exact ends.2
  · exact holds

theorem askStep_meets {scan : Scan} (fits : scope.Fits scan) :
    (askStep recursed scan).Meets (scope.Asked recursed) scope.Answered scope.OutcomeFits := by
  have trimmed := scope.space fits.2.2
  unfold askStep
  split
  · split
    · exact askFinish_meets fits
    · exact ⟨fits.1, fits.2.1, scope.closing⟩
  · next c rest text =>
    rw [text] at trimmed
    split
    · trivial
    · split
      · exact fits.2.1
      · next token rest read =>
        obtain ⟨reads, named⟩ := scope.token trimmed read
        exact askPush_meets ⟨fits.1, fits.2.1, reads⟩ named

theorem askLoop_meets {turns : Nat} {scan : Scan} (fits : scope.Fits scan) :
    (askLoop recursed turns scan).Meets (scope.Asked recursed) scope.Answered
      fun result => ∀ ended, result = some ended → scope.holds ended.vars := by
  induction turns generalizing scan with
  | zero => exact fun ended none => nomatch none
  | succ turns ih =>
    refine (askStep_meets fits).bind fun outcome ends => ?_
    cases outcome with
    | next scan => exact ih ends
    | done result =>
      intro ended same
      cases same
      exact ends
    | belowStack => exact fun ended none => nomatch none

/-- An evaluation of a text in scope asks for what is in scope. -/
theorem evaluation_meets (scope : Scope) {expr : Str} (holds : scope.holds vars) (reads : scope.reads expr) :
    (evaluation recursed vars expr).Meets (scope.Asked recursed) scope.Answered
      scope.Answered := by
  have trimmed := scope.space reads
  unfold evaluation
  split
  · exact holds
  · next c rest text =>
    rw [text] at trimmed
    have fits : scope.Fits (startScan (c :: rest) vars) :=
      ⟨fun num member => absurd member (List.not_mem_nil), holds, trimmed⟩
    refine (askLoop_meets fits).bind fun result ends => ?_
    cases result with
    | none => exact holds
    | some ended => exact ends ended rfl

end Meets

/-! ## Errors of nested evaluations -/

section Reports

variable {recursed : List Str} {op : Operator} {vars : Vars} {nums below : List VarOrNum}

def stopError {α : Type} : Except Stop α → Option MathError
  | .error (.error error _) => some error
  | _ => none

def outcomeError : Outcome → Option MathError
  | .done result => result.error
  | _ => none

theorem reports_andThen {α β : Type} {first : Asking α} {next : α → Asking β}
    (reports : first.Reports Evaluation.error stopError)
    (rest : ∀ result, (next result).Reports Evaluation.error stopError) :
    (first.andThen next).Reports Evaluation.error stopError := by
  apply reports.bind
  · intro result e failed
    cases result with
    | ok result => cases failed
    | error stop =>
      cases stop with
      | error error vars => exact ⟨_, rfl, failed⟩
      | belowStack => cases failed
  · intro result
    cases result with
    | ok result => exact rest result
    | error stop => trivial

theorem askVal_reports (t : VarOrNum) :
    (askVal recursed vars t).Reports Evaluation.error stopError := by
  unfold askVal
  split
  · trivial
  · split
    · trivial
    · refine fun answer => ⟨fun e failed => ⟨_, rfl, ?_⟩, trivial⟩
      rw [settle, failed]
      rfl

theorem askBinary_reports (top left : VarOrNum) :
    (askBinary recursed op top left below vars).Reports Evaluation.error stopError := by
  unfold askBinary
  split
  · trivial
  · refine reports_andThen ?_ fun resolved => trivial
    split
    · trivial
    · exact askVal_reports left

theorem askApply_reports :
    (askApply recursed op nums vars).Reports Evaluation.error stopError := by
  cases nums with
  | nil => trivial
  | cons top below =>
    refine reports_andThen (askVal_reports top) fun resolved => ?_
    dsimp only
    split
    · trivial
    · trivial
    · exact askBinary_reports _ _

theorem askUnwind_reports (stack : List Operator) :
    (askUnwind recursed op stack nums vars).Reports Evaluation.error stopError := by
  induction stack generalizing nums vars with
  | nil => trivial
  | cons prev stack ih =>
    unfold askUnwind
    split
    · trivial
    · split
      · trivial
      · exact reports_andThen askApply_reports fun applied => ih

theorem stop_outcome {α : Type} {result : Except Stop α} {e : MathError}
    (failed : stopError result = some e) :
    ∃ stop, result = .error stop ∧ outcomeError stop.outcome = some e := by
  cases result with
  | ok result => cases failed
  | error stop =>
    cases stop with
    | error error vars => exact ⟨_, rfl, failed⟩
    | belowStack => cases failed

theorem askStep_reports (scan : Scan) :
    (askStep recursed scan).Reports Evaluation.error outcomeError := by
  unfold askStep
  split
  · split
    · unfold askFinish
      split
      · refine (askVal_reports _).bind (fun result e failed => ?_) fun result => trivial
        obtain ⟨stop, rfl, reported⟩ := stop_outcome failed
        exact ⟨_, rfl, reported⟩
      · trivial
    · trivial
  · split
    · trivial
    · split
      · trivial
      · next token rest read =>
        cases token with
        | name name => trivial
        | num val => trivial
        | op op =>
          unfold askPush askMeant
          dsimp only
          split
          · split
            · refine (askUnwind_reports _).bind (fun result e failed => ?_) fun result => trivial
              obtain ⟨stop, rfl, reported⟩ := stop_outcome failed
              exact ⟨_, rfl, reported⟩
            · trivial
          · trivial

theorem askLoop_reports (turns : Nat) (scan : Scan) :
    (askLoop recursed turns scan).Reports Evaluation.error
      fun result => result.bind Evaluation.error := by
  induction turns generalizing scan with
  | zero => trivial
  | succ turns ih =>
    refine (askStep_reports scan).bind (fun outcome e failed => ?_) fun outcome => ?_
    · cases outcome with
      | next scan => cases failed
      | done result => exact ⟨_, rfl, failed⟩
      | belowStack => cases failed
    · cases outcome with
      | next scan => exact ih scan
      | done result => trivial
      | belowStack => trivial

/-- The error of a nested evaluation is the error of the evaluation. -/
theorem evaluation_reports (expr : Str) :
    (evaluation recursed vars expr).Reports Evaluation.error Evaluation.error := by
  unfold evaluation
  split
  · trivial
  · refine (askLoop_reports _ _).bind (fun result e failed => ?_) fun result => trivial
    cases result with
    | none => cases failed
    | some ended => exact ⟨_, rfl, failed⟩

end Reports

end Busybox.Shell
