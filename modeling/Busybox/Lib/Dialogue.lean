import Mathlib.Data.List.Basic
import Mathlib.Data.Nat.Basic
import Mathlib.Data.Nat.ModEq
import Mathlib.Tactic.Common

/-!
# Stop-and-wait transfer of a list in blocks

A sender cuts a list into blocks of one size and builds a block only once the
block before it has been acknowledged. Messages carry the number of their block
modulo `modulus`, so a stale message looks like a current one when the numbers
are congruent. `Progress.data_current` and `Progress.ack_current` say that this
does not happen while no message outlives `lifetime` further blocks.
-/

namespace Busybox.StopAndWait

/-- How many blocks the sender has built and the receiver has taken: the sender
is ahead by the one block in flight at most. -/
@[ext] structure Progress where
  built : Nat
  taken : Nat
  taken_le_built : taken ≤ built
  built_le_taken : built ≤ taken + 1

namespace Progress

/-- Nothing built, nothing taken. -/
def start : Progress := ⟨0, 0, Nat.le_refl 0, Nat.zero_le 1⟩

/-- The sender builds the next block: the last one has been taken. -/
def build (progress : Progress) (acknowledged : progress.built = progress.taken) : Progress where
  built := progress.built + 1
  taken := progress.taken
  taken_le_built := Nat.le_succ_of_le progress.taken_le_built
  built_le_taken := by omega

/-- The receiver takes the block in flight. -/
def take (progress : Progress) (pending : progress.built = progress.taken + 1) : Progress where
  built := progress.built
  taken := progress.taken + 1
  taken_le_built := by omega
  built_le_taken := by omega

variable {modulus lifetime : Nat}

/-- Congruent numbers less than the modulus apart are equal. -/
theorem eq_of_mod_eq {block awaited : Nat} (below : block ≤ awaited)
    (near : awaited < block + modulus) (sameNumber : block % modulus = awaited % modulus) :
    block = awaited := by
  have gap : (awaited - block) % modulus = 0 := Nat.sub_mod_eq_zero_of_mod_eq sameNumber.symm
  rw [Nat.mod_eq_of_lt (by omega)] at gap
  omega

/-- A block built no more than `lifetime` blocks ago that carries the awaited
number is the awaited block, and it is in flight. -/
theorem data_current (progress : Progress) (window : lifetime + 1 < modulus) {block : Nat}
    (built : block ≤ progress.built) (fresh : progress.built ≤ block + lifetime)
    (sameNumber : block % modulus = (progress.taken + 1) % modulus) :
    block = progress.taken + 1 ∧ progress.built = progress.taken + 1 := by
  have upper := progress.taken_le_built
  have lower := progress.built_le_taken
  have current : block = progress.taken + 1 :=
    eq_of_mod_eq (by omega) (by omega) sameNumber
  exact ⟨current, by omega⟩

/-- An acknowledgement sent no more than `lifetime` blocks ago that carries the
number of the last block built acknowledges that block, which has been taken.
It was sent before the sender could build two further blocks. -/
theorem ack_current (progress : Progress) (window : lifetime + 1 < modulus) {block stamp : Nat}
    (taken : block ≤ progress.taken) (stamped : stamp ≤ block + 1)
    (fresh : progress.built ≤ stamp + lifetime)
    (sameNumber : block % modulus = progress.built % modulus) :
    block = progress.built ∧ progress.built = progress.taken := by
  have upper := progress.taken_le_built
  have current : block = progress.built :=
    eq_of_mod_eq (by omega) (by omega) sameNumber
  exact ⟨current, by omega⟩

end Progress

section Blocks

variable {α : Type*}

/-- The block after the first `count` blocks of a list. -/
def block (size count : Nat) (content : List α) : List α :=
  (content.drop (count * size)).take size

theorem take_append_block (size count : Nat) (content : List α) :
    content.take (count * size) ++ block size count content
      = content.take ((count + 1) * size) := by
  rw [block, Nat.succ_mul, List.take_add]

/-- A block is short exactly when the list ends inside it. -/
theorem block_length_ne_iff {size count : Nat} {content : List α}
    (within : count * size ≤ content.length) :
    (block size count content).length ≠ size ↔ content.length < (count + 1) * size := by
  rw [block, List.length_take, List.length_drop, Nat.succ_mul]
  omega

end Blocks

end Busybox.StopAndWait

/-!
## Computations that ask

A `Dialogue` asks questions and goes on with the answers. The body of a recursive
procedure is a dialogue whose questions are its calls: `Returns` is what a call
returns in the end, `Asks` are the calls it makes, and `Chain` are calls in
progress within each other. `Meets` is the rule for invariants, `answered` the one
for termination.
-/

namespace Busybox

universe u v w x

/-- A computation that asks questions of type `Q`, is given answers of type `A`,
and ends with a result. -/
inductive Dialogue (Q : Type u) (A : Type v) (R : Type w)
  | done (result : R)
  | ask (question : Q) (next : A → Dialogue Q A R)

namespace Dialogue

variable {Q : Type u} {A : Type v} {R : Type w} {S : Type x}

/-- Go on with the result. -/
def bind : Dialogue Q A R → (R → Dialogue Q A S) → Dialogue Q A S
  | done result, next => next result
  | ask question rest, next => ask question fun answer => (rest answer).bind next

@[simp] theorem bind_done (result : R) (next : R → Dialogue Q A S) :
    (done result : Dialogue Q A R).bind next = next result := rfl

@[simp] theorem bind_ask (question : Q) (rest : A → Dialogue Q A R) (next : R → Dialogue Q A S) :
    (ask question rest).bind next = ask question fun answer => (rest answer).bind next := rfl

/-- The result, when all questions are answered by a function. -/
def run (answer : Q → A) : Dialogue Q A R → R
  | done result => result
  | ask question next => (next (answer question)).run answer

@[simp] theorem run_done (answer : Q → A) (result : R) :
    (done result : Dialogue Q A R).run answer = result := rfl

@[simp] theorem run_ask (answer : Q → A) (question : Q) (next : A → Dialogue Q A R) :
    (ask question next).run answer = (next (answer question)).run answer := rfl

theorem run_bind (answer : Q → A) (first : Dialogue Q A R) (next : R → Dialogue Q A S) :
    (first.bind next).run answer = (next (first.run answer)).run answer := by
  induction first with
  | done result => rfl
  | ask question rest ih => exact ih (answer question)

theorem bind_assoc {T : Type*} (first : Dialogue Q A R) (next : R → Dialogue Q A S)
    (last : S → Dialogue Q A T) :
    (first.bind next).bind last = first.bind fun result => (next result).bind last := by
  induction first with
  | done result => rfl
  | ask question rest ih =>
    rw [bind_ask, bind_ask, bind_ask]
    congr 1
    funext answer
    exact ih answer

theorem bind_done_right (dialogue : Dialogue Q A R) : dialogue.bind done = dialogue := by
  induction dialogue with
  | done result => rfl
  | ask question rest ih =>
    rw [bind_ask]
    congr 1
    funext answer
    exact ih answer

/-- The questions in their order, when all are answered by a function. -/
def asked (answer : Q → A) : Dialogue Q A R → List Q
  | done _ => []
  | ask question next => question :: (next (answer question)).asked answer

/-- Two functions that agree on the questions asked make the same dialogue. -/
theorem run_congr {answer answer' : Q → A} {dialogue : Dialogue Q A R}
    (same : ∀ question ∈ dialogue.asked answer, answer question = answer' question) :
    dialogue.run answer = dialogue.run answer' ∧
      dialogue.asked answer = dialogue.asked answer' := by
  induction dialogue with
  | done result => exact ⟨rfl, rfl⟩
  | ask question next ih =>
    obtain ⟨here, later⟩ := List.forall_mem_cons.mp same
    obtain ⟨result, questions⟩ := ih _ later
    rw [run_ask, run_ask, asked, asked, ← here]
    exact ⟨result, congrArg _ questions⟩

/-! ## Invariants -/

/-- Every question is as `asks` says and the result is as `results` says, as long as
the answers are as `answers` says. -/
def Meets (asks : Q → Prop) (answers : A → Prop) (results : R → Prop) : Dialogue Q A R → Prop
  | done result => results result
  | ask question next =>
    asks question ∧ ∀ answer, answers answer → (next answer).Meets asks answers results

section Meets

variable {asks asks' : Q → Prop} {answers : A → Prop} {results : R → Prop}

theorem Meets.bind {first : Dialogue Q A R} {next : R → Dialogue Q A S} {ends : S → Prop}
    (meets : first.Meets asks answers results)
    (rest : ∀ result, results result → (next result).Meets asks answers ends) :
    (first.bind next).Meets asks answers ends := by
  induction first with
  | done result => exact rest result meets
  | ask question next ih =>
    obtain ⟨asked, goesOn⟩ := meets
    exact ⟨asked, fun answer accepted => ih answer (goesOn answer accepted)⟩

theorem Meets.mono {dialogue : Dialogue Q A R} {results' : R → Prop}
    (meets : dialogue.Meets asks answers results)
    (weaker : ∀ question, asks question → asks' question)
    (ends : ∀ result, results result → results' result) :
    dialogue.Meets asks' answers results' := by
  induction dialogue with
  | done result => exact ends result meets
  | ask question next ih =>
    obtain ⟨asked, goesOn⟩ := meets
    exact ⟨weaker question asked, fun answer accepted => ih answer (goesOn answer accepted)⟩

end Meets

/-! ## Errors -/

/-- After an answer that is an error the dialogue ends and reports the error. -/
def Reports {E : Type x} (error : A → Option E) (reported : R → Option E) :
    Dialogue Q A R → Prop
  | done _ => True
  | ask _ next => ∀ answer,
    (∀ e, error answer = some e → ∃ result, next answer = done result ∧ reported result = some e) ∧
      (next answer).Reports error reported

theorem Reports.bind {E : Type*} {error : A → Option E} {first : Dialogue Q A R}
    {next : R → Dialogue Q A S} {reported : R → Option E} {ends : S → Option E}
    (reports : first.Reports error reported)
    (passesOn : ∀ result e, reported result = some e →
      ∃ ending, next result = done ending ∧ ends ending = some e)
    (rest : ∀ result, (next result).Reports error ends) :
    (first.bind next).Reports error ends := by
  induction first with
  | done result => exact rest result
  | ask question next ih =>
    intro answer
    obtain ⟨stops, goesOn⟩ := reports answer
    refine ⟨fun e failed => ?_, ih answer goesOn⟩
    obtain ⟨result, same, reportsIt⟩ := stops e failed
    dsimp only
    rw [same]
    exact passesOn result e reportsIt

/-! ## Recursive procedures -/

section Recursion

variable {body : Q → Dialogue Q A A} {dialogue : Dialogue Q A A}

/-- What a dialogue ends with when `body` answers its questions. -/
inductive Returns (body : Q → Dialogue Q A A) : Dialogue Q A A → A → Prop
  | done {result : A} : Returns body (.done result) result
  | ask {question : Q} {next : A → Dialogue Q A A} {answer result : A}
      (answered : Returns body (body question) answer) (goesOn : Returns body (next answer) result) :
      Returns body (.ask question next) result

/-- The questions that a dialogue gets to when `body` answers those before. -/
inductive Asks (body : Q → Dialogue Q A A) : Dialogue Q A A → Q → Prop
  | now {question : Q} {next : A → Dialogue Q A A} : Asks body (.ask question next) question
  | later {earlier question : Q} {next : A → Dialogue Q A A} {answer : A}
      (answered : Returns body (body earlier) answer) (rest : Asks body (next answer) question) :
      Asks body (.ask earlier next) question

/-- Questions in progress within each other, the innermost first. -/
inductive Chain (body : Q → Dialogue Q A A) (outermost : Dialogue Q A A) : List Q → Prop
  | call {question : Q} (asks : Asks body outermost question) : Chain body outermost [question]
  | nested {question inner : Q} {outer : List Q} (chain : Chain body outermost (question :: outer))
      (asks : Asks body (body question) inner) : Chain body outermost (inner :: question :: outer)

theorem Returns.unique {result result' : A} (returns : Returns body dialogue result)
    (returns' : Returns body dialogue result') : result = result' := by
  induction returns generalizing result' with
  | done =>
    cases returns'
    rfl
  | ask answered goesOn ihAnswer ihRest =>
    cases returns' with
    | ask answered' goesOn' =>
      obtain rfl := ihAnswer answered'
      exact ihRest goesOn'

/-- A dialogue's questions are as it meets them. -/
theorem Asks.met {asks : Q → Prop} {answers results : A → Prop} {question : Q}
    (asked : Asks body dialogue question) (meets : dialogue.Meets asks answers results)
    (accepted : ∀ question answer, asks question → Returns body (body question) answer →
      answers answer) : asks question := by
  induction asked with
  | now => exact meets.1
  | later answered rest ih =>
    obtain ⟨asked, goesOn⟩ := meets
    exact ih (goesOn _ (accepted _ _ asked answered))

/-- What every call does, a dialogue ends with. -/
theorem Returns.met {asks : Q → Prop} {answers results : A → Prop} {result : A}
    (returns : Returns body dialogue result)
    (calls : ∀ question, asks question → (body question).Meets asks answers answers)
    (meets : dialogue.Meets asks answers results) : results result := by
  induction returns generalizing results with
  | done => exact meets
  | ask answered goesOn ihAnswer ihRest =>
    obtain ⟨asked, rest⟩ := meets
    exact ihRest (rest _ (ihAnswer (calls _ asked)))

/-- An error of a nested call is the result. -/
theorem Asks.reported {E : Type*} {error : A → Option E} {question : Q} {answer result : A} {e : E}
    (asked : Asks body dialogue question) (reports : dialogue.Reports error error)
    (answered : Returns body (body question) answer) (failed : error answer = some e)
    (returns : Returns body dialogue result) : error result = some e := by
  induction asked with
  | now =>
    cases returns with
    | ask answered' goesOn =>
      obtain rfl := answered.unique answered'
      obtain ⟨ending, same, reportsIt⟩ := (reports answer).1 e failed
      rw [same] at goesOn
      cases goesOn
      exact reportsIt
  | later earlier rest ih =>
    cases returns with
    | ask answered' goesOn =>
      obtain rfl := earlier.unique answered'
      exact ih (reports _).2 answered goesOn

/-- The answers of `body` with so many levels of nested calls answered, and those
below by `bottom`. -/
def unrolled (body : Q → Dialogue Q A A) (bottom : Q → A) : Nat → Q → A
  | 0, question => bottom question
  | levels + 1, question => (body question).run (unrolled body bottom levels)

section Rank

variable {good : Q → Prop} {accepted results : A → Prop}

/-- With levels enough for every question, running a dialogue gives what it returns. -/
theorem Meets.returns {bottom : Q → A} {levels : Nat}
    (answered : ∀ question, good question →
      Returns body (body question) (unrolled body bottom levels question) ∧
        accepted (unrolled body bottom levels question))
    (meets : dialogue.Meets good accepted results) :
    Returns body dialogue (dialogue.run (unrolled body bottom levels)) ∧
      results (dialogue.run (unrolled body bottom levels)) := by
  induction dialogue with
  | done result => exact ⟨.done, meets⟩
  | ask question next ih =>
    obtain ⟨asked, goesOn⟩ := meets
    obtain ⟨returns, acceptable⟩ := answered question asked
    obtain ⟨rest, ends⟩ := ih _ (goesOn _ acceptable)
    exact ⟨.ask returns rest, ends⟩

/-- Where nested calls have lower rank, every good call returns, and so many levels
of nested calls are enough. -/
theorem answered (rank : Q → Nat) (bottom : Q → A)
    (meets : ∀ question, good question →
      (body question).Meets (fun inner => good inner ∧ rank inner < rank question)
        accepted accepted) {levels : Nat} {question : Q} (isGood : good question)
    (enough : rank question < levels) :
    Returns body (body question) (unrolled body bottom levels question) ∧
      accepted (unrolled body bottom levels question) := by
  induction levels generalizing question with
  | zero => exact absurd enough (Nat.not_lt_zero _)
  | succ levels ih =>
    refine Meets.returns (fun inner lower => ih lower.1 ?_) (meets question isGood)
    exact Nat.lt_of_lt_of_le lower.2 (Nat.lt_succ_iff.mp enough)

end Rank

end Recursion

end Dialogue

end Busybox
