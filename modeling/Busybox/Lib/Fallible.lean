import Busybox.Lib.Dialogue

/-!
# Fallible steps in sequence

How a bind in `Except` ends tells how its two halves ended.
-/

namespace Busybox.Fallible

universe u

variable {ε : Type*} {α β : Type u}

@[simp] theorem ok_bind (a : α) (f : α → Except ε β) : (Except.ok a >>= f) = f a := rfl

@[simp] theorem error_bind (e : ε) (f : α → Except ε β) :
    ((Except.error e : Except ε α) >>= f) = .error e := rfl

/-- A sequence succeeds when both halves do. -/
theorem bind_eq_ok {x : Except ε α} {f : α → Except ε β} {b : β} :
    (x >>= f) = .ok b ↔ ∃ a, x = .ok a ∧ f a = .ok b := by
  cases x <;> simp

/-- A sequence fails when the first half does, or the second after it. -/
theorem bind_eq_error {x : Except ε α} {f : α → Except ε β} {e : ε} :
    (x >>= f) = .error e ↔ x = .error e ∨ ∃ a, x = .ok a ∧ f a = .error e := by
  cases x <;> simp

/-- What follows a sequence's first half matters only for the value it has. -/
theorem bind_congr {x : Except ε α} {f g : α → Except ε β} (same : ∀ a, x = .ok a → f a = g a) :
    (x >>= f) = (x >>= g) := by
  cases x with
  | error e => rfl
  | ok a => exact same a rfl

theorem mapM_ok {α β : Type*} {f : α → Except ε β} {g : α → β} {items : List α}
    (all : ∀ item ∈ items, f item = .ok (g item)) : items.mapM f = .ok (items.map g) := by
  induction items with
  | nil => rfl
  | cons item items ih =>
    rw [List.mapM_cons, all item List.mem_cons_self, ok_bind,
      ih fun item' mem => all item' (List.mem_cons_of_mem _ mem), ok_bind]
    rfl

theorem mapM_error {α β : Type*} {f : α → Except ε β} {items : List α} {fails : ε → Prop}
    {item : α} (mem : item ∈ items) (only : ∀ item ∈ items, ∀ e, f item = .error e → fails e)
    (failed : ∃ e, f item = .error e) : ∃ e, items.mapM f = .error e ∧ fails e := by
  induction items with
  | nil => cases mem
  | cons first items ih =>
    rw [List.mapM_cons]
    cases here : f first with
    | error e => exact ⟨e, rfl, only first List.mem_cons_self e here⟩
    | ok b =>
      rcases List.mem_cons.mp mem with rfl | mem
      · obtain ⟨e, failed⟩ := failed
        rw [here] at failed
        cases failed
      · obtain ⟨e, later, holds⟩ := ih mem fun item mem => only item (List.mem_cons_of_mem _ mem)
        exact ⟨e, by rw [ok_bind, later, error_bind], holds⟩

/-! ## Both ends -/

/-- The computation returns a value of one kind, or it fails with an error of another. -/
def Ends (x : Except ε α) (returns : α → Prop) (fails : ε → Prop) : Prop :=
  match x with
  | .ok a => returns a
  | .error e => fails e

theorem Ends.of_ok {x : Except ε α} {returns : α → Prop} {fails : ε → Prop}
    (ok : ∃ a, x = .ok a ∧ returns a) : Ends x returns fails := by
  obtain ⟨a, ends, holds⟩ := ok
  rw [ends]
  exact holds

theorem Ends.bind {x : Except ε α} {f : α → Except ε β} {between : α → Prop} {returns : β → Prop}
    {fails : ε → Prop} (first : Ends x between fails)
    (second : ∀ a, between a → Ends (f a) returns fails) : Ends (x >>= f) returns fails := by
  cases x with
  | error e => exact first
  | ok a => exact second a first

theorem Ends.imp {x : Except ε α} {returns returns' : α → Prop} {fails fails' : ε → Prop}
    (ends : Ends x returns fails) (value : ∀ a, returns a → returns' a)
    (error : ∀ e, fails e → fails' e) : Ends x returns' fails' := by
  cases x with
  | error e => exact error e ends
  | ok a => exact value a ends

theorem Ends.returned {x : Except ε α} {returns : α → Prop} {fails : ε → Prop}
    (ends : Ends x returns fails) (never : ∀ e, ¬fails e) : ∃ a, x = .ok a ∧ returns a := by
  cases x with
  | error e => exact absurd ends (never e)
  | ok a => exact ⟨a, rfl, ends⟩

end Busybox.Fallible

/-!
## Dialogues that may fail

An `Attempt` is a dialogue that ends with a result or an error, and that an answer which
is an error ends as well. Attempts are put together as a monad. `Ends` says how an attempt
may end whatever the answers are.
-/

namespace Busybox

/-- A dialogue that may fail. -/
def Attempt (Q A ε R : Type) : Type := Dialogue Q (Except ε A) (Except ε R)

namespace Attempt

variable {Q A ε R S : Type}

/-- What comes behind a result; an error is passed on. -/
def onwards (next : R → Attempt Q A ε S) : Except ε R → Attempt Q A ε S
  | .ok result => next result
  | .error e => Dialogue.done (.error e)

instance : Monad (Attempt Q A ε) where
  pure result := Dialogue.done (.ok result)
  bind first next := Dialogue.bind first (onwards next)

def fail (e : ε) : Attempt Q A ε R := Dialogue.done (.error e)

/-- A single question. -/
def ask (question : Q) : Attempt Q A ε A := Dialogue.ask question Dialogue.done

@[simp] theorem fail_bind (e : ε) (next : R → Attempt Q A ε S) :
    (fail e : Attempt Q A ε R) >>= next = fail e := rfl

theorem onwards_pure : onwards (pure : R → Attempt Q A ε R) = Dialogue.done := by
  funext result
  cases result <;> rfl

instance : LawfulMonad (Attempt Q A ε) := LawfulMonad.mk' _
  (fun attempt => by
    change Dialogue.bind attempt (onwards pure) = attempt
    rw [onwards_pure]
    exact Dialogue.bind_done_right attempt)
  (fun _ _ => rfl)
  (fun first next last => by
    refine (Dialogue.bind_assoc first (onwards next) (onwards last)).trans ?_
    refine congrArg (Dialogue.bind first) (funext fun result => ?_)
    cases result <;> rfl)

/-! ## Runs -/

/-- The result, or the error of the attempt or of an answer. -/
def run (answer : Q → Except ε A) (attempt : Attempt Q A ε R) : Except ε R :=
  Dialogue.run answer attempt

@[simp] theorem run_pure (answer : Q → Except ε A) (result : R) :
    run answer (pure result : Attempt Q A ε R) = .ok result := rfl

@[simp] theorem run_fail (answer : Q → Except ε A) (e : ε) :
    run answer (fail e : Attempt Q A ε R) = .error e := rfl

@[simp] theorem run_ask (answer : Q → Except ε A) (question : Q) :
    run answer (ask question) = answer question := rfl

@[simp] theorem run_bind (answer : Q → Except ε A) (first : Attempt Q A ε R)
    (next : R → Attempt Q A ε S) :
    run answer (first >>= next) = run answer first >>= fun result => run answer (next result) := by
  have ran : run answer (first >>= next) =
      Dialogue.run answer (onwards next (run answer first)) := Dialogue.run_bind answer first _
  rw [ran]
  cases run answer first <;> rfl

@[simp] theorem run_map (answer : Q → Except ε A) (f : R → S) (attempt : Attempt Q A ε R) :
    run answer (f <$> attempt) = f <$> run answer attempt := by
  rw [map_eq_pure_bind, run_bind]
  cases run answer attempt <;> rfl

/-- The questions in their order, up to the one whose answer is an error. -/
def asked (answer : Q → Except ε A) (attempt : Attempt Q A ε R) : List Q :=
  Dialogue.asked answer attempt

/-- Two functions that agree on the questions asked make the same run. -/
theorem run_congr {answer answer' : Q → Except ε A} {attempt : Attempt Q A ε R}
    (same : ∀ question ∈ attempt.asked answer, answer question = answer' question) :
    attempt.run answer = attempt.run answer' ∧ attempt.asked answer = attempt.asked answer' :=
  Dialogue.run_congr same

/-! ## Ends -/

/-- The attempt ends with such a result or such an error, if the answers are errors of that
kind at most. -/
def Ends (fails : ε → Prop) (returns : R → Prop) (attempt : Attempt Q A ε R) : Prop :=
  Dialogue.Meets (fun _ => True) (fun answer => Fallible.Ends answer (fun _ => True) fails)
    (fun result => Fallible.Ends result returns fails) attempt

variable {fails : ε → Prop} {returns : R → Prop}

theorem Ends.ask (question : Q) : Ends fails (fun _ => True) (ask question : Attempt Q A ε A) :=
  ⟨trivial, fun _ accepted => accepted⟩

theorem Ends.bind {first : Attempt Q A ε R} {next : R → Attempt Q A ε S} {ends : S → Prop}
    (before : Ends fails returns first)
    (rest : ∀ result, returns result → Ends fails ends (next result)) :
    Ends fails ends (first >>= next) := by
  refine Dialogue.Meets.bind before fun result acceptable => ?_
  cases result with
  | error e => exact acceptable
  | ok result => exact rest result acceptable

/-- An attempt that cannot return fails in every run. -/
theorem Ends.run {answer : Q → Except ε A} {attempt : Attempt Q A ε R}
    (ends : Ends fails returns attempt)
    (answers : ∀ question, Fallible.Ends (answer question) (fun _ => True) fails) :
    Fallible.Ends (attempt.run answer) returns fails := by
  induction attempt with
  | done result => exact ends
  | ask question next ih => exact ih _ (ends.2 _ (answers question))

end Attempt

end Busybox
