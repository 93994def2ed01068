import Mathlib.Data.List.Basic
import Mathlib.Data.List.SplitBy
import Mathlib.Data.List.TakeWhile
import Mathlib.Tactic.Common

/-!
# Runs of a state machine under a guard

A machine takes one input after another. `Admitted` says that each input of a
run meets a guard in the state it finds; `invariant_of_admitted` is the
induction over such a run.
-/

namespace Busybox.GuardedRun

variable {σ ι : Type*}

/-- The state reached by feeding the inputs one after another. -/
def run (step : σ → ι → σ) (start : σ) (inputs : List ι) : σ := inputs.foldl step start

/-- Every input of the run meets the guard in the state it is fed to. -/
def Admitted (step : σ → ι → σ) (guard : σ → ι → Prop) : σ → List ι → Prop
  | _, [] => True
  | state, input :: rest => guard state input ∧ Admitted step guard (step state input) rest

@[simp] theorem run_nil (step : σ → ι → σ) (start : σ) : run step start [] = start := rfl

@[simp] theorem run_cons (step : σ → ι → σ) (start : σ) (input : ι) (rest : List ι) :
    run step start (input :: rest) = run step (step start input) rest := rfl

/-- A run is admitted when all of it but the last input is, and the guard admits
that one in the state reached. -/
theorem admitted_concat {step : σ → ι → σ} {guard : σ → ι → Prop} {start : σ} {inputs : List ι}
    {last : ι} : Admitted step guard start (inputs ++ [last]) ↔
      Admitted step guard start inputs ∧ guard (run step start inputs) last := by
  induction inputs generalizing start with
  | nil => simp [Admitted]
  | cons input rest ih => simp only [List.cons_append, Admitted, ih, run_cons, and_assoc]

theorem run_concat (step : σ → ι → σ) (start : σ) (inputs : List ι) (last : ι) :
    run step start (inputs ++ [last]) = step (run step start inputs) last := by
  rw [run, List.foldl_concat, run]

/-- Two machines make the same run where the guard makes their steps the same. -/
theorem run_eq_of_admitted {step step' : σ → ι → σ} {guard : σ → ι → Prop}
    (same : ∀ state input, guard state input → step' state input = step state input)
    {start : σ} {inputs : List ι} (admitted : Admitted step guard start inputs) :
    run step' start inputs = run step start inputs := by
  induction inputs generalizing start with
  | nil => rfl
  | cons input rest ih =>
    obtain ⟨meets, restAdmitted⟩ := admitted
    rw [run_cons, run_cons, same start input meets]
    exact ih restAdmitted

/-- A guard that always holds admits every run. -/
theorem admitted_of_forall {step : σ → ι → σ} {guard : σ → ι → Prop}
    (always : ∀ state input, guard state input) (start : σ) (inputs : List ι) :
    Admitted step guard start inputs := by
  induction inputs generalizing start with
  | nil => trivial
  | cons input rest ih => exact ⟨always start input, ih (step start input)⟩

/-- A run that meets two guards meets both at every step. -/
theorem Admitted.and {step : σ → ι → σ} {guard guard' : σ → ι → Prop} {start : σ}
    {inputs : List ι} (admitted : Admitted step guard start inputs)
    (admitted' : Admitted step guard' start inputs) :
    Admitted step (fun state input => guard state input ∧ guard' state input) start inputs := by
  induction inputs generalizing start with
  | nil => trivial
  | cons input rest ih =>
    exact ⟨⟨admitted.1, admitted'.1⟩, ih admitted.2 admitted'.2⟩

instance Admitted.decidable {step : σ → ι → σ} {guard : σ → ι → Prop}
    [∀ state input, Decidable (guard state input)] :
    ∀ start inputs, Decidable (Admitted step guard start inputs)
  | _, [] => inferInstanceAs (Decidable True)
  | start, input :: rest =>
    have : Decidable (Admitted step guard (step start input) rest) :=
      Admitted.decidable (step start input) rest
    inferInstanceAs (Decidable (guard start input ∧ Admitted step guard (step start input) rest))

/-- An invariant kept by every guarded step holds after every guarded run. -/
theorem invariant_of_admitted {step : σ → ι → σ} {guard : σ → ι → Prop} {inv : σ → Prop}
    (preserved : ∀ state input, inv state → guard state input → inv (step state input))
    {start : σ} (initial : inv start) {inputs : List ι}
    (admitted : Admitted step guard start inputs) : inv (run step start inputs) := by
  induction inputs generalizing start with
  | nil => exact initial
  | cons input rest ih =>
    obtain ⟨meets, restAdmitted⟩ := admitted
    exact ih (preserved start input initial meets) restAdmitted

end Busybox.GuardedRun

/-!
## Runs of equal items
-/

namespace Busybox.Runs

variable {α : Type*} [DecidableEq α]

/-- Of a run of an item that `set` has, one is left. -/
def squeezeRun (set : α → Bool) : List α → List α
  | [] => []
  | item :: run => if set item then [item] else item :: run

def squeeze (set : α → Bool) (items : List α) : List α :=
  (items.splitBy (· == ·)).flatMap (squeezeRun set)

/-- The items are read once, with the one before them at hand. -/
def squeezeFrom (set : α → Bool) (last : Option α) : List α → List α
  | [] => []
  | item :: items =>
    if last = some item ∧ set item then squeezeFrom set last items
    else item :: squeezeFrom set (some item) items

theorem squeezeFrom_append (set : α → Bool) (last : Option α) (items more : List α) :
    squeezeFrom set last (items ++ more) =
      squeezeFrom set last items ++ squeezeFrom set (items.getLast?.or last) more := by
  induction items generalizing last with
  | nil => rfl
  | cons item items ih =>
    have same : (item :: items).getLast?.or last = items.getLast?.or (some item) := by
      rw [List.getLast?_cons]
      cases items.getLast? <;> rfl
    rw [List.cons_append, squeezeFrom, squeezeFrom, same]
    split
    case isTrue again => rw [ih, again.1]
    case isFalse => rw [ih, List.cons_append]

theorem squeezeFrom_false (last : Option α) (items : List α) :
    squeezeFrom (fun _ => false) last items = items := by
  induction items generalizing last with
  | nil => rfl
  | cons item items ih => rw [squeezeFrom, if_neg (by simp), ih]

/-- The first run ends at the first item that is another. -/
theorem splitBy_cons (item : α) (items : List α) :
    (item :: items).splitBy (· == ·) =
      (item :: items.takeWhile (item == ·)) :: (items.dropWhile (item == ·)).splitBy (· == ·) := by
  have same : ∀ other ∈ item :: items.takeWhile (item == ·), item = other := by
    intro other mem
    rcases List.mem_cons.mp mem with rfl | mem
    · rfl
    · simpa using List.mem_takeWhile_imp mem
  have chain : (item :: items.takeWhile (item == ·)).IsChain fun a b => a == b := by
    refine List.Pairwise.isChain (List.pairwise_of_forall_mem_list fun a isA b isB => ?_)
    rw [← same a isA, ← same b isB]
    exact beq_self_eq_true item
  have ends : ∀ a ∈ (item :: items.takeWhile (item == ·)).getLast?,
      ∀ b ∈ (items.dropWhile (item == ·)).head?, (a == b) = false := by
    intro a isA b isB
    rw [← same a (List.mem_of_mem_getLast? isA)]
    have stops := List.head?_dropWhile_not (item == ·) items
    rw [Option.mem_def.mp isB] at stops
    simpa using stops
  calc (item :: items).splitBy (· == ·)
      = ((item :: items.takeWhile (item == ·)) ++ items.dropWhile (item == ·)).splitBy
          (· == ·) := by rw [List.cons_append, List.takeWhile_append_dropWhile]
    _ = _ := by
      rw [List.splitBy_append ends, List.splitBy_of_isChain (List.cons_ne_nil _ _) chain]
      rfl

theorem squeezeFrom_some (set : α → Bool) (last : α) (items : List α) :
    squeezeFrom set (some last) items =
      (if set last then [] else items.takeWhile (last == ·)) ++
        squeezeFrom set none (items.dropWhile (last == ·)) := by
  induction items with
  | nil => simp [squeezeFrom]
  | cons item items ih =>
    by_cases same : last = item
    · subst same
      by_cases inSet : set last = true
      · simp [squeezeFrom, inSet, ih]
      · simp [squeezeFrom, inSet, ih]
    · simp [squeezeFrom, same]

/-- Reading the items once squeezes their runs. -/
theorem squeezeFrom_none (set : α → Bool) :
    (items : List α) → squeezeFrom set none items = squeeze set items
  | [] => rfl
  | item :: items => by
    have rest := squeezeFrom_none set (items.dropWhile (item == ·))
    rw [squeezeFrom, if_neg (by simp), squeezeFrom_some, rest, squeeze, squeeze, splitBy_cons,
      List.flatMap_cons, squeezeRun]
    split <;> rfl
termination_by items => items.length
decreasing_by exact Nat.lt_succ_of_le (List.length_dropWhile_le _ _)

end Busybox.Runs
