import Mathlib.Tactic.Common

/-!
# Loops that end

A loop is a function from a state to the next one, or to nothing where it is left.
-/

namespace Busybox.Loops

variable {σ : Type*} {turn : σ → Option σ} {state state' : σ}

/-- The loop is left after finitely many turns. -/
inductive Halts (turn : σ → Option σ) : σ → Prop
  | left {state : σ} (done : turn state = none) : Halts turn state
  | next {state state' : σ} (more : turn state = some state') (rest : Halts turn state') :
      Halts turn state

theorem halts_iff_next (more : turn state = some state') :
    Halts turn state ↔ Halts turn state' := by
  constructor
  · intro halts
    cases halts with
    | left done => rw [more] at done; cases done
    | next again rest => exact Option.some.inj (again.symm.trans more) ▸ rest
  · exact .next more

/-- Whether a loop ends depends on its next turn only. -/
theorem halts_congr (same : turn state = turn state') : Halts turn state ↔ Halts turn state' := by
  cases next : turn state' with
  | none => exact ⟨fun _ => .left next, fun _ => .left (same.trans next)⟩
  | some later => rw [halts_iff_next (same.trans next), halts_iff_next next]

/-- A turn that changes nothing is taken forever. -/
theorem not_halts_of_fixed (fixed : turn state = some state) : ¬ Halts turn state := by
  intro halts
  induction halts with
  | left done => rw [fixed] at done; cases done
  | next more _ ih =>
    obtain rfl := Option.some.inj (more.symm.trans fixed)
    exact ih fixed

/-- A loop whose turns all go down in a well-founded relation ends. -/
theorem halts_of_wellFounded {below : σ → σ → Prop} (founded : WellFounded below)
    (lower : ∀ state state', turn state = some state' → below state' state) (state : σ) :
    Halts turn state := by
  induction state using founded.induction with
  | _ state ih =>
    cases next : turn state with
    | none => exact .left next
    | some later => exact .next next (ih later (lower state later next))

/-! ## Where a loop is left -/

/-- The loop is left in a state. -/
inductive Leaves (turn : σ → Option σ) : σ → σ → Prop
  | left {state : σ} (done : turn state = none) : Leaves turn state state
  | next {state state' last : σ} (more : turn state = some state')
      (rest : Leaves turn state' last) : Leaves turn state last

/-- A state comes up in the loop. -/
inductive Reaches (turn : σ → Option σ) (start : σ) : σ → Prop
  | start : Reaches turn start start
  | turn {state state' : σ} (before : Reaches turn start state) (more : turn state = some state') :
      Reaches turn start state'

theorem leaves_unique {last last' : σ} (leaves : Leaves turn state last)
    (leaves' : Leaves turn state last') : last' = last := by
  induction leaves with
  | left done =>
    cases leaves' with
    | left => rfl
    | next more => rw [done] at more; cases more
  | next more _ ih =>
    cases leaves' with
    | left done => rw [more] at done; cases done
    | next more' rest => exact ih (Option.some.inj (more'.symm.trans more) ▸ rest)

/-- What every turn keeps holds of every state that comes up. -/
theorem invariant_of_reaches {Inv : σ → Prop}
    (keeps : ∀ state state', Inv state → turn state = some state' → Inv state')
    (initial : Inv state) (reaches : Reaches turn state state') : Inv state' := by
  induction reaches with
  | start => exact initial
  | turn _ more ih => exact keeps _ _ ih more

/-- A loop that goes down wherever its invariant holds is left, and the invariant holds there. -/
theorem exists_leaves {Inv : σ → Prop} (size : σ → Nat)
    (keeps : ∀ state state', Inv state → turn state = some state' → Inv state')
    (lower : ∀ state state', Inv state → turn state = some state' → size state' < size state)
    (initial : Inv state) : ∃ last, Leaves turn state last ∧ Inv last ∧ turn last = none := by
  induction remaining : size state using Nat.strongRecOn generalizing state with
  | _ n ih =>
    cases next : turn state with
    | none => exact ⟨state, .left next, initial, next⟩
    | some later =>
      obtain ⟨last, leaves, holds, done⟩ :=
        ih (size later) (remaining ▸ lower state later initial next)
          (keeps state later initial next) rfl
      exact ⟨last, .next next leaves, holds, done⟩

end Busybox.Loops

/-!
## Loops with a bound

A turn of a loop goes on with another state or leaves the loop with a result, and it may also go
wrong. Where every turn that goes on comes closer to an end, the loop is a function.
-/

namespace Busybox.Turns

variable {σ β : Type*}

/-- How a turn ends. -/
inductive Turn (σ β : Type*)
  | next (state : σ)
  | leave (result : β)

/-- A loop whose turns take something away from what is left. -/
structure Bounded (σ β : Type*) where
  turn : σ → Option (Turn σ β)
  left : σ → Nat
  lower : ∀ {state state'}, turn state = some (.next state') → left state' < left state

/-- The loop from a state on. -/
def Bounded.run (loop : Bounded σ β) (state : σ) : Option β :=
  match _ended : loop.turn state with
  | none => none
  | some (.leave result) => some result
  | some (.next state') => loop.run state'
termination_by loop.left state
decreasing_by exact loop.lower _ended

variable {loop : Bounded σ β} {state state' : σ}

theorem Bounded.run_next (more : loop.turn state = some (.next state')) :
    loop.run state = loop.run state' := by
  rw [run]
  split
  case h_1 ended => cases more.symm.trans ended
  case h_2 ended => cases more.symm.trans ended
  case h_3 ended => cases more.symm.trans ended; rfl

theorem Bounded.run_leave {result : β} (done : loop.turn state = some (.leave result)) :
    loop.run state = some result := by
  rw [run]
  split
  case h_1 ended => cases done.symm.trans ended
  case h_2 ended => cases done.symm.trans ended; rfl
  case h_3 ended => cases done.symm.trans ended

end Busybox.Turns
