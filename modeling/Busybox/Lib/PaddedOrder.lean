import Mathlib.Tactic.Common

/-!
# Lists compared as if padded

Two lists are compared item by item. Behind the end of the shorter one there is a padding, which
need not be the least item.
-/

namespace Busybox.PaddedOrder

open Std (ReflCmp OrientedCmp TransCmp)

variable {α β : Type*} {cmp : α → α → Ordering}

def comparePadded (cmp : α → α → Ordering) (pad : α) : List α → List α → Ordering
  | [], [] => .eq
  | a :: as, [] => (cmp a pad).then (comparePadded cmp pad as [])
  | [], b :: bs => (cmp pad b).then (comparePadded cmp pad [] bs)
  | a :: as, b :: bs => (cmp a b).then (comparePadded cmp pad as bs)
termination_by as bs => as.length + bs.length

/-- Where a list has ended its next item is the padding. -/
theorem comparePadded_step [ReflCmp cmp] (pad : α) (as bs : List α) :
    comparePadded cmp pad as bs =
      (cmp (as.headD pad) (bs.headD pad)).then (comparePadded cmp pad as.tail bs.tail) := by
  cases as with
  | nil =>
    cases bs with
    | nil => simp [comparePadded, ReflCmp.compare_self]
    | cons b bs => rw [comparePadded]; rfl
  | cons a as =>
    cases bs with
    | nil => rw [comparePadded]; rfl
    | cons b bs => rw [comparePadded]; rfl

instance [OrientedCmp cmp] (pad : α) : OrientedCmp (comparePadded cmp pad) where
  eq_swap {as bs} := by
    have swapped (a b : α) : (cmp a b).swap = cmp b a := OrientedCmp.eq_swap.symm
    fun_induction comparePadded cmp pad as bs with
    | case1 => rw [comparePadded]; rfl
    | case2 a as ih => rw [comparePadded, Ordering.swap_then, ← ih, swapped]
    | case3 b bs ih => rw [comparePadded, Ordering.swap_then, ← ih, swapped]
    | case4 a as b bs ih => rw [comparePadded, Ordering.swap_then, ← ih, swapped]

theorem comparePadded_nil (pad : α) {as bs : List α} (noFirst : as.length = 0)
    (noSecond : bs.length = 0) : (comparePadded cmp pad as bs).isLE := by
  rw [List.length_eq_zero_iff.mp noFirst, List.length_eq_zero_iff.mp noSecond, comparePadded]
  rfl

theorem comparePadded_trans [TransCmp cmp] (pad : α) (n : Nat) {as bs cs : List α}
    (length : as.length + bs.length + cs.length ≤ n)
    (first : (comparePadded cmp pad as bs).isLE) (second : (comparePadded cmp pad bs cs).isLE) :
    (comparePadded cmp pad as cs).isLE := by
  induction n generalizing as bs cs with
  | zero => exact comparePadded_nil pad (by omega) (by omega)
  | succ n ih =>
    by_cases empty : as.length + bs.length + cs.length = 0
    · exact comparePadded_nil pad (by omega) (by omega)
    · rw [comparePadded_step, Ordering.isLE_then_iff_and] at first second ⊢
      have shorter : as.tail.length + bs.tail.length + cs.tail.length ≤ n := by
        simp only [List.length_tail]
        omega
      refine ⟨TransCmp.isLE_trans first.1 second.1, ?_⟩
      rcases first with ⟨le, less | tail⟩
      · exact .inl (TransCmp.lt_of_lt_of_isLE less second.1)
      · rcases second with ⟨le', less' | tail'⟩
        · exact .inl (TransCmp.lt_of_isLE_of_lt le less')
        · exact .inr (ih shorter tail tail')

instance [TransCmp cmp] (pad : α) : TransCmp (comparePadded cmp pad) where
  isLE_trans := comparePadded_trans pad _ (Nat.le_refl _)

/-- Items can be compared by what they are mapped to. -/
theorem transCmp_on [TransCmp cmp] (f : β → α) : TransCmp fun a b => cmp (f a) (f b) where
  eq_swap := OrientedCmp.eq_swap
  isLE_trans := TransCmp.isLE_trans

end Busybox.PaddedOrder
