import Mathlib.Data.List.Basic
import Mathlib.Data.List.Infix
import Mathlib.Tactic.Common

/-!
# Common subsequences

How long the common subsequences of two lists are, as one of the lists gets longer.
-/

namespace Busybox.CommonSubsequence

open List

variable {α : Type*} {a b : List α} {c : α} {r y n : Nat}

/-- There is a common subsequence of this length. -/
def HasCommon (a b : List α) (r : Nat) : Prop := ∃ s : List α, s.length = r ∧ s <+ a ∧ s <+ b

/-- The length of a longest common subsequence. -/
def Longest (a b : List α) (n : Nat) : Prop := HasCommon a b n ∧ ∀ r, HasCommon a b r → r ≤ n

theorem hasCommon_zero : HasCommon a b 0 := ⟨[], rfl, nil_sublist a, nil_sublist b⟩

theorem hasCommon_nil : HasCommon [] b r ↔ r = 0 := by
  constructor
  · rintro ⟨s, rfl, empty, -⟩
    rw [eq_nil_of_sublist_nil empty]
    rfl
  · rintro rfl
    exact hasCommon_zero

theorem HasCommon.mono {a' b' : List α} (common : HasCommon a b r) (left : a <+ a')
    (right : b <+ b') : HasCommon a' b' r := by
  obtain ⟨s, length, first, second⟩ := common
  exact ⟨s, length, first.trans left, second.trans right⟩

/-- A list that ends with an element is found up to one of its places. -/
theorem concat_sublist_iff {s : List α} :
    s ++ [c] <+ b.take y ↔ ∃ y' < y, b[y']? = some c ∧ s <+ b.take y' := by
  constructor
  · intro sub
    obtain ⟨front, back, split, first, last⟩ := append_sublist_iff.mp sub
    obtain ⟨before, after, rfl⟩ := append_of_mem (singleton_sublist.mp last)
    have whole : b = front ++ before ++ c :: (after ++ b.drop y) := by
      conv => lhs; rw [← take_append_drop y b, split]
      simp
    have place : (front ++ before).length < y := by
      have := congrArg length split
      simp only [length_take, length_append, length_cons] at this ⊢
      omega
    refine ⟨(front ++ before).length, place, ?_, ?_⟩
    · conv => lhs; rw [whole]
      rw [getElem?_append_right (Nat.le_refl _), Nat.sub_self]
      rfl
    · conv => rhs; rw [whole, take_left]
      exact first.trans (sublist_append_left front before)
  · rintro ⟨y', before, found, sub⟩
    have next : b.take (y' + 1) = b.take y' ++ [c] := by
      rw [take_add_one, found]
      rfl
    have more : b.take (y' + 1) <+ b.take y := take_sublist_take_left (by omega)
    rw [next] at more
    exact (sub.append (Sublist.refl [c])).trans more

/-- A common subsequence that ends with the last element, or one without it. -/
theorem hasCommon_concat : HasCommon (a ++ [c]) (b.take y) (r + 1) ↔
    HasCommon a (b.take y) (r + 1) ∨ ∃ y' < y, b[y']? = some c ∧ HasCommon a (b.take y') r := by
  constructor
  · rintro ⟨s, length, left, right⟩
    obtain ⟨front, back, rfl, first, last⟩ := sublist_append_iff.mp left
    cases last with
    | cons _ none_left =>
      rw [eq_nil_of_sublist_nil none_left, append_nil] at length right
      exact .inl ⟨front, length, first, right⟩
    | cons_cons _ none_left =>
      rw [eq_nil_of_sublist_nil none_left] at length right
      obtain ⟨y', before, found, sub⟩ := concat_sublist_iff.mp right
      rw [length_append, length_singleton, Nat.add_right_cancel_iff] at length
      exact .inr ⟨y', before, found, front, length, first, sub⟩
  · rintro (common | ⟨y', before, found, s, length, first, sub⟩)
    · exact common.mono (sublist_append_left a [c]) (Sublist.refl _)
    · refine ⟨s ++ [c], ?_, first.append (Sublist.refl [c]), ?_⟩
      · rw [length_append, length_singleton, length]
      · exact concat_sublist_iff.mpr ⟨y', before, found, sub⟩

/-- Which lengths there are follows an element of the first list: `reach r y` says that the
length `r` is reached within `y` elements of the second one. -/
theorem hasCommon_step {reach reach' : Nat → Nat → Prop}
    (before : ∀ r y, HasCommon a (b.take y) r ↔ reach r y) (zero : ∀ y, reach' 0 y)
    (step : ∀ r y, reach' (r + 1) y ↔
      reach (r + 1) y ∨ ∃ y' < y, b[y']? = some c ∧ reach r y') :
    ∀ r y, HasCommon (a ++ [c]) (b.take y) r ↔ reach' r y := by
  intro r y
  cases r with
  | zero => exact iff_of_true hasCommon_zero (zero y)
  | succ r =>
    rw [hasCommon_concat, step, before]
    exact or_congr_right (exists_congr fun y' => and_congr_right fun _ =>
      and_congr_right fun _ => before r y')

/-- An element that is not in the second list makes no difference. -/
theorem hasCommon_concat_absent (absent : c ∉ b) :
    HasCommon (a ++ [c]) (b.take y) r ↔ HasCommon a (b.take y) r := by
  cases r with
  | zero => exact iff_of_true hasCommon_zero hasCommon_zero
  | succ r =>
    rw [hasCommon_concat]
    constructor
    · rintro (common | ⟨y', -, found, -⟩)
      · exact common
      · exact absurd (mem_of_getElem? found) absent
    · exact .inl

end Busybox.CommonSubsequence
