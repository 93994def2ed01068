import Mathlib

/-!
# Lengths of codes

Codes of some lengths leave room for each other as long as they occupy no more than all the
words of some width. A length of zero stands for no code.
-/

namespace Busybox.CodeLengths

variable {lengths : List Nat} {width short long : Nat}

/-- How many words of a width begin with one of the codes that are not longer. -/
def occupied (lengths : List Nat) (width : Nat) : Nat :=
  match lengths with
  | [] => 0
  | length :: lengths =>
    (if 0 < length ∧ length ≤ width then 2 ^ (width - length) else 0) + occupied lengths width

/-- There are more codes than words. -/
def Oversubscribed (lengths : List Nat) (width : Nat) : Prop := 2 ^ width < occupied lengths width

/-- There are words that are no code and do not begin with one. -/
def Incomplete (lengths : List Nat) (width : Nat) : Prop := occupied lengths width < 2 ^ width

instance : Decidable (Oversubscribed lengths width) := inferInstanceAs (Decidable (_ < _))

instance : Decidable (Incomplete lengths width) := inferInstanceAs (Decidable (_ < _))

/-- One bit more doubles the words that are occupied, and the codes of that length come in. -/
theorem occupied_succ (lengths : List Nat) (width : Nat) :
    occupied lengths (width + 1) = 2 * occupied lengths width + lengths.count (width + 1) := by
  induction lengths with
  | nil => rfl
  | cons length lengths ih =>
    rw [occupied, occupied, ih, List.count_cons]
    rcases Nat.lt_trichotomy length (width + 1) with shorter | rfl | longer
    · have other : ¬ length = width + 1 := by omega
      have bits : width + 1 - length = width - length + 1 := by omega
      simp only [beq_iff_eq, other, if_false, bits, Nat.pow_succ]
      split <;> split <;> omega
    · rw [if_pos (by omega), if_neg (by omega)]
      simp only [Nat.sub_self, Nat.pow_zero, BEq.rfl, if_true]
      omega
    · rw [if_neg (by omega), if_neg (by omega)]
      simp only [beq_iff_eq, Nat.ne_of_gt longer, if_false]
      omega

theorem occupied_append (front back : List Nat) (width : Nat) :
    occupied (front ++ back) width = occupied front width + occupied back width := by
  induction front with
  | nil => exact (Nat.zero_add _).symm
  | cons length front ih => rw [List.cons_append, occupied, occupied, ih, Nat.add_assoc]

theorem occupied_replicate (count : Nat) {length : Nat} (positive : 0 < length)
    (le : length ≤ width) :
    occupied (List.replicate count length) width = count * 2 ^ (width - length) := by
  induction count with
  | zero => exact (Nat.zero_mul _).symm
  | succ count ih =>
    rw [List.replicate_succ, occupied, if_pos ⟨positive, le⟩, ih, Nat.succ_mul, Nat.add_comm]

/-- Nothing is occupied below the shortest code. -/
theorem occupied_eq_zero (none_shorter : ∀ length ∈ lengths, length = 0 ∨ width < length) :
    occupied lengths width = 0 := by
  induction lengths with
  | nil => rfl
  | cons length lengths ih =>
    have here := none_shorter length (by simp)
    rw [occupied, if_neg (by omega), ih fun length inside => none_shorter length (by simp [inside])]

/-- Above the longest code there are no new ones. -/
theorem occupied_scale (none_longer : ∀ length ∈ lengths, length ≤ short) (le : short ≤ long) :
    occupied lengths long = occupied lengths short * 2 ^ (long - short) := by
  induction le with
  | refl => rw [Nat.sub_self, Nat.pow_zero, Nat.mul_one]
  | @step long le ih =>
    have absent : lengths.count (long + 1) = 0 := by
      rw [List.count_eq_zero]
      intro inside
      have := none_longer _ inside
      simp only [Nat.le_eq] at le
      omega
    have bits : long + 1 - short = long - short + 1 := by
      simp only [Nat.le_eq] at le
      omega
    rw [Nat.succ_eq_add_one, occupied_succ, ih, absent, bits, Nat.pow_succ, Nat.add_zero,
      Nat.mul_comm 2, Nat.mul_assoc]

theorem oversubscribed_scale (none_longer : ∀ length ∈ lengths, length ≤ short)
    (le : short ≤ long) : Oversubscribed lengths long ↔ Oversubscribed lengths short := by
  have power : 2 ^ long = 2 ^ short * 2 ^ (long - short) := by rw [← Nat.pow_add]; congr 1; omega
  rw [Oversubscribed, Oversubscribed, occupied_scale none_longer le, power]
  exact Nat.mul_lt_mul_right (Nat.two_pow_pos _)

theorem incomplete_scale (none_longer : ∀ length ∈ lengths, length ≤ short)
    (le : short ≤ long) : Incomplete lengths long ↔ Incomplete lengths short := by
  have power : 2 ^ long = 2 ^ short * 2 ^ (long - short) := by rw [← Nat.pow_add]; congr 1; omega
  rw [Incomplete, Incomplete, occupied_scale none_longer le, power]
  exact Nat.mul_lt_mul_right (Nat.two_pow_pos _)

/-- Codes that are too many stay too many when longer ones are counted with them. -/
theorem Oversubscribed.longer (many : Oversubscribed lengths short) (le : short ≤ long) :
    Oversubscribed lengths long := by
  induction le with
  | refl => exact many
  | @step long le ih =>
    unfold Oversubscribed at ih ⊢
    rw [Nat.succ_eq_add_one, occupied_succ, Nat.pow_succ]
    omega

end Busybox.CodeLengths
