import Busybox.Archival.Huft
import Busybox.Lib.CodeLengths

/-!
# Code sets that `huft_build` refuses
-/

namespace Busybox.Archival.Gunzip

open CodeLengths

/-- More codes than bits, or an incomplete set with a code of more than one bit. -/
def BadSet (b : List Nat) : Prop :=
  Oversubscribed b bmax ∨ (Incomplete b bmax ∧ ∃ length ∈ b, 1 < length)

instance (b : List Nat) : Decidable (BadSet b) := inferInstanceAs (Decidable (_ ∨ _))

variable {b : List Nat} {j g k n : Nat}

/-! ## Counts -/

theorem getD_modify (c : List Nat) (f : Nat → Nat) (i : Nat) (inside : k < c.length) :
    (c.modify i f).getD k 0 = if i = k then f (c.getD k 0) else c.getD k 0 := by
  rw [List.getD_eq_getElem?_getD, List.getD_eq_getElem?_getD, List.getElem?_modify,
    List.getElem?_eq_getElem inside]
  split <;> rfl

theorem counts_step (b : List Nat) (c : List Nat) :
    (b.foldl (fun c length => c.modify length (· + 1)) c).length = c.length ∧
      ∀ k < c.length, (b.foldl (fun c length => c.modify length (· + 1)) c).getD k 0 =
        c.getD k 0 + b.count k := by
  induction b generalizing c with
  | nil => exact ⟨rfl, fun _ _ => rfl⟩
  | cons length b ih =>
    obtain ⟨size, counts⟩ := ih (c.modify length (· + 1))
    rw [List.length_modify] at size counts
    refine ⟨size, fun k inside => ?_⟩
    rw [List.foldl_cons, counts k inside, List.count_cons, getD_modify c _ _ inside]
    simp only [beq_iff_eq]
    split <;> omega

theorem lengthCounts_length (b : List Nat) : (lengthCounts b).length = bmax + 1 := by
  rw [lengthCounts, (counts_step b _).1, List.length_replicate]

theorem lengthCounts_count (b : List Nat) (small : k ≤ bmax) :
    (lengthCounts b).getD k 0 = b.count k := by
  have inside : k < (List.replicate (bmax + 1) 0).length := by rw [List.length_replicate]; omega
  rw [lengthCounts, (counts_step b _).2 k inside, List.getD_eq_getElem?_getD,
    List.getElem?_replicate, if_pos (by omega), Option.getD_some, Nat.zero_add]

/-- All codes have no bits. -/
theorem counts_zero : (lengthCounts b).getD 0 0 = b.length ↔ ∀ length ∈ b, length = 0 := by
  rw [lengthCounts_count b (Nat.zero_le _), List.count_eq_length]
  exact forall_congr' fun length => imp_congr_right fun _ => eq_comm

/-- What is found first in an ordered list comes before what else could be found. -/
theorem find_first {l : List Nat} {p : Nat → Bool} {r : Nat → Nat → Prop} {first other : Nat}
    (ordered : l.Pairwise r) (found : l.find? p = some first) (inside : other ∈ l)
    (holds : p other = true) : other = first ∨ r first other := by
  obtain ⟨-, before, after, rfl, fails⟩ := List.find?_eq_some_iff_append.mp found
  rcases List.mem_append.mp inside with earlier | later
  · have := fails other earlier
    rw [holds] at this
    cases this
  · rcases List.mem_cons.mp later with same | later
    · exact .inl same
    · exact .inr ((List.pairwise_cons.mp (List.pairwise_append.mp ordered).2.1).1 other later)

/-- The check with which the loops stop at a length. -/
def hasCodes (b : List Nat) (k : Nat) : Bool := (lengthCounts b).getD k 0 ≠ 0

theorem minLength_eq (b : List Nat) : minLength (lengthCounts b) =
    ((List.range' 1 bmax).find? (hasCodes b)).getD (bmax + 1) :=
  rfl

theorem maxLength_eq (b : List Nat) : maxLength (lengthCounts b) =
    ((List.range' 1 bmax).reverse.find? (hasCodes b)).getD 0 :=
  rfl

theorem there_length (inside : k ∈ List.range' 1 bmax) (counted : hasCodes b k = true) :
    0 < k ∧ k ∈ b := by
  rw [List.mem_range'_1] at inside
  have counted := of_decide_eq_true counted
  rw [lengthCounts_count b (by omega)] at counted
  exact ⟨inside.1, List.count_pos_iff.mp (Nat.pos_of_ne_zero counted)⟩

variable (small : ∀ length ∈ b, length ≤ bmax)

include small

/-- A length that a code has is one that the loops can stop at. -/
theorem length_there {length : Nat} (inside : length ∈ b) (nonzero : length ≠ 0) :
    length ∈ List.range' 1 bmax ∧ hasCodes b length = true := by
  have bound := small length inside
  refine ⟨List.mem_range'_1.mpr (by omega), decide_eq_true ?_⟩
  rw [lengthCounts_count b bound]
  exact Nat.ne_of_gt (List.count_pos_iff.mpr inside)

theorem minLength_spec (some_code : ∃ length ∈ b, length ≠ 0) :
    0 < minLength (lengthCounts b) ∧ minLength (lengthCounts b) ∈ b ∧
      ∀ length ∈ b, length = 0 ∨ minLength (lengthCounts b) ≤ length := by
  obtain ⟨code, inside, nonzero⟩ := some_code
  rw [minLength_eq]
  cases found : (List.range' 1 bmax).find? (hasCodes b) with
  | none =>
    have there := length_there small inside nonzero
    exact absurd there.2 (List.find?_eq_none.mp found code there.1)
  | some j =>
    obtain ⟨positive, member⟩ := there_length (List.mem_of_find?_eq_some found)
      (List.find?_some found)
    refine ⟨positive, member, fun length inside => ?_⟩
    by_cases zero : length = 0
    · exact .inl zero
    · have there := length_there small inside zero
      have := find_first List.pairwise_lt_range' found there.1 there.2
      exact .inr (by rw [Option.getD_some]; omega)

theorem maxLength_spec (some_code : ∃ length ∈ b, length ≠ 0) :
    0 < maxLength (lengthCounts b) ∧ maxLength (lengthCounts b) ∈ b ∧
      ∀ length ∈ b, length ≤ maxLength (lengthCounts b) := by
  obtain ⟨code, inside, nonzero⟩ := some_code
  rw [maxLength_eq]
  cases found : (List.range' 1 bmax).reverse.find? (hasCodes b) with
  | none =>
    have there := length_there small inside nonzero
    exact absurd there.2 (List.find?_eq_none.mp found code (List.mem_reverse.mpr there.1))
  | some g =>
    obtain ⟨positive, member⟩ := there_length
      (List.mem_reverse.mp (List.mem_of_find?_eq_some found)) (List.find?_some found)
    refine ⟨positive, member, fun length inside => ?_⟩
    by_cases zero : length = 0
    · rw [zero]
      exact Nat.zero_le _
    · have there := length_there small inside zero
      have := find_first (List.pairwise_reverse.mpr List.pairwise_lt_range') found
        (List.mem_reverse.mpr there.1) there.2
      rw [Option.getD_some]
      omega

omit small

/-! ## Missing codes -/

/-- `y` in the loop, after the lengths from `j` to `j + n` without it. -/
theorem left_after (inside : j + n ≤ bmax + 1) (positive : 0 < j)
    (none_shorter : ∀ length ∈ b, length = 0 ∨ j ≤ length) :
    (List.range' j n).foldlM (fun y k =>
        if y < (lengthCounts b).getD k 0 then none else some ((y - (lengthCounts b).getD k 0) * 2))
      (2 ^ j) =
    if Oversubscribed b (j + n - 1) then none
    else some (2 * (2 ^ (j + n - 1) - occupied b (j + n - 1))) := by
  induction n with
  | zero =>
    have nothing : occupied b (j - 1) = 0 := occupied_eq_zero fun length inside => by
      have := none_shorter length inside
      omega
    have power : 2 ^ j = 2 * 2 ^ (j - 1) := by
      rw [← Nat.pow_succ']
      congr 1
      omega
    have room : ¬ Oversubscribed b (j - 1) := by
      rw [Oversubscribed, nothing]
      exact Nat.not_lt_zero _
    rw [Nat.add_zero, if_neg room, nothing, Nat.sub_zero, power]
    rfl
  | succ n ih =>
    have next := occupied_succ b (j + n - 1)
    rw [show j + n - 1 + 1 = j + n by omega] at next
    have power : 2 ^ (j + n) = 2 * 2 ^ (j + n - 1) := by
      rw [← Nat.pow_succ']
      congr 1
      omega
    rw [List.range'_concat, List.foldlM_append, ih (by omega), Nat.one_mul,
      show j + (n + 1) - 1 = j + n by omega]
    by_cases many : Oversubscribed b (j + n - 1)
    · rw [if_pos many, if_pos (many.longer (by omega))]
      rfl
    · rw [if_neg many]
      simp only [Option.bind_eq_bind, Option.bind_some, List.foldlM_cons, List.foldlM_nil]
      rw [lengthCounts_count b (by omega)]
      unfold Oversubscribed at many
      split
      case isTrue less =>
        rw [if_pos (by unfold Oversubscribed; omega)]
        rfl
      case isFalse enough =>
        rw [if_neg (by unfold Oversubscribed; omega)]
        simp only [Option.bind_some, Option.pure_def, Option.some.injEq]
        omega

/-- No codes are missing of a set that is not oversubscribed, and else as many as the longest
codes leave room for. -/
theorem dummies_eq (inside : g ≤ bmax) (positive : 0 < j) (le : j ≤ g)
    (none_shorter : ∀ length ∈ b, length = 0 ∨ j ≤ length) :
    dummies (lengthCounts b) j g =
      if Oversubscribed b g then none else some (2 ^ g - occupied b g) := by
  have next := occupied_succ b (g - 1)
  rw [show g - 1 + 1 = g by omega] at next
  have power : 2 ^ g = 2 * 2 ^ (g - 1) := by
    rw [← Nat.pow_succ']
    congr 1
    omega
  unfold dummies
  rw [left_after (by omega) positive none_shorter, show j + (g - j) - 1 = g - 1 by omega]
  by_cases many : Oversubscribed b (g - 1)
  · rw [if_pos many, if_pos (many.longer (by omega))]
    rfl
  · rw [if_neg many, Option.bind_eq_bind, Option.bind_some, lengthCounts_count b inside]
    unfold Oversubscribed at many
    split
    case isTrue less => rw [if_pos (by unfold Oversubscribed; omega)]
    case isFalse enough =>
      rw [if_neg (by unfold Oversubscribed; omega)]
      congr 1
      omega

end Busybox.Archival.Gunzip
