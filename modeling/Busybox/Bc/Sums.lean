import Mathlib
import Busybox.Bc.Values

/-!
# Sums and differences

`zbc_num_a` and `zbc_num_s` align their operands by hand; aligned, they add and subtract
magnitudes.
-/

namespace Busybox.Bc

open Lib.Digits

/-- The magnitude with the decimals of both numbers. -/
def aligned (a b : BcNum) : ℤ := a.magnitude * 10 ^ (max a.rdx b.rdx - a.rdx)

theorem aligned_div (a b : BcNum) :
    (aligned a b : ℚ) / 10 ^ max a.rdx b.rdx = a.magnitude / 10 ^ a.rdx := by
  have power : (10 : ℚ) ^ max a.rdx b.rdx = 10 ^ a.rdx * 10 ^ (max a.rdx b.rdx - a.rdx) := by
    rw [← pow_add, Nat.add_sub_cancel' (le_max_left ..)]
  unfold aligned
  rw [power]
  push_cast
  field_simp

theorem BcNum.Clean.rdx_le {n : BcNum} (clean : n.Clean) (some : n.num ≠ []) : n.rdx ≤ n.len :=
  clean.long.resolve_left some

theorem aligned_lt {a : BcNum} (b : BcNum) (clean : a.Clean) (some : a.num ≠ []) :
    aligned a b < 10 ^ (a.int + max a.rdx b.rdx) := by
  have fits := clean.rdx_le some
  have split : a.int + max a.rdx b.rdx = a.len + (max a.rdx b.rdx - a.rdx) := by
    unfold BcNum.int
    have := le_max_left a.rdx b.rdx
    omega
  rw [split, pow_add]
  exact mul_lt_mul_of_pos_right (BcNum.magnitude_lt clean.digits) (by positivity)

theorem le_aligned {a : BcNum} (b : BcNum) (clean : a.Clean) (int : 0 < a.int) :
    10 ^ (a.int - 1 + max a.rdx b.rdx) ≤ aligned a b := by
  have fits : a.rdx < a.len := by
    unfold BcNum.int at int
    omega
  have split : a.int - 1 + max a.rdx b.rdx = a.len - 1 + (max a.rdx b.rdx - a.rdx) := by
    unfold BcNum.int
    have := le_max_left a.rdx b.rdx
    omega
  rw [split, pow_add]
  exact mul_le_mul_of_nonneg_right (clean.pow_le fits) (by positivity)

/-! ## Adding magnitudes -/

/-- The digits of the longer operand below the point where both have some, and the rest
of both operands. -/
structure Overlap (a b : BcNum) (low xs ys : List ℤ) : Prop where
  properLow : Proper 10 low
  properXs : Proper 10 xs
  properYs : Proper 10 ys
  length : low.length + min a.rdx b.rdx = max a.rdx b.rdx
  xsLength : xs.length = min a.rdx b.rdx + a.int
  ysLength : ys.length = min a.rdx b.rdx + b.int
  value : Lib.Digits.value 10 low + 10 ^ low.length * (Lib.Digits.value 10 xs + Lib.Digits.value 10 ys)
    = aligned a b + aligned b a

theorem overlap_spec {a b : BcNum} (ha : a.Clean) (hb : b.Clean) (some : a.num ≠ [])
    (some' : b.num ≠ []) :
    let aMax := decide (b.rdx < a.rdx)
    let diff := if aMax then a.rdx - b.rdx else b.rdx - a.rdx
    Overlap a b ((if aMax then a.num else b.num).take diff)
      (if aMax then a.num.drop diff else a.num) (if aMax then b.num else b.num.drop diff) := by
  have fits : a.rdx ≤ a.num.length := ha.rdx_le some
  have fits' : b.rdx ≤ b.num.length := hb.rdx_le some'
  dsimp only
  by_cases more : b.rdx < a.rdx
  · have high : max a.rdx b.rdx = a.rdx := max_eq_left more.le
    have low : min a.rdx b.rdx = b.rdx := min_eq_right more.le
    simp only [more, decide_true, if_true]
    have length : (a.num.take (a.rdx - b.rdx)).length = a.rdx - b.rdx :=
      List.length_take_of_le (by omega)
    refine ⟨ha.digits.sublist (List.take_sublist ..), ha.digits.sublist (List.drop_sublist ..),
      hb.digits, by omega, ?_, ?_, ?_⟩
    · rw [List.length_drop, low]
      unfold BcNum.int BcNum.len
      omega
    · rw [low]
      unfold BcNum.int BcNum.len
      omega
    · rw [length, mul_add, ← add_assoc, ← value_take_drop _ _ (by omega)]
      unfold aligned
      rw [max_comm b.rdx, high, Nat.sub_self, pow_zero, mul_one, mul_comm b.magnitude]
      rfl
  · have high : max a.rdx b.rdx = b.rdx := max_eq_right (not_lt.mp more)
    have low : min a.rdx b.rdx = a.rdx := min_eq_left (not_lt.mp more)
    simp only [more, decide_false, Bool.false_eq_true, if_false]
    have length : (b.num.take (b.rdx - a.rdx)).length = b.rdx - a.rdx :=
      List.length_take_of_le (by omega)
    refine ⟨hb.digits.sublist (List.take_sublist ..), ha.digits,
      hb.digits.sublist (List.drop_sublist ..), by omega, ?_, ?_, ?_⟩
    · rw [low]
      unfold BcNum.int BcNum.len
      omega
    · rw [List.length_drop, low]
      unfold BcNum.int BcNum.len
      omega
    · rw [length, mul_add, add_left_comm, ← value_take_drop _ _ (by omega)]
      unfold aligned
      rw [max_comm b.rdx, high, Nat.sub_self, pow_zero, mul_one, mul_comm a.magnitude]
      rfl

/-- The sums of the two loops. -/
theorem overlap_sums {xs ys : List ℤ} {r i j : ℕ} (properXs : Proper 10 xs)
    (properYs : Proper 10 ys) (xsLength : xs.length = r + i) (ysLength : ys.length = r + j) :
    let least := if j < i then j else i
    let most := if j < i then i else j
    let sums := List.zipWith (· + ·) (xs.take (r + least)) (ys.take (r + least))
      ++ ((if j < i then xs else ys).take (most + r)).drop (r + least)
    Lib.Digits.value 10 sums = Lib.Digits.value 10 xs + Lib.Digits.value 10 ys ∧
      sums.length = most + r ∧ ∀ s ∈ sums, 0 ≤ s ∧ s + 1 < 10 * (1 + 1) := by
  have small {zs zs' : List ℤ} (n m : ℕ) (proper : Proper 10 zs) (proper' : Proper 10 zs') :
      ∀ s ∈ List.zipWith (· + ·) (zs.take n) zs' ++ zs.drop m, 0 ≤ s ∧ s + 1 < 10 * (1 + 1) := by
    rw [List.forall_mem_append]
    constructor
    · apply forall_mem_zipWith
      intro x mem y mem'
      have := proper x (List.mem_of_mem_take mem)
      have := proper' y mem'
      show 0 ≤ x + y ∧ x + y + 1 < 10 * (1 + 1)
      omega
    · intro x mem
      have := proper x (List.mem_of_mem_drop mem)
      omega
  dsimp only
  by_cases longer : j < i
  · simp only [longer, if_true]
    rw [List.take_of_length_le (by omega : ys.length ≤ r + j),
      List.take_of_length_le (by omega : xs.length ≤ i + r), ← ysLength]
    refine ⟨value_overlap (by omega), ?_, small _ _ properXs properYs⟩
    rw [List.length_append, List.length_zipWith, List.length_take, List.length_drop]
    omega
  · simp only [longer, if_false]
    rw [List.take_of_length_le (by omega : xs.length ≤ r + i),
      List.take_of_length_le (by omega : ys.length ≤ j + r), ← xsLength,
      List.zipWith_comm_of_comm add_comm, add_comm (Lib.Digits.value 10 xs)]
    refine ⟨value_overlap (by omega), ?_, small _ _ properYs properXs⟩
    rw [List.length_append, List.length_zipWith, List.length_take, List.length_drop]
    omega

/-- What `zbc_num_a` makes of two numbers that are not zero. -/
structure Added (a b c : BcNum) : Prop where
  clean : c.Clean
  rdx : c.rdx = max a.rdx b.rdx
  neg : c.neg = a.neg
  magnitude : c.magnitude = aligned a b + aligned b a

theorem aligned_pos {a : BcNum} (b : BcNum) (clean : a.Clean) (some : a.num ≠ []) :
    0 < aligned a b := by
  have nonneg := BcNum.magnitude_nonneg clean.digits
  have nonzero := clean.nonzero some
  unfold aligned
  have positive : 0 < a.magnitude := by omega
  positivity

theorem zbcNumA_some {a b : BcNum} (ha : a.Clean) (hb : b.Clean) (some : a.num ≠ [])
    (some' : b.num ≠ []) (sub : Bool) : Added a b (zbcNumA a b sub) := by
  have overlap := overlap_spec ha hb some some'
  unfold zbcNumA
  rw [if_neg some, if_neg some']
  dsimp only at overlap ⊢
  generalize List.take _ (if decide (b.rdx < a.rdx) = true then a.num else b.num) = low
    at overlap ⊢
  generalize (if decide (b.rdx < a.rdx) = true then
    a.num.drop (if decide (b.rdx < a.rdx) = true then a.rdx - b.rdx else b.rdx - a.rdx)
    else a.num) = xs at overlap ⊢
  generalize (if decide (b.rdx < a.rdx) = true then b.num else
    b.num.drop (if decide (b.rdx < a.rdx) = true then a.rdx - b.rdx else b.rdx - a.rdx)) = ys
    at overlap ⊢
  obtain ⟨total, length, small⟩ := overlap_sums overlap.properXs overlap.properYs overlap.xsLength
    overlap.ysLength
  generalize List.zipWith _ _ _ ++ _ = sums at total length small ⊢
  have carried := value_carry 10 0 sums
  have digits := carry_proper 10 (by decide) 0 sums
  have out := carry_le 10 (by decide) small ⟨le_refl 0, Int.one_pos.le⟩
  have digitsLength := carry_length 10 0 sums
  generalize carry 10 0 sums = result at carried digits out digitsLength ⊢
  obtain ⟨ds, c⟩ := result
  dsimp only at carried digits out digitsLength ⊢
  -- the carry is a digit of its own if there is one
  have top : Lib.Digits.value 10 (if c ≠ 0 then [c] else []) = c ∧
      Proper 10 (if c ≠ 0 then [c] else []) := by
    split
    · refine ⟨?_, proper_cons.mpr ⟨⟨out.1, by omega⟩, proper_nil⟩⟩
      rw [value_cons, value_nil, mul_zero, add_zero]
    · next none => exact ⟨(not_not.mp none).symm, proper_nil⟩
  have magnitude : Lib.Digits.value 10 (low ++ ds ++ if c ≠ 0 then [c] else [])
      = aligned a b + aligned b a := by
    rw [value_append, value_append, top.1, List.length_append, digitsLength, pow_add,
      ← overlap.value, ← total]
    linear_combination 10 ^ low.length * carried
  have proper : Proper 10 (low ++ ds ++ if c ≠ 0 then [c] else []) :=
    proper_append.mpr ⟨proper_append.mpr ⟨overlap.properLow, digits⟩, top.2⟩
  have positive := aligned_pos b ha some
  have positive' := aligned_pos a hb some'
  have nonzero : Lib.Digits.value 10 (low ++ ds ++ if c ≠ 0 then [c] else []) ≠ 0 := by
    rw [magnitude]
    omega
  refine ⟨⟨⟨proper, .inr ?_, ?_, fun zero => absurd zero nonzero⟩, fun _ => nonzero⟩, rfl, rfl,
    magnitude⟩
  · have := overlap.length
    show max a.rdx b.rdx ≤ (low ++ ds ++ if c ≠ 0 then [c] else []).length
    rw [List.length_append, List.length_append, digitsLength, length]
    omega
  · intro low' whole
    show (low ++ ds ++ if c ≠ 0 then [c] else []).length = max a.rdx b.rdx
    by_contra longer
    dsimp only at whole
    rw [whole] at proper
    have below := proper.lt_of_top_zero (by decide)
    have same : Lib.Digits.value 10 (low' ++ [0]) = aligned a b + aligned b a := by
      rw [← magnitude, ← whole]
    rw [same] at below
    have lengths := congrArg List.length whole
    have := overlap.length
    rw [List.length_append, List.length_append, digitsLength, length] at lengths longer
    rw [List.length_append, List.length_singleton] at lengths
    by_cases none : c = 0
    · -- the longer operand alone is too large
      rw [if_neg (not_not.mpr none), List.length_nil] at lengths longer
      by_cases more : b.int < a.int
      · rw [if_pos more] at lengths longer
        have large := le_aligned b ha (by omega)
        rw [show a.int - 1 + max a.rdx b.rdx = low'.length by omega] at large
        linarith
      · rw [if_neg more] at lengths longer
        have large := le_aligned a hb (by omega)
        rw [show b.int - 1 + max b.rdx a.rdx = low'.length by omega] at large
        linarith
    · rw [if_pos none] at whole
      exact none (List.head_eq_of_cons_eq (List.append_inj' whole rfl).2)

/-! ## Comparing magnitudes -/

theorem bcNumNeg_ite (c : ℤ) (p : Prop) [Decidable p] (neg : Bool) :
    (if c ≠ 0 then bcNumNeg c neg else if p then bcNumNeg 1 neg else 0)
      = bcNumNeg (if c ≠ 0 then c else if p then 1 else 0) neg := by
  split
  · rfl
  · split
    · rfl
    · cases neg <;> rfl

theorem aligned_lt_of_int {a b : BcNum} (ha : a.Clean) (hb : b.Clean) (some : a.num ≠ [])
    (less : a.int < b.int) : aligned a b < aligned b a := by
  have large := le_aligned a hb (by omega)
  calc aligned a b < 10 ^ (a.int + max a.rdx b.rdx) := aligned_lt b ha some
    _ ≤ 10 ^ (b.int - 1 + max b.rdx a.rdx) := by
      rw [max_comm b.rdx]
      exact pow_le_pow_right₀ (by decide) (by omega)
    _ ≤ aligned b a := large

theorem bcNumCmp_spec {a b : BcNum} (ha : a.Clean) (hb : b.Clean) (some : a.num ≠ [])
    (some' : b.num ≠ []) :
    (bcNumCmp { a with neg := false } { b with neg := false } < 0 ↔ aligned a b < aligned b a) ∧
      (0 < bcNumCmp { a with neg := false } { b with neg := false }
        ↔ aligned b a < aligned a b) := by
  have fits : a.rdx ≤ a.num.length := ha.rdx_le some
  have fits' : b.rdx ≤ b.num.length := hb.rdx_le some'
  unfold bcNumCmp
  dsimp only
  rw [if_neg some, if_neg some', if_neg (by simp)]
  split
  · next differ =>
    unfold bcNumNeg
    rw [if_neg Bool.false_ne_true]
    have differ' : a.int ≠ b.int := differ
    show ((a.int : ℤ) - b.int < 0 ↔ _) ∧ (0 < (a.int : ℤ) - b.int ↔ _)
    rcases Nat.lt_or_gt_of_ne differ' with less | more
    · have smaller := aligned_lt_of_int ha hb some less
      exact ⟨iff_of_true (by omega) smaller, iff_of_false (by omega) smaller.not_gt⟩
    · have larger := aligned_lt_of_int hb ha some' more
      exact ⟨iff_of_false (by omega) larger.not_gt, iff_of_true (by omega) larger⟩
  · next same =>
    have same' : a.int = b.int := not_not.mp same
    unfold BcNum.int BcNum.len at same'
    rw [bcNumNeg_ite]
    unfold aligned
    by_cases more : b.rdx < a.rdx
    · have split : a.num.take (a.rdx - b.rdx) ++ a.num.drop (a.rdx - b.rdx) = a.num :=
        List.take_append_drop ..
      have digits := ha.digits
      rw [← split] at digits
      have lengths : (a.num.drop (a.rdx - b.rdx)).length = b.num.length := by
        rw [List.length_drop]
        omega
      have spec := compare_low (by decide) digits hb.digits lengths
      rw [split, List.length_take_of_le (by omega), mul_comm] at spec
      have length : BcNum.int { b with neg := false } + b.rdx = b.num.length :=
        Nat.sub_add_cancel fits'
      simp only [more, decide_true, if_true, length]
      rw [max_eq_left more.le, max_eq_right more.le, Nat.sub_self, pow_zero, mul_one]
      exact spec
    · have split : b.num.take (b.rdx - a.rdx) ++ b.num.drop (b.rdx - a.rdx) = b.num :=
        List.take_append_drop ..
      have digits := hb.digits
      rw [← split] at digits
      have lengths : (b.num.drop (b.rdx - a.rdx)).length = a.num.length := by
        rw [List.length_drop]
        omega
      have spec := compare_low (by decide) digits ha.digits lengths
      rw [split, List.length_take_of_le (by omega), mul_comm] at spec
      have length : BcNum.int { b with neg := false } + a.rdx = a.num.length := by
        unfold BcNum.int BcNum.len
        dsimp only
        omega
      simp only [more, decide_false, Bool.false_eq_true, if_false, length]
      rw [max_eq_right (not_lt.mp more), max_eq_left (not_lt.mp more), Nat.sub_self, pow_zero,
        mul_one]
      -- the operands have changed places, and so has the sign
      show (- _ < (0 : ℤ) ↔ _) ∧ ((0 : ℤ) < - _ ↔ _)
      rw [neg_lt_zero, neg_pos]
      exact spec.symm

/-! ## Subtracting magnitudes -/

theorem bcNumSubArrays_spec {a b : List ℤ} (proper : Proper 10 a) (proper' : Proper 10 b)
    (shorter : b.length ≤ a.length) (smaller : Lib.Digits.value 10 b ≤ Lib.Digits.value 10 a) :
    ∃ d, bcNumSubArrays a b = some d ∧ Proper 10 d ∧
      Lib.Digits.value 10 d = Lib.Digits.value 10 a - Lib.Digits.value 10 b ∧
      d.length = a.length := by
  induction b generalizing a with
  | nil =>
    refine ⟨a, ?_, proper, ?_, rfl⟩
    · cases a <;> rfl
    · rw [value_nil, sub_zero]
  | cons e b ih =>
    cases a with
    | nil => exact absurd shorter (by simp)
    | cons d a =>
      obtain ⟨digit, rest⟩ := proper_cons.mp proper
      obtain ⟨digit', rest'⟩ := proper_cons.mp proper'
      rw [value_cons, value_cons] at smaller
      have nonneg := rest'.nonneg (by decide)
      obtain ⟨d', a', borrows, properRow, row, length⟩ := borrow_spec (d := d - e) rest (by omega)
        (by omega) (by rw [value_cons]; omega)
      obtain ⟨digit'', restRow⟩ := proper_cons.mp properRow
      rw [value_cons, value_cons] at row
      -- what the digits above are left with is still enough
      obtain ⟨ds, subtracts, properDs, total, lengths⟩ := ih restRow rest'
        (by rw [length]; exact Nat.le_of_succ_le_succ shorter) (by omega)
      refine ⟨d' :: ds, ?_, proper_cons.mpr ⟨digit'', properDs⟩, ?_, ?_⟩
      · unfold bcNumSubArrays
        rw [borrows]
        dsimp only
        rw [subtracts, Option.map_some]
      · rw [value_cons, value_cons, value_cons, total]
        omega
      · rw [List.length_cons, lengths, length, List.length_cons]

/-- Subtracting from the place `start` on. -/
theorem subArrays_drop {num b : List ℤ} {start : ℕ} (proper : Proper 10 num)
    (proper' : Proper 10 b) (shorter : start + b.length ≤ num.length)
    (smaller : 10 ^ start * Lib.Digits.value 10 b ≤ Lib.Digits.value 10 num) :
    ∃ d, bcNumSubArrays (num.drop start) b = some d ∧ Proper 10 (num.take start ++ d) ∧
      Lib.Digits.value 10 (num.take start ++ d)
        = Lib.Digits.value 10 num - 10 ^ start * Lib.Digits.value 10 b ∧
      (num.take start ++ d).length = num.length := by
  have enough : Lib.Digits.value 10 b ≤ Lib.Digits.value 10 (num.drop start) := by
    rw [proper.drop (by decide)]
    exact Int.le_ediv_of_mul_le (by positivity) (by rwa [mul_comm])
  obtain ⟨d, subtracts, properD, total, length⟩ := bcNumSubArrays_spec
    (proper.sublist (List.drop_sublist start num)) proper'
    (by rw [List.length_drop]; omega) enough
  have low : (num.take start).length = start := List.length_take_of_le (by omega)
  refine ⟨d, subtracts, proper_append.mpr ⟨proper.sublist (List.take_sublist ..), properD⟩, ?_, ?_⟩
  · rw [value_append, low, total, value_take_drop start num (by omega)]
    ring
  · rw [List.length_append, low, length, List.length_drop]
    omega

/-- What a subtraction makes of a larger and a smaller number. -/
structure Subtracted (a b : BcNum) (neg : Bool) (c : BcNum) : Prop where
  clean : c.Clean
  rdx : c.rdx = max a.rdx b.rdx
  neg : c.neg = neg
  magnitude : c.magnitude = aligned a b - aligned b a

theorem subtract_spec {a b : BcNum} (ha : a.Clean) (hb : b.Clean) (nonempty : a.num ≠ [])
    (nonempty' : b.num ≠ []) (more : aligned b a < aligned a b) (neg : Bool) :
    ∃ c, subtract a b neg = .ok c ∧ Subtracted a b neg c := by
  have fits : a.rdx ≤ a.num.length := ha.rdx_le nonempty
  have fits' : b.rdx ≤ b.num.length := hb.rdx_le nonempty'
  have int : b.int ≤ a.int := by
    by_contra less
    exact more.not_gt (aligned_lt_of_int ha hb nonempty (not_le.mp less))
  unfold BcNum.int BcNum.len at int
  -- what is left when the digits have been subtracted from those of an aligned number
  have finish (num : List ℤ) (start : ℕ) (proper : Proper 10 num)
      (shorter : start + b.num.length ≤ num.length) (long : max a.rdx b.rdx ≤ num.length)
      (value : Lib.Digits.value 10 num = aligned a b)
      (value' : 10 ^ start * b.magnitude = aligned b a) :
      ∃ d, bcNumSubArrays (num.drop start) b.num = some d ∧
        Subtracted a b neg (bcNumClean ⟨num.take start ++ d, max a.rdx b.rdx, neg⟩) := by
    obtain ⟨d, subtracts, properD, total, length⟩ := subArrays_drop proper hb.digits shorter
      (by rw [value]; exact value'.trans_le more.le)
    refine ⟨d, subtracts, ?_⟩
    have cleaned := bcNumClean_spec (n := ⟨num.take start ++ d, max a.rdx b.rdx, neg⟩) properD
      (.inr (by unfold BcNum.len; rw [length]; exact long))
    have magnitude : (bcNumClean ⟨num.take start ++ d, max a.rdx b.rdx, neg⟩).magnitude
        = aligned a b - aligned b a := by
      rw [cleaned.magnitude]
      unfold BcNum.magnitude
      rw [total, value, ← value']
      rfl
    exact ⟨cleaned.clean, cleaned.rdx, cleaned.neg (by rw [magnitude]; omega), magnitude⟩
  unfold subtract
  dsimp only
  by_cases less : a.rdx < b.rdx
  · rw [if_pos less, if_pos less]
    have extended := finish (bcNumExtend a (b.rdx - a.rdx)).num 0
      (bcNumExtend_digits ha.digits _) ?_ ?_ ?_ ?_
    · rw [max_eq_right less.le] at extended
      unfold bcNumExtend at extended ⊢
      dsimp only at extended ⊢
      obtain ⟨d, subtracts, subtracted⟩ := extended
      rw [Nat.add_sub_cancel' less.le, subtracts]
      exact ⟨_, rfl, subtracted⟩
    · show 0 + b.num.length ≤ (List.replicate _ _ ++ a.num).length
      rw [List.length_append, List.length_replicate]
      omega
    · show max a.rdx b.rdx ≤ (List.replicate _ _ ++ a.num).length
      rw [List.length_append, List.length_replicate]
      omega
    · unfold aligned
      rw [max_eq_right less.le]
      exact bcNumExtend_magnitude ..
    · unfold aligned
      rw [max_eq_left less.le, Nat.sub_self, mul_comm]
  · have more' : b.rdx ≤ a.rdx := not_lt.mp less
    rw [if_neg less, if_neg less]
    have same := finish a.num (a.rdx - b.rdx) ha.digits (by omega) (by omega) ?_ ?_
    · rw [max_eq_left more'] at same
      obtain ⟨d, subtracts, subtracted⟩ := same
      rw [subtracts]
      exact ⟨_, rfl, subtracted⟩
    · unfold aligned
      rw [max_eq_left more', Nat.sub_self, pow_zero, mul_one]
      rfl
    · unfold aligned
      rw [max_eq_right more', mul_comm]

/-! ## With signs -/

theorem BcNum.value_nil {n : BcNum} (none : n.num = []) : n.value = 0 := by
  apply value_of_zero
  unfold magnitude
  rw [none]
  rfl

/-- The second operand, copied where the first is zero. -/
theorem copied_spec {b : BcNum} (clean : b.Clean) (sub : Bool) :
    let c := { b with neg := if sub ∧ b.num ≠ [] then !b.neg else b.neg }
    c.Clean ∧ c.value = if sub then -b.value else b.value := by
  dsimp only
  by_cases none : b.num = []
  · have zero : b.value = 0 := BcNum.value_nil none
    rw [if_neg (fun both => both.2 none), zero, neg_zero, ite_self]
    exact ⟨clean, rfl⟩
  · cases sub with
    | false => exact ⟨clean, rfl⟩
    | true =>
      rw [if_pos ⟨rfl, none⟩, if_pos rfl]
      refine ⟨⟨⟨clean.digits, clean.long, clean.top, ?_⟩, clean.nonzero⟩, ?_⟩
      · intro zero
        exact absurd zero (clean.nonzero none)
      · unfold BcNum.value
        rw [sign_not, neg_mul, neg_div]
        rfl

/-- What an addition or a subtraction makes of its operands. -/
structure Combined (a b : BcNum) (sub : Bool) (c : BcNum) : Prop where
  clean : c.Clean
  value : c.value = a.value + if sub then -b.value else b.value
  rdx : c.rdx ≤ max a.rdx b.rdx

theorem aligned_value (a b : BcNum) :
    a.value = sign a.neg * (aligned a b / 10 ^ max a.rdx b.rdx) := by
  rw [aligned_div]
  unfold BcNum.value
  ring

theorem aligned_value' (a b : BcNum) :
    b.value = sign b.neg * (aligned b a / 10 ^ max a.rdx b.rdx) := by
  rw [max_comm]
  exact aligned_value b a

theorem combined_nil {a b : BcNum} (hb : b.Clean) (none : a.num = []) (sub : Bool) :
    Combined a b sub { b with neg := if sub ∧ b.num ≠ [] then !b.neg else b.neg } := by
  obtain ⟨clean, value⟩ := copied_spec hb sub
  refine ⟨clean, ?_, le_max_right ..⟩
  rw [value, BcNum.value_nil none, zero_add]

theorem combined_nil' {a b : BcNum} (ha : a.Clean) (none : b.num = []) (sub : Bool) :
    Combined a b sub a := by
  refine ⟨ha, ?_, le_max_left ..⟩
  rw [BcNum.value_nil none, neg_zero, ite_self, add_zero]

theorem zbcNumA_spec {a b : BcNum} (ha : a.Clean) (hb : b.Clean) {sub : Bool}
    (signs : sub = (a.neg != b.neg)) : Combined a b sub (zbcNumA a b sub) := by
  by_cases none : a.num = []
  · unfold zbcNumA
    rw [if_pos none]
    exact combined_nil hb none sub
  · by_cases none' : b.num = []
    · unfold zbcNumA
      rw [if_neg none, if_pos none']
      exact combined_nil' ha none' sub
    · obtain ⟨clean, rdx, neg, magnitude⟩ := zbcNumA_some ha hb none none' sub
      refine ⟨clean, ?_, rdx.le⟩
      rw [aligned_value a b, aligned_value' a b]
      unfold BcNum.value
      rw [rdx, neg, magnitude, signs]
      push_cast
      unfold sign
      cases a.neg <;> cases b.neg <;> simp <;> ring

theorem zbcNumS_spec {a b : BcNum} (ha : a.Clean) (hb : b.Clean) {sub : Bool}
    (signs : sub = (a.neg == b.neg)) : ∃ c, zbcNumS a b sub = .ok c ∧ Combined a b sub c := by
  by_cases none : a.num = []
  · refine ⟨_, ?_, combined_nil hb none sub⟩
    unfold zbcNumS
    rw [if_pos none]
  · by_cases none' : b.num = []
    · refine ⟨a, ?_, combined_nil' ha none' sub⟩
      unfold zbcNumS
      rw [if_neg none, if_pos none']
    · obtain ⟨less, more⟩ := bcNumCmp_spec ha hb none none'
      unfold zbcNumS
      rw [if_neg none, if_neg none']
      dsimp only
      split
      · next same =>
        have equal : aligned a b = aligned b a := by
          have := less.not.mp (by omega)
          have := more.not.mp (by omega)
          omega
        refine ⟨_, rfl, bcNumSetToZero_clean _, ?_, le_rfl⟩
        rw [aligned_value a b, aligned_value' a b, equal, BcNum.value_nil rfl, signs]
        unfold sign
        cases a.neg <;> cases b.neg <;> simp
      · next differ =>
        split
        · next positive =>
          obtain ⟨c, subtracts, clean, rdx, neg, magnitude⟩ :=
            subtract_spec ha hb none none' (more.mp positive) a.neg
          refine ⟨c, subtracts, clean, ?_, rdx.le⟩
          rw [aligned_value a b, aligned_value' a b, signs]
          unfold BcNum.value
          rw [rdx, neg, magnitude]
          push_cast
          unfold sign
          cases a.neg <;> cases b.neg <;> simp <;> ring
        · next negative =>
          obtain ⟨c, subtracts, clean, rdx, neg, magnitude⟩ :=
            subtract_spec hb ha none' none (less.mp (by omega)) (if sub then !b.neg else b.neg)
          refine ⟨c, subtracts, clean, ?_, rdx.le.trans (max_comm ..).le⟩
          rw [aligned_value a b, aligned_value' a b]
          unfold BcNum.value
          rw [rdx, neg, magnitude, max_comm, signs]
          push_cast
          unfold sign
          cases a.neg <;> cases b.neg <;> simp <;> ring

/-- `zbc_num_add` adds. -/
theorem numAdd_spec {a b : BcNum} (ha : a.Clean) (hb : b.Clean) :
    ∃ c, numAdd a b = .ok c ∧ Combined a b false c := by
  unfold numAdd
  split
  · next same => exact ⟨_, rfl, zbcNumA_spec ha hb (by rw [same]; simp)⟩
  · next differ => exact zbcNumS_spec ha hb (by simp [differ])

/-- `zbc_num_sub` subtracts. -/
theorem numSub_spec {a b : BcNum} (ha : a.Clean) (hb : b.Clean) :
    ∃ c, numSub a b = .ok c ∧ Combined a b true c := by
  unfold numSub
  split
  · next same => exact zbcNumS_spec ha hb (by rw [same]; simp)
  · next differ => exact ⟨_, rfl, zbcNumA_spec ha hb (by simp [differ])⟩

end Busybox.Bc
