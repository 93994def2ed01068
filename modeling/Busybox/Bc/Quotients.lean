import Busybox.Bc.Products

/-!
# Quotients

`zbc_num_d` divides by hand: each digit of the quotient is how often the divisor can be
subtracted at its place.
-/

namespace Busybox.Bc

open Lib.Digits
open Fallible

/-! ## Digit by digit -/

/-- The loop's condition: the divisor can still be subtracted. -/
theorem divides_iff {b n : List ℤ} (properB : Proper 10 b) (proper : Proper 10 n)
    (long : b.length < n.length) (top : Lib.Digits.value 10 n < 10 ^ (b.length + 1)) :
    (n.getD b.length 0 ≠ 0 ∨ 0 ≤ compare n b b.length) ↔
      Lib.Digits.value 10 b ≤ Lib.Digits.value 10 n := by
  have none : Lib.Digits.value 10 (n.drop (b.length + 1)) = 0 := by
    rw [proper.drop (by decide)]
    exact Int.ediv_eq_zero_of_lt (proper.nonneg (by decide)) top
  have whole : Lib.Digits.value 10 n
      = Lib.Digits.value 10 (n.take b.length) + 10 ^ b.length * n.getD b.length 0 := by
    rw [value_take_drop (b.length + 1) n long, none, mul_zero, add_zero,
      value_take_succ long]
  have low := (proper.sublist (List.take_sublist b.length n)).nonneg (by decide : (0 : ℤ) < 10)
  have below := properB.lt (by decide : (0 : ℤ) < 10)
  obtain ⟨less, -⟩ := compare_spec (by decide) proper properB b.length long.le le_rfl
  rw [List.take_length] at less
  have digit : 0 ≤ n.getD b.length 0 := by
    rw [List.getD_eq_getElem?_getD, List.getElem?_eq_getElem long]
    exact (proper _ (List.getElem_mem long)).1
  by_cases zero : n.getD b.length 0 = 0
  · rw [whole, zero, mul_zero, add_zero, or_iff_right (not_not.mpr rfl), ← not_lt, less, not_lt]
  · refine iff_of_true (.inl zero) ?_
    have large : (10 : ℤ) ^ b.length * 1 ≤ 10 ^ b.length * n.getD b.length 0 :=
      mul_le_mul_of_nonneg_left (by omega) (by positivity)
    linarith

/-- One digit of the quotient, and the remainder. -/
theorem divideDigit_spec {b : List ℤ} (properB : Proper 10 b) (fuel : ℕ) {n : List ℤ}
    (proper : Proper 10 n) (long : b.length < n.length)
    (top : Lib.Digits.value 10 n < 10 ^ (b.length + 1))
    (enough : Lib.Digits.value 10 n < fuel * Lib.Digits.value 10 b) (q : ℤ) :
    ∃ (d : ℤ) (n' : List ℤ), divideDigit b fuel n q = .ok (q + d, n') ∧ 0 ≤ d ∧ Proper 10 n' ∧
      n'.length = n.length ∧ Lib.Digits.value 10 n' < Lib.Digits.value 10 b ∧
      Lib.Digits.value 10 n = d * Lib.Digits.value 10 b + Lib.Digits.value 10 n' := by
  have nonneg := proper.nonneg (by decide : (0 : ℤ) < 10)
  have nonnegB := properB.nonneg (by decide : (0 : ℤ) < 10)
  induction fuel generalizing n q with
  | zero =>
    rw [Nat.cast_zero, zero_mul] at enough
    exact absurd enough (not_lt.mpr nonneg)
  | succ fuel ih =>
    have divides := divides_iff properB proper long top
    unfold divideDigit
    by_cases more : Lib.Digits.value 10 b ≤ Lib.Digits.value 10 n
    · rw [if_pos (divides.mpr more)]
      obtain ⟨n', subtracts, proper', less, length⟩ :=
        bcNumSubArrays_spec proper properB long.le more
      rw [subtracts]
      dsimp only
      push_cast at enough
      obtain ⟨d, rest, divided, digit, properRest, lengthRest, remainder, total⟩ :=
        ih (q := q + 1) proper' (by omega) (by linarith) (by linarith)
          (proper'.nonneg (by decide))
      refine ⟨1 + d, rest, ?_, by omega, properRest, lengthRest.trans length, remainder, ?_⟩
      · rw [divided, add_assoc]
      · rw [add_mul, one_mul]
        linarith
    · rw [if_neg (divides.not.mpr more)]
      refine ⟨0, n, by rw [add_zero], le_refl 0, proper, rfl, not_le.mp more, ?_⟩
      rw [zero_mul, zero_add]

/-- The digits of the quotient below place `i`. -/
theorem divideLoop_spec {b : List ℤ} (properB : Proper 10 b) {i : ℕ} {cp : List ℤ}
    (proper : Proper 10 cp) (long : i + b.length ≤ cp.length)
    (divided : Lib.Digits.value 10 (cp.drop i) < Lib.Digits.value 10 b) (c : List ℤ) :
    ∃ (qs : List ℤ) (rest : ℤ), divideLoop b i cp c = .ok (qs ++ c) ∧ qs.length = i ∧ Proper 10 qs ∧ 0 ≤ rest ∧
      rest < Lib.Digits.value 10 b ∧
      Lib.Digits.value 10 cp = Lib.Digits.value 10 qs * Lib.Digits.value 10 b + rest := by
  induction i generalizing cp c with
  | zero =>
    refine ⟨[], Lib.Digits.value 10 cp, rfl, rfl, proper_nil, proper.nonneg (by decide), divided, ?_⟩
    rw [value_nil, zero_mul, zero_add]
  | succ i ih =>
    have below : i < cp.length := by omega
    have properDrop := proper.sublist (List.drop_sublist i cp)
    have first : cp.drop i = cp[i] :: cp.drop (i + 1) := List.drop_eq_getElem_cons below
    -- one more digit, so the divisor goes in less than ten times
    have small : Lib.Digits.value 10 (cp.drop i) < 10 * Lib.Digits.value 10 b := by
      have digit := proper _ (List.getElem_mem below)
      rw [first, value_cons]
      omega
    have topB := properB.lt (by decide : (0 : ℤ) < 10)
    have nonneg := properDrop.nonneg (by decide : (0 : ℤ) < 10)
    obtain ⟨d, n, divides, digit, properN, length, remainder, total⟩ := divideDigit_spec properB
      11 properDrop (by rw [List.length_drop]; omega) (by rw [pow_succ]; linarith)
      (by push_cast; linarith) 0
    rw [zero_add] at divides
    have nonnegN := properN.nonneg (by decide : (0 : ℤ) < 10)
    have digit' : d < 10 := by
      by_contra large
      have := mul_le_mul_of_nonneg_right (not_lt.mp large) (properB.nonneg (by decide))
      linarith
    have low : (cp.take i).length = i := List.length_take_of_le below.le
    have properNext : Proper 10 (cp.take i ++ n) :=
      proper_append.mpr ⟨proper.sublist (List.take_sublist ..), properN⟩
    have dropNext : (cp.take i ++ n).drop i = n := List.drop_left' low
    obtain ⟨qs, rest, loops, lengthQs, properQs, nonnegRest, less, equation⟩ := ih properNext
      (by rw [List.length_append, low, length, List.length_drop]; omega)
      (by rw [dropNext]; exact remainder) (d :: c)
    refine ⟨qs ++ [d], rest, ?_, ?_, proper_append.mpr ⟨properQs, ?_⟩, nonnegRest, less, ?_⟩
    · unfold divideLoop
      rw [divides, ok_bind]
      dsimp only
      rw [loops, List.append_assoc]
      rfl
    · rw [List.length_append, lengthQs, List.length_singleton]
    · exact proper_cons.mpr ⟨⟨digit, digit'⟩, proper_nil⟩
    · rw [value_take_drop i cp below.le, total]
      rw [value_append, low] at equation
      rw [value_append, value_cons, value_nil, lengthQs]
      linear_combination equation

/-! ## Dividend and divisor -/

theorem ite_extend (n : BcNum) (x y : ℕ) :
    (if y < x then bcNumExtend n (x - y) else n) = bcNumExtend n (x - y) := by
  split
  · rfl
  · next enough =>
    rw [Nat.sub_eq_zero_of_le (not_lt.mp enough)]
    rfl

theorem dividend_spec {a : BcNum} (digits : Proper 10 a.num) (b : BcNum) (scale : ℕ) :
    ∃ e, Proper 10 (dividend a b scale).num ∧
      (dividend a b scale).magnitude = a.magnitude * 10 ^ e ∧
      (dividend a b scale).len = a.len + e ∧ (dividend a b scale).rdx + b.rdx = a.rdx + e ∧
      scale ≤ (dividend a b scale).rdx ∧ b.len ≤ (dividend a b scale).len := by
  unfold dividend
  dsimp only
  rw [ite_extend a, ite_extend, ite_extend]
  generalize first : b.len - a.len = e1
  have rdx1 : (bcNumExtend a e1).rdx = a.rdx + e1 := rfl
  rw [rdx1]
  generalize second : b.rdx - (a.rdx + e1) = e2
  have rdx2 : (bcNumExtend (bcNumExtend a e1) e2).rdx = a.rdx + e1 + e2 := rfl
  rw [rdx2]
  generalize third : scale - (a.rdx + e1 + e2 - b.rdx) = e3
  refine ⟨e1 + e2 + e3, bcNumExtend_digits (bcNumExtend_digits (bcNumExtend_digits digits _) _) _,
    ?_, ?_, ?_, ?_, ?_⟩
  · rw [bcNumExtend_magnitude]
    show (bcNumExtend (bcNumExtend a e1) e2).magnitude * _ = _
    rw [bcNumExtend_magnitude, bcNumExtend_magnitude, pow_add, pow_add]
    ring
  · rw [bcNumExtend_len]
    show (bcNumExtend (bcNumExtend a e1) e2).len + _ = _
    rw [bcNumExtend_len, bcNumExtend_len]
    omega
  · show a.rdx + e1 + e2 - b.rdx + e3 + b.rdx = _
    omega
  · show scale ≤ a.rdx + e1 + e2 - b.rdx + e3
    omega
  · rw [bcNumExtend_len]
    show _ ≤ (bcNumExtend (bcNumExtend a e1) e2).len + _
    rw [bcNumExtend_len, bcNumExtend_len]
    omega

theorem divisor_spec {b : BcNum} (clean : b.Clean) (nonempty : b.num ≠ []) :
    Proper 10 (divisor b) ∧ Lib.Digits.value 10 (divisor b) = b.magnitude ∧
      (divisor b).length ≤ b.len ∧
      ∃ k, (divisor b).length = k + 1 ∧ 10 ^ k ≤ b.magnitude := by
  have nonzero := clean.nonzero nonempty
  unfold divisor
  split
  · have left : strip b.num ≠ [] := (strip_eq_nil (by decide) clean.digits).not.mpr nonzero
    have positive : 1 ≤ (strip b.num).length := List.length_pos_of_ne_nil left
    have cut : b.num.take (max (strip b.num).length 1) = strip b.num := by
      rw [max_eq_left positive]
      exact (List.prefix_iff_eq_take.mp (List.rdropWhile_prefix _ _)).symm
    rw [cut]
    refine ⟨clean.digits.sublist (List.rdropWhile_prefix _ _).sublist, value_strip _,
      strip_length_le _, ?_⟩
    rcases strip_top b.num with none | ⟨low, d, topped, top⟩
    · exact absurd none left
    · refine ⟨low.length, by rw [topped, List.length_append, List.length_singleton], ?_⟩
      have digits : Proper 10 (strip b.num) :=
        clean.digits.sublist (List.rdropWhile_prefix _ _).sublist
      rw [topped] at digits
      have large := digits.pow_le (by decide) top
      rw [← topped, value_strip] at large
      exact large
  · next differ =>
    have long := clean.rdx_le nonempty
    have positive : 0 < b.len := List.length_pos_of_ne_nil nonempty
    refine ⟨clean.digits, rfl, le_refl _, b.len - 1, ?_, clean.pow_le (by omega)⟩
    show b.len = _
    omega

/-! ## Quotients of decimals -/

/-- The quotient of integers, truncated once more. -/
theorem floor_quotient (a b ra rb e rdx scale : ℕ) (positive : 0 < b) (places : rdx + rb = ra + e)
    (enough : scale ≤ rdx) :
    ⌊(((a * 10 ^ e : ℤ) / (b : ℤ) : ℤ) : ℚ) / 10 ^ rdx * 10 ^ scale⌋
      = ⌊(a : ℚ) / 10 ^ ra / ((b : ℚ) / 10 ^ rb) * 10 ^ scale⌋ := by
  have power : (10 : ℚ) ^ rdx = 10 ^ scale * 10 ^ (rdx - scale) := by
    rw [← pow_add, Nat.add_sub_cancel' enough]
  have cancel (q : ℚ) : q / 10 ^ rdx * 10 ^ scale = q / 10 ^ (rdx - scale) := by
    rw [power]
    field_simp
  have quotient : (a : ℚ) / 10 ^ ra / ((b : ℚ) / 10 ^ rb) * 10 ^ scale
      = ((a * 10 ^ e : ℤ) : ℚ) / ((b * 10 ^ (rdx - scale) : ℕ) : ℚ) := by
    have powers : (10 : ℚ) ^ rb * 10 ^ scale * 10 ^ (rdx - scale) = 10 ^ e * 10 ^ ra := by
      rw [← pow_add, ← pow_add, ← pow_add]
      congr 1
      omega
    have nonzero : (b : ℚ) ≠ 0 := by exact_mod_cast positive.ne'
    push_cast
    field_simp
    linear_combination (a : ℚ) * powers
  rw [cancel, floor_div, quotient, Rat.floor_intCast_div_natCast, Int.ediv_ediv_of_nonneg (by positivity)]
  push_cast
  rfl

theorem value_div (a b : BcNum) :
    a.value / b.value = sign (a.neg != b.neg)
      * ((a.magnitude : ℚ) / 10 ^ a.rdx / ((b.magnitude : ℚ) / 10 ^ b.rdx)) := by
  rw [← sign_mul_sign]
  unfold BcNum.value sign
  cases a.neg <;> cases b.neg <;> simp <;> ring

/-- `zbc_num_d` divides and truncates. -/
theorem zbcNumD_spec {a b : BcNum} (ha : a.Valid) (hb : b.Clean) (nonzero : b.value ≠ 0)
    (scale : ℕ) (c : BcNum) :
    ∃ r, zbcNumD scale a b c = .ok r ∧ r.Clean ∧ r.rdx = scale ∧
      r.value = truncated (a.value / b.value) scale := by
  have nonempty : b.num ≠ [] := fun none => nonzero (BcNum.value_nil none)
  have nonnegA := BcNum.magnitude_nonneg ha.digits
  have positive := hb.magnitude_pos nonempty
  have nonnegQ : (0 : ℚ) ≤ (a.magnitude : ℚ) / 10 ^ a.rdx / ((b.magnitude : ℚ) / 10 ^ b.rdx) := by
    have : (0 : ℚ) ≤ a.magnitude := by exact_mod_cast nonnegA
    have : (0 : ℚ) < b.magnitude := by exact_mod_cast positive
    positivity
  rw [value_div, truncated_sign _ nonnegQ]
  -- the quotient may be retired from any magnitude that rounds down to the same
  have retire {n : BcNum} (digits : Proper 10 n.num) (long : n.magnitude = 0 ∨ n.rdx ≤ n.len)
      (same : ⌊(n.magnitude : ℚ) / 10 ^ n.rdx * 10 ^ scale⌋
        = ⌊(a.magnitude : ℚ) / 10 ^ a.rdx / ((b.magnitude : ℚ) / 10 ^ b.rdx) * 10 ^ scale⌋) :
      (bcNumRetireMul n scale a.neg b.neg).Clean ∧ (bcNumRetireMul n scale a.neg b.neg).rdx = scale ∧
        (bcNumRetireMul n scale a.neg b.neg).value = sign (a.neg != b.neg)
          * ⌊(a.magnitude : ℚ) / 10 ^ a.rdx / ((b.magnitude : ℚ) / 10 ^ b.rdx) * 10 ^ scale⌋
            / 10 ^ scale := by
    have retired := bcNumRetireMul_spec digits long scale a.neg b.neg
    refine ⟨retired.clean, retired.rdx, ?_⟩
    have nonneg : (0 : ℚ) ≤ n.magnitude / 10 ^ n.rdx := by
      have : (0 : ℚ) ≤ n.magnitude := by exact_mod_cast BcNum.magnitude_nonneg digits
      positivity
    rw [retired.value (BcNum.magnitude_nonneg digits), truncated_sign _ nonneg, same]
  unfold zbcNumD
  rw [if_neg nonempty]
  by_cases none : a.num = []
  · rw [if_pos none]
    refine ⟨_, rfl, bcNumSetToZero_clean scale, rfl, ?_⟩
    have zero : a.magnitude = 0 := by
      unfold BcNum.magnitude
      rw [none, value_nil]
    rw [BcNum.value_nil rfl, zero]
    simp
  rw [if_neg none]
  by_cases one : b.one = true
  · rw [if_pos one]
    refine ⟨_, rfl, retire ha.digits (.inr (ha.long.resolve_left none)) ?_⟩
    have rdx : b.rdx = 0 := by
      unfold BcNum.one at one
      rw [Bool.and_eq_true, beq_iff_eq, beq_iff_eq] at one
      exact one.2
    rw [BcNum.Whole.of_one one, rdx]
    simp
  rw [if_neg one]
  obtain ⟨e, digits, magnitude, len, places, enough, long⟩ := dividend_spec ha.digits b scale
  obtain ⟨properB, valueB, shorter, k, lengthB, large⟩ := divisor_spec hb nonempty
  dsimp only
  have numLength : ((dividend a b scale).num ++ [0]).length = (dividend a b scale).len + 1 := by
    rw [List.length_append, List.length_singleton]
    rfl
  have properNum : Proper 10 ((dividend a b scale).num ++ [0]) :=
    proper_append.mpr ⟨digits, proper_zeros (by decide) 1⟩
  have valueNum : Lib.Digits.value 10 ((dividend a b scale).num ++ [0]) = a.magnitude * 10 ^ e := by
    rw [← magnitude]
    exact value_append_zeros 1 _
  -- the digits at the top are fewer than those of the divisor, but for the zero
  have start : Lib.Digits.value 10 (((dividend a b scale).num ++ [0]).drop
      (((dividend a b scale).num ++ [0]).length - (divisor b).length))
        < Lib.Digits.value 10 (divisor b) := by
    have properTop := digits.sublist (List.drop_sublist ((dividend a b scale).len - k)
      (dividend a b scale).num)
    have below := properTop.lt (by decide : (0 : ℤ) < 10)
    rw [List.length_drop] at below
    rw [numLength, lengthB, List.drop_append_of_le_length (by unfold BcNum.len; omega),
      show (dividend a b scale).len + 1 - (k + 1) = (dividend a b scale).len - k by omega,
      valueB]
    refine lt_of_lt_of_le ?_ large
    have zero : Lib.Digits.value 10 (List.drop ((dividend a b scale).len - k)
        (dividend a b scale).num ++ [0]) = Lib.Digits.value 10
          (List.drop ((dividend a b scale).len - k) (dividend a b scale).num) :=
      value_append_zeros 1 _
    rw [zero]
    refine below.trans_le (pow_le_pow_right₀ (by decide) ?_)
    unfold BcNum.len
    omega
  obtain ⟨qs, rest, loops, lengthQs, properQs, nonnegRest, less, equation⟩ := divideLoop_spec
    properB properNum (by rw [numLength]; omega) start []
  rw [loops, ok_bind, List.append_nil]
  refine ⟨_, rfl, retire (proper_append.mpr ⟨properQs, proper_zeros (by decide) _⟩) (.inr ?_) ?_⟩
  · show (dividend a b scale).rdx ≤ (qs ++ List.replicate _ 0).length
    have fits := ha.long.resolve_left none
    rw [List.length_append, List.length_replicate, lengthQs]
    omega
  · have quotient : Lib.Digits.value 10 qs = a.magnitude * 10 ^ e / b.magnitude := by
      rw [valueNum, valueB] at equation
      rw [valueB] at less
      rw [equation, add_comm, Int.add_mul_ediv_right _ _ positive.ne',
        Int.ediv_eq_zero_of_lt nonnegRest less, zero_add]
    have whole : BcNum.magnitude ⟨qs ++ List.replicate (((dividend a b scale).num ++ [0]).length
        - (((dividend a b scale).num ++ [0]).length - (divisor b).length)) 0,
          (dividend a b scale).rdx, false⟩ = a.magnitude * 10 ^ e / b.magnitude := by
      rw [← quotient]
      exact value_append_zeros _ _
    obtain ⟨m, equalA⟩ := Int.eq_ofNat_of_zero_le nonnegA
    obtain ⟨n, equalB⟩ := Int.eq_ofNat_of_zero_le positive.le
    rw [whole, equalA, equalB]
    exact floor_quotient m n a.rdx b.rdx e _ scale (by omega) places enough

/-!
## Exact decimal arithmetic

The four operations on numbers in memory, the result being an operand or not. The
numbers are clean: a zero has no digits. With digits that are all zero a zero is valid
too, but not treated as one.
-/

/-- The memory with a new number at `c`, of which something holds. -/
def Stored (mem : Ref → BcNum) (c : Ref) (holds : BcNum → Prop) (mem' : Ref → BcNum) : Prop :=
  ∃ r, mem' = (fun ref => if ref = c then r else mem ref) ∧ holds r

/-- The operation sees its operands, wherever they have been moved. -/
theorem zbcNumBinary_spec {a b c : Ref} {op : BcNumBinaryOp} {mem : Ref → BcNum}
    {returns : BcNum → Prop} {fails : BcError → Prop}
    (spec : ∀ c₀, Ends (op (mem a) (mem b) c₀) returns fails) :
    Ends (zbcNumBinary a b c op mem) (Stored mem c returns) fails := by
  have ptrA : (if c = a then mem c else mem a) = mem a := by
    split
    · next same => rw [same]
    · rfl
  have ptrB : (if c = b then mem c else mem b) = mem b := by
    split
    · next same => rw [same]
    · rfl
  unfold zbcNumBinary
  dsimp only
  rw [ptrA, ptrB]
  exact (spec _).bind fun r holds => ⟨r, rfl, holds⟩

/-- Clean numbers are added, subtracted, multiplied and divided exactly or truncated
towards zero, and the results are clean. Only a product may be given up, when it is too
long. -/
theorem bc_arithmetic (mem : Ref → BcNum) {a b : Ref} (ha : (mem a).Clean) (hb : (mem b).Clean)
    (c : Ref) (scale : ℕ) :
    Ends (zbcNumAdd a b c mem)
      (Stored mem c fun r => r.Clean ∧ r.value = (mem a).value + (mem b).value)
      (fun _ => False) ∧
    Ends (zbcNumSub a b c mem)
      (Stored mem c fun r => r.Clean ∧ r.value = (mem a).value - (mem b).value)
      (fun _ => False) ∧
    Ends (zbcNumMul a b c scale mem)
      (Stored mem c fun r => r.Clean ∧ r.value = truncated ((mem a).value * (mem b).value)
        (min ((mem a).rdx + (mem b).rdx) (max (max scale (mem a).rdx) (mem b).rdx)))
      (fun e => e = .tooLong ∧ bcMaxNum < (mem a).len + (mem b).len
        + 2 * min ((mem a).rdx + (mem b).rdx) (max (max scale (mem a).rdx) (mem b).rdx)) ∧
    ((mem b).value ≠ 0 → Ends (zbcNumDiv a b c scale mem)
      (Stored mem c fun r => r.Clean ∧
        r.value = truncated ((mem a).value / (mem b).value) scale)
      (fun _ => False)) := by
  refine ⟨zbcNumBinary_spec fun _ => .of_ok ?_, zbcNumBinary_spec fun _ => .of_ok ?_,
    zbcNumBinary_spec fun c₀ => (zbcNumM_spec ha hb scale c₀).imp ?_ fun _ => id,
    fun nonzero => zbcNumBinary_spec fun c₀ => .of_ok ?_⟩
  · obtain ⟨r, adds, combined⟩ := numAdd_spec ha hb
    exact ⟨r, adds, combined.clean, combined.value⟩
  · obtain ⟨r, subtracts, combined⟩ := numSub_spec ha hb
    exact ⟨r, subtracts, combined.clean, combined.value.trans (sub_eq_add_neg ..).symm⟩
  · rintro r ⟨clean, -, value⟩
    exact ⟨clean, value⟩
  · obtain ⟨r, divides, clean, -, value⟩ := zbcNumD_spec ha.toValid hb nonzero scale c₀
    exact ⟨r, divides, clean, value⟩

theorem clean_half : (⟨[5, 1], 1, false⟩ : BcNum).Clean := by
  refine ⟨⟨?_, .inr (by decide), ?_, fun _ => rfl⟩, fun _ => by decide⟩
  · intro d mem
    rcases List.mem_cons.mp mem with rfl | mem
    · decide
    · rw [List.mem_singleton.mp mem]
      decide
  · intro low ends
    have last := congrArg List.getLast? ends
    rw [List.getLast?_append] at last
    cases last

/-- 1.5 squared in place, without decimals asked for. -/
theorem bc_arithmetic_half :
    Ends (zbcNumMul 0 0 0 0 fun _ => ⟨[5, 1], 1, false⟩)
      (Stored (fun _ => ⟨[5, 1], 1, false⟩) 0 fun r =>
        r.Clean ∧ r.value = truncated (BcNum.value ⟨[5, 1], 1, false⟩
          * BcNum.value ⟨[5, 1], 1, false⟩) 1)
      (fun e => e = .tooLong ∧ bcMaxNum < 6) :=
  (bc_arithmetic (fun _ => ⟨[5, 1], 1, false⟩) (a := 0) (b := 0) clean_half clean_half 0
    0).2.2.1

/-- Nothing minus 0.00 with its digits written out is a negative zero. -/
theorem bc_negative_zero : ¬ ∀ (mem : Ref → BcNum) (a b c : Ref), (mem a).Valid → (mem b).Valid →
    Ends (zbcNumSub a b c mem) (Stored mem c fun r => r.Valid) (fun _ => False) := by
  intro valid
  have zeros : (⟨[0, 0], 2, false⟩ : BcNum).Valid := by
    refine ⟨?_, .inr (by decide), fun _ _ => rfl, fun _ => rfl⟩
    intro d mem
    rcases List.mem_cons.mp mem with rfl | mem
    · decide
    · rw [List.mem_singleton.mp mem]
      decide
  obtain ⟨r, stores, result⟩ := valid
    (fun ref => if ref = 0 then bcNumSetToZero 0 else ⟨[0, 0], 2, false⟩) 0 1 2
    (bcNumSetToZero_clean 0).toValid zeros
  have at2 := congrFun stores 2
  have same : (⟨[0, 0], 2, true⟩ : BcNum) = r := at2
  have positive := (same ▸ result).zero rfl
  cases positive

end Busybox.Bc
