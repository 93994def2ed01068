import Busybox.Bc.Remainders

/-!
# Powers

`zbc_num_p` squares and multiplies with as many decimals as the exact product has, and truncates
at the end.
-/

namespace Busybox.Bc

open Lib.Digits
open Fallible

/-- The loop of `zbc_num_ulong_abs` over the digits, the highest first. -/
def ulongLoop : List BcDig → ℕ → Except BcError ℕ
  | [], result => .ok result
  | d :: ds, prev =>
    let result := (prev * 10 + d.toNat) % 2 ^ 64
    if result / 8 < prev then .error .overflow else ulongLoop ds result

/-- `zbc_num_ulong_abs` -/
def zbcNumUlongAbs (n : BcNum) : Except BcError ℕ := ulongLoop (n.num.drop n.rdx).reverse 0

/-- `bc_num_one` -/
def bcNumOne : BcNum := ⟨[1], 0, false⟩

/-- `zbc_num_inv` -/
def zbcNumInv (scale : ℕ) (a : BcNum) : Except BcError BcNum :=
  zbcNumD scale bcNumOne a (bcNumSetToZero 0)

/-- The loop that squares while `pow` is even: what is left of `pow`, `powrdx` and the copy. By 0 it
would never end. -/
def squareLoop (pow powrdx : ℕ) (copy : BcNum) : Except BcError (ℕ × ℕ × BcNum) :=
  if pow = 0 then .error .overrun
  else if pow % 2 = 1 then .ok (pow, powrdx, copy)
  else do
    let powrdx := powrdx * 2 % 2 ^ 64
    let copy ← zbcNumM powrdx copy copy (bcNumSetToZero 0)
    squareLoop (pow / 2) powrdx copy
termination_by pow

/-- The loop that squares, and multiplies for each bit of `pow`. -/
def powerLoop (pow powrdx resrdx : ℕ) (copy c : BcNum) : Except BcError BcNum :=
  if pow = 0 then .ok c
  else do
    let powrdx := powrdx * 2 % 2 ^ 64
    let copy ← zbcNumM powrdx copy copy (bcNumSetToZero 0)
    if pow % 2 = 1 then
      let resrdx := (resrdx + powrdx) % 2 ^ 64
      let c ← zbcNumM resrdx c copy (bcNumSetToZero 0)
      powerLoop (pow / 2) powrdx resrdx copy c
    else powerLoop (pow / 2) powrdx resrdx copy c
termination_by pow

/-- The scale of a power with a positive exponent. -/
def powerScale (a : BcNum) (pow scale : ℕ) : ℕ :=
  let scale := if scale < a.rdx then a.rdx else scale
  if a.rdx * pow % 2 ^ 64 < scale then a.rdx * pow % 2 ^ 64 else scale

/-- The end of `zbc_num_p`. -/
def finishPower (scale : ℕ) (c : BcNum) : BcNum :=
  let c := if scale < c.rdx then bcNumTruncate c (c.rdx - scale) else c
  if c.num.all (· = 0) then bcNumSetToZero scale else c

/-- `zbc_num_p`, with what the array of `b` holds behind its digits. -/
def zbcNumP (left : List BcDig) (scale : ℕ) : BcNumBinaryOp := fun a b _ =>
  if ((b.num ++ left).take b.rdx).any (· ≠ 0) then .error .notAnInteger
  else if b.num = [] then .ok bcNumOne
  else if a.num = [] then .ok (bcNumSetToZero scale)
  else if b.one then if !b.neg then .ok a else zbcNumInv scale a
  else do
    let pow ← zbcNumUlongAbs b
    let scale := if !b.neg then powerScale a pow scale else scale
    let (pow, powrdx, copy) ← squareLoop pow a.rdx a
    let c ← powerLoop (pow / 2) powrdx powrdx copy copy
    let c ← if b.neg then zbcNumInv scale c else .ok c
    return finishPower scale c

/-- `zbc_num_pow` -/
def zbcNumPow (left : List BcDig) (a b c : Ref) (scale : ℕ) :
    (Ref → BcNum) → Except BcError (Ref → BcNum) :=
  zbcNumBinary a b c (zbcNumP left scale)

/-! ## The exponent -/

theorem ulongLoop_spec {ds : List BcDig} (digits : Proper 10 ds) {prev total : ℕ}
    (equal : (total : ℤ) = prev * 10 ^ ds.length + Lib.Digits.value 10 ds.reverse)
    (small : total < 2 ^ 64) : ulongLoop ds prev = .ok total := by
  induction ds generalizing prev with
  | nil =>
    rw [List.length_nil, pow_zero, mul_one, List.reverse_nil, value_nil, add_zero] at equal
    rw [ulongLoop, Int.ofNat_inj.mp equal]
  | cons d ds ih =>
    obtain ⟨digit, digits'⟩ := proper_cons.mp digits
    have next : (total : ℤ) =
        ((prev * 10 + d.toNat : ℕ) : ℤ) * 10 ^ ds.length + Lib.Digits.value 10 ds.reverse := by
      rw [equal, List.reverse_cons, value_append, List.length_reverse, value_cons, value_nil,
        List.length_cons, pow_succ]
      push_cast
      rw [Int.toNat_of_nonneg digit.1]
      ring
    have rest : 0 ≤ Lib.Digits.value 10 ds.reverse :=
      Proper.nonneg (by decide) fun e mem => digits' e (List.mem_reverse.mp mem)
    have below : prev * 10 + d.toNat ≤ total := by
      have power : (1 : ℤ) ≤ 10 ^ ds.length := one_le_pow₀ (by decide)
      have scaled := mul_le_mul_of_nonneg_left power
        (Int.natCast_nonneg (prev * 10 + d.toNat))
      omega
    have fits : (prev * 10 + d.toNat) % 2 ^ 64 = prev * 10 + d.toNat :=
      Nat.mod_eq_of_lt (lt_of_le_of_lt below small)
    rw [ulongLoop, fits]
    exact (if_neg (by omega)).trans (ih digits' next)

/-- A whole number has zeros behind the point, and its absolute value before. -/
theorem whole_digits {b : BcNum} (digits : Proper 10 b.num) {n : ℤ} (whole : b.value = n) :
    Lib.Digits.value 10 (b.num.take b.rdx) = 0 ∧
      Lib.Digits.value 10 (b.num.drop b.rdx) = |n| := by
  have magnitude : b.magnitude = |n| * 10 ^ b.rdx := by
    have absolute := b.abs_value digits
    rw [whole, eq_div_iff (by positivity)] at absolute
    exact_mod_cast absolute.symm
  have high : Lib.Digits.value 10 (b.num.drop b.rdx) = |n| := by
    rw [digits.drop (by decide)]
    show b.magnitude / 10 ^ b.rdx = |n|
    rw [magnitude, Int.mul_ediv_cancel _ (by positivity)]
  refine ⟨?_, high⟩
  by_cases long : b.rdx ≤ b.num.length
  · have split := @value_take_drop 10 b.rdx b.num long
    have same : Lib.Digits.value 10 b.num = b.magnitude := rfl
    rw [same, high, magnitude] at split
    linarith
  · have none : |n| = 0 := by
      rw [← high, List.drop_eq_nil_of_le (Nat.le_of_not_le long), value_nil]
    have zero : Lib.Digits.value 10 b.num = 0 := magnitude.trans (by rw [none, zero_mul])
    rw [List.take_of_length_le (Nat.le_of_not_le long), zero]

theorem zbcNumUlongAbs_spec {b : BcNum} (digits : Proper 10 b.num) {n : ℤ} (whole : b.value = n)
    (small : |n| < 2 ^ 64) : zbcNumUlongAbs b = .ok n.natAbs := by
  have high := (whole_digits digits whole).2
  have absolute := Int.abs_eq_natAbs n
  refine ulongLoop_spec ?_ ?_ (by omega)
  · exact fun e mem => digits e (List.mem_of_mem_drop (List.mem_reverse.mp mem))
  · rw [List.reverse_reverse, high, absolute, Nat.cast_zero, zero_mul, zero_add]

/-! ## Exact powers -/

/-- Exactly a power of `a`. -/
structure PowerOf (a : BcNum) (i : ℕ) (x : BcNum) : Prop where
  positive : i ≠ 0
  clean : x.Clean
  rdx : x.rdx = a.rdx * i
  value : x.value = a.value ^ i
  size : x.rdx < 2 ^ 64

/-- A number is too long for the power with the exponent `n`. -/
def powerTooLong (a : BcNum) (n : ℕ) (e : BcError) : Prop :=
  e = .tooLong ∧ bcMaxNum < n * (a.len + 2 * a.rdx)

theorem PowerOf.len_le {a x : BcNum} {i : ℕ} (power : PowerOf a i x) (ha : a.Clean)
    (nonempty : a.num ≠ []) : x.len ≤ i * a.len := by
  have fits := ha.rdx_le nonempty
  by_cases decimals : x.len ≤ x.rdx
  · calc x.len ≤ a.rdx * i := power.rdx ▸ decimals
      _ ≤ a.len * i := Nat.mul_le_mul_right _ fits
      _ = i * a.len := Nat.mul_comm ..
  · have large := power.clean.pow_le (not_le.mp decimals)
    have magnitude : x.magnitude = a.magnitude ^ i := by
      have absolute := x.abs_value power.clean.digits
      rw [power.value, abs_pow, a.abs_value ha.digits, power.rdx, div_pow, ← pow_mul,
        div_left_inj' (by positivity)] at absolute
      exact_mod_cast absolute.symm
    have below : x.magnitude < 10 ^ (i * a.len) := by
      rw [magnitude, Nat.mul_comm, pow_mul]
      exact pow_lt_pow_left₀ (BcNum.magnitude_lt ha.digits) (BcNum.magnitude_nonneg ha.digits)
        power.positive
    have less := (pow_lt_pow_iff_right₀ (by decide : (1 : ℤ) < 10)).mp (large.trans_lt below)
    omega

theorem PowerOf.nonempty {a x : BcNum} {i : ℕ} (power : PowerOf a i x) (nonzero : a.value ≠ 0) :
    x.num ≠ [] := fun none =>
  pow_ne_zero i nonzero (power.value.symm.trans (BcNum.value_nil none))

/-- The product of two powers is exact with the sum of their decimals, or given up. -/
theorem PowerOf.mul {a x y : BcNum} {i j n : ℕ} (ha : a.Clean) (nonzero : a.value ≠ 0)
    (first : PowerOf a i x) (second : PowerOf a j y) (within : i + j ≤ n) :
    Ends (zbcNumM ((x.rdx + y.rdx) % 2 ^ 64) x y (bcNumSetToZero 0)) (PowerOf a (i + j))
      (powerTooLong a n) := by
  have nonempty : a.num ≠ [] := fun none => nonzero (BcNum.value_nil none)
  have sum : x.rdx + y.rdx = a.rdx * (i + j) := by
    rw [first.rdx, second.rdx, Nat.mul_add]
  have decimals : a.rdx * (i + j) ≤ n * a.rdx := by
    rw [Nat.mul_comm]
    exact Nat.mul_le_mul_right _ within
  have digits : i * a.len + j * a.len ≤ n * a.len := by
    rw [← Nat.add_mul]
    exact Nat.mul_le_mul_right _ within
  have bound : n * (a.len + 2 * a.rdx) = n * a.len + 2 * (n * a.rdx) := by ring
  by_cases fits : x.rdx + y.rdx < 2 ^ 64
  · have places : productScale x y ((x.rdx + y.rdx) % 2 ^ 64) = x.rdx + y.rdx := by
      unfold productScale
      rw [Nat.mod_eq_of_lt fits]
      omega
    have multiplies := zbcNumM_spec first.clean second.clean ((x.rdx + y.rdx) % 2 ^ 64)
      (bcNumSetToZero 0)
    rw [places] at multiplies
    refine multiplies.imp ?_ ?_
    · rintro r ⟨clean, rdx, value⟩
      refine ⟨by have := first.positive; omega, clean, rdx.trans sum, ?_, rdx ▸ fits⟩
      rw [value, truncated_product, first.value, second.value, pow_add]
    · rintro e ⟨error, long⟩
      have := first.len_le ha nonempty
      have := second.len_le ha nonempty
      exact ⟨error, by omega⟩
  · -- so many decimals are more than a number may have digits
    have many : bcMaxNum < max x.rdx y.rdx := by
      rw [bcMaxNum]
      omega
    have fails : zbcNumM ((x.rdx + y.rdx) % 2 ^ 64) x y (bcNumSetToZero 0) = .error .tooLong :=
      zbcNumM_tooLong (first.nonempty nonzero) _ _ rfl (by omega) (by omega)
    rw [fails]
    exact ⟨rfl, by omega⟩

/-! ## The loops -/

/-- The decimals that are kept count are those of the product. -/
theorem PowerOf.rdx_mul {a x y z : BcNum} {i j : ℕ} (first : PowerOf a i x)
    (second : PowerOf a j y) (product : PowerOf a (i + j) z) :
    (x.rdx + y.rdx) % 2 ^ 64 = z.rdx := by
  have sum : x.rdx + y.rdx = z.rdx := by
    rw [first.rdx, second.rdx, product.rdx, Nat.mul_add]
  rw [sum, Nat.mod_eq_of_lt product.size]

theorem squareLoop_spec {a : BcNum} (ha : a.Clean) (nonzero : a.value ≠ 0) (pow : ℕ) {i : ℕ}
    {copy : BcNum} (power : PowerOf a i copy) (positive : pow ≠ 0) :
    Ends (squareLoop pow copy.rdx copy)
      (fun end_ => ∃ i', PowerOf a i' end_.2.2 ∧ end_.2.1 = end_.2.2.rdx ∧
        i' * end_.1 = i * pow ∧ end_.1 % 2 = 1)
      (powerTooLong a (i * pow)) := by
  induction pow using Nat.strong_induction_on generalizing i copy with
  | _ pow ih =>
    rw [squareLoop, if_neg positive]
    by_cases odd : pow % 2 = 1
    · rw [if_pos odd]
      exact ⟨i, power, rfl, rfl, odd⟩
    · rw [if_neg odd, Nat.mul_two]
      have half : (i + i) * (pow / 2) = i * pow := by
        have even : pow = 2 * (pow / 2) := by omega
        conv_rhs => rw [even]
        ring
      have within : i + i ≤ i * pow := by
        rw [← half]
        exact Nat.le_mul_of_pos_right _ (by omega)
      refine (power.mul ha nonzero power within).bind ?_
      intro copy' squared
      rw [power.rdx_mul power squared, ← half]
      exact ih (pow / 2) (by omega) squared (by omega)

theorem powerLoop_spec {a : BcNum} (ha : a.Clean) (nonzero : a.value ≠ 0) (pow : ℕ) {i j n : ℕ}
    {copy c : BcNum} (power : PowerOf a i copy) (result : PowerOf a j c)
    (total : n = j + 2 * (i * pow)) :
    Ends (powerLoop pow copy.rdx c.rdx copy c) (PowerOf a n) (powerTooLong a n) := by
  induction pow using Nat.strong_induction_on generalizing i j copy c with
  | _ pow ih =>
    rw [powerLoop]
    by_cases done : pow = 0
    · rw [if_pos done]
      rw [done, Nat.mul_zero, Nat.mul_zero, Nat.add_zero] at total
      rw [total]
      exact result
    · have least : i ≤ i * pow := Nat.le_mul_of_pos_right _ (by omega)
      rw [if_neg done, Nat.mul_two]
      refine (power.mul ha nonzero power (by omega)).bind ?_
      intro copy' squared
      rw [power.rdx_mul power squared]
      by_cases odd : pow % 2 = 1
      · have half : i * pow = (i + i) * (pow / 2) + i := by
          have split : pow = 2 * (pow / 2) + 1 := by omega
          conv_lhs => rw [split]
          ring
        rw [if_pos odd]
        refine (result.mul ha nonzero squared (by omega)).bind ?_
        intro c' multiplied
        rw [result.rdx_mul squared multiplied]
        exact ih (pow / 2) (by omega) squared multiplied (by omega)
      · have half : i * pow = (i + i) * (pow / 2) := by
          have split : pow = 2 * (pow / 2) := by omega
          conv_lhs => rw [split]
          ring
        rw [if_neg odd]
        exact ih (pow / 2) (by omega) squared result (by omega)

/-! ## The end -/

theorem all_zero_iff {c : BcNum} (digits : Proper 10 c.num) :
    c.num.all (· = 0) = true ↔ c.magnitude = 0 := by
  rw [List.all_eq_true]
  simp only [decide_eq_true_eq]
  exact (value_eq_zero (by decide) digits).symm

theorem BcNum.value_eq (c : BcNum) : c.value = sign c.neg * (c.magnitude / 10 ^ c.rdx) := by
  unfold value
  ring

/-- With no more than `places` decimals nothing is cut off. -/
theorem truncated_value (c : BcNum) {places : ℕ} (enough : c.rdx ≤ places) :
    truncated c.value places = c.value := by
  have integer : c.value * 10 ^ places =
      ((bcNumNeg c.magnitude c.neg * 10 ^ (places - c.rdx) : ℤ) : ℚ) := by
    rw [← Nat.add_sub_cancel' enough, pow_add, Nat.add_sub_cancel_left]
    unfold BcNum.value bcNumNeg sign
    cases c.neg <;> simp <;> field_simp
  exact truncated_of_integer integer

theorem bcNumTruncate_spec {c : BcNum} (clean : c.Clean) (nonempty : c.num ≠ []) {places : ℕ}
    (fewer : places < c.rdx) :
    (bcNumTruncate c (c.rdx - places)).magnitude = c.magnitude / 10 ^ (c.rdx - places) ∧
      ((bcNumTruncate c (c.rdx - places)).magnitude ≠ 0 →
        (bcNumTruncate c (c.rdx - places)).Clean) ∧
      (bcNumTruncate c (c.rdx - places)).value = truncated c.value places := by
  have fits : c.rdx ≤ c.num.length := clean.rdx_le nonempty
  have rdx : (bcNumTruncate c (c.rdx - places)).rdx = places := Nat.sub_sub_self fewer.le
  have magnitude : (bcNumTruncate c (c.rdx - places)).magnitude =
      c.magnitude / 10 ^ (c.rdx - places) := clean.digits.drop (by decide) _
  have length : (bcNumTruncate c (c.rdx - places)).len = c.num.length - (c.rdx - places) :=
    List.length_drop
  refine ⟨magnitude, fun nonzero => ⟨⟨clean.digits.sublist (List.drop_sublist ..), .inr ?_, ?_,
    fun zero => absurd zero nonzero⟩, fun _ => nonzero⟩, ?_⟩
  · rw [rdx, length]
    omega
  · intro low ends
    have whole : c.num = c.num.take (c.rdx - places) ++ low ++ [0] := by
      have drop : c.num.drop (c.rdx - places) = low ++ [0] := ends
      rw [List.append_assoc, ← drop, List.take_append_drop]
    have same : c.num.length = c.rdx := clean.top _ whole
    rw [rdx, length, same]
    omega
  · have nonneg : (0 : ℚ) ≤ c.magnitude / 10 ^ c.rdx := by
      have : (0 : ℚ) ≤ c.magnitude := by exact_mod_cast BcNum.magnitude_nonneg clean.digits
      positivity
    have cancel : (c.magnitude : ℚ) / 10 ^ c.rdx * 10 ^ places =
        c.magnitude / 10 ^ (c.rdx - places) := by
      have power : (10 : ℚ) ^ c.rdx = 10 ^ places * 10 ^ (c.rdx - places) := by
        rw [← pow_add, Nat.add_sub_cancel' fewer.le]
      rw [power]
      field_simp
    have neg : (bcNumTruncate c (c.rdx - places)).neg = c.neg := rfl
    rw [c.value_eq, truncated_sign _ nonneg, cancel, floor_div, ← magnitude]
    unfold BcNum.value
    rw [rdx, neg]

/-- What is left of a number when it is cut to `scale` decimals. -/
theorem finishPower_spec {c : BcNum} (clean : c.Clean) (scale : ℕ) :
    (finishPower scale c).Clean ∧ (finishPower scale c).value = truncated c.value scale := by
  unfold finishPower
  by_cases none : c.num = []
  · have nothing (n : BcNum) (empty : n.num = []) :
        (if n.num.all (· = 0) then bcNumSetToZero scale else n) = bcNumSetToZero scale :=
      if_pos (by rw [empty]; rfl)
    have empty : (if scale < c.rdx then bcNumTruncate c (c.rdx - scale) else c).num = [] := by
      split
      · exact (congrArg (List.drop _) none).trans List.drop_nil
      · exact none
    dsimp only
    rw [nothing _ empty, BcNum.value_nil none, truncated_zero]
    exact ⟨bcNumSetToZero_clean _, BcNum.value_nil rfl⟩
  by_cases more : scale < c.rdx
  · obtain ⟨-, cut, value⟩ := bcNumTruncate_spec clean none more
    have digits : Proper 10 (bcNumTruncate c (c.rdx - scale)).num :=
      clean.digits.sublist (List.drop_sublist ..)
    rw [if_pos more]
    dsimp only
    split
    · next zeros =>
      have zero := (all_zero_iff digits).mp zeros
      rw [← value, BcNum.value_of_zero zero]
      exact ⟨bcNumSetToZero_clean _, BcNum.value_nil rfl⟩
    · next some =>
      exact ⟨cut fun zero => some ((all_zero_iff digits).mpr zero), value⟩
  · have some : ¬c.num.all (· = 0) = true := fun zeros =>
      clean.nonzero none ((all_zero_iff clean.digits).mp zeros)
    rw [if_neg more]
    dsimp only
    rw [if_neg some, truncated_value c (not_lt.mp more)]
    exact ⟨clean, rfl⟩

/-! ## The power -/

/-- What `zbc_num_p` returns for the exponent `n`. -/
structure Power (a : BcNum) (n : ℤ) (scale : ℕ) (r : BcNum) : Prop where
  clean : r.Clean
  positive : 0 ≤ n → r.value = truncated (a.value ^ n.toNat)
    (min (a.rdx * n.toNat) (max scale a.rdx))
  negative : n < 0 → r.value = truncated (1 / a.value ^ n.natAbs) scale

theorem bcNumOne_clean : bcNumOne.Clean := clean_digit ⟨by decide, by decide⟩

theorem bcNumOne_value : bcNumOne.value = 1 := by
  norm_num [bcNumOne, BcNum.value, BcNum.magnitude, sign]

theorem zbcNumInv_spec {a : BcNum} (ha : a.Clean) (nonzero : a.value ≠ 0) (scale : ℕ) :
    ∃ r, zbcNumInv scale a = .ok r ∧ r.Clean ∧ r.rdx = scale ∧
      r.value = truncated (1 / a.value) scale := by
  have divides := zbcNumD_spec bcNumOne_clean.toValid ha nonzero scale (bcNumSetToZero 0)
  rw [bcNumOne_value] at divides
  exact divides

/-- The scale of a power that could be computed. -/
theorem powerScale_eq (a : BcNum) {pow : ℕ} (scale : ℕ) (small : a.rdx * pow < 2 ^ 64) :
    powerScale a pow scale = min (a.rdx * pow) (max scale a.rdx) := by
  unfold powerScale
  rw [Nat.mod_eq_of_lt small]
  dsimp only
  split <;> split <;> omega

theorem BcNum.Clean.neg_iff {b : BcNum} (clean : b.Clean) (nonempty : b.num ≠ []) :
    b.neg = true ↔ b.value < 0 := by
  have positive : (0 : ℚ) < b.magnitude / 10 ^ b.rdx := by
    have : (0 : ℚ) < b.magnitude := by exact_mod_cast clean.magnitude_pos nonempty
    positivity
  rw [b.value_eq]
  unfold sign
  cases b.neg with
  | true =>
    rw [if_pos rfl]
    exact iff_of_true rfl (by linarith)
  | false =>
    rw [if_neg Bool.false_ne_true]
    exact iff_of_false Bool.false_ne_true (by linarith)

/-- A whole number is seen to be one, if what is behind a zero is zero as well. -/
theorem whole_any {b : BcNum} (hb : b.Clean) {n : ℤ} (whole : b.value = n) {left : List BcDig}
    (zero : n = 0 → ∀ d ∈ left.take b.rdx, d = 0) :
    ((b.num ++ left).take b.rdx).any (· ≠ 0) = false := by
  have zeros : ∀ d ∈ (b.num ++ left).take b.rdx, d = 0 := by
    by_cases none : b.num = []
    · have nothing : n = 0 := by
        rw [BcNum.value_nil none] at whole
        exact_mod_cast whole.symm
      rw [none, List.nil_append]
      exact zero nothing
    · rw [List.take_append_of_le_length (hb.rdx_le none)]
      exact (value_eq_zero (by decide) (hb.digits.sublist (List.take_sublist ..))).mp
        (whole_digits hb.digits whole).1
  rw [List.any_eq_false]
  intro d mem
  simpa using zeros d mem

/-- The loops compute the power exactly. -/
theorem loops_spec {a : BcNum} (ha : a.Clean) (size : a.len < 2 ^ 64) (nonzero : a.value ≠ 0)
    {pow : ℕ} (positive : pow ≠ 0) {β : Type} {f : BcNum → Except BcError β} {returns : β → Prop}
    (rest : ∀ c, PowerOf a pow c → Ends (f c) returns (powerTooLong a pow)) :
    Ends (do
      let (pow, powrdx, copy) ← squareLoop pow a.rdx a
      let c ← powerLoop (pow / 2) powrdx powrdx copy copy
      f c) returns (powerTooLong a pow) := by
  have fits := ha.rdx_le fun none => nonzero (BcNum.value_nil none)
  have first : PowerOf a 1 a :=
    ⟨Nat.one_ne_zero, ha, (Nat.mul_one _).symm, (pow_one _).symm, lt_of_le_of_lt fits size⟩
  have squares := squareLoop_spec ha nonzero pow first positive
  rw [Nat.one_mul] at squares
  refine squares.bind ?_
  rintro ⟨pow', powrdx, copy⟩ ⟨i, power, rdx, product, odd⟩
  dsimp only at power rdx product odd ⊢
  subst rdx
  have total : pow = i + 2 * (i * (pow' / 2)) := by
    have split : pow' = 2 * (pow' / 2) + 1 := by omega
    rw [← product]
    conv_lhs => rw [split]
    ring
  exact (powerLoop_spec ha nonzero (pow' / 2) power power total).bind rest

theorem zbcNumP_spec {a b : BcNum} (ha : a.Clean) (size : a.len < 2 ^ 64) (hb : b.Clean) {n : ℤ}
    (whole : b.value = n) (small : |n| < 2 ^ 64) {left : List BcDig}
    (zero : n = 0 → ∀ d ∈ left.take b.rdx, d = 0) (divides : n < 0 → a.value ≠ 0) (scale : ℕ)
    (c : BcNum) : Ends (zbcNumP left scale a b c) (Power a n scale) (powerTooLong a n.natAbs) := by
  unfold zbcNumP
  rw [whole_any hb whole zero, if_neg Bool.false_ne_true]
  by_cases none : b.num = []
  · have nothing : n = 0 := by
      rw [BcNum.value_nil none] at whole
      exact_mod_cast whole.symm
    rw [if_pos none, nothing]
    refine ⟨bcNumOne_clean, fun _ => ?_, fun negative => absurd negative (lt_irrefl 0)⟩
    have integer : (1 : ℚ) * 10 ^ 0 = ((1 : ℤ) : ℚ) := by norm_num
    rw [Int.toNat_zero, pow_zero, Nat.mul_zero, Nat.zero_min, truncated_of_integer integer]
    exact bcNumOne_value
  rw [if_neg none]
  have some : n ≠ 0 := by
    rintro rfl
    rw [Int.cast_zero, b.value_eq_zero_iff] at whole
    exact hb.nonzero none whole
  have negative : b.neg = true ↔ n < 0 := by
    rw [hb.neg_iff none, whole]
    exact Int.cast_lt_zero
  by_cases zeroA : a.num = []
  · have value : a.value = 0 := BcNum.value_nil zeroA
    rw [if_pos zeroA]
    refine ⟨bcNumSetToZero_clean _, fun _ => ?_, fun less => absurd value (divides less)⟩
    rw [value, zero_pow (by omega), truncated_zero]
    exact BcNum.value_nil rfl
  rw [if_neg zeroA]
  have nonzero : a.value ≠ 0 := fun none =>
    ha.nonzero zeroA (a.value_eq_zero_iff.mp none)
  by_cases one : b.one = true
  · have unit : |n| = 1 := by
      have rdx : b.rdx = 0 := by
        unfold BcNum.one at one
        rw [Bool.and_eq_true, beq_iff_eq, beq_iff_eq] at one
        exact one.2
      have absolute := b.abs_value hb.digits
      rw [whole, BcNum.Whole.of_one one, rdx, pow_zero, div_one] at absolute
      exact_mod_cast absolute
    have natAbs : n.natAbs = 1 := by
      rw [Int.abs_eq_natAbs] at unit
      exact_mod_cast unit
    rw [if_pos one]
    by_cases neg : b.neg = true
    · have less := negative.mp neg
      obtain ⟨r, inverts, clean, -, value⟩ := zbcNumInv_spec ha nonzero scale
      rw [neg, if_neg (by simp), inverts]
      refine ⟨clean, fun nonneg => absurd less (not_lt.mpr nonneg), fun _ => ?_⟩
      rw [value, natAbs, pow_one]
    · have more : n.toNat = 1 := by
        have := negative.not.mp neg
        omega
      rw [Bool.not_eq_true] at neg
      rw [neg, if_pos (by rfl)]
      refine ⟨ha, fun _ => ?_, fun less => absurd (negative.mpr less) (by rw [neg]; simp)⟩
      rw [more, pow_one, Nat.mul_one, min_eq_left (le_max_right ..)]
      exact (truncated_value a le_rfl).symm
  rw [if_neg one, zbcNumUlongAbs_spec hb.digits whole small, ok_bind]
  refine loops_spec ha size nonzero (Int.natAbs_ne_zero.mpr some) fun c power => ?_
  have cleanC := power.clean
  by_cases neg : b.neg = true
  · have less := negative.mp neg
    have nonzeroC : c.value ≠ 0 := by
      rw [power.value]
      exact pow_ne_zero _ nonzero
    obtain ⟨r, inverts, clean, rdx, value⟩ := zbcNumInv_spec cleanC nonzeroC scale
    obtain ⟨cleanR, valueR⟩ := finishPower_spec clean scale
    rw [neg, if_pos rfl, if_neg (by simp), inverts, ok_bind]
    refine ⟨cleanR, fun nonneg => absurd less (not_lt.mpr nonneg), fun _ => ?_⟩
    rw [valueR, truncated_value r rdx.le, value, power.value]
  · have more : n.toNat = n.natAbs := by
      have := negative.not.mp neg
      omega
    rw [Bool.not_eq_true] at neg
    have places : powerScale a n.natAbs scale = min (a.rdx * n.toNat) (max scale a.rdx) := by
      rw [more]
      exact powerScale_eq a scale (power.rdx ▸ power.size)
    obtain ⟨cleanR, valueR⟩ := finishPower_spec cleanC (powerScale a n.natAbs scale)
    rw [neg, if_neg Bool.false_ne_true, if_pos (by rfl), ok_bind]
    refine ⟨cleanR, fun _ => ?_, fun less => absurd (negative.mpr less) (by rw [neg]; simp)⟩
    rw [valueR, places, power.value, more]

/-- A power with a whole exponent is exact up to the truncation at the end, or the number is too
long. A zero exponent has to have zeros behind it in its array, and a zero basis an exponent that
is not negative. -/
theorem bc_power (mem : Ref → BcNum) {a b : Ref} (ha : (mem a).Clean) (size : (mem a).len < 2 ^ 64)
    (hb : (mem b).Clean) {n : ℤ} (whole : (mem b).value = n) (small : |n| < 2 ^ 64)
    {left : List BcDig} (zero : n = 0 → ∀ d ∈ left.take (mem b).rdx, d = 0)
    (divides : n < 0 → (mem a).value ≠ 0) (c : Ref) (scale : ℕ) :
    Ends (zbcNumPow left a b c scale mem) (Stored mem c (Power (mem a) n scale))
      (powerTooLong (mem a) n.natAbs) :=
  zbcNumBinary_spec fun c₀ => zbcNumP_spec ha size hb whole small zero divides scale c₀

theorem clean_two : (⟨[2], 0, false⟩ : BcNum).Clean := clean_digit ⟨by decide, by decide⟩

theorem value_two : (⟨[2], 0, false⟩ : BcNum).value = ((2 : ℤ) : ℚ) := by
  norm_num [BcNum.value, BcNum.magnitude, sign]

/-- 2 to the power of 2, in place of the exponent. -/
theorem bc_power_two :
    Ends (zbcNumPow [] 0 1 1 0 fun _ => ⟨[2], 0, false⟩)
      (Stored (fun _ => ⟨[2], 0, false⟩) 1 (Power ⟨[2], 0, false⟩ 2 0))
      (powerTooLong ⟨[2], 0, false⟩ (2 : ℤ).natAbs) :=
  bc_power (fun _ => ⟨[2], 0, false⟩) (a := 0) (b := 1) clean_two (by decide) clean_two value_two
    (by decide) (fun zero => absurd zero (by decide)) (fun less => absurd less (by decide)) 1 0

/-- 1 with as many decimals as a number may have digits. -/
def longOne : BcNum := ⟨List.replicate bcMaxNum 0 ++ [1], bcMaxNum, false⟩

theorem longOne_clean : longOne.Clean := by
  have magnitude : longOne.magnitude = 10 ^ bcMaxNum * 1 :=
    (value_zeros_append bcMaxNum [1]).trans (by rw [value_cons, value_nil, mul_zero, add_zero])
  refine ⟨⟨?_, .inr ?_, ?_, fun _ => rfl⟩, fun _ zero => ?_⟩
  · exact proper_append.mpr ⟨proper_zeros (by decide) _, bcNumOne_clean.digits⟩
  · show bcMaxNum ≤ (List.replicate bcMaxNum (0 : ℤ) ++ [1]).length
    rw [List.length_append, List.length_replicate]
    exact Nat.le_add_right _ _
  · intro low ends
    have same := (List.append_inj' ends rfl).2
    cases same
  · rw [magnitude, mul_one] at zero
    exact absurd zero (pow_ne_zero _ (by decide))

/-- Too many decimals are given up; 0 to the power of -1 is 0; and 1 to the power of 0.0 may be
refused for what the array holds. -/
theorem bc_power_exceptions :
    (¬∀ (a b : BcNum) (n : ℤ) (scale : ℕ), a.Clean → b.Clean → b.value = n → 0 < n →
      n < 2 ^ 64 → ∃ r, zbcNumP [] scale a b (bcNumSetToZero 0) = .ok r ∧ Power a n scale r) ∧
      zbcNumP [] 0 (bcNumSetToZero 0) ⟨[1], 0, true⟩ (bcNumSetToZero 0) = .ok (bcNumSetToZero 0) ∧
      zbcNumP [5] 0 bcNumOne (bcNumSetToZero 1) (bcNumSetToZero 0) = .error .notAnInteger := by
  refine ⟨fun returns => ?_, rfl, rfl⟩
  obtain ⟨r, returned, -⟩ := returns longOne ⟨[2], 0, false⟩ 2 0 longOne_clean clean_two value_two
    (by decide) (by decide)
  have some : longOne.num ≠ [] := List.append_ne_nil_of_right_ne_nil _ (List.cons_ne_nil 1 [])
  have len : longOne.len = bcMaxNum + 1 := by
    unfold BcNum.len longOne
    rw [List.length_append, List.length_replicate]
    rfl
  have rdx : longOne.rdx = bcMaxNum := rfl
  have fails (scale : ℕ) :
      zbcNumM scale longOne longOne (bcNumSetToZero 0) = .error .tooLong := by
    refine zbcNumM_tooLong some scale _ rfl ?_ ?_
    · rw [rdx, bcMaxNum]
      omega
    · rw [rdx, len]
      omega
  have squares : squareLoop 2 longOne.rdx longOne = .error .tooLong := by
    rw [squareLoop, if_neg two_ne_zero, if_neg (by decide)]
    dsimp only
    rw [fails]
    rfl
  unfold zbcNumP at returned
  rw [whole_any clean_two value_two fun zero => absurd zero (by decide), if_neg Bool.false_ne_true,
    if_neg (List.cons_ne_nil 2 []), if_neg some, if_neg (by decide),
    zbcNumUlongAbs_spec clean_two.digits value_two (by decide), ok_bind] at returned
  dsimp only [Int.natAbs] at returned
  rw [squares] at returned
  cases returned

end Busybox.Bc
