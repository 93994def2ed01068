import Busybox.Bc.Quotients

/-!
# Remainders

`zbc_num_r` divides, multiplies the truncated quotient with the divisor and subtracts. The scale of
the product is chosen so that nothing of it is cut off.
-/

namespace Busybox.Bc

open Lib.Digits
open Fallible

/-- `zbc_num_r`, with what the place of the quotient `c` has held: the quotient and the
remainder. -/
def zbcNumR (a b c : BcNum) (scale ts : ℕ) : Except BcError (BcNum × BcNum) :=
  if b.num = [] then .error .divideByZero
  -- only the remainder is set
  else if a.num = [] then .ok (c, bcNumSetToZero ts)
  else do
    let c ← zbcNumD scale a b c
    let scale := if scale ≠ 0 then ts else scale
    let temp ← zbcNumM scale c b (bcNumSetToZero 0)
    let d ← numSub a temp
    let d := if d.rdx < ts ∧ d.num ≠ [] then bcNumExtend d (ts - d.rdx) else d
    return (c, { bcNumRetireMul d ts a.neg b.neg with neg := d.neg })

/-- `ts` -/
def remainderScale (a b : BcNum) (scale : ℕ) : ℕ := max (scale + b.rdx) a.rdx

/-- `zbc_num_rem` -/
def zbcNumRem (scale : ℕ) : BcNumBinaryOp := fun a b _ => do
  let (_, c) ← zbcNumR a b (bcNumSetToZero 0) scale (remainderScale a b scale)
  return c

/-- `zbc_num_mod` -/
def zbcNumMod (a b c : Ref) (scale : ℕ) : (Ref → BcNum) → Except BcError (Ref → BcNum) :=
  zbcNumBinary a b c (zbcNumRem scale)

/-- `zbc_num_divmod`. The place of the quotient is that of `a`, and gets a new array, or it is
another one that has held a number. -/
def zbcNumDivmod (a b : BcNum) (c : Option BcNum) (scale : ℕ) :
    Except BcError (BcNum × BcNum) :=
  zbcNumR a b (c.getD (bcNumSetToZero 0)) scale (remainderScale a b scale)

/-! ## Truncation -/

theorem truncated_of_integer {x : ℚ} {places : ℕ} {n : ℤ} (integer : x * 10 ^ places = n) :
    truncated x places = x := by
  have back : (n : ℚ) / 10 ^ places = x := by
    rw [← integer]
    field_simp
  unfold truncated
  rw [integer, Int.floor_intCast, Int.ceil_intCast, ite_self, back]

theorem truncated_zero (places : ℕ) : truncated 0 places = 0 :=
  truncated_of_integer (by rw [zero_mul, Int.cast_zero])

/-- What is cut off is less than a unit of the last decimal. -/
theorem abs_sub_truncated (x : ℚ) (places : ℕ) : |x - truncated x places| < 1 / 10 ^ places := by
  have scaled : (x - truncated x places) * 10 ^ places =
      x * 10 ^ places - (if 0 ≤ x then (⌊x * 10 ^ places⌋ : ℚ) else ⌈x * 10 ^ places⌉) := by
    unfold truncated
    field_simp
  have positive : (0 : ℚ) < 10 ^ places := by positivity
  have less : |(x - truncated x places) * 10 ^ places| < 1 := by
    rw [scaled, abs_lt]
    split
    · have := Int.floor_le (x * 10 ^ places)
      have := Int.lt_floor_add_one (x * 10 ^ places)
      constructor <;> linarith
    · have := Int.le_ceil (x * 10 ^ places)
      have := Int.ceil_lt_add_one (x * 10 ^ places)
      constructor <;> linarith
  rw [abs_mul, abs_of_pos positive] at less
  exact (lt_div_iff₀ positive).mpr less

/-- It has the sign of the whole. -/
theorem sub_truncated_mul (x : ℚ) (places : ℕ) : 0 ≤ (x - truncated x places) * x := by
  have positive : (0 : ℚ) < 10 ^ places := by positivity
  unfold truncated
  split
  · next nonneg =>
    have below : (⌊x * 10 ^ places⌋ : ℚ) / 10 ^ places ≤ x :=
      (div_le_iff₀ positive).mpr (Int.floor_le _)
    exact mul_nonneg (sub_nonneg.mpr below) nonneg
  · next negative =>
    have above : x ≤ (⌈x * 10 ^ places⌉ : ℚ) / 10 ^ places :=
      (le_div_iff₀ positive).mpr (Int.le_ceil _)
    exact mul_nonneg_of_nonpos_of_nonpos (sub_nonpos.mpr above) (not_le.mp negative).le

theorem abs_truncated_le (x : ℚ) (places : ℕ) : |truncated x places| ≤ |x| := by
  have cut := sub_truncated_mul x places
  have same : 0 ≤ truncated x places * x := by
    unfold truncated
    split
    · next nonneg =>
      have floor : 0 ≤ ⌊x * 10 ^ places⌋ := Int.floor_nonneg.mpr (by positivity)
      have : (0 : ℚ) ≤ ⌊x * 10 ^ places⌋ := by exact_mod_cast floor
      positivity
    · next negative =>
      have scaled : x * 10 ^ places ≤ 0 :=
        mul_nonpos_of_nonpos_of_nonneg (not_le.mp negative).le (by positivity)
      have ceil : (⌈x * 10 ^ places⌉ : ℚ) ≤ 0 := by exact_mod_cast Int.ceil_nonpos.mpr scaled
      exact mul_nonneg_of_nonpos_of_nonpos (div_nonpos_of_nonpos_of_nonneg ceil (by positivity))
        (not_le.mp negative).le
  rcases lt_trichotomy x 0 with negative | rfl | positive
  · have := nonpos_of_mul_nonneg_left same negative
    have := nonpos_of_mul_nonneg_left cut negative
    rw [abs_of_nonpos ‹_›, abs_of_neg negative]
    linarith
  · rw [truncated_zero]
  · have := nonneg_of_mul_nonneg_left same positive
    have := nonneg_of_mul_nonneg_left cut positive
    rw [abs_of_nonneg ‹_›, abs_of_pos positive]
    linarith

theorem abs_sign (neg : Bool) : |sign neg| = 1 := by
  cases neg <;> simp [sign]

theorem BcNum.abs_value (n : BcNum) (digits : Proper 10 n.num) :
    |n.value| = n.magnitude / 10 ^ n.rdx := by
  have nonneg : (0 : ℚ) ≤ n.magnitude := by exact_mod_cast n.magnitude_nonneg digits
  unfold value
  rw [mul_div_assoc, abs_mul, abs_sign, one_mul, abs_of_nonneg (by positivity)]

/-! ## The product and the difference -/

/-- The product of a quotient and the divisor is not cut off. -/
theorem truncated_product (a b : BcNum) :
    truncated (a.value * b.value) (a.rdx + b.rdx) = a.value * b.value := by
  have integer : a.value * b.value * 10 ^ (a.rdx + b.rdx) =
      ((bcNumNeg a.magnitude a.neg * bcNumNeg b.magnitude b.neg : ℤ) : ℚ) := by
    unfold BcNum.value bcNumNeg sign
    rw [pow_add]
    cases a.neg <;> cases b.neg <;> simp <;> field_simp
  exact truncated_of_integer integer

/-- The numbers that only differ in zeros behind the point. -/
structure Longer (d d' : BcNum) : Prop where
  digits : Proper 10 d'.num
  long : d'.magnitude = 0 ∨ d'.rdx ≤ d'.len
  neg : d'.neg = d.neg
  places : (d'.magnitude : ℚ) / 10 ^ d'.rdx = d.magnitude / 10 ^ d.rdx

theorem extended_longer {d : BcNum} (valid : d.Valid) (ts : ℕ) :
    Longer d (if d.rdx < ts ∧ d.num ≠ [] then bcNumExtend d (ts - d.rdx) else d) := by
  split
  · next extends_ =>
    refine ⟨bcNumExtend_digits valid.digits _, .inr ?_, rfl, ?_⟩
    · rw [bcNumExtend_len]
      exact Nat.add_le_add_right (valid.long.resolve_left extends_.2) _
    · rw [bcNumExtend_magnitude]
      show _ / (10 : ℚ) ^ (d.rdx + (ts - d.rdx)) = _
      rw [pow_add]
      push_cast
      field_simp
  · refine ⟨valid.digits, valid.long.imp_left fun none => ?_, rfl, rfl⟩
    unfold BcNum.magnitude
    rw [none, value_nil]

/-- What is left when a remainder gets its decimals and its sign. -/
theorem restored_spec {d d' : BcNum} (valid : d.Valid) (longer : Longer d d') {ts : ℕ}
    (fits : d.rdx ≤ ts) (neg1 neg2 : Bool) :
    ({ bcNumRetireMul d' ts neg1 neg2 with neg := d'.neg } : BcNum).Clean ∧
      (bcNumRetireMul d' ts neg1 neg2).rdx = ts ∧
      ({ bcNumRetireMul d' ts neg1 neg2 with neg := d'.neg } : BcNum).value = d.value := by
  have retired := bcNumRetireMul_spec longer.digits longer.long ts neg1 neg2
  have magnitude : (bcNumRetireMul d' ts neg1 neg2).magnitude =
      d.magnitude * 10 ^ (ts - d.rdx) := by
    have power : (10 : ℚ) ^ ts = 10 ^ d.rdx * 10 ^ (ts - d.rdx) := by
      rw [← pow_add, Nat.add_sub_cancel' fits]
    have integer : (d.magnitude : ℚ) / 10 ^ d.rdx * 10 ^ ts =
        ((d.magnitude * 10 ^ (ts - d.rdx) : ℤ) : ℚ) := by
      rw [power]
      push_cast
      field_simp
    rw [retired.magnitude, longer.places, integer, Int.floor_intCast]
  generalize bcNumRetireMul d' ts neg1 neg2 = r at retired magnitude
  refine ⟨⟨⟨retired.clean.digits, retired.clean.long, retired.clean.top, fun zero => ?_⟩,
    retired.clean.nonzero⟩, retired.rdx, ?_⟩
  · have none : d.magnitude = 0 := by
      have product : d.magnitude * 10 ^ (ts - d.rdx) = 0 := magnitude.symm.trans zero
      exact (mul_eq_zero.mp product).resolve_right (by positivity)
    exact longer.neg.trans (valid.zero none)
  · have same : BcNum.magnitude { r with neg := d'.neg } = r.magnitude := rfl
    unfold BcNum.value
    rw [same, magnitude, retired.rdx, longer.neg, ← Nat.add_sub_cancel' fits, pow_add]
    push_cast
    rw [Nat.add_sub_cancel_left]
    field_simp

theorem BcNum.value_eq_zero_iff (n : BcNum) : n.value = 0 ↔ n.magnitude = 0 := by
  constructor
  · intro zero
    unfold value sign at zero
    have product : n.magnitude = (0 : ℚ) := by
      cases neg : n.neg
      · simpa [neg] using zero
      · simpa [neg] using zero
    exact_mod_cast product
  · exact value_of_zero

/-- The difference of the dividend, which may be a zero that is written out, and the product. -/
theorem numSub_valid {a temp : BcNum} (ha : a.Valid) (ht : temp.Clean)
    (zero : a.magnitude = 0 → temp.value = 0) :
    ∃ d, numSub a temp = .ok d ∧ d.Valid ∧ d.value = a.value - temp.value ∧
      d.rdx ≤ max a.rdx temp.rdx := by
  by_cases clean : a.num ≠ [] → a.magnitude ≠ 0
  · obtain ⟨d, subtracts, combined⟩ := numSub_spec ⟨ha, clean⟩ ht
    exact ⟨d, subtracts, combined.clean.toValid,
      combined.value.trans (sub_eq_add_neg ..).symm, combined.rdx⟩
  · obtain ⟨some, none⟩ : a.num ≠ [] ∧ a.magnitude = 0 := by
      rw [Classical.not_imp, not_not] at clean
      exact clean
    have nothing : temp.num = [] := ht.num_eq_nil.mpr (temp.value_eq_zero_iff.mp (zero none))
    have signs : a.neg = temp.neg := by
      rw [ha.zero none, ht.zero (ht.num_eq_nil.mp nothing)]
    refine ⟨a, ?_, ha, by rw [zero none, sub_zero], le_max_left ..⟩
    unfold numSub zbcNumS
    rw [if_pos signs, if_neg some, if_pos nothing]

/-! ## The remainder -/

/-- The remainder of `a` and `b` for a quotient of `scale` decimals. -/
structure Remainder (a b : BcNum) (scale : ℕ) (r : BcNum) : Prop where
  clean : r.Clean
  rdx : r.rdx = max (scale + b.rdx) a.rdx
  exact : r.value = a.value - truncated (a.value / b.value) scale * b.value
  small : |r.value| < |b.value| / 10 ^ scale
  sign : r.value = 0 ∨ (r.value < 0 ↔ a.value < 0)

theorem Remainder.of_exact {a b r : BcNum} {scale : ℕ} (nonzero : b.value ≠ 0) (clean : r.Clean)
    (rdx : r.rdx = max (scale + b.rdx) a.rdx)
    (exact : r.value = a.value - truncated (a.value / b.value) scale * b.value) :
    Remainder a b scale r := by
  have rest : r.value = (a.value / b.value - truncated (a.value / b.value) scale) * b.value := by
    rw [exact, sub_mul, div_mul_cancel₀ _ nonzero]
  refine ⟨clean, rdx, exact, ?_, ?_⟩
  · have cut := abs_sub_truncated (a.value / b.value) scale
    calc |r.value| = |a.value / b.value - truncated (a.value / b.value) scale| * |b.value| := by
          rw [rest, abs_mul]
      _ < 1 / 10 ^ scale * |b.value| := mul_lt_mul_of_pos_right cut (abs_pos.mpr nonzero)
      _ = |b.value| / 10 ^ scale := by ring
  · have same := sub_truncated_mul (a.value / b.value) scale
    have product : 0 ≤ r.value * a.value := by
      have scaled := mul_nonneg same (mul_self_nonneg b.value)
      calc (0 : ℚ) ≤ _ := scaled
        _ = r.value * a.value := by
          rw [rest]
          field_simp
    by_cases zero : r.value = 0
    · exact .inl zero
    · have some : a.value ≠ 0 := by
        intro none
        refine zero ?_
        rw [rest, none, zero_div, truncated_zero, sub_zero, zero_mul]
      exact .inr (neg_iff_neg_of_mul_pos
        (lt_of_le_of_ne product (mul_ne_zero zero some).symm))

/-- The operations can give up on numbers that are too long. -/
def remainderTooLong (a b : BcNum) (scale : ℕ) (e : BcError) : Prop :=
  e = .tooLong ∧ bcMaxNum < a.len + b.len + 3 * (scale + b.rdx)

theorem BcNum.Valid.clean_of_nonzero {n : BcNum} (valid : n.Valid) (nonzero : n.value ≠ 0) :
    n.Clean :=
  ⟨valid, fun _ zero => nonzero (value_of_zero zero)⟩

/-- A truncated quotient has no more digits than its operands. -/
theorem quotient_len {a b q : BcNum} (ha : a.Valid) (hb : b.Clean) (nonzero : b.value ≠ 0)
    {scale : ℕ} (clean : q.Clean) (rdx : q.rdx = scale)
    (value : q.value = truncated (a.value / b.value) scale) :
    q.len ≤ a.len + b.rdx + scale := by
  by_cases decimals : q.len ≤ q.rdx
  · omega
  have large := clean.pow_le (not_le.mp decimals)
  have nonnegA : (0 : ℚ) ≤ a.magnitude := by
    exact_mod_cast BcNum.magnitude_nonneg ha.digits
  have one : (1 : ℚ) ≤ b.magnitude := by
    have := hb.magnitude_pos fun none => nonzero (BcNum.value_nil none)
    exact_mod_cast this
  have quotient : (a.magnitude : ℚ) / 10 ^ a.rdx / (b.magnitude / 10 ^ b.rdx) ≤
      a.magnitude * 10 ^ b.rdx := by
    rw [div_div_eq_mul_div]
    have less : (a.magnitude : ℚ) / 10 ^ a.rdx ≤ a.magnitude :=
      div_le_self nonnegA (one_le_pow₀ (by norm_num))
    calc (a.magnitude : ℚ) / 10 ^ a.rdx * 10 ^ b.rdx / b.magnitude
        ≤ (a.magnitude : ℚ) / 10 ^ a.rdx * 10 ^ b.rdx := div_le_self (by positivity) one
      _ ≤ a.magnitude * 10 ^ b.rdx := mul_le_mul_of_nonneg_right less (by positivity)
  have magnitude : (q.magnitude : ℚ) / 10 ^ scale ≤ a.magnitude * 10 ^ b.rdx := by
    have absolute : |q.value| = q.magnitude / 10 ^ scale := by
      rw [q.abs_value clean.digits, rdx]
    rw [← absolute, value]
    refine (abs_truncated_le _ _).trans ?_
    rw [value_div, abs_mul, abs_sign, one_mul, abs_of_nonneg (by positivity)]
    exact quotient
  have below : q.magnitude < 10 ^ (a.len + b.rdx + scale) := by
    have short : (a.magnitude : ℚ) < 10 ^ a.len := by
      exact_mod_cast BcNum.magnitude_lt ha.digits
    have scaled : (q.magnitude : ℚ) < 10 ^ (a.len + b.rdx + scale) := by
      rw [div_le_iff₀ (by positivity)] at magnitude
      rw [pow_add, pow_add]
      refine magnitude.trans_lt ?_
      exact mul_lt_mul_of_pos_right (mul_lt_mul_of_pos_right short (by positivity)) (by positivity)
    exact_mod_cast scaled
  have less := (pow_lt_pow_iff_right₀ (by decide : (1 : ℤ) < 10)).mp (large.trans_lt below)
  omega

theorem zbcNumR_spec {a b : BcNum} (ha : a.Valid) (hb : b.Valid) (nonzero : b.value ≠ 0)
    (c : BcNum) (scale : ℕ) :
    Ends (zbcNumR a b c scale (remainderScale a b scale))
      (fun result => Remainder a b scale result.2 ∧
        ((a.value ≠ 0 ∨ c.value = 0) → result.1.value = truncated (a.value / b.value) scale) ∧
        (a.num ≠ [] → result.1.Clean ∧ result.1.rdx = scale))
      (remainderTooLong a b scale) := by
  have cleanB := hb.clean_of_nonzero nonzero
  have nonempty : b.num ≠ [] := fun none => nonzero (BcNum.value_nil none)
  unfold zbcNumR
  rw [if_neg nonempty]
  by_cases none : a.num = []
  · have zero : a.value = 0 := BcNum.value_nil none
    have quotient : truncated (a.value / b.value) scale = 0 := by
      rw [zero, zero_div, truncated_zero]
    rw [if_pos none]
    refine ⟨.of_exact nonzero (bcNumSetToZero_clean _) rfl ?_, fun kept => ?_, absurd none⟩
    · rw [quotient, zero, zero_mul, sub_zero]
      exact BcNum.value_nil rfl
    · rw [quotient]
      exact kept.resolve_left fun some => some zero
  · rw [if_neg none]
    obtain ⟨q, divides, cleanQ, rdxQ, valueQ⟩ := zbcNumD_spec ha cleanB nonzero scale c
    have places : productScale q b (if scale ≠ 0 then remainderScale a b scale else scale) =
        scale + b.rdx := by
      unfold productScale remainderScale
      rw [rdxQ]
      split
      · omega
      · omega
    rw [divides, ok_bind]
    have multiplies := zbcNumM_spec cleanQ cleanB
      (if scale ≠ 0 then remainderScale a b scale else scale) (bcNumSetToZero 0)
    rw [places] at multiplies
    refine (multiplies.imp (fun _ => id) ?_).bind ?_
    · rintro e ⟨error, long⟩
      have := quotient_len ha cleanB nonzero cleanQ rdxQ valueQ
      exact ⟨error, by omega⟩
    · rintro temp ⟨cleanT, rdxT, valueT⟩
      rw [← rdxQ, truncated_product] at valueT
      have zero (magnitude : a.magnitude = 0) : temp.value = 0 := by
        rw [valueT, valueQ, BcNum.value_of_zero magnitude, zero_div, truncated_zero, zero_mul]
      obtain ⟨d, subtracts, valid, value, fits⟩ := numSub_valid ha cleanT zero
      rw [subtracts, ok_bind]
      have longer := extended_longer valid (remainderScale a b scale)
      have fits' : d.rdx ≤ remainderScale a b scale := by
        unfold remainderScale
        omega
      obtain ⟨clean, rdx, restored⟩ := restored_spec valid longer fits' a.neg b.neg
      refine ⟨.of_exact nonzero clean rdx ?_, fun _ => valueQ, fun _ => ⟨cleanQ, rdxQ⟩⟩
      rw [restored, value, valueT, valueQ]

/-- For valid numbers and a divisor that is not zero the remainder is exact, in the size and with
the sign that it should have. The quotient is set to the truncated one where the dividend is not
zero or the place of the quotient holds zero. Only numbers that are too long are given up. -/
theorem bc_remainder (mem : Ref → BcNum) {a b : Ref} (ha : (mem a).Valid) (hb : (mem b).Valid)
    (nonzero : (mem b).value ≠ 0) (c : Ref) (scale : ℕ) :
    Ends (zbcNumMod a b c scale mem) (Stored mem c (Remainder (mem a) (mem b) scale))
      (remainderTooLong (mem a) (mem b) scale) ∧
    ∀ place : Option BcNum, Ends (zbcNumDivmod (mem a) (mem b) place scale)
      (fun result => Remainder (mem a) (mem b) scale result.2 ∧
        ((mem a).value ≠ 0 ∨ (place.getD (bcNumSetToZero 0)).value = 0 →
          result.1.value = truncated ((mem a).value / (mem b).value) scale))
      (remainderTooLong (mem a) (mem b) scale) := by
  constructor
  · refine zbcNumBinary_spec fun _ => ?_
    refine (zbcNumR_spec ha hb nonzero (bcNumSetToZero 0) scale).bind ?_
    rintro ⟨_, r⟩ ⟨remainder, -⟩
    exact remainder
  · intro place
    exact (zbcNumR_spec ha hb nonzero _ scale).imp (fun _ ⟨remainder, quotient, _⟩ =>
      ⟨remainder, quotient⟩) fun _ => id

theorem clean_digit {d : ℤ} (digit : 0 < d ∧ d < 10) : (⟨[d], 0, false⟩ : BcNum).Clean := by
  refine ⟨⟨?_, .inr (Nat.zero_le _), ?_, fun _ => rfl⟩, fun _ => ?_⟩
  · intro e mem
    rw [List.mem_singleton.mp mem]
    exact ⟨digit.1.le, digit.2⟩
  · intro low ends
    have last := congrArg List.getLast? ends
    rw [List.getLast?_append] at last
    cases last
    exact absurd digit.1 (lt_irrefl 0)
  · show d + 10 * 0 ≠ 0
    omega

/-- 7 modulo 2 in place. -/
theorem bc_remainder_seven :
    Ends (zbcNumMod 0 1 0 0 fun ref => if ref = 0 then ⟨[7], 0, false⟩ else ⟨[2], 0, false⟩)
      (Stored (fun ref => if ref = 0 then ⟨[7], 0, false⟩ else ⟨[2], 0, false⟩) 0
        (Remainder ⟨[7], 0, false⟩ ⟨[2], 0, false⟩ 0))
      (remainderTooLong ⟨[7], 0, false⟩ ⟨[2], 0, false⟩ 0) :=
  (bc_remainder (fun ref => if ref = 0 then ⟨[7], 0, false⟩ else ⟨[2], 0, false⟩) (a := 0) (b := 1)
    (clean_digit ⟨by decide, by decide⟩).toValid (clean_digit ⟨by decide, by decide⟩).toValid
    (by norm_num [BcNum.value, BcNum.magnitude, sign]) 0 0).1

/-- The first factor may be too long for the decimals of the product. -/
theorem zbcNumM_tooLong {a b : BcNum} (nonempty : a.num ≠ []) (scale : ℕ) (c : BcNum) {m : ℕ}
    (places : max (max a.rdx b.rdx) (productScale a b scale) = m) (positive : m ≠ 0)
    (long : bcMaxNum < m + a.len) : zbcNumM scale a b c = .error .tooLong := by
  have shifts : zbcNumShift { a with neg := false }
      (max (max a.rdx b.rdx) (productScale a b scale)) = .error .tooLong := by
    unfold zbcNumShift
    rw [places, if_neg (not_or.mpr ⟨positive, nonempty⟩)]
    exact if_pos long
  exact Fallible.bind_eq_error.mpr (.inl shifts)

/-- A quotient with too many decimals is given up. -/
theorem bc_remainder_too_long :
    ¬∀ (a b : BcNum) (place : Option BcNum) (scale : ℕ), a.Valid → b.Valid → b.value ≠ 0 →
      ∃ q r, zbcNumDivmod a b place scale = .ok (q, r) ∧
        q.value = truncated (a.value / b.value) scale ∧ Remainder a b scale r := by
  intro returns
  have one := clean_digit (d := 1) ⟨by decide, by decide⟩
  have two := clean_digit (d := 2) ⟨by decide, by decide⟩
  have nonzero : (⟨[2], 0, false⟩ : BcNum).value ≠ 0 := by
    norm_num [BcNum.value, BcNum.magnitude, sign]
  obtain ⟨q, r, returned, -, -⟩ :=
    returns ⟨[1], 0, false⟩ ⟨[2], 0, false⟩ none bcMaxNum one.toValid two.toValid nonzero
  obtain ⟨q', divides, cleanQ, rdxQ, value⟩ :=
    zbcNumD_spec one.toValid two nonzero bcMaxNum (bcNumSetToZero 0)
  have half : (⟨[1], 0, false⟩ : BcNum).value / (⟨[2], 0, false⟩ : BcNum).value = 1 / 2 := by
    norm_num [BcNum.value, BcNum.magnitude, sign]
  rw [half] at value
  have some : q'.num ≠ [] := by
    intro none
    have cut := abs_sub_truncated (1 / 2) bcMaxNum
    rw [← value, BcNum.value_nil none, sub_zero, abs_of_pos (by norm_num)] at cut
    have power : (10 : ℚ) ^ 1 ≤ 10 ^ bcMaxNum := pow_le_pow_right₀ (by norm_num) (by decide)
    have less : (1 : ℚ) / 10 ^ bcMaxNum ≤ 1 / 10 ^ 1 :=
      one_div_le_one_div_of_le (by norm_num) power
    linarith
  have long : bcMaxNum < bcMaxNum + q'.len :=
    Nat.lt_add_of_pos_right (List.length_pos_of_ne_nil some)
  have fails (scale : ℕ) :
      zbcNumM scale q' ⟨[2], 0, false⟩ (bcNumSetToZero 0) = .error .tooLong := by
    refine zbcNumM_tooLong some scale _ ?_ (by decide) long
    unfold productScale
    rw [rdxQ]
    show max (max bcMaxNum 0) (min (bcMaxNum + 0) (max (max scale bcMaxNum) 0)) = bcMaxNum
    omega
  have nonempty : (⟨[2], 0, false⟩ : BcNum).num ≠ [] := List.cons_ne_nil _ _
  have nonempty' : (⟨[1], 0, false⟩ : BcNum).num ≠ [] := List.cons_ne_nil _ _
  rw [zbcNumDivmod, zbcNumR, if_neg nonempty, if_neg nonempty'] at returned
  rw [show (none : Option BcNum).getD (bcNumSetToZero 0) = bcNumSetToZero 0 from rfl, divides,
    ok_bind] at returned
  obtain ⟨temp, multiplies, -⟩ := bind_eq_ok.mp returned
  rw [fails] at multiplies
  cases multiplies

end Busybox.Bc
