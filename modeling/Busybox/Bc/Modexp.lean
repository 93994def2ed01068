import Busybox.Bc.Powers

/-!
# Modular powers

`zdc_num_modexp` takes the exponent apart by two, and reduces after each product.
-/

namespace Busybox.Bc

open Lib.Digits
open Fallible

/-- `two` -/
def bcNumTwo : BcNum := ⟨[2], 0, false⟩

/-- The loop of `zdc_num_modexp` while digits of the exponent are left. -/
def modexpLoop (c : BcNum) (fuel : ℕ) (exp base d : BcNum) : Except BcError BcNum :=
  if exp.num = [] then .ok d
  else match fuel with
    | 0 => .error .overrun
    | fuel + 1 => do
      let (exp, temp) ← zbcNumDivmod exp bcNumTwo none 0
      let d ← (if temp.one then do
        let temp ← zbcNumM 0 d base temp
        zbcNumRem 0 temp c d
        else .ok d)
      let temp ← zbcNumM 0 base base temp
      let base ← zbcNumRem 0 temp c base
      modexpLoop c fuel exp base d

/-- `zdc_num_modexp` -/
def zdcNumModexp (a b c : BcNum) : Except BcError BcNum :=
  if c.num = [] then .error .divideByZero
  else if a.rdx ≠ 0 ∨ b.rdx ≠ 0 ∨ c.rdx ≠ 0 then .error .notAnInteger
  else if b.neg then .error .negativeNumber
  else do
    let base ← zbcNumRem 0 a c (bcNumSetToZero 0)
    modexpLoop c (4 * b.len) b base bcNumOne

/-! ## Remainders of powers -/

theorem abs_tmod_lt (a : ℤ) {b : ℤ} (nonzero : b ≠ 0) : |a.tmod b| < |b| := by
  rw [Int.abs_eq_natAbs, Int.abs_eq_natAbs, Int.natAbs_tmod]
  exact_mod_cast Nat.mod_lt _ (Int.natAbs_pos.mpr nonzero)

theorem mul_tmod_tmod (a b n : ℤ) : (a * b.tmod n).tmod n = (a * b).tmod n := by
  rw [Int.mul_tmod, Int.tmod_tmod, ← Int.mul_tmod]

theorem tmod_mul_tmod (a b n : ℤ) : (a.tmod n * b).tmod n = (a * b).tmod n := by
  rw [Int.mul_tmod, Int.tmod_tmod, ← Int.mul_tmod]

theorem tmod_pow_tmod (a n : ℤ) (k : ℕ) : (a.tmod n ^ k).tmod n = (a ^ k).tmod n := by
  induction k with
  | zero => rw [pow_zero, pow_zero]
  | succ k ih => rw [pow_succ, mul_tmod_tmod, Int.mul_tmod, ih, ← Int.mul_tmod, ← pow_succ]

/-- One pass of square and multiply. -/
theorem modexp_step (D B C : ℤ) {E : ℕ} (nonzero : E ≠ 0) :
    (if E / 2 = 0 then (if E % 2 = 1 then (D * B).tmod C else D)
      else ((if E % 2 = 1 then (D * B).tmod C else D) * (B * B).tmod C ^ (E / 2)).tmod C) =
      (D * B ^ E).tmod C := by
  have split : B ^ E = B ^ (E % 2) * (B * B) ^ (E / 2) := by
    rw [← pow_two, ← pow_mul, ← pow_add, Nat.mod_add_div]
  by_cases last : E / 2 = 0
  · have one : E = 1 := by omega
    subst one
    rw [if_pos last, if_pos (by decide), pow_one]
  · rw [if_neg last, split]
    by_cases odd : E % 2 = 1
    · rw [if_pos odd, tmod_mul_tmod, odd, pow_one, ← mul_assoc, ← mul_tmod_tmod, tmod_pow_tmod,
        mul_tmod_tmod]
    · have even : E % 2 = 0 := by omega
      rw [if_neg odd, even, pow_zero, one_mul, ← mul_tmod_tmod, tmod_pow_tmod, mul_tmod_tmod]

/-! ## Integers -/

/-- A number without decimals, and its value. -/
structure BcNum.Integer (n : BcNum) (v : ℤ) : Prop where
  clean : n.Clean
  rdx : n.rdx = 0
  value : n.value = v

namespace BcNum.Integer

variable {a b c n : BcNum} {v w C : ℤ}

theorem magnitude_eq (integer : n.Integer v) : n.magnitude = |v| := by
  have absolute := n.abs_value integer.clean.digits
  rw [integer.value, integer.rdx, pow_zero, div_one] at absolute
  exact_mod_cast absolute.symm

theorem num_eq_nil (integer : n.Integer v) : n.num = [] ↔ v = 0 := by
  rw [integer.clean.num_eq_nil, integer.magnitude_eq, abs_eq_zero]

theorem lt_pow (integer : n.Integer v) : |v| < 10 ^ n.len := by
  rw [← integer.magnitude_eq]
  exact BcNum.magnitude_lt integer.clean.digits

theorem len_le (integer : n.Integer v) {k : ℕ} (small : |v| < 10 ^ k) : n.len ≤ k := by
  by_contra longer
  have large := integer.clean.pow_le (by rw [integer.rdx]; omega)
  rw [integer.magnitude_eq] at large
  have less := (pow_lt_pow_iff_right₀ (by decide : (1 : ℤ) < 10)).mp (large.trans_lt small)
  omega

theorem one_iff (integer : n.Integer v) (nonneg : 0 ≤ v) : n.one = true ↔ v = 1 := by
  unfold BcNum.one
  rw [Bool.and_eq_true, beq_iff_eq, beq_iff_eq]
  constructor
  · rintro ⟨digits, -⟩
    have magnitude := integer.magnitude_eq
    unfold BcNum.magnitude at magnitude
    rw [digits, value_cons, Lib.Digits.value_nil, abs_of_nonneg nonneg] at magnitude
    omega
  · rintro rfl
    refine ⟨?_, integer.rdx⟩
    have magnitude := integer.magnitude_eq
    have short : n.len ≤ 1 := integer.len_le (by norm_num)
    have some : n.num ≠ [] := fun none => absurd (integer.num_eq_nil.mp none) (by decide)
    obtain ⟨d, split⟩ := List.length_eq_one_iff.mp
      (Nat.le_antisymm short (List.length_pos_of_ne_nil some))
    unfold BcNum.magnitude at magnitude
    rw [split, value_cons, Lib.Digits.value_nil, abs_one, mul_zero, add_zero] at magnitude
    rw [split, magnitude]

/-- A product of integers can only be given up when it is too long. -/
theorem mul (ha : a.Integer v) (hb : b.Integer w) (c₀ : BcNum) :
    Ends (zbcNumM 0 a b c₀) (fun r => r.Integer (v * w))
      (fun e => e = .tooLong ∧ bcMaxNum < a.len + b.len) := by
  have places : productScale a b 0 = 0 := by
    unfold productScale
    rw [ha.rdx, hb.rdx]
    rfl
  have multiplies := zbcNumM_spec ha.clean hb.clean 0 c₀
  rw [places] at multiplies
  refine multiplies.imp (fun r => ?_) fun _ => id
  rintro ⟨clean, rdx, value⟩
  refine ⟨clean, rdx, ?_⟩
  have integer : a.value * b.value * 10 ^ 0 = ((v * w : ℤ) : ℚ) := by
    rw [ha.value, hb.value]
    push_cast
    ring
  rw [value, truncated_of_integer integer, ha.value, hb.value]
  push_cast
  rfl

/-- A truncated integer is one. -/
theorem truncated_integer (x : ℚ) : ∃ t : ℤ, truncated x 0 = t := by
  unfold truncated
  split
  · exact ⟨_, by rw [pow_zero, div_one]⟩
  · exact ⟨_, by rw [pow_zero, div_one]⟩

/-- A remainder of integers, and the quotient. -/
theorem of_remainder {r : BcNum} (ha : a.Integer v) (hb : b.Integer w) (nonzero : w ≠ 0)
    (remainder : Remainder a b 0 r) :
    r.Integer (v.tmod w) ∧ truncated (a.value / b.value) 0 = v.tdiv w := by
  obtain ⟨t, isInteger⟩ := truncated_integer (a.value / b.value)
  have exact := remainder.exact
  have small := remainder.small
  have signs := remainder.sign
  rw [isInteger, ha.value, hb.value] at exact
  rw [pow_zero, div_one, hb.value] at small
  rw [ha.value] at signs
  have whole : r.value = ((v - t * w : ℤ) : ℚ) := by
    rw [exact]
    push_cast
    rfl
  rw [whole] at small signs
  have less : |v - t * w| < |w| := by exact_mod_cast small
  have same : v - t * w = 0 ∨ (v - t * w < 0 ↔ v < 0) := by exact_mod_cast signs
  have both : v.tdiv w = t ∧ v.tmod w = v - t * w := by
    have sum : v - t * w + w * t = v := by ring
    generalize v - t * w = rest at *
    rw [abs_lt, Int.abs_eq_natAbs] at less
    rcases le_total 0 v with nonneg | nonpos
    · exact (Int.tdiv_tmod_unique nonneg nonzero).mpr ⟨sum, by omega, less.2⟩
    · refine (Int.tdiv_tmod_unique' nonpos nonzero).mpr ⟨sum, less.1, ?_⟩
      rcases same with none | same
      · exact none.le
      · rcases eq_or_lt_of_le nonpos with rfl | negative
        · have zero : rest + w * t = 0 := sum
          by_contra positive
          have multiple : |w * t| < |w| := by
            rw [show w * t = -rest by linarith, abs_neg, abs_lt, Int.abs_eq_natAbs]
            exact less
          rw [abs_mul] at multiple
          have none : t = 0 := by
            by_contra some
            have := Int.one_le_abs some
            nlinarith [abs_nonneg w]
          rw [none, mul_zero] at zero
          omega
        · exact (same.mpr negative).le
  refine ⟨⟨remainder.clean, ?_, by rw [both.2]; exact whole⟩, by rw [isInteger, both.1]⟩
  rw [remainder.rdx, ha.rdx, hb.rdx]
  rfl

theorem remainderTooLong_eq (hb : b.Integer w) {e : BcError}
    (long : remainderTooLong a b 0 e) : e = .tooLong ∧ bcMaxNum < a.len + b.len := by
  obtain ⟨error, long⟩ := long
  rw [hb.rdx] at long
  exact ⟨error, long⟩

theorem rem (ha : a.Integer v) (hb : b.Integer w) (nonzero : w ≠ 0) (c₀ : BcNum) :
    Ends (zbcNumRem 0 a b c₀) (fun r => r.Integer (v.tmod w))
      (fun e => e = .tooLong ∧ bcMaxNum < a.len + b.len) := by
  have some : b.value ≠ 0 := by
    rw [hb.value]
    exact_mod_cast nonzero
  have divides := zbcNumR_spec ha.clean.toValid hb.clean.toValid some (bcNumSetToZero 0) 0
  refine (divides.imp (fun _ => id) fun e => hb.remainderTooLong_eq).bind ?_
  rintro ⟨q, r⟩ ⟨remainder, -⟩
  exact (ha.of_remainder hb nonzero remainder).1

theorem divmod (ha : a.Integer v) (hb : b.Integer w) (nonzero : w ≠ 0) (some : v ≠ 0) :
    Ends (zbcNumDivmod a b none 0)
      (fun result => result.1.Integer (v.tdiv w) ∧ result.2.Integer (v.tmod w))
      (fun e => e = .tooLong ∧ bcMaxNum < a.len + b.len) := by
  have someA : a.value ≠ 0 := by
    rw [ha.value]
    exact_mod_cast some
  have someB : b.value ≠ 0 := by
    rw [hb.value]
    exact_mod_cast nonzero
  refine (zbcNumR_spec ha.clean.toValid hb.clean.toValid someB (bcNumSetToZero 0) 0).imp ?_
    fun e => hb.remainderTooLong_eq
  rintro ⟨q, r⟩ ⟨remainder, quotient, cleanQ⟩
  obtain ⟨integer, isQuotient⟩ := ha.of_remainder hb nonzero remainder
  obtain ⟨clean, rdx⟩ := cleanQ fun none => some (ha.num_eq_nil.mp none)
  exact ⟨⟨clean, rdx, (quotient (.inl someA)).trans isQuotient⟩, integer⟩

theorem one : bcNumOne.Integer 1 := ⟨bcNumOne_clean, rfl, by exact_mod_cast bcNumOne_value⟩

theorem two : bcNumTwo.Integer 2 := ⟨clean_two, rfl, value_two⟩

/-- A remainder has no more digits than the divisor. -/
theorem len_tmod (reduced : n.Integer (v.tmod C)) (hc : c.Integer C) (nonzero : C ≠ 0) :
    n.len ≤ c.len :=
  reduced.len_le ((abs_tmod_lt v nonzero).trans hc.lt_pow)

theorem len_pos (integer : n.Integer v) (nonzero : v ≠ 0) : 1 ≤ n.len :=
  List.length_pos_of_ne_nil fun none => nonzero (integer.num_eq_nil.mp none)

end BcNum.Integer

/-! ## The loop -/

/-- What is too long for the loop: a product, a number to reduce, or the exponent. -/
def ModexpTooLong (c b : BcNum) (e : BcError) : Prop :=
  e = .tooLong ∧ (bcMaxNum < 3 * c.len ∨ bcMaxNum < b.len + 1)

/-- Multiply and reduce. -/
theorem mulRem_spec {a b c : BcNum} {v w C : ℤ} (hc : c.Integer C) (nonzero : C ≠ 0)
    (ha : a.Integer v) (hb : b.Integer w) (shortA : a.len ≤ c.len) (shortB : b.len ≤ c.len)
    (exp c₀ d₀ : BcNum) :
    Ends (zbcNumM 0 a b c₀ >>= fun temp => zbcNumRem 0 temp c d₀)
      (fun r => r.Integer ((v * w).tmod C)) (ModexpTooLong c exp) := by
  refine ((ha.mul hb c₀).imp (fun temp isProduct => (⟨isProduct, ?_⟩ :
    temp.Integer (v * w) ∧ temp.len ≤ 2 * c.len)) ?_).bind ?_
  · refine isProduct.len_le ?_
    rw [abs_mul, two_mul, pow_add]
    have lessA : |v| < 10 ^ c.len := ha.lt_pow.trans_le (pow_le_pow_right₀ (by decide) shortA)
    have lessB : |w| < 10 ^ c.len := hb.lt_pow.trans_le (pow_le_pow_right₀ (by decide) shortB)
    exact mul_lt_mul'' lessA lessB (abs_nonneg v) (abs_nonneg w)
  · rintro e ⟨rfl, long⟩
    exact ⟨rfl, .inl (by omega)⟩
  · rintro temp ⟨isProduct, short⟩
    refine (isProduct.rem hc nonzero d₀).imp (fun _ => id) ?_
    rintro e ⟨rfl, long⟩
    exact ⟨rfl, .inl (by omega)⟩

/-- The loop multiplies with the power and reduces, unless the exponent is zero. -/
theorem modexpLoop_spec {c : BcNum} {C : ℤ} (hc : c.Integer C) (nonzero : C ≠ 0) (b : BcNum)
    (fuel : ℕ) {exp base d : BcNum} {E : ℕ} {B D : ℤ} (hexp : exp.Integer E)
    (hbase : base.Integer B) (hd : d.Integer D) (small : E < 2 ^ fuel) (shortE : exp.len ≤ b.len)
    (shortB : base.len ≤ c.len) (shortD : d.len ≤ c.len) :
    Ends (modexpLoop c fuel exp base d)
      (fun r => r.Integer (if E = 0 then D else (D * B ^ E).tmod C)) (ModexpTooLong c b) := by
  induction fuel generalizing exp base d E B D with
  | zero =>
    have none : E = 0 := by omega
    subst none
    rw [modexpLoop, if_pos (hexp.num_eq_nil.mpr rfl)]
    exact hd
  | succ fuel ih =>
    rw [modexpLoop]
    split_ifs with none zero zero
    · exact hd
    · exact absurd (by exact_mod_cast hexp.num_eq_nil.mp none) zero
    · exact absurd (hexp.num_eq_nil.mpr (by exact_mod_cast zero)) none
    · have someE : (E : ℤ) ≠ 0 := by exact_mod_cast zero
      refine ((hexp.divmod .two two_ne_zero someE).imp (fun _ => id) ?_).bind ?_
      · rintro e ⟨rfl, long⟩
        exact ⟨rfl, .inr (long.trans_le (Nat.add_le_add_right shortE 1))⟩
      rintro ⟨half, bit⟩ ⟨isHalf, isBit⟩
      have halves : ((E : ℤ).tdiv 2) = (E / 2 : ℕ) := rfl
      have parity : ((E : ℤ).tmod 2) = (E % 2 : ℕ) := rfl
      rw [halves] at isHalf
      rw [parity] at isBit
      have shortHalf : half.len ≤ b.len := by
        refine le_trans (isHalf.len_le ?_) shortE
        refine lt_of_le_of_lt ?_ hexp.lt_pow
        rw [Nat.abs_cast, Nat.abs_cast]
        exact_mod_cast Nat.div_le_self E 2
      have multiplied : Ends (if bit.one then zbcNumM 0 d base bit >>= fun temp =>
          zbcNumRem 0 temp c d else .ok d)
          (fun d => d.Integer (if E % 2 = 1 then (D * B).tmod C else D) ∧ d.len ≤ c.len)
          (ModexpTooLong c b) := by
        have isOne : bit.one = true ↔ E % 2 = 1 := by
          rw [isBit.one_iff (Int.natCast_nonneg _)]
          norm_cast
        by_cases odd : E % 2 = 1
        · rw [if_pos (isOne.mpr odd), if_pos odd]
          exact (mulRem_spec hc nonzero hd hbase shortD shortB b bit d).imp
            (fun d reduced => ⟨reduced, reduced.len_tmod hc nonzero⟩) fun _ => id
        · rw [if_neg (isOne.not.mpr odd), if_neg odd]
          exact ⟨hd, shortD⟩
      refine multiplied.bind ?_
      rintro d' ⟨hd', shortD'⟩
      rw [← bind_assoc]
      refine (mulRem_spec hc nonzero hbase hbase shortB shortB b bit base).bind ?_
      intro base' hbase'
      refine (ih isHalf hbase' hd' (by omega) shortHalf (hbase'.len_tmod hc nonzero) shortD').imp
        (fun r isPower => ?_) fun _ => id
      rwa [modexp_step D B C zero] at isPower

/-! ## The operation -/

/-- What is too long for the operation, the first remainder included. -/
def zdcModexpTooLong (a b c : BcNum) (e : BcError) : Prop :=
  (e = .tooLong ∧ bcMaxNum < a.len + c.len) ∨ ModexpTooLong c b e

/-- The power is reduced, but for the zeroth one. -/
theorem zdcNumModexp_spec {a b c : BcNum} {A C : ℤ} {E : ℕ} (ha : a.Integer A)
    (hb : b.Integer E) (hc : c.Integer C) (nonzero : C ≠ 0) :
    Ends (zdcNumModexp a b c) (fun d => d.Integer (if E = 0 then 1 else (A ^ E).tmod C))
      (zdcModexpTooLong a b c) := by
  have positive : b.neg = false := by
    by_cases none : b.num = []
    · exact hb.clean.zero (hb.clean.num_eq_nil.mp none)
    · rw [Bool.eq_false_iff]
      intro neg
      have below := (hb.clean.neg_iff none).mp neg
      rw [hb.value] at below
      exact absurd (Int.cast_lt_zero.mp below) (Int.natCast_nonneg E).not_gt
  have small : E < 2 ^ (4 * b.len) := by
    have less : (E : ℤ) < 10 ^ b.len := by
      have := hb.lt_pow
      rwa [Nat.abs_cast] at this
    have less : E < 10 ^ b.len := by exact_mod_cast less
    refine less.trans_le ?_
    rw [pow_mul]
    exact Nat.pow_le_pow_left (by decide) _
  unfold zdcNumModexp
  rw [if_neg (hc.num_eq_nil.not.mpr nonzero), ha.rdx, hb.rdx, hc.rdx, if_neg (by simp),
    positive, if_neg Bool.false_ne_true]
  refine ((ha.rem hc nonzero (bcNumSetToZero 0)).imp (fun _ => id) fun e => .inl).bind ?_
  intro base hbase
  have one : bcNumOne.len ≤ c.len := hc.len_pos nonzero
  refine (modexpLoop_spec hc nonzero b _ hb hbase .one small le_rfl (hbase.len_tmod hc nonzero)
    one).imp (fun d isPower => ?_) fun e => .inr
  rwa [one_mul, tmod_pow_tmod] at isPower

/-- The operation returns the remainder of the power, unless the exponent is zero and the divisor
is 1 or -1. -/
theorem modexp_remainder {a b c : BcNum} {A C : ℤ} {E : ℕ} (ha : a.Integer A)
    (hb : b.Integer E) (hc : c.Integer C) (nonzero : C ≠ 0) :
    Ends (zdcNumModexp a b c) (fun d => d.Integer ((A ^ E).tmod C) ↔ E ≠ 0 ∨ |C| ≠ 1)
      (zdcModexpTooLong a b c) := by
  refine (zdcNumModexp_spec ha hb hc nonzero).imp (fun d isPower => ?_) fun _ => id
  by_cases zero : E = 0
  · subst zero
    rw [if_pos rfl] at isPower
    rw [pow_zero]
    constructor
    · intro reduced
      have same : ((1 : ℤ).tmod C : ℚ) = (1 : ℤ) := reduced.value.symm.trans isPower.value
      have same : (1 : ℤ).tmod C = 1 := by exact_mod_cast same
      refine .inr fun unit => ?_
      have less := abs_tmod_lt 1 nonzero
      rw [same, unit, abs_one] at less
      exact lt_irrefl 1 less
    · rintro (absurdity | large)
      · exact absurd rfl absurdity
      · have more : 1 < C.natAbs := by
          rw [Int.abs_eq_natAbs] at large
          omega
        have same : (1 : ℤ).tmod C = 1 := by
          have below : (1 : ℤ) < C.natAbs := by exact_mod_cast more
          exact ((Int.tdiv_tmod_unique (q := 0) zero_le_one nonzero).mpr
            ⟨by ring, by decide, below⟩).2
        rwa [same]
  · rw [if_neg zero] at isPower
    exact iff_of_true isPower (.inl zero)

theorem integer_digit {d : BcDig} (digit : 0 < d ∧ d < 10) :
    (⟨[d], 0, false⟩ : BcNum).Integer d := by
  refine ⟨clean_digit digit, rfl, ?_⟩
  norm_num [BcNum.value, BcNum.magnitude, sign]

theorem zdcModexpTooLong_short {a b c : BcNum} (short : a.len ≤ 1 ∧ b.len ≤ 1 ∧ c.len ≤ 1)
    (e : BcError) : ¬zdcModexpTooLong a b c e := by
  unfold zdcModexpTooLong ModexpTooLong bcMaxNum
  omega

/-- 5 to the power of 2 is 4, modulo 7. -/
theorem modexp_remainder_two :
    ∃ d, zdcNumModexp ⟨[5], 0, false⟩ bcNumTwo ⟨[7], 0, false⟩ = .ok d ∧ d.Integer 4 := by
  have five : (⟨[5], 0, false⟩ : BcNum).Integer 5 := integer_digit ⟨by decide, by decide⟩
  have seven : (⟨[7], 0, false⟩ : BcNum).Integer 7 := integer_digit ⟨by decide, by decide⟩
  have two : bcNumTwo.Integer (2 : ℕ) := .two
  have short : bcNumTwo.len ≤ 1 := le_rfl
  -- a variable keeps the loop from being run
  generalize bcNumTwo = exp at two short ⊢
  obtain ⟨d, returned, reduced⟩ := Ends.returned (modexp_remainder five two seven (by decide))
    (zdcModexpTooLong_short ⟨by decide, short, by decide⟩)
  exact ⟨d, returned, reduced.mpr (.inl two_ne_zero)⟩

/-- 5 to the power of 0 is 1, also modulo 1. -/
theorem modexp_unreduced :
    ∃ d, zdcNumModexp ⟨[5], 0, false⟩ (bcNumSetToZero 0) bcNumOne = .ok d ∧
      d.Integer 1 ∧ ¬d.Integer (((5 : ℤ) ^ 0).tmod 1) := by
  have five : (⟨[5], 0, false⟩ : BcNum).Integer 5 := integer_digit ⟨by decide, by decide⟩
  have zero : (bcNumSetToZero 0).Integer (0 : ℕ) := by
    refine ⟨bcNumSetToZero_clean 0, rfl, ?_⟩
    rw [Nat.cast_zero, Int.cast_zero]
    exact BcNum.value_nil rfl
  obtain ⟨d, returned, one⟩ := Ends.returned (zdcNumModexp_spec five zero .one one_ne_zero)
    (zdcModexpTooLong_short ⟨by decide, by decide, by decide⟩)
  refine ⟨d, returned, one, fun reduced => ?_⟩
  have none := reduced.num_eq_nil.mpr (Int.tmod_one _)
  exact one_ne_zero (one.num_eq_nil.mp none)

end Busybox.Bc
