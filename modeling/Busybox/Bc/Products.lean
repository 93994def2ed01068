import Busybox.Bc.Sums

/-!
# Products

`zbc_num_k` multiplies integers, by rows or by parts; `zbc_num_m` makes integers of its
operands before, and decimals of the product afterwards.
-/

namespace Busybox.Bc

open Lib.Digits
open Fallible

/-! ## By rows -/

/-- One row: what the array holds after the digit `e` at place `i`. -/
theorem row_spec {a c : List ℤ} {e : ℤ} {i : ℕ} (properA : Proper 10 a) (proper : Proper 10 c)
    (digit : 0 ≤ e ∧ e < 10) (fits : i + a.length < c.length)
    (zeros : ∀ d ∈ c.drop (i + a.length), d = 0) :
    let row := carry 10 0 (List.zipWith (fun x d => x + d * e) (c.drop i) a)
    let c' := c.take i ++ row.1 ++ (c.drop (i + a.length)).modifyHead (· + row.2)
    c'.length = c.length ∧ Proper 10 c' ∧
      Lib.Digits.value 10 c' = Lib.Digits.value 10 c + 10 ^ i * (Lib.Digits.value 10 a * e) ∧
      c'.drop (i + a.length) = row.2 :: c.drop (i + a.length + 1) := by
  -- the array in parts
  obtain ⟨low, mid, rest, whole, lowLength, midLength⟩ : ∃ low mid rest,
      c = low ++ (mid ++ 0 :: rest) ∧ low.length = i ∧ mid.length = a.length := by
    have first : c.drop (i + a.length) = 0 :: c.drop (i + a.length + 1) := by
      rw [List.drop_eq_getElem_cons fits] at zeros ⊢
      rw [zeros _ (List.mem_cons_self ..)]
    refine ⟨c.take i, (c.drop i).take a.length, c.drop (i + a.length + 1), ?_,
      List.length_take_of_le (by omega), ?_⟩
    · rw [← first, ← List.drop_drop, List.take_append_drop, List.take_append_drop]
    · rw [List.length_take, List.length_drop]
      omega
  subst whole
  have dropLow : (low ++ (mid ++ 0 :: rest)).drop i = mid ++ 0 :: rest := by
    rw [← lowLength, List.drop_left]
  have dropMid : (low ++ (mid ++ 0 :: rest)).drop (i + a.length) = 0 :: rest := by
    rw [← List.drop_drop, dropLow, ← midLength, List.drop_left]
  have dropRest : (low ++ (mid ++ 0 :: rest)).drop (i + a.length + 1) = rest := by
    rw [← List.drop_drop, dropMid]
    rfl
  have takeLow : (low ++ (mid ++ 0 :: rest)).take i = low := by
    rw [← lowLength, List.take_left]
  have sums : List.zipWith (fun x d => x + d * e) (mid ++ 0 :: rest) a
      = List.zipWith (fun x d => x + d * e) mid a := by
    conv_lhs => rw [← List.append_nil a]
    rw [List.zipWith_append midLength, List.zipWith_nil_right, List.append_nil]
  rw [dropLow, dropMid, dropRest, takeLow, sums]
  obtain ⟨properLow, properMid, properRest⟩ :=
    (proper_append.mp proper).imp_right proper_append.mp
  have small : ∀ s ∈ List.zipWith (fun x d => x + d * e) mid a,
      0 ≤ s ∧ s + 9 < 10 * (9 + 1) := by
    apply forall_mem_zipWith
    intro x mem d mem'
    have x9 := properMid x mem
    have d9 := properA d mem'
    have product : d * e ≤ 9 * 9 := mul_le_mul (by omega) (by omega) digit.1 (by decide)
    have nonneg : 0 ≤ d * e := mul_nonneg d9.1 digit.1
    show 0 ≤ x + d * e ∧ x + d * e + 9 < 10 * (9 + 1)
    omega
  have carried := value_carry 10 0 (List.zipWith (fun x d => x + d * e) mid a)
  have digits := carry_proper 10 (by decide) 0
    (List.zipWith (fun x d => x + d * e) mid a)
  have out := carry_le 10 (by decide) small ⟨le_refl 0, by decide⟩
  have rowLength := carry_length 10 0 (List.zipWith (fun x d => x + d * e) mid a)
  rw [value_zipWith e (fun x d => rfl) midLength] at carried
  rw [List.length_zipWith, midLength, min_self] at carried rowLength
  generalize carry 10 0 (List.zipWith (fun x d => x + d * e) mid a) = row at *
  obtain ⟨ds, o⟩ := row
  dsimp only at carried digits out rowLength ⊢
  rw [List.modifyHead_cons, zero_add]
  refine ⟨?_, ?_, ?_, ?_⟩
  · simp only [List.length_append, List.length_cons, rowLength, midLength]
    omega
  · refine proper_append.mpr ⟨proper_append.mpr ⟨properLow, digits⟩, proper_cons.mpr ⟨?_, ?_⟩⟩
    · omega
    · exact (proper_cons.mp properRest).2
  · simp only [value_append, value_cons, List.length_append, rowLength, midLength, lowLength,
      pow_add]
    linear_combination 10 ^ i * carried
  · have place : i + a.length = (low ++ ds).length := by
      rw [List.length_append, lowLength, rowLength]
    rw [place, List.drop_left]

/-- The rows from place `i` on. -/
theorem longMultiply_spec {a : List ℤ} (properA : Proper 10 a) {b : List ℤ} (properB : Proper 10 b)
    (i len : ℕ) {c : List ℤ} (proper : Proper 10 c) (fits : i + a.length + b.length < c.length)
    (zeros : ∀ d ∈ c.drop (i + a.length), d = 0) (zeros' : ∀ d ∈ c.drop len, d = 0)
    (short : len ≤ i + a.length) :
    let product := longMultiply a b i c len
    Proper 10 product.1 ∧
      Lib.Digits.value 10 product.1
        = Lib.Digits.value 10 c + 10 ^ i * (Lib.Digits.value 10 a * Lib.Digits.value 10 b) ∧
      (∀ d ∈ product.1.drop product.2, d = 0) ∧
      (b ≠ [] → product.2 + 1 = i + a.length + b.length ∨
        ∃ d rest, product.2 = i + a.length + b.length ∧ d ≠ 0 ∧
          product.1.drop (i + a.length + b.length - 1) = d :: rest) := by
  induction b generalizing i len c with
  | nil =>
    refine ⟨proper, ?_, zeros', fun nonempty => absurd rfl nonempty⟩
    rw [value_nil, mul_zero, mul_zero, add_zero]
    rfl
  | cons e b ih =>
    obtain ⟨digit, properB'⟩ := proper_cons.mp properB
    rw [List.length_cons] at fits
    obtain ⟨length, proper', value, top⟩ := row_spec properA proper digit (by omega) zeros
    unfold longMultiply
    generalize carry 10 0 (List.zipWith (fun x d => x + d * e) (c.drop i) a) = row at *
    obtain ⟨row, out⟩ := row
    dsimp only at length proper' value top ⊢
    generalize c.take i ++ row ++ (c.drop (i + a.length)).modifyHead (· + out) = c' at *
    have above : c'.drop (i + 1 + a.length) = c.drop (i + a.length + 1) := by
      rw [show i + 1 + a.length = i + a.length + 1 by omega, ← List.drop_drop, top]
      rfl
    have zerosAbove : ∀ d ∈ c'.drop (i + 1 + a.length), d = 0 := by
      intro d mem
      rw [above, ← List.drop_drop] at mem
      exact zeros d (List.mem_of_mem_drop mem)
    have zerosLen : ∀ d ∈ c'.drop (max len (i + a.length + if out ≠ 0 then 1 else 0)), d = 0 := by
      split
      · rw [max_eq_right (by omega), show i + a.length + 1 = i + 1 + a.length by omega]
        exact zerosAbove
      · next none =>
        rw [max_eq_right (by omega), Nat.add_zero, top]
        refine List.forall_mem_cons.mpr ⟨not_not.mp none, ?_⟩
        rw [← above]
        exact zerosAbove
    have shortLen : max len (i + a.length + if out ≠ 0 then 1 else 0) ≤ i + 1 + a.length := by
      split <;> omega
    obtain ⟨properAll, total, zerosAll, last⟩ := ih properB' _ _ proper' (by omega) zerosAbove zerosLen
      shortLen
    refine ⟨properAll, ?_, zerosAll, fun _ => ?_⟩
    · rw [total, value, value_cons, pow_succ]
      ring
    · cases b with
      | nil =>
        -- the last row decides
        rw [List.length_cons, List.length_nil]
        show max len (i + a.length + if out ≠ 0 then 1 else 0) + 1 = _ ∨ _
        split
        · next some =>
          right
          refine ⟨out, c.drop (i + a.length + 1), ?_, some, top⟩
          show max len (i + a.length + 1) = _
          omega
        · left
          omega
      | cons e' b' =>
        rw [List.length_cons (a := e)]
        rcases last (List.cons_ne_nil e' b') with low | ⟨d, rest, high, nonzero, ends⟩
        · left
          omega
        · right
          refine ⟨d, rest, by omega, nonzero, ?_⟩
          rw [← ends]
          congr 1
          omega

/-! ## Integers -/

/-- A clean number without sign and decimals. -/
structure BcNum.Whole (n : BcNum) : Prop where
  clean : n.Clean
  neg : n.neg = false
  rdx : n.rdx = 0

theorem BcNum.Whole.value {n : BcNum} (whole : n.Whole) : n.value = n.magnitude := by
  unfold BcNum.value sign
  rw [whole.neg, whole.rdx, if_neg Bool.false_ne_true, one_mul, pow_zero, div_one]

theorem bcNumSetToZero_whole : (bcNumSetToZero 0).Whole :=
  ⟨bcNumSetToZero_clean 0, rfl, rfl⟩

/-- An integer has no more digits than it needs. -/
theorem BcNum.Whole.len_le {n : BcNum} (whole : n.Whole) {k : ℕ} (small : n.magnitude < 10 ^ k) :
    n.len ≤ k := by
  by_contra longer
  have large := whole.clean.pow_le (by rw [whole.rdx]; omega)
  have power : (10 : ℤ) ^ k ≤ 10 ^ (n.len - 1) := pow_le_pow_right₀ (by decide) (by omega)
  linarith

/-- So it still does when digits are put below. -/
theorem BcNum.Whole.len_add_le {n : BcNum} (whole : n.Whole) (nonempty : n.num ≠ []) {k m : ℕ}
    (small : n.magnitude * 10 ^ k < 10 ^ m) : n.len + k ≤ m := by
  have positive : 0 < n.len := List.length_pos_of_ne_nil nonempty
  have large := whole.clean.pow_le (by rw [whole.rdx]; exact positive)
  have power : (10 : ℤ) ^ (n.len - 1) * 10 ^ k ≤ n.magnitude * 10 ^ k :=
    mul_le_mul_of_nonneg_right large (by positivity)
  rw [← pow_add] at power
  have less := (pow_lt_pow_iff_right₀ (by decide : (1 : ℤ) < 10)).mp (power.trans_lt small)
  omega

/-- A sum or difference that is an integer is one in this form. -/
theorem Combined.whole {a b c : BcNum} {sub : Bool} (combined : Combined a b sub c) (ha : a.Whole)
    (hb : b.Whole) {m : ℤ} (nonneg : 0 ≤ m)
    (total : (m : ℚ) = a.value + if sub then -b.value else b.value) :
    c.Whole ∧ c.magnitude = m := by
  have rdx : c.rdx = 0 := by
    have := combined.rdx
    rw [ha.rdx, hb.rdx] at this
    omega
  have value := combined.value.trans total.symm
  unfold BcNum.value at value
  rw [rdx, pow_zero, div_one] at value
  have nonneg' := BcNum.magnitude_nonneg combined.clean.digits
  cases neg : c.neg with
  | false =>
    refine ⟨⟨combined.clean, neg, rdx⟩, ?_⟩
    rw [neg] at value
    unfold sign at value
    rw [if_neg Bool.false_ne_true, one_mul] at value
    exact_mod_cast value
  | true =>
    exfalso
    rw [neg] at value
    unfold sign at value
    rw [if_pos rfl, neg_one_mul] at value
    have negated : - c.magnitude = m := by exact_mod_cast value
    have zero := combined.clean.zero (by omega)
    rw [zero] at neg
    cases neg

theorem numAdd_whole {a b : BcNum} (ha : a.Whole) (hb : b.Whole) :
    ∃ c, numAdd a b = .ok c ∧ c.Whole ∧ c.magnitude = a.magnitude + b.magnitude := by
  obtain ⟨c, adds, combined⟩ := numAdd_spec ha.clean hb.clean
  refine ⟨c, adds, combined.whole ha hb (add_nonneg (BcNum.magnitude_nonneg ha.clean.digits)
    (BcNum.magnitude_nonneg hb.clean.digits)) ?_⟩
  rw [ha.value, hb.value, if_neg Bool.false_ne_true, Int.cast_add]

theorem numSub_whole {a b : BcNum} (ha : a.Whole) (hb : b.Whole)
    (smaller : b.magnitude ≤ a.magnitude) :
    ∃ c, numSub a b = .ok c ∧ c.Whole ∧ c.magnitude = a.magnitude - b.magnitude := by
  obtain ⟨c, subtracts, combined⟩ := numSub_spec ha.clean hb.clean
  refine ⟨c, subtracts, combined.whole ha hb (sub_nonneg.mpr smaller) ?_⟩
  rw [ha.value, hb.value, if_pos rfl, Int.cast_sub, sub_eq_add_neg]

/-- `zbc_num_shift` multiplies by a power of ten, or gives up. -/
theorem zbcNumShift_spec {n : BcNum} (clean : n.Clean) (neg : n.neg = false) {places : ℕ}
    (enough : n.rdx ≤ places) :
    Ends (zbcNumShift n places)
      (fun c => c.Clean ∧ c.neg = false ∧ (c.num = [] ∨ c.rdx = 0) ∧ (n.rdx = 0 → c.rdx = 0) ∧
        c.magnitude = n.magnitude * 10 ^ (places - n.rdx))
      (fun e => e = .tooLong ∧ n.num ≠ [] ∧ bcMaxNum < places + n.len) := by
  unfold zbcNumShift
  split
  · next same =>
    refine ⟨clean, neg, ?_, id, ?_⟩
    · rcases same with none | none
      · exact .inr (by omega)
      · exact .inl none
    · rcases same with none | none
      · rw [none, Nat.zero_sub, pow_zero, mul_one]
      · rw [clean.num_eq_nil.mp none, zero_mul]
  · next differ =>
    split
    · next long => exact ⟨rfl, fun none => differ (.inr none), long⟩
    · -- the point moves behind all digits
      obtain ⟨shifted, whole, digits, rdx, signless, magnitude⟩ : ∃ shifted : BcNum,
          (if places ≤ n.rdx then { n with rdx := n.rdx - places }
            else { bcNumExtend n (places - n.rdx) with rdx := 0 }) = shifted ∧
          Proper 10 shifted.num ∧ shifted.rdx = 0 ∧ shifted.neg = false ∧
          shifted.magnitude = n.magnitude * 10 ^ (places - n.rdx) := by
        by_cases all : places ≤ n.rdx
        · refine ⟨_, if_pos all, clean.digits, ?_, neg, ?_⟩
          · show n.rdx - places = 0
            omega
          · rw [Nat.sub_eq_zero_of_le all, pow_zero, mul_one]
            rfl
        · exact ⟨_, if_neg all, bcNumExtend_digits clean.digits _, rfl, neg,
            bcNumExtend_magnitude n _⟩
      rw [whole]
      have cleaned := bcNumClean_spec digits (.inr (by rw [rdx]; exact Nat.zero_le _))
      refine ⟨cleaned.clean, ?_, .inr (cleaned.rdx.trans rdx), fun _ => cleaned.rdx.trans rdx,
        cleaned.magnitude.trans magnitude⟩
      by_cases zero : (bcNumClean shifted).magnitude = 0
      · exact cleaned.clean.zero zero
      · rw [cleaned.neg zero, signless]

/-- The same for integers, with the length of the result in sight. -/
theorem zbcNumShift_whole {n : BcNum} (whole : n.Whole) (places : ℕ) {m : ℕ}
    (small : n.magnitude * 10 ^ places < 10 ^ m) :
    Ends (zbcNumShift n places) (fun c => c.Whole ∧ c.magnitude = n.magnitude * 10 ^ places)
      (fun e => e = .tooLong ∧ bcMaxNum < m) := by
  refine (zbcNumShift_spec whole.clean whole.neg (by rw [whole.rdx]; exact Nat.zero_le _)).imp ?_ ?_
  · rintro c ⟨clean, neg, -, rdx, magnitude⟩
    rw [whole.rdx, Nat.sub_zero] at magnitude
    exact ⟨⟨clean, neg, rdx whole.rdx⟩, magnitude⟩
  · rintro e ⟨error, nonempty, long⟩
    have := whole.len_add_le nonempty small
    exact ⟨error, by omega⟩

theorem bcNumClean_whole {n : BcNum} (digits : Proper 10 n.num) (neg : n.neg = false)
    (rdx : n.rdx = 0) : (bcNumClean n).Whole ∧ (bcNumClean n).magnitude = n.magnitude := by
  have cleaned := bcNumClean_spec digits (.inr (by rw [rdx]; exact Nat.zero_le _))
  refine ⟨⟨cleaned.clean, ?_, cleaned.rdx.trans rdx⟩, cleaned.magnitude⟩
  by_cases zero : (bcNumClean n).magnitude = 0
  · exact cleaned.clean.zero zero
  · rw [cleaned.neg zero, neg]

/-- `bc_num_split` divides with remainder. -/
theorem bcNumSplit_spec {n : BcNum} (whole : n.Whole) (idx : ℕ) :
    ∃ l h, bcNumSplit n idx = (l, h) ∧ l.Whole ∧ h.Whole ∧ l.magnitude < 10 ^ idx ∧
      n.magnitude = l.magnitude + 10 ^ idx * h.magnitude := by
  unfold bcNumSplit
  by_cases longer : idx < n.len
  · rw [if_pos longer]
    obtain ⟨wholeL, magnitudeL⟩ := bcNumClean_whole (n := ⟨n.num.take idx, 0, false⟩)
      (whole.clean.digits.sublist (List.take_sublist ..)) rfl rfl
    obtain ⟨wholeH, magnitudeH⟩ := bcNumClean_whole (n := ⟨n.num.drop idx, 0, false⟩)
      (whole.clean.digits.sublist (List.drop_sublist ..)) rfl rfl
    refine ⟨_, _, rfl, wholeL, wholeH, ?_, ?_⟩
    · have below := BcNum.magnitude_lt (n := ⟨n.num.take idx, 0, false⟩)
        (whole.clean.digits.sublist (List.take_sublist ..))
      unfold BcNum.len at below longer
      rw [List.length_take_of_le longer.le] at below
      rw [magnitudeL]
      exact below
    · rw [magnitudeL, magnitudeH]
      exact value_take_drop idx n.num longer.le
  · rw [if_neg longer]
    obtain ⟨wholeL, magnitudeL⟩ := bcNumClean_whole whole.clean.digits whole.neg whole.rdx
    obtain ⟨wholeH, magnitudeH⟩ := bcNumClean_whole (n := bcNumSetToZero 0) proper_nil rfl rfl
    refine ⟨_, _, rfl, wholeL, wholeH, ?_, ?_⟩
    · rw [magnitudeL]
      exact (BcNum.magnitude_lt whole.clean.digits).trans_le
        (pow_le_pow_right₀ (by decide) (not_lt.mp longer))
    · rw [magnitudeL, magnitudeH]
      show n.magnitude = n.magnitude + 10 ^ idx * 0
      rw [mul_zero, add_zero]

/-! ## The product of integers -/

/-- What `zbc_num_k` makes of two integers, over `c`. -/
structure Product (a b c r : BcNum) : Prop where
  digits : Proper 10 r.num
  magnitude : r.magnitude = a.magnitude * b.magnitude
  whole : c.rdx = 0 → c.neg = false → r.Whole

theorem BcNum.Clean.magnitude_pos {n : BcNum} (clean : n.Clean) (nonempty : n.num ≠ []) :
    0 < n.magnitude := by
  have := magnitude_nonneg clean.digits
  have := clean.nonzero nonempty
  omega

/-- By rows. -/
theorem longMultiply_product {a b : BcNum} (ha : a.Whole) (hb : b.Whole) (nonempty : a.num ≠ [])
    (nonempty' : b.num ≠ []) (c : BcNum) {digits : List BcDig} {len : ℕ}
    (multiplies : longMultiply a.num b.num 0 (List.replicate (a.len + b.len + 1) 0) 0
      = (digits, len)) : Product a b c { c with num := digits.take len } := by
  obtain ⟨proper, total, zeros, last⟩ := longMultiply_spec ha.clean.digits hb.clean.digits
    0 0 (proper_zeros (by decide) (a.len + b.len + 1))
    (by rw [List.length_replicate]; unfold BcNum.len; omega)
    (fun d mem => List.eq_of_mem_replicate (List.mem_of_mem_drop mem))
    (fun d mem => List.eq_of_mem_replicate (List.mem_of_mem_drop mem)) (Nat.zero_le _)
  rw [multiplies] at proper total zeros last
  dsimp only at proper total zeros last
  rw [value_replicate_zero, zero_add, pow_zero, one_mul] at total
  have properTake := proper.sublist (List.take_sublist len digits)
  have cut : Lib.Digits.value 10 (digits.take len) = a.magnitude * b.magnitude := by
    have none := (value_eq_zero (by decide) (proper.sublist (List.drop_sublist len digits))).mpr zeros
    have all : Lib.Digits.value 10 (digits.take len ++ digits.drop len)
        = Lib.Digits.value 10 (digits.take len) := by
      rw [value_append, none, mul_zero, add_zero]
    rw [← all, List.take_append_drop, total]
    rfl
  have positive := mul_pos (ha.clean.magnitude_pos nonempty) (hb.clean.magnitude_pos nonempty')
  have noZero : ∀ low, digits.take len ≠ low ++ [0] := by
    intro low ends
    have lengths : low.length + 1 ≤ len := by
      have := congrArg List.length ends
      rw [List.length_append, List.length_singleton, List.length_take] at this
      omega
    have lenA : 0 < a.len := List.length_pos_of_ne_nil nonempty
    have lenB : 0 < b.len := List.length_pos_of_ne_nil nonempty'
    rcases last nonempty' with low' | ⟨d, rest, high, nonzero, drop⟩
    · -- the product is too large for a zero at the top
      have below := (ends ▸ properTake).lt_of_top_zero (by decide)
      rw [← ends, cut] at below
      have large := mul_le_mul (ha.clean.pow_le (by rw [ha.rdx]; exact lenA))
        (hb.clean.pow_le (by rw [hb.rdx]; exact lenB)) (by positivity)
        (BcNum.magnitude_nonneg ha.clean.digits)
      rw [← pow_add] at large
      have power : (10 : ℤ) ^ low.length ≤ 10 ^ (a.len - 1 + (b.len - 1)) := by
        apply pow_le_pow_right₀ (by decide)
        unfold BcNum.len at lenA lenB ⊢
        omega
      linarith
    · have top : digits.take len = digits.take (len - 1) ++ [d] := by
        have place : len = (len - 1) + 1 := by omega
        conv_lhs => rw [place, List.take_add]
        rw [show len - 1 = 0 + a.num.length + b.num.length - 1 by omega, drop]
        rfl
      have same := (List.append_inj' (top.symm.trans ends) rfl).2
      exact nonzero (List.head_eq_of_cons_eq same)
  refine ⟨properTake, cut, fun rdx neg => ⟨⟨⟨properTake, .inr ?_, ?_, fun _ => neg⟩, ?_⟩, neg, rdx⟩⟩
  · rw [rdx]
    exact Nat.zero_le _
  · intro low ends
    exact absurd ends (noZero low)
  · intro _ zero
    exact positive.ne' (cut.symm.trans zero)

theorem BcNum.Whole.of_one {n : BcNum} (one : n.one = true) : n.magnitude = 1 := by
  unfold BcNum.one at one
  rw [Bool.and_eq_true, beq_iff_eq] at one
  unfold magnitude
  rw [one.1]
  rfl

/-- The parts of an integer are shorter than the integer, and their sum is not much longer. -/
theorem parts_len {l h m : BcNum} (wholeL : l.Whole) (wholeH : h.Whole) (wholeM : m.Whole)
    {n : ℤ} {idx len : ℕ} (low : l.magnitude < 10 ^ idx)
    (parts : n = l.magnitude + 10 ^ idx * h.magnitude)
    (sum : m.magnitude = h.magnitude + l.magnitude) (below : n < 10 ^ len) (half : len ≤ 2 * idx) :
    l.len ≤ idx ∧ h.len + idx ≤ max len idx ∧ m.len ≤ idx + 1 := by
  have nonneg := BcNum.magnitude_nonneg wholeL.clean.digits
  have power : (10 : ℤ) ^ len ≤ 10 ^ (2 * idx) := pow_le_pow_right₀ (by decide) half
  rw [two_mul, pow_add] at power
  have positive : (0 : ℤ) < 10 ^ idx := by positivity
  have high : h.magnitude < 10 ^ idx := by
    by_contra large
    have := mul_le_mul_of_nonneg_left (not_lt.mp large) positive.le
    linarith
  refine ⟨wholeL.len_le low, ?_, wholeM.len_le ?_⟩
  · by_cases none : h.num = []
    · unfold BcNum.len
      rw [none, List.length_nil, Nat.zero_add]
      exact le_max_right ..
    · have := wholeH.len_add_le none (k := idx) (m := len) (by linarith)
      exact this.trans (le_max_left ..)
  · rw [sum, pow_succ]
    linarith

/-- `zbc_num_k` multiplies, or gives up on numbers that are too long. -/
theorem zbcNumK_spec {fuel : ℕ} {a b : BcNum} (ha : a.Whole) (hb : b.Whole) (c : BcNum)
    (enough : max a.len b.len < fuel) :
    Ends (zbcNumK fuel a b c) (Product a b c)
      (fun e => e = .tooLong ∧ bcMaxNum < a.len + b.len) := by
  induction fuel generalizing a b c with
  | zero => exact absurd enough (Nat.not_lt_zero _)
  | succ fuel ih =>
    unfold zbcNumK
    split
    · next zero =>
      refine ⟨proper_nil, ?_, fun _ _ => bcNumSetToZero_whole⟩
      show 0 = a.magnitude * b.magnitude
      rcases zero with none | none
      · rw [ha.clean.num_eq_nil.mp none, zero_mul]
      · rw [hb.clean.num_eq_nil.mp none, mul_zero]
    · next nonzero =>
      obtain ⟨nonempty, nonempty'⟩ := not_or.mp nonzero
      split
      · next one =>
        split
        · next oneA =>
          refine ⟨hb.clean.digits, ?_, fun _ _ => hb⟩
          rw [BcNum.Whole.of_one oneA, one_mul]
        · next notA =>
          refine ⟨ha.clean.digits, ?_, fun _ _ => ha⟩
          rw [BcNum.Whole.of_one (one.resolve_left notA), mul_one]
      · split
        · cases multiplies : longMultiply a.num b.num 0 (List.replicate (a.len + b.len + 1) 0) 0 with
          | mk digits len => exact longMultiply_product ha hb nonempty nonempty' c multiplies
        · next long =>
          unfold bcNumKaratsubaLen at long
          have places : max a.len b.len ≤ 2 * ((max a.len b.len + 1) / 2) := by omega
          have fewer : (max a.len b.len + 1) / 2 + 1 < max a.len b.len := by omega
          have halves : 2 * ((max a.len b.len + 1) / 2) ≤ max a.len b.len + 1 := by omega
          dsimp only
          generalize (max a.len b.len + 1) / 2 = max2 at places fewer halves
          obtain ⟨l1, h1, split1, wholeL1, wholeH1, lowA, highA⟩ := bcNumSplit_spec ha max2
          obtain ⟨l2, h2, split2, wholeL2, wholeH2, lowB, highB⟩ := bcNumSplit_spec hb max2
          obtain ⟨m1, adds1, wholeM1, magnitude1⟩ := numAdd_whole wholeH1 wholeL1
          obtain ⟨m2, adds2, wholeM2, magnitude2⟩ := numAdd_whole wholeH2 wholeL2
          rw [split1, split2]
          dsimp only
          rw [adds1, ok_bind, adds2, ok_bind]
          obtain ⟨lenL1, lenH1, lenM1⟩ := parts_len wholeL1 wholeH1 wholeM1 lowA highA magnitude1
            (BcNum.magnitude_lt ha.clean.digits) (by omega)
          obtain ⟨lenL2, lenH2, lenM2⟩ := parts_len wholeL2 wholeH2 wholeM2 lowB highB magnitude2
            (BcNum.magnitude_lt hb.clean.digits) (by omega)
          have nonneg {n : BcNum} (whole : n.Whole) : 0 ≤ n.magnitude :=
            BcNum.magnitude_nonneg whole.clean.digits
          have short (x y : ℕ) (small : x + y ≤ a.len + b.len) (e : BcError)
              (fails : e = .tooLong ∧ bcMaxNum < x + y) : e = .tooLong ∧ bcMaxNum < a.len + b.len :=
            ⟨fails.1, fails.2.trans_le small⟩
          refine ((ih wholeH1 wholeH2 _ (by omega)).imp (fun _ => id)
            (short _ _ (by omega))).bind fun z0 product0 => ?_
          refine ((ih wholeM1 wholeM2 _ (by omega)).imp (fun _ => id)
            (short _ _ (by omega))).bind fun z1 product1 => ?_
          refine ((ih wholeL1 wholeL2 _ (by omega)).imp (fun _ => id)
            (short _ _ (by omega))).bind fun z2 product2 => ?_
          have whole0 := product0.whole rfl rfl
          have whole1 := product1.whole rfl rfl
          have whole2 := product2.whole rfl rfl
          have equal0 := product0.magnitude
          have equal1 := product1.magnitude
          have equal2 := product2.magnitude
          rw [magnitude1, magnitude2] at equal1
          have cross1 := mul_nonneg (nonneg wholeH1) (nonneg wholeL2)
          have cross2 := mul_nonneg (nonneg wholeL1) (nonneg wholeH2)
          have high := mul_nonneg (nonneg wholeH1) (nonneg wholeH2)
          have low := mul_nonneg (nonneg wholeL1) (nonneg wholeL2)
          have sums : (h1.magnitude + l1.magnitude) * (h2.magnitude + l2.magnitude)
              = h1.magnitude * h2.magnitude + h1.magnitude * l2.magnitude
                + l1.magnitude * h2.magnitude + l1.magnitude * l2.magnitude := by ring
          obtain ⟨temp, subtracts, wholeT, magnitudeT⟩ :=
            numSub_whole whole1 whole0 (by linarith)
          obtain ⟨z1', subtracts', whole1', magnitude1'⟩ :=
            numSub_whole wholeT whole2 (by linarith)
          rw [subtracts, ok_bind, subtracts', ok_bind]
          have power : (10 : ℤ) ^ (max2 * 2) = 10 ^ max2 * 10 ^ max2 := by
            rw [mul_two, pow_add]
          have product : a.magnitude * b.magnitude
              = z0.magnitude * 10 ^ (max2 * 2) + z1'.magnitude * 10 ^ max2 + z2.magnitude := by
            rw [highA, highB, magnitude1', magnitudeT, equal0, equal1, equal2, power]
            ring
          have below : a.magnitude * b.magnitude < 10 ^ (a.len + b.len) := by
            rw [pow_add]
            exact mul_lt_mul'' (BcNum.magnitude_lt ha.clean.digits)
              (BcNum.magnitude_lt hb.clean.digits) (nonneg ha) (nonneg hb)
          have nonneg0 : 0 ≤ z0.magnitude * 10 ^ (max2 * 2) :=
            mul_nonneg (nonneg whole0) (by positivity)
          have nonneg1 : 0 ≤ z1'.magnitude * 10 ^ max2 := mul_nonneg (nonneg whole1') (by positivity)
          have nonneg2 := nonneg whole2
          refine (zbcNumShift_whole whole0 (max2 * 2) (m := a.len + b.len)
            (by linarith)).bind ?_
          rintro z0' ⟨whole0', magnitude0'⟩
          refine (zbcNumShift_whole whole1' max2 (m := a.len + b.len)
            (by linarith)).bind ?_
          rintro z1'' ⟨whole1'', magnitude1''⟩
          obtain ⟨temp', adds', wholeT', magnitudeT'⟩ := numAdd_whole whole0' whole1''
          obtain ⟨r, addsR, wholeR, magnitudeR⟩ := numAdd_whole wholeT' whole2
          rw [adds', ok_bind, addsR]
          refine ⟨wholeR.clean.digits, ?_, fun _ _ => wholeR⟩
          rw [magnitudeR, magnitudeT', magnitude0', magnitude1'', product]

/-- A zero may have decimals. -/
theorem zbcNumK_clean {fuel : ℕ} {a b : BcNum} (ha : a.Clean) (hb : b.Clean) (negA : a.neg = false)
    (negB : b.neg = false) (rdxA : a.num = [] ∨ a.rdx = 0) (rdxB : b.num = [] ∨ b.rdx = 0)
    (c : BcNum) (enough : max a.len b.len < fuel) :
    Ends (zbcNumK fuel a b c) (Product a b c)
      (fun e => e = .tooLong ∧ bcMaxNum < a.len + b.len) := by
  by_cases zero : a.num = [] ∨ b.num = []
  · cases fuel with
    | zero => exact absurd enough (Nat.not_lt_zero _)
    | succ fuel =>
      unfold zbcNumK
      rw [if_pos zero]
      refine ⟨proper_nil, ?_, fun _ _ => bcNumSetToZero_whole⟩
      show 0 = a.magnitude * b.magnitude
      rcases zero with none | none
      · rw [ha.num_eq_nil.mp none, zero_mul]
      · rw [hb.num_eq_nil.mp none, mul_zero]
  · obtain ⟨nonempty, nonempty'⟩ := not_or.mp zero
    exact zbcNumK_spec ⟨ha, negA, rdxA.resolve_left nonempty⟩ ⟨hb, negB, rdxB.resolve_left nonempty'⟩
      c enough

/-! ## The product of decimals -/

theorem BcNum.Clean.unsigned {n : BcNum} (clean : n.Clean) : ({ n with neg := false } : BcNum).Clean :=
  ⟨⟨clean.digits, clean.long, clean.top, fun _ => rfl⟩, clean.nonzero⟩

/-- The decimals of a product. -/
def productScale (a b : BcNum) (scale : ℕ) : ℕ :=
  min (a.rdx + b.rdx) (max (max scale a.rdx) b.rdx)

theorem magnitude_shift {n : BcNum} {m : ℕ} (enough : n.rdx ≤ m) :
    ((n.magnitude * 10 ^ (m - n.rdx) : ℤ) : ℚ) / 10 ^ m = n.magnitude / 10 ^ n.rdx := by
  have power : (10 : ℚ) ^ m = 10 ^ n.rdx * 10 ^ (m - n.rdx) := by
    rw [← pow_add, Nat.add_sub_cancel' enough]
  rw [power]
  push_cast
  field_simp

/-- A clean number without decimals, if it is not zero, has no more digits than it needs. -/
theorem len_le_of_shift {n c : BcNum} {places : ℕ} (clean : n.Clean) (cleanC : c.Clean)
    (neg : c.neg = false) (rdx : c.num = [] ∨ c.rdx = 0)
    (magnitude : c.magnitude = n.magnitude * 10 ^ (places - n.rdx)) : c.len ≤ n.len + places := by
  rcases rdx with none | rdx
  · unfold BcNum.len
    rw [none]
    exact Nat.zero_le _
  · apply BcNum.Whole.len_le ⟨cleanC, neg, rdx⟩
    rw [magnitude]
    calc n.magnitude * 10 ^ (places - n.rdx) < 10 ^ n.len * 10 ^ (places - n.rdx) :=
          mul_lt_mul_of_pos_right (BcNum.magnitude_lt clean.digits) (by positivity)
      _ = 10 ^ (n.len + (places - n.rdx)) := (pow_add ..).symm
      _ ≤ 10 ^ (n.len + places) := pow_le_pow_right₀ (by decide) (by omega)

/-- `zbc_num_m` multiplies and truncates, or gives up on numbers that are too long. -/
theorem zbcNumM_spec {a b : BcNum} (ha : a.Clean) (hb : b.Clean) (scale : ℕ) (c : BcNum) :
    Ends (zbcNumM scale a b c)
      (fun r => r.Clean ∧ r.rdx = productScale a b scale ∧
        r.value = truncated (a.value * b.value) (productScale a b scale))
      (fun e => e = .tooLong ∧
        bcMaxNum < a.len + b.len + 2 * productScale a b scale) := by
  have larger : a.rdx ≤ productScale a b scale ∧ b.rdx ≤ productScale a b scale := by
    unfold productScale
    omega
  have places : max (max a.rdx b.rdx) (productScale a b scale) = productScale a b scale := by omega
  unfold zbcNumM
  dsimp only
  change Ends (do
    let cpa ← zbcNumShift { a with neg := false } (max (max a.rdx b.rdx) (productScale a b scale))
    let cpb ← zbcNumShift { b with neg := false } (max (max a.rdx b.rdx) (productScale a b scale))
    let c ← zbcNumK (cpa.len + cpb.len + 1) cpa cpb c
    pure (bcNumRetireMul ⟨if c.len < max (max a.rdx b.rdx) (productScale a b scale)
        + productScale a b scale then c.num ++ List.replicate (max (max a.rdx b.rdx)
        (productScale a b scale) + productScale a b scale) 0 else c.num,
      max (max a.rdx b.rdx) (productScale a b scale) + productScale a b scale, c.neg⟩
      (productScale a b scale) a.neg b.neg)) _ _
  rw [places]
  generalize productScale a b scale = m at *
  refine ((zbcNumShift_spec ha.unsigned rfl larger.1).imp (fun _ => id) ?_).bind ?_
  · rintro e ⟨error, -, long⟩
    have : BcNum.len { a with neg := false } = a.len := rfl
    exact ⟨error, by omega⟩
  rintro cpa ⟨cleanA, negA, rdxA, -, magnitudeA⟩
  refine ((zbcNumShift_spec hb.unsigned rfl larger.2).imp (fun _ => id) ?_).bind ?_
  · rintro e ⟨error, -, long⟩
    have : BcNum.len { b with neg := false } = b.len := rfl
    exact ⟨error, by omega⟩
  rintro cpb ⟨cleanB, negB, rdxB, -, magnitudeB⟩
  have lenA : cpa.len ≤ a.len + m := len_le_of_shift ha cleanA negA rdxA magnitudeA
  have lenB : cpb.len ≤ b.len + m := len_le_of_shift hb cleanB negB rdxB magnitudeB
  refine ((zbcNumK_clean cleanA cleanB negA negB rdxA rdxB c (by omega)).imp (fun _ => id) ?_).bind ?_
  · rintro e ⟨error, long⟩
    exact ⟨error, by omega⟩
  rintro r ⟨digits, product, -⟩
  -- zeros at the top make the product long enough for its decimals
  obtain ⟨num, whole, properNum, value, long⟩ : ∃ num,
      (if r.len < m + m then r.num ++ List.replicate (m + m) 0 else r.num) = num ∧
      Proper 10 num ∧ Lib.Digits.value 10 num = r.magnitude ∧ m + m ≤ num.length := by
    by_cases short : r.len < m + m
    · refine ⟨_, if_pos short, proper_append.mpr ⟨digits, proper_zeros (by decide) _⟩,
        value_append_zeros _ _, ?_⟩
      rw [List.length_append, List.length_replicate]
      exact Nat.le_add_left ..
    · exact ⟨_, if_neg short, digits, rfl, not_lt.mp short⟩
  rw [whole]
  have retired := bcNumRetireMul_spec (n := ⟨num, m + m, r.neg⟩) properNum (.inr long) m a.neg b.neg
  refine ⟨retired.clean, retired.rdx, ?_⟩
  rw [retired.value (BcNum.magnitude_nonneg properNum)]
  congr 1
  have same : BcNum.magnitude ⟨num, m + m, r.neg⟩ = r.magnitude := value
  have shiftA : (cpa.magnitude : ℚ) / 10 ^ m = a.magnitude / 10 ^ a.rdx := by
    rw [magnitudeA]
    exact magnitude_shift larger.1
  have shiftB : (cpb.magnitude : ℚ) / 10 ^ m = b.magnitude / 10 ^ b.rdx := by
    rw [magnitudeB]
    exact magnitude_shift larger.2
  unfold BcNum.value
  rw [same, product, ← sign_mul_sign, pow_add]
  push_cast
  rw [mul_div_mul_comm, shiftA, shiftB]
  ring

end Busybox.Bc
