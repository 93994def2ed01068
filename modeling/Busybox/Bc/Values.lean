import Busybox.Bc.Num
import Mathlib.Data.Rat.Floor
import Mathlib.Tactic.FieldSimp
import Mathlib.Tactic.Positivity

/-!
# What the numbers stand for

A number is an integer of digits, the magnitude, over a power of ten, with a sign. The
functions that cut, extend and clean numbers are described by their magnitudes.
-/

namespace Busybox.Bc

open Lib.Digits

def BcNum.magnitude (n : BcNum) : ℤ := Lib.Digits.value 10 n.num

def sign (neg : Bool) : ℚ := if neg then -1 else 1

/-- The decimal number. -/
def BcNum.value (n : BcNum) : ℚ := sign n.neg * n.magnitude / 10 ^ n.rdx

/-- Truncated towards zero to so many decimals. -/
def truncated (x : ℚ) (places : ℕ) : ℚ :=
  (if 0 ≤ x then (⌊x * 10 ^ places⌋ : ℚ) else ⌈x * 10 ^ places⌉) / 10 ^ places

/-- A valid number. -/
structure BcNum.Valid (n : BcNum) : Prop where
  digits : Proper 10 n.num
  long : n.num = [] ∨ n.rdx ≤ n.len
  top : ∀ low, n.num = low ++ [0] → n.len = n.rdx
  zero : n.magnitude = 0 → n.neg = false

/-- A valid number that has no digits if it is zero. -/
structure BcNum.Clean (n : BcNum) : Prop extends n.Valid where
  nonzero : n.num ≠ [] → n.magnitude ≠ 0

/-! ## Magnitudes -/

theorem BcNum.magnitude_nonneg {n : BcNum} (digits : Proper 10 n.num) : 0 ≤ n.magnitude :=
  digits.nonneg (by decide)

theorem BcNum.magnitude_lt {n : BcNum} (digits : Proper 10 n.num) : n.magnitude < 10 ^ n.len :=
  digits.lt (by decide)

theorem BcNum.Clean.num_eq_nil {n : BcNum} (clean : n.Clean) : n.num = [] ↔ n.magnitude = 0 := by
  constructor
  · intro none
    unfold magnitude
    rw [none, value_nil]
  · intro zero
    by_contra some
    exact clean.nonzero some zero

/-- The digit at the top is not zero if it is not a decimal. -/
theorem BcNum.Clean.pow_le {n : BcNum} (clean : n.Clean) (int : n.rdx < n.len) :
    10 ^ (n.len - 1) ≤ n.magnitude := by
  rcases List.eq_nil_or_concat' n.num with none | ⟨low, d, whole⟩
  · unfold len at int
    rw [none] at int
    exact absurd int (Nat.not_lt_zero _)
  · have top : d ≠ 0 := by
      intro zero
      rw [zero] at whole
      have := clean.top low whole
      omega
    have digits := clean.digits
    rw [whole] at digits
    have large := digits.pow_le (by decide) top
    unfold len magnitude
    rw [whole, List.length_append, List.length_singleton, Nat.add_sub_cancel]
    exact large

theorem sign_mul_sign (neg neg' : Bool) : sign neg * sign neg' = sign (neg != neg') := by
  cases neg <;> cases neg' <;> simp [sign]

theorem sign_not (neg : Bool) : sign (!neg) = - sign neg := by
  cases neg <;> simp [sign]

theorem BcNum.value_of_zero {n : BcNum} (zero : n.magnitude = 0) : n.value = 0 := by
  unfold value
  rw [zero]
  simp

theorem bcNumSetToZero_clean (scale : ℕ) : (bcNumSetToZero scale).Clean := by
  refine ⟨⟨proper_nil, .inl rfl, ?_, fun _ => rfl⟩, fun nonempty => absurd rfl nonempty⟩
  intro low whole
  exact absurd whole.symm (List.append_ne_nil_of_right_ne_nil low (List.cons_ne_nil 0 []))

/-! ## Cleaning -/

/-- What a number is cleaned to: the same with no zeros to spare. -/
structure Cleaned (n c : BcNum) : Prop where
  clean : c.Clean
  magnitude : c.magnitude = n.magnitude
  rdx : c.rdx = n.rdx
  neg : c.magnitude ≠ 0 → c.neg = n.neg

theorem bcNumClean_spec {n : BcNum} (digits : Proper 10 n.num)
    (long : n.magnitude = 0 ∨ n.rdx ≤ n.len) : Cleaned n (bcNumClean n) := by
  unfold bcNumClean
  dsimp only
  split
  · next none =>
    have zero : n.magnitude = 0 := (strip_eq_nil (by decide) digits).mp none
    exact ⟨bcNumSetToZero_clean n.rdx, zero.symm, rfl, fun nonzero => absurd rfl nonzero⟩
  · next some =>
    obtain ⟨count, whole⟩ := strip_zeros n.num
    have nonzero : n.magnitude ≠ 0 := fun zero => some ((strip_eq_nil (by decide) digits).mpr zero)
    have fits : n.rdx ≤ n.num.length := long.resolve_left nonzero
    have shorter := strip_length_le n.num
    generalize longer : max (strip n.num).length n.rdx = k
    have cut : n.num.take k
        = strip n.num ++ List.replicate (min (k - (strip n.num).length) count) 0 := by
      conv_lhs => rw [whole]
      rw [List.take_append, List.take_of_length_le (by omega), List.take_replicate]
    have same : BcNum.magnitude { n with num := n.num.take k } = n.magnitude := by
      show Lib.Digits.value 10 (n.num.take k) = n.magnitude
      rw [cut, value_append_zeros, value_strip]
      rfl
    refine ⟨⟨⟨digits.sublist (List.take_sublist ..), .inr ?_, ?_, ?_⟩, ?_⟩, same, rfl, fun _ => rfl⟩
    · show n.rdx ≤ (n.num.take k).length
      rw [List.length_take]
      omega
    · intro low zero
      show (n.num.take k).length = n.rdx
      rw [List.length_take]
      by_contra longer'
      -- otherwise nothing comes back, and the digit at the top is not zero
      have all : n.num.take k = strip n.num := by
        rw [cut, show k - (strip n.num).length = 0 by omega, Nat.zero_min, List.replicate_zero,
          List.append_nil]
      rcases strip_top n.num with none | ⟨low', d, topped, top⟩
      · exact some none
      · have ends := zero.symm.trans (all.trans topped)
        exact top (List.append_inj' ends rfl |>.2 |> List.head_eq_of_cons_eq).symm
    · intro zero
      exact absurd (same.symm.trans zero) nonzero
    · intro _ zero
      exact nonzero (same.symm.trans zero)

theorem bcNumExtend_magnitude (n : BcNum) (places : ℕ) :
    (bcNumExtend n places).magnitude = n.magnitude * 10 ^ places := by
  rw [mul_comm]
  exact value_zeros_append places n.num

theorem bcNumExtend_digits {n : BcNum} (digits : Proper 10 n.num) (places : ℕ) :
    Proper 10 (bcNumExtend n places).num :=
  proper_append.mpr ⟨proper_zeros (by decide) places, digits⟩

theorem bcNumExtend_len (n : BcNum) (places : ℕ) :
    (bcNumExtend n places).len = n.len + places := by
  unfold BcNum.len bcNumExtend
  rw [List.length_append, List.length_replicate, Nat.add_comm]

/-! ## Truncating -/

theorem truncated_sign (neg : Bool) {x : ℚ} (nonneg : 0 ≤ x) (places : ℕ) :
    truncated (sign neg * x) places = sign neg * ⌊x * 10 ^ places⌋ / 10 ^ places := by
  unfold truncated
  cases neg with
  | false =>
    have one : sign false = 1 := rfl
    rw [one, one_mul, one_mul, if_pos nonneg]
  | true =>
    have minus : sign true = -1 := rfl
    rw [minus, neg_one_mul, neg_one_mul]
    split
    · next both =>
      have zero : x = 0 := by linarith
      rw [zero]
      simp
    · rw [neg_mul, Int.ceil_neg, Int.cast_neg]

/-- Integer division rounds down. -/
theorem floor_div (m : ℤ) (k : ℕ) : ⌊(m : ℚ) / 10 ^ k⌋ = m / 10 ^ k := by
  have cast := Rat.floor_intCast_div_natCast m (10 ^ k)
  push_cast at cast
  exact cast

/-- What a number is retired to. -/
structure Retired (n : BcNum) (scale : ℕ) (neg1 neg2 : Bool) (c : BcNum) : Prop where
  clean : c.Clean
  rdx : c.rdx = scale
  magnitude : c.magnitude = ⌊(n.magnitude : ℚ) / 10 ^ n.rdx * 10 ^ scale⌋
  neg : c.magnitude ≠ 0 → c.neg = (neg1 != neg2)

theorem bcNumRetireMul_spec {n : BcNum} (digits : Proper 10 n.num)
    (long : n.magnitude = 0 ∨ n.rdx ≤ n.len) (scale : ℕ) (neg1 neg2 : Bool) :
    Retired n scale neg1 neg2 (bcNumRetireMul n scale neg1 neg2) := by
  -- cut or extended, the number has the wanted decimals
  obtain ⟨cut, whole, digits', rdx, magnitude, long'⟩ : ∃ cut : BcNum,
      (if n.rdx < scale then bcNumExtend n (scale - n.rdx) else bcNumTruncate n (n.rdx - scale))
        = cut ∧ Proper 10 cut.num ∧ cut.rdx = scale ∧
      cut.magnitude = ⌊(n.magnitude : ℚ) / 10 ^ n.rdx * 10 ^ scale⌋ ∧
      (cut.magnitude = 0 ∨ cut.rdx ≤ cut.len) := by
    by_cases less : n.rdx < scale
    · have power : (10 : ℚ) ^ scale = 10 ^ n.rdx * 10 ^ (scale - n.rdx) := by
        rw [← pow_add, Nat.add_sub_cancel' less.le]
      refine ⟨_, if_pos less, bcNumExtend_digits digits _, Nat.add_sub_cancel' less.le, ?_, ?_⟩
      · rw [bcNumExtend_magnitude, power, ← mul_assoc, div_mul_cancel₀ _ (by positivity)]
        have integer : (n.magnitude : ℚ) * 10 ^ (scale - n.rdx)
            = ((n.magnitude * 10 ^ (scale - n.rdx) : ℤ) : ℚ) := by push_cast; rfl
        rw [integer, Int.floor_intCast]
      · rw [bcNumExtend_magnitude, bcNumExtend_len]
        rcases long with zero | long
        · exact .inl (by rw [zero, zero_mul])
        · exact .inr (Nat.add_le_add_right long _)
    · have more : scale ≤ n.rdx := not_lt.mp less
      have power : (10 : ℚ) ^ n.rdx = 10 ^ scale * 10 ^ (n.rdx - scale) := by
        rw [← pow_add, Nat.add_sub_cancel' more]
      have cancel : (n.magnitude : ℚ) / 10 ^ n.rdx * 10 ^ scale
          = n.magnitude / 10 ^ (n.rdx - scale) := by
        rw [power]
        field_simp
      have drop : (bcNumTruncate n (n.rdx - scale)).magnitude
          = n.magnitude / 10 ^ (n.rdx - scale) := digits.drop (by decide) _
      refine ⟨_, if_neg less, digits.sublist (List.drop_sublist ..), Nat.sub_sub_self more, ?_, ?_⟩
      · rw [cancel, floor_div, drop]
      · rw [drop]
        rcases long with zero | long
        · exact .inl (by rw [zero, Int.zero_ediv])
        · right
          show n.rdx - (n.rdx - scale) ≤ (n.num.drop (n.rdx - scale)).length
          rw [List.length_drop]
          exact Nat.sub_le_sub_right long _
  have cleaned := bcNumClean_spec digits' long'
  unfold bcNumRetireMul
  rw [whole]
  dsimp only
  split
  · next some =>
    have nonzero : (bcNumClean cut).magnitude ≠ 0 := cleaned.clean.nonzero some
    refine ⟨⟨⟨cleaned.clean.digits, cleaned.clean.long, cleaned.clean.top, ?_⟩,
      cleaned.clean.nonzero⟩, cleaned.rdx.trans rdx, cleaned.magnitude.trans magnitude,
      fun _ => rfl⟩
    intro zero
    exact absurd zero nonzero
  · next none =>
    have zero : (bcNumClean cut).magnitude = 0 := by
      rw [← cleaned.clean.num_eq_nil]
      exact not_not.mp none
    exact ⟨cleaned.clean, cleaned.rdx.trans rdx, cleaned.magnitude.trans magnitude,
      fun nonzero => absurd zero nonzero⟩

/-- The value a number is retired to. -/
theorem Retired.value {n c : BcNum} {scale : ℕ} {neg1 neg2 : Bool}
    (retired : Retired n scale neg1 neg2 c) (nonneg : 0 ≤ n.magnitude) :
    c.value = truncated (sign (neg1 != neg2) * (n.magnitude / 10 ^ n.rdx)) scale := by
  have same : c.value = sign (neg1 != neg2) * c.magnitude / 10 ^ c.rdx := by
    by_cases zero : c.magnitude = 0
    · rw [BcNum.value_of_zero zero, zero]
      simp
    · unfold BcNum.value
      rw [retired.neg zero]
  have magnitude : (0 : ℚ) ≤ n.magnitude / 10 ^ n.rdx := by
    have : (0 : ℚ) ≤ n.magnitude := by exact_mod_cast nonneg
    positivity
  rw [same, truncated_sign _ magnitude, retired.magnitude, retired.rdx]

end Busybox.Bc
