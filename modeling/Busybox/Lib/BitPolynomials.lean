import Mathlib

/-!
# Numbers as polynomials over two elements

The bits of a number are the coefficients of a polynomial: exclusive or is the sum, and a shift is
the product with a power. A remainder is a number below the leading bit of the divisor.
-/

namespace Busybox.BitPolynomials

open Polynomial

/-- The polynomial whose coefficients are the bits of a number. -/
noncomputable def poly (n : ℕ) : (ZMod 2)[X] :=
  ∑ i ∈ Finset.range n.size, if n.testBit i then X ^ i else 0

variable {a b k : ℕ}

theorem coeff_poly (n i : ℕ) : (poly n).coeff i = if n.testBit i then 1 else 0 := by
  have inside : n.testBit i = true → i < n.size := fun set =>
    Nat.lt_size.mpr (Nat.ge_two_pow_of_testBit set)
  rw [poly, finsetSum_coeff]
  simp only [apply_ite (coeff · i), coeff_X_pow, coeff_zero]
  rw [Finset.sum_eq_single i]
  · simp
  · intro j _ other
    simp [Ne.symm other]
  · intro outside
    rw [if_neg fun set => outside (Finset.mem_range.mpr (inside set))]

theorem poly_injective : Function.Injective poly := by
  intro a b same
  refine Nat.eq_of_testBit_eq fun i => ?_
  have coeff := congrArg (coeff · i) same
  simp only [coeff_poly] at coeff
  cases left : a.testBit i <;> cases right : b.testBit i <;> simp_all

@[simp] theorem poly_zero : poly 0 = 0 := rfl

@[simp] theorem poly_one : poly 1 = 1 := by
  ext i
  simp only [coeff_poly, coeff_one, Nat.testBit_one_eq_true_iff_self_eq_zero]

@[simp] theorem poly_xor (a b : ℕ) : poly (a ^^^ b) = poly a + poly b := by
  ext i
  rw [coeff_add, coeff_poly, coeff_poly, coeff_poly, Nat.testBit_xor]
  cases a.testBit i <;> cases b.testBit i <;> decide

/-- A number behind the bits of another one. -/
theorem poly_two_pow_mul_add (a : ℕ) (below : b < 2 ^ k) :
    poly (2 ^ k * a + b) = X ^ k * poly a + poly b := by
  ext i
  rw [coeff_add, coeff_X_pow_mul', coeff_poly, coeff_poly, coeff_poly,
    Nat.testBit_two_pow_mul_add a below]
  by_cases low : i < k
  · rw [if_pos low, if_neg (Nat.not_le.mpr low), zero_add]
  · have high : b.testBit i = false :=
      Nat.testBit_eq_false_of_lt (Nat.lt_of_lt_of_le below
        (Nat.pow_le_pow_right (by decide) (Nat.not_lt.mp low)))
    rw [if_neg low, if_pos (Nat.not_lt.mp low), high]
    simp

theorem poly_two_pow_mul (a k : ℕ) : poly (2 ^ k * a) = X ^ k * poly a := by
  simpa using poly_two_pow_mul_add a (Nat.two_pow_pos k)

theorem degree_poly (below : a < 2 ^ k) : (poly a).degree < k := by
  refine (degree_lt_iff_coeff_zero _ _).mpr fun i high => ?_
  rw [coeff_poly, Nat.testBit_eq_false_of_lt
    (Nat.lt_of_lt_of_le below (Nat.pow_le_pow_right (by decide) high))]
  rfl

theorem poly_ne_zero (positive : 0 < a) : poly a ≠ 0 := fun zero =>
  Nat.ne_of_gt positive (poly_injective (zero.trans poly_zero.symm))

/-! ## Remainders -/

/-- What a divisor of a degree has below its leading bit. The last bit is set. -/
structure Generator (k : ℕ) where
  low : ℕ
  small : low < 2 ^ k
  odd : low % 2 = 1

namespace Generator

variable (G : Generator k)

noncomputable def divisor : (ZMod 2)[X] := X ^ k + poly G.low

theorem monic : G.divisor.Monic := monic_X_pow_add (degree_poly G.small)

theorem degree : G.divisor.degree = k := by
  rw [divisor, degree_add_eq_left_of_degree_lt] <;> rw [degree_X_pow]
  exact degree_poly G.small

/-- What a number is below the leading bit, it is as a remainder. -/
theorem eq_mod {p : (ZMod 2)[X]} (below : a < 2 ^ k) (same : G.divisor ∣ poly a - p) :
    poly a = p %ₘ G.divisor := by
  rw [← modByMonic_eq_of_dvd_sub G.monic same]
  exact ((modByMonic_eq_self_iff G.monic).mpr (by
    rw [degree]
    exact degree_poly below)).symm

theorem coprime (positive : 0 < k) : IsCoprime G.divisor (X : (ZMod 2)[X]) := by
  obtain ⟨k, rfl⟩ : ∃ less, k = less + 1 := ⟨k - 1, by omega⟩
  have parts : 2 ^ 1 * (G.low / 2) + 1 = G.low := by
    have odd := G.odd
    omega
  have low := poly_two_pow_mul_add (G.low / 2) (show 1 < 2 ^ 1 by decide)
  rw [parts, pow_one, poly_one] at low
  refine ⟨1, X ^ k + poly (G.low / 2), ?_⟩
  rw [divisor, low]
  have two : (2 : (ZMod 2)[X]) = 0 := CharTwo.two_eq_zero
  linear_combination (X ^ (k + 1) + X * poly (G.low / 2)) * two

/-- A few bits in a row are not divisible. -/
theorem not_dvd (positive : 0 < k) (nonzero : 0 < a) (few : a < 2 ^ k) (shift : ℕ) :
    ¬G.divisor ∣ X ^ shift * poly a := by
  intro divides
  have rest := (G.coprime positive).pow_right.dvd_of_dvd_mul_left divides
  refine poly_ne_zero nonzero (eq_zero_of_dvd_of_degree_lt rest ?_)
  rw [degree]
  exact degree_poly few

end Generator

end Busybox.BitPolynomials
