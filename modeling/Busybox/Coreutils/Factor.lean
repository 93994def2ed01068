import Mathlib.Data.Nat.Sqrt
import Mathlib.Tactic.Ring
import Busybox.Udhcp.Optval

/-!
# The integer square root

One bit of the root after another: the root of the bits that are shifted in so far is doubled, and
one more is tried.
-/

namespace Busybox.Libbb

/-- Bits of an `unsigned long`, 32 of them at least. -/
abbrev LongBits := {bits : Nat // 32 ≤ bits}

/-- The loop from a shift on, `shift = 2 * pairs`. -/
def isqrtLoop (long : LongBits) (N : Nat) (pairs x : Nat) : Nat :=
  let tried := ((x <<< 1) + 1) % 2 ^ long.1
  -- "whoops, that +1 was too much"
  let x := if N >>> (2 * pairs) < tried * tried % 2 ^ 64 then tried - 1 else tried
  match pairs with
  | 0 => x
  | pairs + 1 => isqrtLoop long N pairs x

def isqrt (long : LongBits) (N : Nat) : Nat := isqrtLoop long N 31 0

/-- The root of four times a number and a remainder. -/
theorem sqrt_next (M : Nat) :
    Nat.sqrt M = if M < (2 * Nat.sqrt (M / 4) + 1) * (2 * Nat.sqrt (M / 4) + 1) then
      2 * Nat.sqrt (M / 4) else 2 * Nat.sqrt (M / 4) + 1 := by
  have below := Nat.sqrt_le (M / 4)
  have above := Nat.lt_succ_sqrt (M / 4)
  obtain ⟨x, isX⟩ : ∃ x, Nat.sqrt (M / 4) = x := ⟨_, rfl⟩
  rw [isX] at below above ⊢
  have low : 2 * x * (2 * x) ≤ M :=
    calc 2 * x * (2 * x) = 4 * (x * x) := by ring
      _ ≤ M := by omega
  have high : M < (2 * x + 2) * (2 * x + 2) := by
    have square : (2 * x + 2) * (2 * x + 2) = 4 * ((x + 1) * (x + 1)) := by ring
    rw [square]
    simp only [Nat.succ_eq_add_one] at above
    omega
  symm
  split
  case isTrue tooMuch => exact Nat.eq_sqrt.mpr ⟨low, tooMuch⟩
  case isFalse fits => exact Nat.eq_sqrt.mpr ⟨not_lt.mp fits, high⟩

/-- One round computes the root of the bits shifted in, and no product wraps. -/
theorem isqrt_round (long : LongBits) {M : Nat} (wide : M < 2 ^ 64) :
    (if M < ((Nat.sqrt (M / 4) <<< 1) + 1) % 2 ^ long.1 *
        (((Nat.sqrt (M / 4) <<< 1) + 1) % 2 ^ long.1) % 2 ^ 64
      then ((Nat.sqrt (M / 4) <<< 1) + 1) % 2 ^ long.1 - 1
      else ((Nat.sqrt (M / 4) <<< 1) + 1) % 2 ^ long.1) = Nat.sqrt M := by
  have narrow : Nat.sqrt (M / 4) < 2 ^ 31 := Nat.sqrt_lt.mpr (by omega)
  have fits : 2 * Nat.sqrt (M / 4) + 1 < 2 ^ long.1 :=
    Nat.lt_of_lt_of_le (by omega) (Nat.pow_le_pow_right Nat.two_pos long.2)
  have square : (2 * Nat.sqrt (M / 4) + 1) * (2 * Nat.sqrt (M / 4) + 1) < 2 ^ 64 :=
    calc (2 * Nat.sqrt (M / 4) + 1) * (2 * Nat.sqrt (M / 4) + 1) < 2 ^ 32 * 2 ^ 32 :=
          Nat.mul_lt_mul'' (by omega) (by omega)
      _ = 2 ^ 64 := by norm_num
  have doubled : Nat.sqrt (M / 4) <<< 1 = 2 * Nat.sqrt (M / 4) := by
    rw [Nat.shiftLeft_eq, pow_one, Nat.mul_comm]
  rw [doubled, Nat.mod_eq_of_lt fits, Nat.mod_eq_of_lt square, Nat.add_sub_cancel]
  exact (sqrt_next M).symm

theorem isqrtLoop_eq (long : LongBits) {N : Nat} (wide : N < 2 ^ 64) (pairs : Nat) :
    isqrtLoop long N pairs (Nat.sqrt (N >>> (2 * pairs) / 4)) = Nat.sqrt N := by
  have shifted (pairs : Nat) : N >>> (2 * pairs) < 2 ^ 64 :=
    Nat.lt_of_le_of_lt (Nat.shiftRight_le _ _) wide
  induction pairs with
  | zero =>
    rw [isqrtLoop]
    exact isqrt_round long (shifted 0)
  | succ pairs ih =>
    have next : N >>> (2 * (pairs + 1)) = N >>> (2 * pairs) / 4 := by
      rw [Nat.shiftRight_eq_div_pow, Nat.shiftRight_eq_div_pow, Nat.mul_add, pow_add,
        Nat.div_div_eq_div_mul]
      rfl
    rw [isqrtLoop]
    simp only [isqrt_round long (shifted (pairs + 1))]
    rw [next]
    exact ih

/-- `isqrt` is exact. -/
theorem isqrt_eq (long : LongBits) {N : Nat} (wide : N < 2 ^ 64) : isqrt long N = Nat.sqrt N := by
  have none : N >>> (2 * 31) / 4 = 0 := by
    rw [Nat.shiftRight_eq_div_pow]
    omega
  have loop := isqrtLoop_eq long wide 31
  rwa [none, Nat.sqrt_zero] at loop

end Busybox.Libbb

/-!
## factor

Twos are divided out first. Then one odd number after another is tried, except for those that three
counters in one word find to be multiples of 3, 5 or 7.
-/

namespace Busybox.Coreutils.Factor

open Libbb (LongBits isqrt isqrt_eq)
open Udhcp.Optval (unsignedText)

/-! ## The counters -/

def SHIFT_3 : Nat := 1 <<< 0
def SHIFT_5 : Nat := 1 <<< 3
def SHIFT_7 : Nat := 1 <<< 7
def INCREMENT_EACH : Nat := SHIFT_3 ||| SHIFT_5 ||| SHIFT_7
def MULTIPLE_OF_3 : Nat := 1 <<< 2
def MULTIPLE_OF_5 : Nat := 1 <<< 6
def MULTIPLE_OF_7 : Nat := 1 <<< 11
def MULTIPLE_DETECTED : Nat := MULTIPLE_OF_3 ||| MULTIPLE_OF_5 ||| MULTIPLE_OF_7

/-- "initial count for SHIFT_n is (n-1)/2*3" -/
def sieveStart : Nat :=
  (MULTIPLE_OF_3 - 3 * SHIFT_3) + (MULTIPLE_OF_5 - 6 * SHIFT_5) + (MULTIPLE_OF_7 - 9 * SHIFT_7)

/-- `sieve_word -= count` where a counter has set its bit, in 32 bits. -/
def restart (sieveWord multiple count : Nat) : Nat :=
  if sieveWord &&& multiple ≠ 0 then (sieveWord + 2 ^ 32 - count) % 2 ^ 32 else sieveWord

/-! ## The loop -/

/-- Which loop the code is in, the inner one that divides or behind `next_factor`. -/
inductive Label
  | even
  | divide
  | nextFactor
  deriving DecidableEq

/-- `factor` and `maxFactor` are half as wide as `N`; the numbers are printed behind blanks. -/
structure Factoring where
  label : Label
  N : Nat
  factor : Nat := 0
  maxFactor : Nat := 0
  sieveWord : Nat := 0
  printed : List Nat := []

/-- `half_t s = isqrt(N); s = (s - 1) | 1` -/
def isqrtOdd (long : LongBits) (N : Nat) : Nat :=
  ((isqrt long N % 2 ^ 32 + 2 ^ 32 - 1) % 2 ^ 32) ||| 1

/-- From one test of a loop to the next one; the outer loop is left by its `break`. -/
def turn (long : LongBits) (s : Factoring) : Option Factoring :=
  match s.label with
  | .even =>
    if s.N &&& 1 = 0 then some { s with N := s.N >>> 1, printed := s.printed ++ [2] }
    else some { s with
      label := .divide, maxFactor := isqrtOdd long s.N, sieveWord := sieveStart, factor := 3 }
  | .divide =>
    if s.N % s.factor = 0 then
      some { s with
        N := s.N / s.factor, printed := s.printed ++ [s.factor],
        maxFactor := isqrtOdd long (s.N / s.factor) }
    else some { s with label := .nextFactor }
  | .nextFactor =>
    if s.maxFactor ≤ s.factor then none
    else
      let factor := (s.factor + 2) % 2 ^ 32
      let sieveWord := (s.sieveWord + INCREMENT_EACH) % 2 ^ 32
      if sieveWord &&& MULTIPLE_DETECTED = 0 then
        some { s with label := .divide, factor, sieveWord }
      else
        some { s with
          factor
          sieveWord :=
            restart (restart (restart sieveWord MULTIPLE_OF_3 (SHIFT_3 * 3)) MULTIPLE_OF_5
              (SHIFT_5 * 5)) MULTIPLE_OF_7 (SHIFT_7 * 7) }

/-- The numbers behind blanks, and the end of the line. -/
def text (numbers : List Nat) : List UInt8 :=
  numbers.flatMap (fun number => 32 :: unsignedText number) ++ [10]

/-- What stands on the line when the loops are left. -/
def atEnd (s : Factoring) : List UInt8 := text (s.printed ++ if 1 < s.N then [s.N] else [])

/-- `factorize` prints a line and returns. -/
def Factorizes (long : LongBits) (N : Nat) (line : List UInt8) : Prop :=
  if N < 4 then line = atEnd { label := .nextFactor, N }
  else ∃ last, Loops.Leaves (turn long) { label := .even, N } last ∧ line = atEnd last

end Busybox.Coreutils.Factor
