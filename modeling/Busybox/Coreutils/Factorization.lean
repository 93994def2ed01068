import Busybox.Coreutils.Factor
import Mathlib.Algebra.BigOperators.Ring.List
import Mathlib.Data.Nat.Bitwise
import Mathlib.Data.Nat.Prime.Basic

/-!
# The factors of a number

The loop keeps a rest without factors below the one that is tried. So whatever divides it is prime,
and what is left at the root of the rest is prime, too.
-/

namespace Busybox.Coreutils.Factor

open Libbb (LongBits isqrt isqrt_eq)

/-! ## The counters -/

section Counters

/-- Three counters in one word. -/
def pack (count3 count5 count7 : Nat) : Nat := count3 + 8 * count5 + 128 * count7

/-- No counter is beyond its highest bit. -/
def Packed (count3 count5 count7 : Nat) : Prop := count3 ≤ 4 ∧ count5 ≤ 8 ∧ count7 ≤ 16

theorem and_two_pow_ne_zero (x i : Nat) : x &&& 2 ^ i ≠ 0 ↔ x / 2 ^ i % 2 = 1 := by
  rw [Nat.and_two_pow, Nat.testBit_eq_decide_div_mod_eq]
  by_cases bit : x / 2 ^ i % 2 = 1
  · simp [bit]
  · simp [bit]

variable {count3 count5 count7 : Nat} (packed : Packed count3 count5 count7)
include packed

theorem multiple_of_3_iff : pack count3 count5 count7 &&& MULTIPLE_OF_3 ≠ 0 ↔ count3 = 4 := by
  obtain ⟨most3, most5, most7⟩ := packed
  rw [show MULTIPLE_OF_3 = 2 ^ 2 from rfl, and_two_pow_ne_zero, pack]
  omega

theorem multiple_of_5_iff : pack count3 count5 count7 &&& MULTIPLE_OF_5 ≠ 0 ↔ count5 = 8 := by
  obtain ⟨most3, most5, most7⟩ := packed
  rw [show MULTIPLE_OF_5 = 2 ^ 6 from rfl, and_two_pow_ne_zero, pack]
  omega

theorem multiple_of_7_iff : pack count3 count5 count7 &&& MULTIPLE_OF_7 ≠ 0 ↔ count7 = 16 := by
  obtain ⟨most3, most5, most7⟩ := packed
  rw [show MULTIPLE_OF_7 = 2 ^ 11 from rfl, and_two_pow_ne_zero, pack]
  omega

theorem restart_3 : restart (pack count3 count5 count7) MULTIPLE_OF_3 (SHIFT_3 * 3) =
    pack (if count3 = 4 then 1 else count3) count5 count7 := by
  have count : SHIFT_3 * 3 = 3 := rfl
  simp only [restart, multiple_of_3_iff packed, count]
  obtain ⟨most3, most5, most7⟩ := packed
  split
  · unfold pack
    omega
  · rfl

theorem restart_5 : restart (pack count3 count5 count7) MULTIPLE_OF_5 (SHIFT_5 * 5) =
    pack count3 (if count5 = 8 then 3 else count5) count7 := by
  have count : SHIFT_5 * 5 = 40 := rfl
  simp only [restart, multiple_of_5_iff packed, count]
  obtain ⟨most3, most5, most7⟩ := packed
  split
  · unfold pack
    omega
  · rfl

theorem restart_7 : restart (pack count3 count5 count7) MULTIPLE_OF_7 (SHIFT_7 * 7) =
    pack count3 count5 (if count7 = 16 then 9 else count7) := by
  have count : SHIFT_7 * 7 = 896 := rfl
  simp only [restart, multiple_of_7_iff packed, count]
  obtain ⟨most3, most5, most7⟩ := packed
  split
  · unfold pack
    omega
  · rfl

/-- The counters that have set their bits start again. -/
theorem restart_all :
    restart (restart (restart (pack count3 count5 count7) MULTIPLE_OF_3 (SHIFT_3 * 3)) MULTIPLE_OF_5
        (SHIFT_5 * 5)) MULTIPLE_OF_7 (SHIFT_7 * 7) =
      pack (if count3 = 4 then 1 else count3) (if count5 = 8 then 3 else count5)
        (if count7 = 16 then 9 else count7) := by
  have most3 : (if count3 = 4 then 1 else count3) ≤ 4 := by
    split
    · decide
    · exact packed.1
  have most5 : (if count5 = 8 then 3 else count5) ≤ 8 := by
    split
    · decide
    · exact packed.2.1
  rw [restart_3 packed, restart_5 ⟨most3, packed.2⟩, restart_7 ⟨most3, most5, packed.2.2⟩]

theorem detected_iff : pack count3 count5 count7 &&& MULTIPLE_DETECTED = 0 ↔
    count3 ≠ 4 ∧ count5 ≠ 8 ∧ count7 ≠ 16 := by
  rw [MULTIPLE_DETECTED, Nat.and_or_distrib_left, Nat.and_or_distrib_left, Nat.or_eq_zero_iff,
    Nat.or_eq_zero_iff, and_assoc]
  exact and_congr (not_ne_iff.symm.trans (multiple_of_3_iff packed).not)
    (and_congr (not_ne_iff.symm.trans (multiple_of_5_iff packed).not)
      (not_ne_iff.symm.trans (multiple_of_7_iff packed).not))

end Counters

/-- The counters at an odd number from 3 on. -/
def sieveAt (factor : Nat) : Nat :=
  pack (1 + (factor - 3) / 2 % 3) (if factor = 3 then 2 else 3 + (factor - 5) / 2 % 5)
    (if factor < 7 then 7 + (factor - 3) / 2 else 9 + (factor - 7) / 2 % 7)

theorem sieveStart_eq : sieveStart = sieveAt 3 := rfl

theorem sieveAt_eq (i : Nat) : sieveAt (2 * i + 3) =
    pack (1 + i % 3) (if i = 0 then 2 else 3 + (i - 1) % 5)
      (if i < 2 then 7 + i else 9 + (i - 2) % 7) := by
  have half : (2 * i + 3 - 3) / 2 = i := by omega
  have half5 : (2 * i + 3 - 5) / 2 = i - 1 := by omega
  have half7 : (2 * i + 3 - 7) / 2 = i - 2 := by omega
  have first : 2 * i + 3 = 3 ↔ i = 0 := by omega
  have early : 2 * i + 3 < 7 ↔ i < 2 := by omega
  simp only [sieveAt, half, half5, half7, first, early]

/-- One step of the counters, before they start again. -/
theorem sieve_step {factor : Nat} (odd : factor % 2 = 1) (least : 3 ≤ factor) :
    ∃ count3 count5 count7, Packed count3 count5 count7 ∧
      (sieveAt factor + INCREMENT_EACH) % 2 ^ 32 = pack count3 count5 count7 ∧
      pack (if count3 = 4 then 1 else count3) (if count5 = 8 then 3 else count5)
        (if count7 = 16 then 9 else count7) = sieveAt (factor + 2) ∧
      (count3 = 4 → 3 ∣ factor + 2) ∧ (count5 = 8 → 5 ∣ factor + 2 ∧ 5 < factor + 2) ∧
      (count7 = 16 → 7 ∣ factor + 2 ∧ 7 < factor + 2) := by
  obtain ⟨i, rfl⟩ : ∃ i, factor = 2 * i + 3 := ⟨(factor - 3) / 2, by omega⟩
  have each : INCREMENT_EACH = pack 1 1 1 := rfl
  have later : 2 * i + 3 + 2 = 2 * (i + 1) + 3 := by omega
  rw [sieveAt_eq, later, sieveAt_eq, each]
  have least5 : (if i = 0 then 2 else 3 + (i - 1) % 5) ≤ 7 := by split <;> omega
  have least7 : (if i < 2 then 7 + i else 9 + (i - 2) % 7) ≤ 15 := by split <;> omega
  refine ⟨1 + i % 3 + 1, (if i = 0 then 2 else 3 + (i - 1) % 5) + 1,
    (if i < 2 then 7 + i else 9 + (i - 2) % 7) + 1, ⟨by omega, by omega, by omega⟩,
    ?_, ?_, ?_, ?_, ?_⟩
  · unfold pack
    omega
  · have next3 : (if 1 + i % 3 + 1 = 4 then 1 else 1 + i % 3 + 1) = 1 + (i + 1) % 3 := by
      split <;> omega
    have next5 : (if (if i = 0 then 2 else 3 + (i - 1) % 5) + 1 = 8 then 3
        else (if i = 0 then 2 else 3 + (i - 1) % 5) + 1) =
        if i + 1 = 0 then 2 else 3 + (i + 1 - 1) % 5 := by
      rw [if_neg (Nat.succ_ne_zero i)]
      by_cases first : i = 0
      · simp [first]
      · simp only [if_neg first]
        split <;> omega
    have next7 : (if (if i < 2 then 7 + i else 9 + (i - 2) % 7) + 1 = 16 then 9
        else (if i < 2 then 7 + i else 9 + (i - 2) % 7) + 1) =
        if i + 1 < 2 then 7 + (i + 1) else 9 + (i + 1 - 2) % 7 := by
      by_cases early : i < 2
      · simp only [if_pos early]
        split <;> split <;> omega
      · simp only [if_neg early]
        split <;> split <;> omega
    rw [next3, next5, next7]
  · intro full
    omega
  · intro full
    split at full <;> omega
  · intro full
    split at full <;> omega

/-! ## The root -/

theorem or_one (n : Nat) : n ||| 1 = 2 * (n / 2) + 1 := by
  have split : (n / 2) <<< 1 ||| n % 2 = n := by
    rw [← Nat.shiftLeft_add_eq_or_of_lt (by omega : n % 2 < 2 ^ 1), Nat.shiftLeft_eq, pow_one]
    omega
  have last : n % 2 ||| 1 = 1 := by
    rcases Nat.mod_two_eq_zero_or_one n with even | odd
    · rw [even]
      rfl
    · rw [odd]
      rfl
  calc n ||| 1 = (n / 2) <<< 1 ||| (n % 2 ||| 1) := by rw [← Nat.or_assoc, split]
    _ = 2 * (n / 2) + 1 := by
      rw [last, ← Nat.shiftLeft_add_eq_or_of_lt (by decide : 1 < 2 ^ 1), Nat.shiftLeft_eq, pow_one,
        Nat.mul_comm]

theorem isqrtOdd_eq (long : LongBits) {N : Nat} (positive : 0 < N) (wide : N < 2 ^ 64) :
    isqrtOdd long N = 2 * ((Nat.sqrt N - 1) / 2) + 1 := by
  have narrow : Nat.sqrt N < 2 ^ 32 := Nat.sqrt_lt.mpr (by omega)
  have root : 0 < Nat.sqrt N := Nat.sqrt_pos.mpr positive
  have less : (Nat.sqrt N % 2 ^ 32 + 2 ^ 32 - 1) % 2 ^ 32 = Nat.sqrt N - 1 := by omega
  rw [isqrtOdd, isqrt_eq long wide, less, or_one]

theorem isqrtOdd_lt (long : LongBits) {N : Nat} (positive : 0 < N) (wide : N < 2 ^ 64) :
    isqrtOdd long N < 2 ^ 32 := by
  have narrow : Nat.sqrt N < 2 ^ 32 := Nat.sqrt_lt.mpr (by omega)
  have root : 0 < Nat.sqrt N := Nat.sqrt_pos.mpr positive
  rw [isqrtOdd_eq long positive wide]
  omega

/-- No odd number whose square is in range is beyond the odd root. -/
theorem le_isqrtOdd (long : LongBits) {N p : Nat} (positive : 0 < N) (wide : N < 2 ^ 64)
    (odd : p % 2 = 1) (square : p * p ≤ N) : p ≤ isqrtOdd long N := by
  have inRoot : p ≤ Nat.sqrt N := Nat.le_sqrt.mpr square
  rw [isqrtOdd_eq long positive wide]
  omega

/-! ## What the loops keep -/

/-- The loop over the odd numbers: what is left has no factor below the one that is tried, nor that
one behind `next_factor`. -/
structure Trying (long : LongBits) (s : Factoring) : Prop where
  odd : s.N % 2 = 1
  oddFactor : s.factor % 2 = 1
  least : 3 ≤ s.factor
  narrow : s.factor < 2 ^ 32
  root : s.maxFactor = isqrtOdd long s.N
  sieve : s.sieveWord = sieveAt s.factor
  rough : ∀ p, p.Prime → p ∣ s.N → s.factor ≤ p
  passed : s.label = .nextFactor → ¬s.factor ∣ s.N

/-- What is printed and what is left make the number. -/
structure Kept (long : LongBits) (N : Nat) (s : Factoring) : Prop where
  positive : 0 < s.N
  product : s.printed.prod * s.N = N
  primes : ∀ p ∈ s.printed, p.Prime
  sorted : s.printed.Pairwise (· ≤ ·)
  below : ∀ p ∈ s.printed, p ≤ if s.label = .even then 2 else s.factor
  trying : s.label ≠ .even → Trying long s

variable {long : LongBits} {N : Nat} {s s' : Factoring}

theorem Kept.wide (kept : Kept long N s) (wide : N < 2 ^ 64) : s.N < 2 ^ 64 := by
  have noZero : s.printed.prod ≠ 0 :=
    List.prod_ne_zero fun zero => Nat.not_prime_zero (kept.primes 0 zero)
  have positive : 0 < N := by
    rw [← kept.product]
    exact Nat.mul_pos (Nat.pos_of_ne_zero noZero) kept.positive
  exact Nat.lt_of_le_of_lt (Nat.le_of_dvd positive (kept.product ▸ Nat.dvd_mul_left _ _)) wide

/-- One more factor is printed. -/
theorem Kept.prints (kept : Kept long N s) {p rest : Nat} (prime : p.Prime)
    (divides : s.N = p * rest) (above : ∀ q ∈ s.printed, q ≤ p) :
    (s.printed ++ [p]).prod * rest = N ∧ (∀ q ∈ s.printed ++ [p], q.Prime) ∧
      (s.printed ++ [p]).Pairwise (· ≤ ·) ∧ 0 < rest := by
  refine ⟨?_, ?_, ?_, ?_⟩
  · rw [List.prod_append, List.prod_singleton, Nat.mul_assoc, ← divides, kept.product]
  · intro q mem
    rcases List.mem_append.mp mem with before | this
    · exact kept.primes q before
    · exact List.mem_singleton.mp this ▸ prime
  · refine List.pairwise_append.mpr
      ⟨kept.sorted, List.pairwise_singleton _ _, fun q mem r last => ?_⟩
    rw [List.mem_singleton.mp last]
    exact above q mem
  · refine Nat.pos_of_ne_zero fun zero => ?_
    rw [zero, Nat.mul_zero] at divides
    exact absurd divides (Nat.ne_of_gt kept.positive)

/-- Without a factor below it a number that divides is prime. -/
theorem prime_of_rough {N factor : Nat} (least : 2 ≤ factor)
    (rough : ∀ p, p.Prime → p ∣ N → factor ≤ p) (divides : factor ∣ N) : factor.Prime := by
  have prime := Nat.minFac_prime (n := factor) (by omega)
  have inN := Nat.dvd_trans (Nat.minFac_dvd factor) divides
  have same := Nat.le_antisymm (rough _ prime inN) (Nat.minFac_le (by omega))
  rw [same]
  exact prime

theorem Kept.even (kept : Kept long N s) (isEven : s.label = .even) (more : s.N &&& 1 = 0) :
    Kept long N { s with N := s.N >>> 1, printed := s.printed ++ [2] } := by
  have half : s.N = 2 * (s.N >>> 1) := by
    rw [Nat.and_one_is_mod] at more
    rw [Nat.shiftRight_eq_div_pow]
    omega
  have below := kept.below
  rw [if_pos isEven] at below
  obtain ⟨product, primes, sorted, positive⟩ := kept.prints Nat.prime_two half below
  refine ⟨positive, product, primes, sorted, ?_, fun notEven => absurd isEven notEven⟩
  intro p mem
  simp only [if_pos isEven]
  rcases List.mem_append.mp mem with before | this
  · exact below p before
  · exact Nat.le_of_eq (List.mem_singleton.mp this)

theorem Kept.odd (kept : Kept long N s) (isEven : s.label = .even) (more : ¬s.N &&& 1 = 0) :
    Kept long N { s with
      label := .divide, maxFactor := isqrtOdd long s.N, sieveWord := sieveStart, factor := 3 } := by
  have odd : s.N % 2 = 1 := by
    rw [Nat.and_one_is_mod] at more
    omega
  have below := kept.below
  rw [if_pos isEven] at below
  refine ⟨kept.positive, kept.product, kept.primes, kept.sorted, fun p mem => ?_, fun _ => ?_⟩
  · simp only [reduceCtorEq, if_false]
    exact Nat.le_succ_of_le (below p mem)
  · have oddThree : 3 % 2 = 1 := rfl
    have narrow : 3 < 2 ^ 32 := by decide
    refine ⟨odd, oddThree, Nat.le_refl 3, narrow, rfl, sieveStart_eq, fun p prime divides => ?_,
      nofun⟩
    have notTwo : p ≠ 2 := by
      rintro rfl
      have twice : 2 ∣ s.N := divides
      omega
    exact Nat.lt_of_le_of_ne prime.two_le notTwo.symm

theorem Kept.divide (kept : Kept long N s) (isDivide : s.label = .divide)
    (divides : s.N % s.factor = 0) :
    Kept long N { s with
      N := s.N / s.factor, printed := s.printed ++ [s.factor],
      maxFactor := isqrtOdd long (s.N / s.factor) } := by
  have notEven : s.label ≠ .even := by
    rw [isDivide]
    nofun
  obtain ⟨odd, oddFactor, least, narrow, root, sieve, rough, passed⟩ := kept.trying notEven
  have below := kept.below
  rw [if_neg notEven] at below
  have whole : s.N = s.factor * (s.N / s.factor) :=
    (Nat.mul_div_cancel' (Nat.dvd_of_mod_eq_zero divides)).symm
  have prime := prime_of_rough (by omega) rough (Nat.dvd_of_mod_eq_zero divides)
  obtain ⟨product, primes, sorted, positive⟩ := kept.prints prime whole below
  refine ⟨positive, product, primes, sorted, fun p mem => ?_, fun _ => ?_⟩
  · simp only [if_neg notEven]
    rcases List.mem_append.mp mem with before | this
    · exact below p before
    · exact Nat.le_of_eq (List.mem_singleton.mp this)
  · refine ⟨?_, oddFactor, least, narrow, rfl, sieve, fun p prime inRest => ?_, ?_⟩
    · rw [whole, Nat.mul_mod, oddFactor, Nat.one_mul, Nat.mod_mod] at odd
      exact odd
    · exact rough p prime (whole ▸ Nat.dvd_mul_left_of_dvd inRest _)
    · intro isNext
      rw [isDivide] at isNext
      cases isNext

theorem Kept.passes (kept : Kept long N s) (isDivide : s.label = .divide)
    (divides : ¬s.N % s.factor = 0) : Kept long N { s with label := .nextFactor } := by
  have notEven : s.label ≠ .even := by
    rw [isDivide]
    nofun
  obtain ⟨odd, oddFactor, least, narrow, root, sieve, rough, passed⟩ := kept.trying notEven
  have below := kept.below
  rw [if_neg notEven] at below
  refine ⟨kept.positive, kept.product, kept.primes, kept.sorted, below, fun _ => ?_⟩
  exact ⟨odd, oddFactor, least, narrow, root, sieve, rough,
    fun _ divides' => divides (Nat.mod_eq_zero_of_dvd divides')⟩

theorem odd_of_dvd {N p : Nat} (odd : N % 2 = 1) (divides : p ∣ N) : p % 2 = 1 := by
  by_contra even
  have twice : 2 ∣ N := Nat.dvd_trans (Nat.dvd_of_mod_eq_zero (by omega)) divides
  omega

/-- What is left has no factor below the next odd number, either. -/
theorem Trying.rough_next (trying : Trying long s) (isNext : s.label = .nextFactor) :
    ∀ p, p.Prime → p ∣ s.N → s.factor + 2 ≤ p := by
  obtain ⟨odd, oddFactor, least, narrow, root, sieve, rough, passed⟩ := trying
  intro p prime divides
  have atLeast := rough p prime divides
  have other : p ≠ s.factor := fun same => passed isNext (same ▸ divides)
  have oddPrime := odd_of_dvd odd divides
  omega

/-- A multiple of a number below it does not divide what is left. -/
theorem not_dvd_of_multiple {N factor p : Nat} (prime : p.Prime)
    (rough : ∀ p, p.Prime → p ∣ N → factor ≤ p) (multiple : p ∣ factor) (less : p < factor) :
    ¬factor ∣ N :=
  fun divides => absurd (rough p prime (Nat.dvd_trans multiple divides)) (Nat.not_le_of_lt less)

/-- Below the root there is another odd number. -/
theorem Trying.room (trying : Trying long s) (positive : 0 < s.N) (wide : s.N < 2 ^ 64)
    (less : s.factor < s.maxFactor) : s.factor + 2 < 2 ^ 32 := by
  have narrow := isqrtOdd_lt long positive wide
  have oddRoot := isqrtOdd_eq long positive wide
  have oddFactor := trying.oddFactor
  rw [trying.root] at less
  omega

theorem Kept.next (kept : Kept long N s) (wide : N < 2 ^ 64) (isNext : s.label = .nextFactor)
    (more : turn long s = some s') : Kept long N s' := by
  have notEven : s.label ≠ .even := by
    rw [isNext]
    nofun
  have trying := kept.trying notEven
  have rough := trying.rough_next isNext
  have below := kept.below
  rw [if_neg notEven] at below
  simp only [turn, isNext] at more
  split at more
  case isTrue => cases more
  case isFalse less =>
    have room := trying.room kept.positive (kept.wide wide) (Nat.lt_of_not_le less)
    obtain ⟨count3, count5, count7, packed, counted, starts, full3, full5, full7⟩ :=
      sieve_step trying.oddFactor trying.least
    rw [trying.sieve, counted, Nat.mod_eq_of_lt room, restart_all packed, starts] at more
    have later (label : Label) (notEven' : label ≠ .even)
        (passes : label = .nextFactor → ¬s.factor + 2 ∣ s.N) :
        Kept long N
          { s with label, factor := s.factor + 2, sieveWord := sieveAt (s.factor + 2) } := by
      refine ⟨kept.positive, kept.product, kept.primes, kept.sorted, fun p mem => ?_, fun _ => ?_⟩
      · simp only [if_neg notEven']
        exact Nat.le_add_right_of_le (below p mem)
      · have oddNext : (s.factor + 2) % 2 = 1 := by rw [Nat.add_mod_right, trying.oddFactor]
        exact ⟨trying.odd, oddNext, Nat.le_add_right_of_le trying.least, room, trying.root, rfl,
          rough, passes⟩
    split at more
    case isTrue none =>
      obtain ⟨no3, no5, no7⟩ := (detected_iff packed).mp none
      rw [if_neg no3, if_neg no5, if_neg no7] at starts
      cases more
      rw [starts]
      exact later .divide nofun nofun
    case isFalse detected =>
      cases more
      have passes : ¬s.factor + 2 ∣ s.N := by
        rw [detected_iff packed] at detected
        have least := trying.least
        by_cases is3 : count3 = 4
        · exact not_dvd_of_multiple Nat.prime_three rough (full3 is3) (by omega)
        · by_cases is5 : count5 = 8
          · exact not_dvd_of_multiple Nat.prime_five rough (full5 is5).1 (full5 is5).2
          · have is7 : count7 = 16 := by
              by_contra no7
              exact detected ⟨is3, is5, no7⟩
            exact not_dvd_of_multiple (by decide) rough (full7 is7).1 (full7 is7).2
      exact later .nextFactor nofun fun _ => passes

theorem Kept.step (wide : N < 2 ^ 64) (kept : Kept long N s) (more : turn long s = some s') :
    Kept long N s' := by
  cases isLabel : s.label with
  | even =>
    simp only [turn, isLabel] at more
    split at more
    case isTrue more' =>
      cases more
      simpa only [isLabel] using kept.even isLabel more'
    case isFalse more' =>
      cases more
      exact kept.odd isLabel more'
  | divide =>
    simp only [turn, isLabel] at more
    split at more
    case isTrue divides =>
      cases more
      simpa only [isLabel] using kept.divide isLabel divides
    case isFalse divides =>
      cases more
      exact kept.passes isLabel divides
  | nextFactor => exact kept.next wide isLabel more

/-! ## The end -/

/-- How far the loops are from their end. -/
def remaining (s : Factoring) : Nat :=
  s.N * 2 ^ 40 +
    match s.label with
    | .even => 2 ^ 36
    | .divide => 2 * (2 ^ 32 - s.factor) + 1
    | .nextFactor => 2 * (2 ^ 32 - s.factor)

theorem remaining_lt (wide : N < 2 ^ 64) (kept : Kept long N s) (more : turn long s = some s') :
    remaining s' < remaining s := by
  have positive := kept.positive
  cases isLabel : s.label with
  | even =>
    simp only [turn, isLabel] at more
    split at more
    · cases more
      have half : s.N >>> 1 < s.N := by
        rw [Nat.shiftRight_eq_div_pow]
        omega
      simp only [remaining, isLabel]
      omega
    · cases more
      simp only [remaining, isLabel]
      omega
  | divide =>
    have notEven : s.label ≠ .even := by
      rw [isLabel]
      nofun
    have least := (kept.trying notEven).least
    simp only [turn, isLabel] at more
    split at more
    · cases more
      have less : s.N / s.factor < s.N := Nat.div_lt_self positive (by omega)
      simp only [remaining, isLabel]
      omega
    · cases more
      simp only [remaining, isLabel]
      omega
  | nextFactor =>
    have notEven : s.label ≠ .even := by
      rw [isLabel]
      nofun
    have trying := kept.trying notEven
    simp only [turn, isLabel] at more
    split at more
    case isTrue => cases more
    case isFalse less =>
      have room := trying.room positive (kept.wide wide) (Nat.lt_of_not_le less)
      rw [Nat.mod_eq_of_lt room] at more
      split at more
      · cases more
        simp only [remaining, isLabel]
        omega
      · cases more
        simp only [remaining, isLabel]
        omega

/-- Where the loops are left the rest is 1 or a prime number. -/
theorem Kept.rest_prime (wide : N < 2 ^ 64) (kept : Kept long N s) (done : turn long s = none)
    (more : 1 < s.N) : s.N.Prime ∧ ∀ p ∈ s.printed, p ≤ s.N := by
  have isNext : s.label = .nextFactor := by
    cases isLabel : s.label with
    | even =>
      simp only [turn, isLabel] at done
      split at done <;> cases done
    | divide =>
      simp only [turn, isLabel] at done
      split at done <;> cases done
    | nextFactor => rfl
  have notEven : s.label ≠ .even := by
    rw [isNext]
    nofun
  have trying := kept.trying notEven
  have atRoot : s.maxFactor ≤ s.factor := by
    by_contra less
    simp only [turn, isNext, if_neg less] at done
    split at done <;> cases done
  rw [trying.root] at atRoot
  have prime : s.N.Prime := by
    by_contra composite
    have divides := Nat.minFac_dvd s.N
    have isPrime := Nat.minFac_prime (Nat.ne_of_gt more)
    have above := trying.rough_next isNext _ isPrime divides
    have odd := odd_of_dvd trying.odd divides
    have square := Nat.minFac_sq_le_self kept.positive composite
    rw [pow_two] at square
    have inRoot := le_isqrtOdd long kept.positive (kept.wide wide) odd square
    omega
  refine ⟨prime, fun p mem => ?_⟩
  have below := kept.below p mem
  rw [if_neg notEven] at below
  exact Nat.le_trans below (trying.rough _ prime (Nat.dvd_refl _))

/-- The prime factors of a number in order, none of 0 and 1. -/
structure Factors (N : Nat) (factors : List Nat) : Prop where
  primes : ∀ p ∈ factors, p.Prime
  sorted : factors.Pairwise (· ≤ ·)
  product : N ≠ 0 → factors.prod = N
  nothing : N ≤ 1 → factors = []

theorem Kept.factors (wide : N < 2 ^ 64) (kept : Kept long N s) (done : turn long s = none)
    (large : 4 ≤ N) : Factors N (s.printed ++ if 1 < s.N then [s.N] else []) := by
  have atMostOne (small : N ≤ 1) : s.printed ++ (if 1 < s.N then [s.N] else []) = [] := by omega
  by_cases more : 1 < s.N
  · rw [if_pos more] at atMostOne ⊢
    obtain ⟨prime, above⟩ := kept.rest_prime wide done more
    obtain ⟨product, primes, sorted, -⟩ := kept.prints prime (Nat.mul_one _).symm above
    rw [Nat.mul_one] at product
    exact ⟨primes, sorted, fun _ => product, atMostOne⟩
  · rw [if_neg more] at atMostOne ⊢
    have one : s.N = 1 := Nat.le_antisymm (Nat.le_of_not_lt more) kept.positive
    have product := kept.product
    rw [one, Nat.mul_one] at product
    rw [List.append_nil] at atMostOne ⊢
    exact ⟨kept.primes, kept.sorted, fun _ => product, atMostOne⟩

/-- What is known in every state of the loops: another odd number fits into 32 bits, and the
counters skip only multiples of 3, 5 and 7. -/
structure Sieving (s : Factoring) : Prop where
  fits : s.label = .nextFactor → s.factor < s.maxFactor → s.factor + 2 < 2 ^ 32
  skips : s.label = .nextFactor → s.factor < s.maxFactor →
    (s.sieveWord + INCREMENT_EACH) % 2 ^ 32 &&& MULTIPLE_DETECTED ≠ 0 →
      3 ∣ s.factor + 2 ∨ 5 ∣ s.factor + 2 ∨ 7 ∣ s.factor + 2

theorem Kept.sieving (wide : N < 2 ^ 64) (kept : Kept long N s) : Sieving s := by
  have trying (isNext : s.label = .nextFactor) : Trying long s := by
    refine kept.trying ?_
    rw [isNext]
    nofun
  constructor
  · intro isNext less
    exact (trying isNext).room kept.positive (kept.wide wide) less
  · intro isNext less detected
    have here := trying isNext
    obtain ⟨count3, count5, count7, packed, counted, -, full3, full5, full7⟩ :=
      sieve_step here.oddFactor here.least
    rw [here.sieve, counted, Ne, detected_iff packed] at detected
    by_cases is3 : count3 = 4
    · exact .inl (full3 is3)
    · by_cases is5 : count5 = 8
      · exact .inr (.inl (full5 is5).1)
      · have is7 : count7 = 16 := by
          by_contra no7
          exact detected ⟨is3, is5, no7⟩
        exact .inr (.inr (full7 is7).1)

theorem kept_start (long : LongBits) {N : Nat} (large : 4 ≤ N) :
    Kept long N { label := .even, N } where
  positive := Nat.lt_of_lt_of_le (by decide) large
  product := by simp
  primes := nofun
  sorted := .nil
  below := nofun
  trying notEven := absurd rfl notEven

/-- Numbers below 4 are printed as they are. -/
theorem factors_small {N : Nat} (small : N < 4) : Factors N (if 1 < N then [N] else []) := by
  by_cases one : N ≤ 1
  · rw [if_neg (by omega)]
    refine ⟨nofun, .nil, fun nonzero => ?_, fun _ => rfl⟩
    rw [List.prod_nil]
    omega
  · rw [if_pos (by omega)]
    have prime : N.Prime := by
      obtain rfl | rfl : N = 2 ∨ N = 3 := by omega
      · exact Nat.prime_two
      · exact Nat.prime_three
    refine ⟨fun p mem => ?_, List.pairwise_singleton _ _, fun _ => List.prod_singleton,
      fun few => ?_⟩
    · rw [List.mem_singleton.mp mem]
      exact prime
    · exact absurd few one

/-- `factorize` returns for every number, prints its prime factors and nothing else, and skips only
multiples of 3, 5 and 7 on the way. -/
theorem factorizes_factors (long : LongBits) (N : UInt64) :
    (∃ factors, Factors N.toNat factors ∧
      ∀ line, Factorizes long N.toNat line ↔ line = text factors) ∧
    (∀ s, Loops.Reaches (turn long) { label := .even, N := N.toNat } s → 4 ≤ N.toNat →
      Sieving s) ∧
    isqrt long N.toNat = Nat.sqrt N.toNat := by
  have wide : N.toNat < 2 ^ 64 := N.toNat_lt
  refine ⟨?_, fun s reaches large => ?_, isqrt_eq long wide⟩
  · by_cases small : N.toNat < 4
    · refine ⟨_, factors_small small, fun line => ?_⟩
      rw [Factorizes, if_pos small]
      rfl
    · have large := Nat.le_of_not_lt small
      obtain ⟨last, leaves, kept, done⟩ := Loops.exists_leaves remaining
        (fun _ _ kept more => Kept.step wide kept more)
        (fun _ _ kept more => remaining_lt wide kept more) (kept_start long large)
      refine ⟨_, kept.factors wide done large, fun line => ?_⟩
      rw [Factorizes, if_neg small]
      constructor
      · rintro ⟨last', leaves', rfl⟩
        rw [Loops.leaves_unique leaves leaves']
        rfl
      · rintro rfl
        exact ⟨last, leaves, rfl⟩
  · exact (Loops.invariant_of_reaches (fun _ _ kept more => Kept.step wide kept more)
      (kept_start long large) reaches).sieving wide

end Busybox.Coreutils.Factor
