import Mathlib.Tactic.Common
import Mathlib.Tactic.Ring
import Mathlib.Tactic.Linarith
import Mathlib.Algebra.Order.Ring.Int
import Mathlib.Data.List.DropRight

/-!
# Arithmetic on lists of digits

Numbers as lists of digits, the lowest first, with the loops by which programs add,
subtract and compare them. Digits are integers: a loop may leave one that is negative or too
large for a while.
-/

namespace Busybox.Lib.Digits

variable (base : ℤ)

def value : List ℤ → ℤ
  | [] => 0
  | d :: ds => d + base * value ds

/-- No digit is negative or too large. -/
def Proper (ds : List ℤ) : Prop := ∀ d ∈ ds, 0 ≤ d ∧ d < base

variable {base}

@[simp] theorem value_nil : value base [] = 0 := rfl

@[simp] theorem value_cons (d : ℤ) (ds : List ℤ) :
    value base (d :: ds) = d + base * value base ds := rfl

theorem value_append (ds es : List ℤ) :
    value base (ds ++ es) = value base ds + base ^ ds.length * value base es := by
  induction ds with
  | nil => simp
  | cons d ds ih =>
    rw [List.cons_append, value_cons, ih, value_cons, List.length_cons, pow_succ]
    ring

@[simp] theorem value_replicate_zero (n : ℕ) : value base (List.replicate n 0) = 0 := by
  induction n with
  | zero => rfl
  | succ n ih => rw [List.replicate_succ, value_cons, ih, mul_zero, add_zero]

/-- Digits put below shift the others. -/
theorem value_zeros_append (n : ℕ) (ds : List ℤ) :
    value base (List.replicate n 0 ++ ds) = base ^ n * value base ds := by
  rw [value_append, value_replicate_zero, List.length_replicate, zero_add]

theorem value_append_zeros (n : ℕ) (ds : List ℤ) :
    value base (ds ++ List.replicate n 0) = value base ds := by
  rw [value_append, value_replicate_zero, mul_zero, add_zero]

@[simp] theorem proper_nil : Proper base [] := fun _ none => nomatch none

@[simp] theorem proper_cons {d : ℤ} {ds : List ℤ} :
    Proper base (d :: ds) ↔ (0 ≤ d ∧ d < base) ∧ Proper base ds :=
  List.forall_mem_cons

theorem proper_append {ds es : List ℤ} :
    Proper base (ds ++ es) ↔ Proper base ds ∧ Proper base es :=
  List.forall_mem_append

theorem proper_zeros (positive : 0 < base) (n : ℕ) : Proper base (List.replicate n 0) := by
  intro d mem
  rw [List.eq_of_mem_replicate mem]
  exact ⟨le_refl 0, positive⟩

theorem Proper.sublist {ds es : List ℤ} (proper : Proper base es) (sub : ds.Sublist es) :
    Proper base ds :=
  fun d mem => proper d (sub.subset mem)

theorem Proper.nonneg (positive : 0 < base) {ds : List ℤ} (proper : Proper base ds) :
    0 ≤ value base ds := by
  induction ds with
  | nil => exact le_refl 0
  | cons d ds ih =>
    obtain ⟨digit, rest⟩ := proper_cons.mp proper
    exact add_nonneg digit.1 (mul_nonneg positive.le (ih rest))

theorem Proper.lt (positive : 0 < base) {ds : List ℤ} (proper : Proper base ds) :
    value base ds < base ^ ds.length := by
  induction ds with
  | nil => simp
  | cons d ds ih =>
    obtain ⟨digit, rest⟩ := proper_cons.mp proper
    have below : value base ds + 1 ≤ base ^ ds.length := ih rest
    calc d + base * value base ds
        < base + base * value base ds := by linarith [digit.2]
      _ = base * (value base ds + 1) := by ring
      _ ≤ base * base ^ ds.length := mul_le_mul_of_nonneg_left below positive.le
      _ = base ^ (d :: ds).length := (pow_succ' base ds.length).symm

/-- A number with a digit that is not zero at the top is as large as its length says. -/
theorem Proper.pow_le (positive : 0 < base) {ds : List ℤ} {d : ℤ}
    (proper : Proper base (ds ++ [d])) (top : d ≠ 0) :
    base ^ ds.length ≤ value base (ds ++ [d]) := by
  obtain ⟨low, high⟩ := proper_append.mp proper
  have digit : 1 ≤ d := by
    have := (proper_cons.mp high).1.1
    omega
  rw [value_append, value_cons, value_nil, mul_zero, add_zero]
  have scaled : base ^ ds.length * 1 ≤ base ^ ds.length * d :=
    mul_le_mul_of_nonneg_left digit (pow_nonneg positive.le _)
  linarith [low.nonneg positive]

theorem value_take_drop (n : ℕ) (ds : List ℤ) (long : n ≤ ds.length) :
    value base ds = value base (ds.take n) + base ^ n * value base (ds.drop n) := by
  conv_lhs => rw [← List.take_append_drop n ds]
  rw [value_append, List.length_take, min_eq_left long]

/-- Dropping low digits divides. -/
theorem Proper.drop (positive : 0 < base) {ds : List ℤ} (proper : Proper base ds) (n : ℕ) :
    value base (ds.drop n) = value base ds / base ^ n := by
  rcases Nat.le_total n ds.length with long | short
  · have low : Proper base (ds.take n) := proper.sublist (List.take_sublist ..)
    have below := low.lt positive
    rw [List.length_take, min_eq_left long] at below
    rw [value_take_drop n ds long, Int.add_mul_ediv_left _ _ (pow_pos positive n).ne',
      Int.ediv_eq_zero_of_lt (low.nonneg positive) below, zero_add]
  · have below : value base ds < base ^ n :=
      (proper.lt positive).trans_le (pow_le_pow_right₀ positive short)
    rw [List.drop_of_length_le short, value_nil,
      Int.ediv_eq_zero_of_lt (proper.nonneg positive) below]

/-- With a zero at the top a number is smaller than its length allows. -/
theorem Proper.lt_of_top_zero (positive : 0 < base) {low : List ℤ}
    (proper : Proper base (low ++ [0])) : value base (low ++ [0]) < base ^ low.length := by
  rw [value_append, value_cons, value_nil, mul_zero, add_zero, mul_zero, add_zero]
  exact (proper_append.mp proper).1.lt positive

/-! ## Digit by digit -/

theorem forall_mem_zipWith {f : ℤ → ℤ → ℤ} {p : ℤ → Prop} {xs ys : List ℤ}
    (each : ∀ x ∈ xs, ∀ y ∈ ys, p (f x y)) : ∀ s ∈ List.zipWith f xs ys, p s := by
  induction xs generalizing ys with
  | nil => simp
  | cons x xs ih =>
    cases ys with
    | nil => simp
    | cons y ys =>
      refine List.forall_mem_cons.mpr ⟨each x (List.mem_cons_self ..) y (List.mem_cons_self ..), ?_⟩
      exact ih fun x mem y mem' =>
        each x (List.mem_cons_of_mem _ mem) y (List.mem_cons_of_mem _ mem')

/-- The digits of one number with multiples of the other's added. -/
theorem value_zipWith {f : ℤ → ℤ → ℤ} (k : ℤ) (linear : ∀ x y, f x y = x + y * k) {xs ys : List ℤ}
    (same : xs.length = ys.length) :
    value base (List.zipWith f xs ys) = value base xs + value base ys * k := by
  induction xs generalizing ys with
  | nil =>
    cases ys with
    | nil => simp
    | cons y ys => cases same
  | cons x xs ih =>
    cases ys with
    | nil => cases same
    | cons y ys =>
      rw [List.zipWith_cons_cons, value_cons, ih (Nat.succ.inj same), linear, value_cons,
        value_cons]
      ring

/-- The sums of two numbers' digits, those of the longer one alone at the top. -/
theorem value_overlap {xs ys : List ℤ} (shorter : ys.length ≤ xs.length) :
    value base (List.zipWith (· + ·) (xs.take ys.length) ys ++ xs.drop ys.length)
      = value base xs + value base ys := by
  have lengths : (xs.take ys.length).length = ys.length := by
    rw [List.length_take, min_eq_left shorter]
  rw [value_append, value_zipWith 1 (fun x y => by rw [mul_one]) lengths, List.length_zipWith,
    lengths, min_self, value_take_drop ys.length xs shorter]
  ring

/-! ## Leading zeros -/

/-- The digits without the zeros at the top. -/
def strip (ds : List ℤ) : List ℤ := ds.rdropWhile (· = 0)

theorem strip_zeros (ds : List ℤ) : ∃ n, ds = strip ds ++ List.replicate n 0 := by
  induction ds using List.reverseRecOn with
  | nil => exact ⟨0, rfl⟩
  | append_singleton ds d ih =>
    unfold strip
    rw [List.rdropWhile_concat]
    split
    · next zero =>
      obtain ⟨n, whole⟩ := ih
      refine ⟨n + 1, ?_⟩
      rw [of_decide_eq_true zero, List.replicate_succ', ← List.append_assoc]
      exact congrArg (· ++ [0]) whole
    · exact ⟨0, (List.append_nil _).symm⟩

theorem value_strip (ds : List ℤ) : value base (strip ds) = value base ds := by
  obtain ⟨n, whole⟩ := strip_zeros ds
  conv_rhs => rw [whole]
  exact (value_append_zeros n _).symm

theorem strip_length_le (ds : List ℤ) : (strip ds).length ≤ ds.length :=
  (List.rdropWhile_prefix _ _).length_le

/-- What is left has a digit at the top that is not zero. -/
theorem strip_top (ds : List ℤ) : strip ds = [] ∨ ∃ low d, strip ds = low ++ [d] ∧ d ≠ 0 := by
  rcases List.eq_nil_or_concat' (strip ds) with none | ⟨low, d, whole⟩
  · exact .inl none
  · refine .inr ⟨low, d, whole, ?_⟩
    have last := List.rdropWhile_last_not (· = (0 : ℤ)) ds (by
      show strip ds ≠ []
      simp [whole])
    intro zero
    apply last
    have top : (strip ds).getLast (by simp [whole]) = d := by simp [whole]
    exact decide_eq_true (top.trans zero)

/-- Only zeros are left out, so what is left is nothing exactly for a zero. -/
theorem strip_eq_nil (positive : 0 < base) {ds : List ℤ} (proper : Proper base ds) :
    strip ds = [] ↔ value base ds = 0 := by
  constructor
  · intro none
    rw [← value_strip, none, value_nil]
  · intro zero
    rcases strip_top ds with none | ⟨low, d, whole, top⟩
    · exact none
    · exfalso
      have left : Proper base (low ++ [d]) := by
        rw [← whole]
        exact proper.sublist (List.rdropWhile_prefix _ _).sublist
      have large := left.pow_le positive top
      rw [← whole, value_strip, zero] at large
      exact absurd large (not_le.mpr (pow_pos positive _))

/-! ## Carrying -/

variable (base) in
/-- The loop that carries: the digits of the sums, and what is carried out. -/
def carry : ℤ → List ℤ → List ℤ × ℤ
  | c, [] => ([], c)
  | c, s :: sums =>
    ((s + c) % base :: (carry ((s + c) / base) sums).1, (carry ((s + c) / base) sums).2)

variable (base) in
theorem carry_length (c : ℤ) (sums : List ℤ) : (carry base c sums).1.length = sums.length := by
  induction sums generalizing c with
  | nil => rfl
  | cons s sums ih => exact congrArg (· + 1) (ih _)

variable (base) in
theorem value_carry (c : ℤ) (sums : List ℤ) :
    value base (carry base c sums).1 + base ^ sums.length * (carry base c sums).2
      = value base sums + c := by
  induction sums generalizing c with
  | nil => simp [carry]
  | cons s sums ih =>
    have step := ih ((s + c) / base)
    have division := Int.emod_add_mul_ediv (s + c) base
    calc (s + c) % base + base * value base (carry base ((s + c) / base) sums).1
          + base ^ (sums.length + 1) * (carry base ((s + c) / base) sums).2
        = (s + c) % base + base * (value base (carry base ((s + c) / base) sums).1
            + base ^ sums.length * (carry base ((s + c) / base) sums).2) := by ring
      _ = (s + c) % base + base * ((s + c) / base) + base * value base sums := by
        rw [step]
        ring
      _ = s + base * value base sums + c := by
        rw [division]
        ring

variable (base) in
theorem carry_proper (positive : 0 < base) (c : ℤ) (sums : List ℤ) :
    Proper base (carry base c sums).1 := by
  induction sums generalizing c with
  | nil => exact proper_nil
  | cons s sums ih =>
    exact proper_cons.mpr
      ⟨⟨Int.emod_nonneg _ positive.ne', Int.emod_lt_of_pos _ positive⟩, ih _⟩

variable (base) in
/-- What is carried stays small if the sums do. -/
theorem carry_le (positive : 0 < base) {most : ℤ} {c : ℤ} {sums : List ℤ}
    (small : ∀ s ∈ sums, 0 ≤ s ∧ s + most < base * (most + 1)) (start : 0 ≤ c ∧ c ≤ most) :
    0 ≤ (carry base c sums).2 ∧ (carry base c sums).2 ≤ most := by
  induction sums generalizing c with
  | nil => exact start
  | cons s sums ih =>
    obtain ⟨first, rest⟩ := List.forall_mem_cons.mp small
    refine ih rest ⟨Int.ediv_nonneg (by omega) positive.le, ?_⟩
    rw [← Int.lt_add_one_iff]
    apply Int.ediv_lt_of_lt_mul positive
    rw [mul_comm]
    omega

/-! ## Borrowing -/

variable (base) in
/-- The loop that borrows for a digit from those above it, until it finds one. -/
def borrow : ℤ → List ℤ → Option (List ℤ)
  | d, [] => if d < 0 then none else some [d]
  | d, e :: es => if d < 0 then (borrow (e - 1) es).map ((d + base) :: ·) else some (d :: e :: es)

theorem borrow_spec {d : ℤ} {ds : List ℤ} (proper : Proper base ds)
    (low : - base ≤ d) (high : d < base) (nonneg : 0 ≤ value base (d :: ds)) :
    ∃ d' ds', borrow base d ds = some (d' :: ds') ∧ Proper base (d' :: ds') ∧
      value base (d' :: ds') = value base (d :: ds) ∧ ds'.length = ds.length := by
  induction ds generalizing d with
  | nil =>
    have positive : ¬ d < 0 := by simpa using nonneg
    exact ⟨d, [], if_neg positive, proper_cons.mpr ⟨⟨not_lt.mp positive, high⟩, proper_nil⟩,
      rfl, rfl⟩
  | cons e es ih =>
    obtain ⟨digit, rest⟩ := proper_cons.mp proper
    by_cases negative : d < 0
    · have positive : 0 < base := by omega
      -- the digits above are worth something, or the number would be negative
      have above : 0 ≤ value base ((e - 1) :: es) := by
        simp only [value_cons] at nonneg ⊢
        have more : 0 < base * (e + base * value base es) := by linarith
        have := pos_of_mul_pos_right more positive.le
        omega
      obtain ⟨d', ds', borrows, proper', same, length⟩ :=
        ih rest (by omega) (by omega) above
      refine ⟨d + base, d' :: ds', ?_, proper_cons.mpr ⟨⟨by omega, by omega⟩, proper'⟩, ?_,
        congrArg (· + 1) length⟩
      · unfold borrow
        rw [if_pos negative, borrows, Option.map_some]
      · rw [value_cons, same]
        simp only [value_cons]
        ring
    · exact ⟨d, e :: es, if_neg negative, proper_cons.mpr ⟨⟨not_lt.mp negative, high⟩, proper⟩,
        rfl, rfl⟩

/-! ## Comparing -/

/-- The loop that compares two numbers of the same length from the top: the place of
the first digits that differ, with the sign of the difference. -/
def compare (ds es : List ℤ) : ℕ → ℤ
  | 0 => 0
  | i + 1 =>
    let c := ds.getD i 0 - es.getD i 0
    if c = 0 then compare ds es i else if c < 0 then -((i : ℤ) + 1) else (i : ℤ) + 1

theorem value_take_succ {ds : List ℤ} {i : ℕ} (long : i < ds.length) :
    value base (ds.take (i + 1)) = value base (ds.take i) + base ^ i * ds.getD i 0 := by
  rw [List.take_succ_eq_append_getElem long, value_append, List.length_take,
    min_eq_left long.le, List.getD_eq_getElem?_getD, List.getElem?_eq_getElem long]
  simp

theorem compare_spec (positive : 0 < base) {ds es : List ℤ} (proper : Proper base ds)
    (proper' : Proper base es) (n : ℕ) (long : n ≤ ds.length) (long' : n ≤ es.length) :
    (compare ds es n < 0 ↔ value base (ds.take n) < value base (es.take n)) ∧
      (0 < compare ds es n ↔ value base (es.take n) < value base (ds.take n)) := by
  induction n with
  | zero => simp [compare]
  | succ i ih =>
    have low := (proper.sublist (List.take_sublist i ds)).nonneg positive
    have high := (proper.sublist (List.take_sublist i ds)).lt positive
    have low' := (proper'.sublist (List.take_sublist i es)).nonneg positive
    have high' := (proper'.sublist (List.take_sublist i es)).lt positive
    rw [List.length_take, min_eq_left (by omega)] at high high'
    rw [value_take_succ long, value_take_succ long']
    obtain ⟨less, more⟩ := ih (by omega) (by omega)
    have power := pow_pos positive i
    unfold compare
    dsimp only
    split
    · next same =>
      have equal : ds.getD i 0 = es.getD i 0 := by omega
      rw [equal, less, more]
      constructor <;> constructor <;> intro h <;> linarith
    · next differ =>
      -- a digit that is larger makes up for all the digits below it
      split
      · next negative =>
        have step : base ^ i * (ds.getD i 0 + 1) ≤ base ^ i * es.getD i 0 :=
          mul_le_mul_of_nonneg_left (by omega) power.le
        rw [mul_add, mul_one] at step
        constructor
        · refine iff_of_true (by omega) (by linarith)
        · refine iff_of_false (by omega) (by linarith)
      · next positive' =>
        have step : base ^ i * (es.getD i 0 + 1) ≤ base ^ i * ds.getD i 0 :=
          mul_le_mul_of_nonneg_left (by omega) power.le
        rw [mul_add, mul_one] at step
        constructor
        · refine iff_of_false (by omega) (by linarith)
        · refine iff_of_true (by omega) (by linarith)

theorem compare_whole (positive : 0 < base) {ds es : List ℤ} (proper : Proper base ds)
    (proper' : Proper base es) (same : ds.length = es.length) :
    (compare ds es es.length < 0 ↔ value base ds < value base es) ∧
      (0 < compare ds es es.length ↔ value base es < value base ds) := by
  have spec := compare_spec positive proper proper' es.length same.ge le_rfl
  rw [List.take_of_length_le same.le, List.take_length] at spec
  exact spec

theorem value_eq_zero (positive : 0 < base) {ds : List ℤ} (proper : Proper base ds) :
    value base ds = 0 ↔ ∀ d ∈ ds, d = 0 := by
  induction ds with
  | nil => simp
  | cons d ds ih =>
    obtain ⟨digit, rest⟩ := proper_cons.mp proper
    have nonneg := mul_nonneg positive.le (rest.nonneg positive)
    rw [value_cons, List.forall_mem_cons, ← ih rest]
    constructor
    · intro zero
      refine ⟨by omega, ?_⟩
      have none : base * value base ds = 0 := by omega
      exact (mul_eq_zero.mp none).resolve_left positive.ne'
    · rintro ⟨zero, zero'⟩
      rw [zero, zero', mul_zero, add_zero]

/-- Where the numbers are equal but for further low digits of one of them, these decide. -/
theorem compare_low (positive : 0 < base) {low ds es : List ℤ} (proper : Proper base (low ++ ds))
    (proper' : Proper base es) (same : ds.length = es.length) :
    let c := if compare ds es es.length ≠ 0 then compare ds es es.length
      else if low.any (· ≠ 0) then 1 else 0
    (c < 0 ↔ value base (low ++ ds) < base ^ low.length * value base es) ∧
      (0 < c ↔ base ^ low.length * value base es < value base (low ++ ds)) := by
  obtain ⟨properLow, properDs⟩ := proper_append.mp proper
  obtain ⟨less, more⟩ := compare_whole positive properDs proper' same
  have nonneg := properLow.nonneg positive
  have below := properLow.lt positive
  have power : 0 < base ^ low.length := pow_pos positive _
  rw [value_append]
  dsimp only
  split
  · next differ =>
    rw [less, more]
    rcases lt_or_gt_of_ne differ with negative | positive'
    · have step : base ^ low.length * (value base ds + 1) ≤ base ^ low.length * value base es :=
        mul_le_mul_of_nonneg_left (less.mp negative) power.le
      rw [mul_add, mul_one] at step
      have smaller := less.mp negative
      exact ⟨iff_of_true smaller (by linarith), iff_of_false smaller.not_gt (by linarith)⟩
    · have step : base ^ low.length * value base es ≤ base ^ low.length * value base ds :=
        mul_le_mul_of_nonneg_left (more.mp positive').le power.le
      have step' : base ^ low.length * (value base es + 1) ≤ base ^ low.length * value base ds :=
        mul_le_mul_of_nonneg_left (more.mp positive') power.le
      rw [mul_add, mul_one] at step'
      have larger := more.mp positive'
      exact ⟨iff_of_false larger.not_gt (by linarith), iff_of_true larger (by linarith)⟩
  · next zero =>
    have equal : value base ds = value base es := by
      have notLess := less.not.mp (by omega)
      have notMore := more.not.mp (by omega)
      omega
    rw [equal]
    split
    · next some =>
      have positive' : value base low ≠ 0 := by
        rw [Ne, value_eq_zero positive properLow]
        intro zeros
        obtain ⟨d, mem, nonzero⟩ := List.any_eq_true.mp some
        exact absurd (zeros d mem) (of_decide_eq_true nonzero)
      exact ⟨iff_of_false (by decide) (by omega), iff_of_true (by decide) (by omega)⟩
    · next none =>
      have zero' : value base low = 0 := by
        rw [value_eq_zero positive properLow]
        intro d mem
        by_contra nonzero
        exact none (List.any_eq_true.mpr ⟨d, mem, decide_eq_true nonzero⟩)
      rw [zero', zero_add]
      exact ⟨iff_of_false (by decide) (lt_irrefl _), iff_of_false (by decide) (lt_irrefl _)⟩

end Busybox.Lib.Digits
