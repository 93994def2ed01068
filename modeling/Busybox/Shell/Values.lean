import Busybox.Shell.Grammar
import Busybox.Shell.Runs

/-!
# Numbers as variable values

`setvar` stores a number in decimal, and a name is looked up by evaluating its value
as an expression. `Numeric` says that every value is a plain number, with or without a
minus sign; then a look-up finds that number and changes nothing, and an assignment
keeps it so.
-/

namespace Busybox.Shell

open Fallible

/-! ## Digits -/

/-- The characters of the decimal digits. -/
theorem digit_ofNat : ∀ m < 10, digitValue (UInt8.ofNat (48 + m)) = some m ∧
    isdigit (UInt8.ofNat (48 + m)) = true ∧ (UInt8.ofNat (48 + m) = 48 → m = 0) := by
  decide

/-- Reading the decimal digits of a number gives it back. -/
theorem readDigits_decimalDigits {count n : Nat} (fits : n < 10 ^ count) (acc : Nat) (tail : Str) :
    readDigits 10 acc (decimalDigits count n ++ tail) =
      readDigits 10 (acc * 10 ^ (decimalDigits count n).length + n) tail := by
  have digit {m : Nat} (small : m < 10) (acc : Nat) (tail : Str) :
      readDigits 10 acc (UInt8.ofNat (48 + m) :: tail) = readDigits 10 (acc * 10 + m) tail := by
    rw [readDigits, (digit_ofNat m small).1]
    exact if_pos small
  induction count generalizing n tail with
  | zero =>
    obtain rfl : n = 0 := by simpa using fits
    simp [decimalDigits]
  | succ count ih =>
    rw [decimalDigits]
    split
    · next small =>
      rw [List.singleton_append, digit small]
      simp
    · have quotient : n / 10 < 10 ^ count := by
        rw [Nat.pow_succ] at fits
        omega
      have remainder : n % 10 < 10 := Nat.mod_lt _ (by decide)
      rw [List.append_assoc, ih quotient, List.singleton_append, digit remainder,
        List.length_append, List.length_singleton, Nat.pow_succ]
      congr 1
      rw [← Nat.mul_assoc]
      omega

/-- A decimal number starts with a digit, and with 0 only if it is 0. -/
theorem decimalDigits_head {count n : Nat} (fits : n < 10 ^ count) (positive : 0 < count) :
    ∃ c rest, decimalDigits count n = c :: rest ∧ isdigit c = true ∧
      (c = 48 → n = 0 ∧ rest = []) := by
  induction count generalizing n with
  | zero => exact absurd positive (Nat.lt_irrefl 0)
  | succ count ih =>
    rw [decimalDigits]
    split
    · next small =>
      obtain ⟨-, isDigit, zero⟩ := digit_ofNat n small
      exact ⟨_, [], rfl, isDigit, fun leading => ⟨zero leading, rfl⟩⟩
    · next large =>
      have quotient : n / 10 < 10 ^ count := by
        rw [Nat.pow_succ] at fits
        omega
      have more : 0 < count := by
        by_contra none
        obtain rfl : count = 0 := by omega
        omega
      obtain ⟨c, rest, eq, isDigit, zero⟩ := ih quotient more
      rw [eq]
      refine ⟨c, rest ++ _, rfl, isDigit, fun leading => ?_⟩
      have := (zero leading).1
      omega

theorem strtoArith_decimalDigits {n : Nat} (fits : n < 2 ^ 64) :
    strtoArith (decimalDigits 20 n) = (Int64.ofNat n, []) := by
  have enough : n < 10 ^ 20 := lt_trans fits (by decide)
  have read : strtoull (decimalDigits 20 n) = (n, []) := by
    have value := readDigits_decimalDigits enough 0 []
    rw [List.append_nil, Nat.zero_mul, Nat.zero_add, readDigits] at value
    obtain ⟨c, rest, eq, -, zero⟩ := decimalDigits_head enough (by decide)
    rw [eq] at value ⊢
    by_cases leading : c = 48
    · obtain ⟨rfl, rfl⟩ := zero leading
      rw [leading]
      rfl
    · unfold strtoull
      split
      · next same => exact absurd (List.cons.inj same).1 leading
      · next same => exact absurd (List.cons.inj same).1 leading
      · exact value
  simp only [strtoArith, read, List.head?_nil]
  rw [if_neg (by simp), if_pos fits]

/-! ## Values -/

/-- The text is a plain number: a literal, with or without a minus sign. -/
def NumericText (text : Str) (val : Int64) : Prop :=
  (∃ c rest, text = c :: rest ∧ isdigit c = true ∧ strtoArith text = (val, [])) ∨
    ∃ c rest magnitude, text = 45 :: c :: rest ∧ isdigit c = true ∧
      strtoArith (c :: rest) = (magnitude, []) ∧ val = -magnitude

/-- What `setvar` is given is a plain number. -/
theorem numericText_decimal (val : Int64) : NumericText (decimal val) val := by
  have lower := val.le_toInt
  have upper := val.toInt_lt
  unfold decimal
  split
  · next negative =>
    obtain ⟨c, rest, eq, isDigit, -⟩ :=
      decimalDigits_head (show (-val.toInt).toNat < 10 ^ 20 by omega) (by decide)
    have value := strtoArith_decimalDigits (n := (-val.toInt).toNat) (by omega)
    rw [eq] at value ⊢
    refine .inr ⟨c, rest, _, rfl, isDigit, value, ?_⟩
    rw [← Int64.ofInt_eq_ofNat, Int.toNat_of_nonneg (by omega), Int64.ofInt_neg,
      Int64.ofInt_toInt, Int64.neg_neg]
  · next natural =>
    obtain ⟨c, rest, eq, isDigit, -⟩ :=
      decimalDigits_head (show val.toInt.toNat < 10 ^ 20 by omega) (by decide)
    have value := strtoArith_decimalDigits (n := val.toInt.toNat) (by omega)
    rw [eq] at value ⊢
    refine .inl ⟨c, rest, rfl, isDigit, ?_⟩
    rw [value, ← Int64.ofInt_eq_ofNat, Int.toNat_of_nonneg (by omega), Int64.ofInt_toInt]

section Evaluation

variable {eval : Evaluator} {recursed : List Str} {vars : Vars}

/-- Digits are no letters, spaces or signs. -/
theorem isdigit_facts {c : UInt8} (digit : isdigit c = true) :
    isName c = false ∧ isspace c = false ∧ c ≠ 45 ∧ c ≠ 61 := by
  have all : ∀ n < 256, isdigit (UInt8.ofNat n) = true →
      isName (UInt8.ofNat n) = false ∧ isspace (UInt8.ofNat n) = false ∧
        UInt8.ofNat n ≠ 45 ∧ UInt8.ofNat n ≠ 61 := by decide +kernel
  have here := all c.toNat c.toNat_lt
  rw [UInt8.ofNat_toNat] at here
  exact here digit

theorem readToken_num {c : UInt8} {rest rest' : Str} {val : Int64} (literal : Bool)
    (digit : isdigit c = true) (read : strtoArith (c :: rest) = (val, rest')) :
    readToken literal (c :: rest) = some (.num val, rest') := by
  simp [readToken, splitName, isdigit_facts digit, digit, read]

/-- A minus sign before a digit is one. -/
theorem readToken_minus {c : UInt8} {rest : Str} (digit : isdigit c = true) :
    readToken false (45 :: c :: rest) = some (.op .sub, c :: rest) := by
  obtain ⟨-, -, noMinus, noEqual⟩ := isdigit_facts digit
  have matched : matchOperator (45 :: c :: rest) = some (.sub, c :: rest) := by
    simp [matchOperator, opTokens, bytes, List.isPrefixOf, noMinus.symm, noEqual.symm]
  simp [readToken, splitName, isName, isalpha, isdigit, matched]

theorem skipWhitespace_cons {c : UInt8} {rest : Str} (visible : isspace c = false) :
    skipWhitespace (c :: rest) = c :: rest := by
  simp [skipWhitespace, visible]

/-- A plain number evaluates to itself and leaves the variables alone. -/
theorem evaluateWith_numeric {text : Str} {val : Int64} (numeric : NumericText text val) :
    evaluateWith eval recursed vars text = some ⟨val, none, vars⟩ := by
  have number {c : UInt8} {rest : Str} {val : Int64} (digit : isdigit c = true)
      (read : strtoArith (c :: rest) = (val, [])) :
      skipWhitespace (c :: rest) = c :: rest ∧
        readToken false (skipWhitespace (c :: rest)) = some (.num val, []) := by
    rw [skipWhitespace_cons (isdigit_facts digit).2.1]
    exact ⟨rfl, readToken_num false digit read⟩
  rcases numeric with ⟨c, rest, rfl, digit, read⟩ | ⟨c, rest, magnitude, rfl, digit, read, rfl⟩
  · obtain ⟨visible, read⟩ := number digit read
    refine evaluateWith_of_leads (by simp [visible]) ?_
    rw [visible]
    have first : step eval recursed (startScan (c :: rest) vars) =
        .next ⟨[], false, .num, [.ofNum val], [.lparen], vars⟩ :=
      (step_token rfl read).trans rfl
    exact .turn first (leads_close [] (.ofNum val) rfl rfl rfl rfl rfl (by simp) rfl rfl)
  · obtain ⟨-, read⟩ := number digit read
    have minus : skipWhitespace (45 :: c :: rest) = 45 :: c :: rest := rfl
    refine evaluateWith_of_leads (by simp [minus]) ?_
    rw [minus]
    have first : step eval recursed (startScan (45 :: c :: rest) vars) =
        .next ⟨c :: rest, false, .uminus, [], [.uminus, .lparen], vars⟩ :=
      (step_token rfl (readToken_minus digit)).trans rfl
    have second : step eval recursed ⟨c :: rest, false, .uminus, [], [.uminus, .lparen], vars⟩ =
        .next ⟨[], false, .num, [.ofNum magnitude], [.uminus, .lparen], vars⟩ :=
      (step_token rfl read).trans rfl
    exact .turn first (.turn second
      (leads_close [.uminus] (.ofNum (-magnitude)) rfl rfl rfl rfl rfl (by simp) rfl rfl))

theorem evaluateString_numeric {depth : Nat} {text : Str} {val : Int64}
    (numeric : NumericText text val) :
    evaluateString (depth + 1) recursed vars text = ⟨val, none, vars⟩ := by
  rw [evaluateString, evaluateWith_numeric numeric, Option.getD_some]

/-- Every variable holds a plain number, the one the environment gives it. -/
def Numeric (vars : Vars) (env : Env) : Prop :=
  ∀ name, match vars name with
    | none => env name = 0
    | some text => NumericText text (env name)

/-- An assignment keeps the values plain numbers. -/
theorem Numeric.set {env : Env} (numeric : Numeric vars env) (name : Str) (val : Int64) :
    Numeric (vars.set name (decimal val)) (env.set name val) := by
  intro other
  by_cases same : other = name
  · simp only [Vars.set, Env.set, if_pos same]
    exact numericText_decimal val
  · simp only [Vars.set, Env.set, if_neg same]
    exact numeric other

/-- The entry of `numstack` stands for the operand. -/
structure Stands (entry : VarOrNum) (x : Operand) : Prop where
  single : entry.secondValPresent = false
  same : match x with
    | .number val => entry.var = none ∧ entry.val = val
    | .lvalue name => entry.var = some name

theorem stands_number {val secondVal : Int64} :
    Stands ⟨val, secondVal, false, none⟩ (.number val) :=
  ⟨rfl, rfl, rfl⟩

/-- Looking up an operand finds its value and changes nothing. -/
theorem arithLookupVal_stands {depth : Nat} {env : Env} {entry : VarOrNum} {x : Operand}
    (numeric : Numeric vars env) (stands : Stands entry x) :
    arithLookupVal (evaluateString (depth + 1)) [] vars entry =
      .ok ({ entry with val := x.read env }, vars) := by
  cases x with
  | number val =>
    obtain ⟨entryVal, secondVal, present, var⟩ := entry
    obtain ⟨rfl, rfl⟩ : var = none ∧ entryVal = val := stands.same
    rfl
  | lvalue name =>
    have here := numeric name
    have named : entry.var = some name := stands.same
    simp only [arithLookupVal, named]
    cases text : vars name with
    | none =>
      simp only [text] at here
      simp [Operand.read, here]
    | some text =>
      simp only [text] at here
      simp [evaluateString_numeric here, Operand.read]

end Evaluation

end Busybox.Shell
