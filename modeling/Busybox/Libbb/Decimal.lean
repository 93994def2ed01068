import Busybox.Udhcp.OptionText

/-!
# Decimal arguments

The unsigned parsers of `xatonum.h` that take no suffix, and what they make of a number that
`printf` has written.
-/

namespace Busybox.Libbb.Xatonum

open Udhcp (strtou_unsignedText unsignedText_digits unsignedText_ne_nil digitVal_digit
  valueOf_unsignedText)
open Udhcp.Optval (unsignedText)

def xatouRange (numstr : Text) (lower upper : Nat) : Except Refusal Nat :=
  xstrtouRangeSfx int numstr 10 lower upper none

def xatou (numstr : Text) : Except Refusal Nat := xatouRange numstr 0 int.utypeMax

def xatoiPositive (numstr : Text) : Except Refusal Nat := xatouRange numstr 0 int.typeMax

/-- A decimal number is read as what it is, if it is in the range. -/
theorem xatouRange_unsignedText {n lower upper : Nat} (above : lower ≤ n) (below : n ≤ upper)
    (word : n < 2 ^ 32) : xatouRange (unsignedText n) lower upper = .ok n := by
  obtain ⟨c, rest, digits⟩ := List.exists_cons_of_ne_nil (unsignedText_ne_nil n)
  have digit := unsignedText_digits n c (by rw [digits]; exact List.mem_cons_self)
  have unsigned : ¬((unsignedText n).head? = some 45 ∨ (unsignedText n).head? = some 43 ∨
      (unsignedText n).head?.any isspace) := by
    rw [digits]
    rintro (minus | plus | blank)
    · cases minus
      exact absurd digit.1 (by decide)
    · cases plus
      exact absurd digit.1 (by decide)
    · simp only [List.head?_cons, Option.any_some, isspace, Bool.or_eq_true, beq_iff_eq,
        Bool.and_eq_true, decide_eq_true_eq, UInt8.le_iff_toNat_le] at blank
      rcases blank with rfl | ⟨-, low⟩
      · exact absurd digit.1 (by decide)
      · exact absurd (Nat.le_trans digit.1 low) (by decide)
  have read : int.strtou 10 (unsignedText n) = some (n, []) := by
    have long : ¬2 ^ int.strtouBits ≤ n := not_le.mpr (Nat.lt_trans word (by decide))
    have wide : ¬int.utypeMax < n := not_lt.mpr (Nat.le_of_lt_succ word)
    rw [IntType.strtou, strtou_unsignedText (.inr rfl)]
    simp only [if_neg long, if_neg wide]
  rw [xatouRange, xstrtouRangeSfx, if_neg unsigned, read]
  exact (if_neg (not_not.mpr rfl)).trans (if_pos ⟨above, below⟩)

theorem xatou_unsignedText {n : Nat} (word : n < 2 ^ 32) : xatou (unsignedText n) = .ok n :=
  xatouRange_unsignedText (Nat.zero_le n) (Nat.le_of_lt_succ word) word

/-- The digits of a number are all digits of the base. -/
theorem unsignedText_isDigit (n : Nat) : ∀ c ∈ unsignedText n, isDigit 10 c = true := by
  intro c mem
  have digit := unsignedText_digits n c mem
  rw [isDigit, digitVal_digit digit]
  exact decide_eq_true (by omega)

/-- `strtoul` reads a decimal number in front of a character that is no digit. -/
theorem strtou_append {n : Nat} {rest : Text} (ends : rest.head?.any (isDigit 10) = false) :
    strtou 10 (unsignedText n ++ rest) = some (n, rest) := by
  have noPrefix : hexPrefixed 10 (unsignedText n ++ rest) = false := by
    unfold hexPrefixed
    split <;> simp
  have stops : rest.takeWhile (isDigit 10) = [] ∧ rest.dropWhile (isDigit 10) = rest := by
    cases rest with
    | nil => exact ⟨rfl, rfl⟩
    | cons c rest =>
      rw [List.head?_cons, Option.any_some] at ends
      exact ⟨List.takeWhile_cons_of_neg (by simp [ends]), List.dropWhile_cons_of_neg (by simp [ends])⟩
  have digits := unsignedText_isDigit n
  have plain : plainRadix 10 (unsignedText n ++ rest) = 10 := rfl
  unfold strtou
  rw [if_neg (by decide), noPrefix]
  simp only [Bool.false_eq_true, if_false, plain]
  rw [List.takeWhile_append_of_pos digits, List.dropWhile_append_of_pos digits, stops.1, stops.2,
    List.append_nil, if_neg (unsignedText_ne_nil n), foldl_eq_valueOf, valueOf_unsignedText]

end Busybox.Libbb.Xatonum
