import Busybox.Lib.Occurrences
import Mathlib.Tactic.Common

/-!
# The `s` command of sed

The loop searches a line for one match after another. It either copies a match or replaces it,
and what it does at an empty match and at the end of the line is written out for both.
-/

namespace Busybox.Sed

open Occurrences (Match Finder Occurrence occurrencesFrom occurrences apart rewriteFrom)

/-- `G.regmatch[1]` to `G.regmatch[9]`; none is -1. -/
abbrev Groups := Nat → Option (Nat × Nat)

/-- No backslash ends the string. -/
def finished : List UInt8 → Bool
  | [] => true
  | [92] => false
  | 92 :: _ :: replace => finished replace
  | _ :: replace => finished replace

abbrev Replacement := {string : List UInt8 // finished string = true}

/-- The fields of `sed_cmd_t` of a substitution. -/
structure SubstCmd (Regex : Type*) where
  subMatch : Option Regex
  whichMatch : Nat
  string : Replacement

/-! ## The code -/

def slice (line : List UInt8) (so eo : Nat) : List UInt8 := (line.drop so).take (eo - so)

def backrefText (line : List UInt8) (regmatch : Match Groups) (backref : Nat) : List UInt8 :=
  if backref = 0 then slice line regmatch.start regmatch.stop
  else (regmatch.groups backref).elim [] fun (so, eo) => slice line so eo

def doSubstWBackrefs (line : List UInt8) (regmatch : Match Groups) : List UInt8 → List UInt8
  | 92 :: c :: replace =>
    (if c - 48 ≤ 9 then backrefText line regmatch (c - 48).toNat else [c]) ++
      doSubstWBackrefs line regmatch replace
  | 38 :: replace =>
    slice line regmatch.start regmatch.stop ++ doSubstWBackrefs line regmatch replace
  | c :: replace => c :: doSubstWBackrefs line regmatch replace
  | [] => []

/-- The variables of the loop; `matchCount` stops at `which_match`. -/
structure Subst where
  line : List UInt8
  pipeline : List UInt8 := []
  matchCount : Nat := 0
  altered : Bool := false
  prevMatchEmpty : Bool := true
  triedAtEol : Bool := false

namespace Subst

/-- "output old line to end of match and continue" -/
def skipMatch (s : Subst) (regmatch : Match Groups) : Subst :=
  let printed := s.pipeline ++ s.line.take regmatch.stop
  let line := s.line.drop regmatch.stop
  -- "Null match? Print one more char"
  if regmatch.start = regmatch.stop then
    { s with pipeline := printed ++ line.take 1, line := line.drop 1 }
  else { s with pipeline := printed, line }

def replaceMatch (s : Subst) (string : List UInt8) (regmatch : Match Groups) : Subst :=
  let before := s.pipeline ++ s.line.take regmatch.start
  let inserts := s.prevMatchEmpty || regmatch.start ≠ 0 || regmatch.start ≠ regmatch.stop
  let printed := if inserts then before ++ doSubstWBackrefs s.line regmatch string else before
  let line := s.line.drop regmatch.stop
  let altered := s.altered || inserts
  if regmatch.start = regmatch.stop then
    match line with
    | [] =>
      { s with
        pipeline := printed, line := [], altered, prevMatchEmpty := true, triedAtEol := true }
    | c :: line =>
      { s with pipeline := printed ++ [c], line, altered, prevMatchEmpty := true }
  else { s with pipeline := printed, line, altered, prevMatchEmpty := false }

/-- "Exit if we are at EOL and already tried matching at it" -/
def next (s : Subst) : Bool × Subst :=
  if s.line = [] then
    if s.triedAtEol then (false, s) else (true, { s with triedAtEol := true })
  else (true, s)

/-- The body of the loop, and whether another match is looked for. -/
def turn (whichMatch : Nat) (string : List UInt8) (s : Subst) (regmatch : Match Groups) :
    Bool × Subst :=
  let s := { s with matchCount := s.matchCount + 1 }
  if whichMatch ≠ 0 ∧ whichMatch ≠ s.matchCount then (s.skipMatch regmatch).next
  else
    let s := s.replaceMatch string regmatch
    if whichMatch ≠ 0 then (false, s) else s.next

/-- Every round takes something from the line or tries its end for the first time. -/
def rounds (s : Subst) : Nat := 2 * s.line.length + if s.triedAtEol then 0 else 1

theorem rounds_le (s : Subst) : s.rounds ≤ 2 * s.line.length + 1 := by
  unfold rounds
  split <;> omega

theorem next_rounds {before s : Subst} (again : s.next.1 = true)
    (taken : s.line.length < before.line.length ∨
      s.line = [] ∧ before.line = [] ∧ s.triedAtEol = before.triedAtEol) :
    s.next.2.rounds < before.rounds := by
  have least : 2 * before.line.length ≤ before.rounds := Nat.le_add_right _ _
  unfold next at again ⊢
  by_cases atEol : s.line = []
  · rw [if_pos atEol] at again ⊢
    by_cases tried : s.triedAtEol = true
    · rw [if_pos tried] at again
      cases again
    · rw [if_neg tried]
      have ended : ({ s with triedAtEol := true } : Subst).rounds = 0 := by simp [rounds, atEol]
      rw [ended]
      rcases taken with shorter | ⟨-, empty, same⟩
      · omega
      · rw [rounds, ← same, if_neg tried]
        exact Nat.succ_pos _
  · rw [if_neg atEol] at again ⊢
    have most := rounds_le s
    rcases taken with shorter | ⟨empty, -⟩
    · simp only
      omega
    · exact absurd empty atEol

/-- A match in the line. -/
def Inside (regmatch : Match Groups) (line : List UInt8) : Prop :=
  regmatch.start ≤ regmatch.stop ∧ regmatch.stop ≤ line.length

theorem skipMatch_takes {s : Subst} {regmatch : Match Groups} (inside : Inside regmatch s.line) :
    (s.skipMatch regmatch).line.length < s.line.length ∨
      (s.skipMatch regmatch).line = [] ∧ s.line = [] ∧
        (s.skipMatch regmatch).triedAtEol = s.triedAtEol := by
  obtain ⟨ordered, inLine⟩ := inside
  unfold skipMatch
  by_cases empty : regmatch.start = regmatch.stop
  · simp only [if_pos empty, List.length_drop]
    by_cases atEol : s.line = []
    · exact .inr ⟨by rw [atEol]; simp, atEol, trivial⟩
    · have more := List.length_pos_iff.mpr atEol
      exact .inl (by omega)
  · simp only [if_neg empty, List.length_drop]
    exact .inl (by omega)

theorem replaceMatch_takes {s : Subst} {string : List UInt8} {regmatch : Match Groups}
    (inside : Inside regmatch s.line) :
    (s.replaceMatch string regmatch).line.length < s.line.length ∨
      (s.replaceMatch string regmatch).line = [] ∧
        (s.replaceMatch string regmatch).triedAtEol = true := by
  obtain ⟨ordered, inLine⟩ := inside
  have length := List.length_drop (i := regmatch.stop) (l := s.line)
  unfold replaceMatch
  by_cases empty : regmatch.start = regmatch.stop
  · simp only [if_pos empty]
    cases rest : s.line.drop regmatch.stop with
    | nil => exact .inr ⟨rfl, rfl⟩
    | cons c line =>
      rw [rest, List.length_cons] at length
      exact .inl (by simp only; omega)
  · simp only [if_neg empty]
    exact .inl (by omega)

theorem turn_rounds {whichMatch : Nat} {string : List UInt8} {s : Subst} {regmatch : Match Groups}
    (inside : Inside regmatch s.line) (again : (s.turn whichMatch string regmatch).1 = true) :
    (s.turn whichMatch string regmatch).2.rounds < s.rounds := by
  unfold turn at again ⊢
  simp only at again ⊢
  split
  case isTrue skipped =>
    rw [if_pos skipped] at again
    exact next_rounds again (skipMatch_takes inside)
  case isFalse replaced =>
    rw [if_neg replaced] at again
    split
    case isTrue only =>
      rw [if_pos only] at again
      cases again
    case isFalse all =>
      rw [if_neg all] at again
      have takes := @replaceMatch_takes { s with matchCount := s.matchCount + 1 } string _ inside
      rcases takes with shorter | ⟨atEol, tried⟩
      · exact next_rounds again (.inl shorter)
      · rw [next, if_pos atEol, if_pos tried] at again
        cases again

end Subst

variable {Regex : Type*}

/-- The loop from a search on. -/
def substLoop (current : Finder UInt8 Groups) (whichMatch : Nat) (string : List UInt8)
    (notBol : Bool) (s : Subst) : Subst :=
  match _isFound : current.find s.line notBol with
  | none => s
  | some regmatch =>
    match _isTurn : s.turn whichMatch string regmatch with
    | (false, s) => s
    | (true, s) => substLoop current whichMatch string true s
termination_by s.rounds
decreasing_by
  have fewer := @Subst.turn_rounds whichMatch string _ regmatch (current.bounded _isFound)
  rw [_isTurn] at fewer
  exact fewer rfl

/-- Whether the line is altered, the line, and `G.previous_regex_ptr`. -/
def doSubstCommand (regexec : Regex → Finder UInt8 Groups) (cmd : SubstCmd Regex)
    (previous : Option Regex) (line : List UInt8) :
    Except String (Bool × List UInt8 × Option Regex) :=
  match cmd.subMatch <|> previous with
  | none => .error "no previous regexp"
  | some current =>
    match (regexec current).find line false with
    | none => .ok (false, line, some current)
    | some _ =>
      let s := substLoop (regexec current) cmd.whichMatch cmd.string.1 false { line }
      -- "Copy rest of string into output pipeline"
      .ok (s.altered, s.pipeline ++ s.line, some current)

end Busybox.Sed
