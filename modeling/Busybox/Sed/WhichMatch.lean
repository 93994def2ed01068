import Mathlib
import Busybox.Sed.Substitution

/-!
# The match that `s` replaces

`s/re/repl/g` replaces the matches that are apart. With a number every match that a search returns
is counted.
-/

namespace Busybox.Sed

open Occurrences

/-! ## What is asked for -/

/-- What stands for a match. -/
def replacedBy (line string : List UInt8) (occurrence : Occurrence Groups) : List UInt8 :=
  doSubstWBackrefs (line.drop occurrence.position) occurrence.found string

/-- The line with some matches replaced, and whether there are any. -/
def replaced (line string : List UInt8) (chosen : List (Occurrence Groups)) :
    Bool × List UInt8 :=
  (!chosen.isEmpty, rewriteFrom (replacedBy line string) line 0 chosen)

/-- All matches that are apart, or the one with this number. -/
def asked (current : Finder UInt8 Groups) (whichMatch : Nat) (line : List UInt8) :
    List (Occurrence Groups) :=
  if whichMatch = 0 then apart current line else (apart current line)[whichMatch - 1]?.toList

/-- A search that finds the end of the line from in front of it is repeated there. -/
def repeated (current : Finder UInt8 Groups) (line : List UInt8)
    (found : List (Occurrence Groups)) : List (Occurrence Groups) :=
  match found.getLast? with
  | some last =>
    if last.Empty ∧ last.start = line.length ∧ ¬(last.position = line.length ∧ last.position ≠ 0)
    then (current.find [] true).toList.map (⟨line.length, ·, some line.length⟩)
    else []
  | none => []

/-- The matches as a number counts them. -/
def counted (current : Finder UInt8 Groups) (line : List UInt8) : List (Occurrence Groups) :=
  occurrences current line ++ repeated current line (occurrences current line)

/-! ## One round -/

section Rounds

variable {current : Finder UInt8 Groups} {whichMatch : Nat} {string line : List UInt8}

def Subst.outcome (s : Subst) : Bool × List UInt8 := (s.altered, s.pipeline ++ s.line)

theorem substLoop_none {notBol : Bool} {s : Subst} (notFound : current.find s.line notBol = none) :
    substLoop current whichMatch string notBol s = s := by
  rw [substLoop]
  split
  · rfl
  case h_2 isFound =>
    rw [notFound] at isFound
    cases isFound

theorem substLoop_stops {notBol : Bool} {s t : Subst} {regmatch : Match Groups}
    (isFound : current.find s.line notBol = some regmatch)
    (stops : s.turn whichMatch string regmatch = (false, t)) :
    substLoop current whichMatch string notBol s = t := by
  rw [substLoop]
  split
  case h_1 notFound =>
    rw [notFound] at isFound
    cases isFound
  case h_2 _ isFound' =>
    rw [isFound] at isFound'
    cases isFound'
    split
    case h_1 isTurn =>
      rw [stops] at isTurn
      exact (Prod.mk.inj isTurn).2.symm
    case h_2 isTurn =>
      rw [stops] at isTurn
      cases (Prod.mk.inj isTurn).1

theorem substLoop_again {notBol : Bool} {s t : Subst} {regmatch : Match Groups}
    (isFound : current.find s.line notBol = some regmatch)
    (again : s.turn whichMatch string regmatch = (true, t)) :
    substLoop current whichMatch string notBol s = substLoop current whichMatch string true t := by
  rw [substLoop]
  split
  case h_1 notFound =>
    rw [notFound] at isFound
    cases isFound
  case h_2 _ isFound' =>
    rw [isFound] at isFound'
    cases isFound'
    split
    case h_1 isTurn =>
      rw [again] at isTurn
      cases (Prod.mk.inj isTurn).1
    case h_2 isTurn =>
      rw [again] at isTurn
      rw [(Prod.mk.inj isTurn).2]

/-- In front of a search with everything copied so far. -/
def copiedTo (line : List UInt8) (position matchCount : Nat) : Subst where
  line := line.drop position
  pipeline := line.take position
  matchCount
  triedAtEol := position = line.length ∧ position ≠ 0

/-- In front of the last search. -/
def copiedAll (line : List UInt8) (matchCount : Nat) : Subst where
  line := []
  pipeline := line
  matchCount
  triedAtEol := true

theorem copied_outcome (position matchCount : Nat) :
    (copiedTo line position matchCount).outcome = replaced line string [] := by
  simp [Subst.outcome, copiedTo, replaced, rewriteFrom]

/-- Further on in the line there is another search, if only at its end. -/
theorem next_further {s : Subst} {position later : Nat} (forward : position < later)
    (inText : later ≤ line.length) (isLine : s.line = line.drop later)
    (tried : s.triedAtEol = decide (position = line.length ∧ position ≠ 0)) :
    s.next = (true, { s with triedAtEol := later = line.length ∧ later ≠ 0 }) := by
  have untried : s.triedAtEol = false := by
    rw [tried]
    exact decide_eq_false fun both => by omega
  have nonzero : later ≠ 0 := by omega
  unfold Subst.next
  by_cases atEol : s.line = []
  · have same : later = line.length :=
      Nat.le_antisymm inText (List.drop_eq_nil_iff.mp (isLine ▸ atEol))
    rw [if_pos atEol, untried, if_neg Bool.false_ne_true, decide_eq_true ⟨same, nonzero⟩]
  · have notSame : later ≠ line.length := by
      intro same
      rw [isLine, same, List.drop_length] at atEol
      exact atEol rfl
    rw [if_neg atEol, decide_eq_false (fun both => notSame both.1), ← untried]

theorem turn_skips {s : Subst} {regmatch : Match Groups}
    (numbered : s.matchCount + 1 < whichMatch) :
    s.turn whichMatch string regmatch =
      (Subst.skipMatch { s with matchCount := s.matchCount + 1 } regmatch).next := by
  have other : whichMatch ≠ 0 ∧ whichMatch ≠ s.matchCount + 1 := by omega
  rw [Subst.turn, if_pos other]

/-- A match is copied up to where the search goes on. -/
theorem skipMatch_copied {position matchCount : Nat} {previous : Option Nat}
    {found : Match Groups} :
    Subst.skipMatch { copiedTo line position matchCount with matchCount := matchCount + 1 } found =
      { copiedTo line (Occurrence.mk position found previous).next (matchCount + 1) with
        triedAtEol := position = line.length ∧ position ≠ 0 } := by
  by_cases empty : (Occurrence.mk position found previous).Empty
  · have same : found.start = found.stop := empty
    rw [Occurrence.next_of_empty empty]
    simp only [Subst.skipMatch, copiedTo, if_pos same, Occurrence.stop]
    simp only [List.take_add, List.drop_drop, Nat.add_assoc, List.append_assoc]
  · have other : found.start ≠ found.stop := empty
    rw [Occurrence.next_of_nonempty empty]
    simp only [Subst.skipMatch, copiedTo, if_neg other, Occurrence.stop]
    rw [List.take_add, List.drop_drop]

/-- A match that is not the one is copied, and the search goes on behind it. -/
theorem skip_further {position matchCount : Nat} {previous : Option Nat} {found : Match Groups}
    (isFound : current.find (line.drop position) (position ≠ 0) = some found)
    (further : (Occurrence.mk position found previous).next ≤ line.length) :
    (Subst.skipMatch { copiedTo line position matchCount with matchCount := matchCount + 1 }
        found).next =
      (true, copiedTo line (Occurrence.mk position found previous).next (matchCount + 1)) := by
  rw [skipMatch_copied, next_further (position_lt_next current line previous isFound) further rfl
    rfl]
  rfl

/-- An empty match at the end of the line is copied, and the end is tried once. -/
theorem skip_end {position matchCount : Nat} {previous : Option Nat} {found : Match Groups}
    (behind : line.length < (Occurrence.mk position found previous).next) :
    (Subst.skipMatch { copiedTo line position matchCount with matchCount := matchCount + 1 }
        found).next =
      (!decide (position = line.length ∧ position ≠ 0), copiedAll line (matchCount + 1)) := by
  rw [@skipMatch_copied _ _ _ previous]
  have rest : line.drop (Occurrence.mk position found previous).next = [] :=
    List.drop_eq_nil_iff.mpr (Nat.le_of_lt behind)
  have all : line.take (Occurrence.mk position found previous).next = line :=
    List.take_of_length_le (Nat.le_of_lt behind)
  simp only [Subst.next, copiedTo, rest, all, if_true]
  cases decide (position = line.length ∧ position ≠ 0) <;> rfl

/-- A match is replaced, and the rest of the line is behind it. -/
theorem replaceMatch_outcome {s : Subst} {regmatch : Match Groups}
    (inserts : (s.prevMatchEmpty || regmatch.start ≠ 0 || regmatch.start ≠ regmatch.stop) = true) :
    (s.replaceMatch string regmatch).outcome =
      (true, s.pipeline ++ s.line.take regmatch.start ++ doSubstWBackrefs s.line regmatch string ++
        s.line.drop regmatch.stop) := by
  simp only [Subst.replaceMatch, inserts, Bool.or_true]
  split
  · cases rest : s.line.drop regmatch.stop with
    | nil => simp [Subst.outcome]
    | cons c line => simp [Subst.outcome]
  · rfl

/-- The match with the number is replaced, and nothing else. -/
theorem substLoop_replaces {position : Nat} (previous : Option Nat) {tried notBol : Bool}
    {found : Match Groups} (positive : whichMatch ≠ 0)
    (isFound : current.find (line.drop position) notBol = some found) :
    (substLoop current whichMatch string notBol
        { copiedTo line position (whichMatch - 1) with triedAtEol := tried }).outcome =
      replaced line string [⟨position, found, previous⟩] := by
  have isThis : ¬(whichMatch ≠ 0 ∧ whichMatch ≠ whichMatch) := fun both => both.2 rfl
  have stops : Subst.turn whichMatch string
      { copiedTo line position (whichMatch - 1) with triedAtEol := tried } found =
      (false, Subst.replaceMatch { copiedTo line position whichMatch with triedAtEol := tried }
        string found) := by
    simp only [Subst.turn, copiedTo, if_neg isThis, if_pos positive, Nat.sub_add_cancel
      (Nat.one_le_iff_ne_zero.mpr positive)]
  rw [substLoop_stops isFound stops, replaceMatch_outcome rfl, replaced, rewriteFrom_single,
    replacedBy]
  simp only [copiedTo, Occurrence.start, Occurrence.stop, List.take_add, List.drop_drop]
  rfl

theorem copiedAll_eq (matchCount : Nat) :
    copiedAll line matchCount =
      { copiedTo line line.length matchCount with triedAtEol := true } := by
  simp [copiedAll, copiedTo]

theorem copiedAll_skips {matchCount : Nat} {found : Match Groups} :
    (Subst.skipMatch { copiedAll line matchCount with matchCount := matchCount + 1 } found).next =
      (false, copiedAll line (matchCount + 1)) := by
  simp only [Subst.skipMatch, copiedAll, List.take_nil, List.drop_nil, List.append_nil]
  split <;> rfl

theorem copiedAll_outcome (matchCount : Nat) :
    (copiedAll line matchCount).outcome = replaced line string [] := by
  simp [Subst.outcome, copiedAll, replaced, rewriteFrom]

/-- The search at the end of the line is the last one. -/
theorem substLoop_copiedAll {matchCount : Nat} (numbered : matchCount < whichMatch) :
    (substLoop current whichMatch string true (copiedAll line matchCount)).outcome =
      replaced line string
        (((current.find [] true).toList.map (⟨line.length, ·, some line.length⟩))[
          whichMatch - matchCount - 1]?.toList) := by
  cases isFound : current.find [] true with
  | none =>
    rw [substLoop_none isFound, copiedAll_outcome]
    rfl
  | some found =>
    by_cases isLast : whichMatch = matchCount + 1
    · subst isLast
      have atEnd : current.find (line.drop line.length) true = some found := by
        rw [List.drop_length, isFound]
      rw [copiedAll_eq]
      have replaces := @substLoop_replaces current (matchCount + 1) string line line.length
        (some line.length) true true found (Nat.succ_ne_zero _) atEnd
      rw [Nat.add_sub_cancel] at replaces
      rw [replaces, Nat.add_sub_cancel_left]
      rfl
    · have more : matchCount + 1 < whichMatch := by omega
      have behind : whichMatch - matchCount - 1 ≠ 0 := by omega
      have none : ((some found).toList.map (⟨line.length, ·, some line.length⟩) :
          List (Occurrence Groups))[whichMatch - matchCount - 1]? = none :=
        List.getElem?_eq_none (by simp; omega)
      rw [substLoop_stops isFound ((turn_skips more).trans copiedAll_skips), none,
        copiedAll_outcome]
      rfl

/-- What is found in front of another search is not repeated. -/
theorem repeated_further {position : Nat} {previous previous' : Option Nat} {found : Match Groups}
    (further : (Occurrence.mk position found previous).next ≤ line.length) :
    repeated current line (⟨position, found, previous⟩ ::
        occurrencesFrom current line (Occurrence.mk position found previous).next previous') =
      repeated current line
        (occurrencesFrom current line (Occurrence.mk position found previous).next previous') := by
  cases occurrencesFrom current line (Occurrence.mk position found previous).next previous' with
  | nil =>
    refine if_neg fun all => ?_
    have same : found.start = found.stop := all.1
    have atEnd : position + found.start = line.length := all.2.1
    have empty : (Occurrence.mk position found previous).Empty := same
    rw [Occurrence.next_of_empty empty, Occurrence.stop] at further
    simp only at further
    omega
  | cons => rw [repeated, List.getLast?_cons_cons, repeated]

/-- Only an empty match at the end of the line leaves nothing to search. -/
theorem behind_end {position : Nat} {previous : Option Nat} {found : Match Groups}
    (isFound : current.find (line.drop position) (position ≠ 0) = some found)
    (inText : position ≤ line.length)
    (behind : line.length < (Occurrence.mk position found previous).next) :
    (Occurrence.mk position found previous).Empty ∧
      (Occurrence.mk position found previous).start = line.length := by
  obtain ⟨ordered, inside⟩ := current.bounded isFound
  rw [List.length_drop] at inside
  by_cases empty : (Occurrence.mk position found previous).Empty
  · have same : found.start = found.stop := empty
    rw [Occurrence.next_of_empty empty, Occurrence.stop] at behind
    refine ⟨empty, ?_⟩
    rw [Occurrence.start]
    simp only at behind ⊢
    omega
  · rw [Occurrence.next_of_nonempty empty, Occurrence.stop] at behind
    simp only at behind
    omega

/-- A number counts the matches that the searches return. -/
theorem substLoop_counts {position matchCount : Nat} {previous : Option Nat}
    (numbered : matchCount < whichMatch) (inText : position ≤ line.length) :
    (substLoop current whichMatch string (position ≠ 0)
        (copiedTo line position matchCount)).outcome =
      replaced line string
        ((occurrencesFrom current line position previous ++
          repeated current line (occurrencesFrom current line position previous))[
            whichMatch - matchCount - 1]?.toList) := by
  induction position, previous using occurrencesFrom.induct current line
      generalizing matchCount with
  | case1 position previous _ notFound =>
    rw [occurrencesFrom_none notFound, substLoop_none notFound, copied_outcome]
    rfl
  | case2 position previous _ found isFound ih =>
    have forward := position_lt_next current line previous isFound
    rw [occurrencesFrom_some inText isFound]
    by_cases isLast : whichMatch = matchCount + 1
    · subst isLast
      have replaces := @substLoop_replaces current (matchCount + 1) string line position
        previous (position = line.length ∧ position ≠ 0) _ found (Nat.succ_ne_zero _) isFound
      rw [Nat.add_sub_cancel] at replaces
      rw [Nat.add_sub_cancel_left]
      exact replaces
    · have more : matchCount + 1 < whichMatch := by omega
      have later : whichMatch - matchCount - 1 = whichMatch - (matchCount + 1) - 1 + 1 := by omega
      rw [later, List.cons_append, List.getElem?_cons_succ]
      by_cases further : (Occurrence.mk position found previous).next ≤ line.length
      · have notFirst : decide ((Occurrence.mk position found previous).next ≠ 0) = true :=
          decide_eq_true (Nat.ne_of_gt (Nat.lt_of_le_of_lt (Nat.zero_le _) forward))
        have rest := ih more further
        rw [notFirst] at rest
        rw [substLoop_again isFound ((turn_skips more).trans (skip_further isFound further)), rest,
          repeated_further further]
      · have behind := Nat.lt_of_not_le further
        rw [occurrencesFrom_behind behind]
        obtain ⟨empty, atEnd⟩ := behind_end isFound inText behind
        have turns := (@turn_skips whichMatch string _ _ more).trans
          (@skip_end line position matchCount previous found behind)
        by_cases tried : position = line.length ∧ position ≠ 0
        · rw [decide_eq_true tried] at turns
          have alone : repeated current line [⟨position, found, previous⟩] = [] :=
            if_neg fun all => all.2.2 tried
          rw [substLoop_stops isFound turns, alone, copiedAll_outcome]
          rfl
        · rw [decide_eq_false tried] at turns
          have twice : repeated current line [⟨position, found, previous⟩] =
              (current.find [] true).toList.map (⟨line.length, ·, some line.length⟩) :=
            if_pos ⟨empty, atEnd, tried⟩
          rw [substLoop_again isFound turns, twice, substLoop_copiedAll more]
          rfl
  | case3 position previous behind => exact absurd inText behind

/-! ## All matches -/

/-- In front of a search with the line rewritten so far. -/
def rewrittenTo (line : List UInt8) (position : Nat) (previous : Option Nat) (matchCount : Nat)
    (altered : Bool) (pipeline : List UInt8) : Subst where
  line := line.drop position
  pipeline
  matchCount
  altered
  prevMatchEmpty := previous ≠ some position
  triedAtEol := position = line.length ∧ position ≠ 0

/-- What the code prints for a match. -/
def printed (line string : List UInt8) (occurrence : Occurrence Groups) : List UInt8 :=
  if occurrence.Adjacent then [] else replacedBy line string occurrence

theorem inserts_iff {position : Nat} {previous : Option Nat} {found : Match Groups}
    (earlier : ∀ stop ∈ previous, stop ≤ position) :
    (decide (previous ≠ some position) || decide (found.start ≠ 0) ||
        decide (found.start ≠ found.stop)) =
      !decide (Occurrence.mk position found previous).Adjacent := by
  rw [Bool.eq_iff_iff]
  simp only [Bool.or_eq_true, decide_eq_true_eq, Bool.not_eq_true', decide_eq_false_iff_not]
  constructor
  · rintro inserts ⟨empty, touches⟩
    have same : found.start = found.stop := empty
    have start := earlier _ touches
    rw [Occurrence.start] at start touches
    simp only at start touches
    have zero : found.start = 0 := by omega
    rw [zero, Nat.add_zero] at touches
    rcases inserts with (other | more) | nonempty
    · exact other touches
    · exact more zero
    · exact nonempty same
  · intro apart
    by_contra none
    simp only [not_or, not_not] at none
    obtain ⟨⟨touches, zero⟩, empty⟩ := none
    refine apart ⟨empty, ?_⟩
    rw [touches, Occurrence.start, zero]
    rfl

theorem print_eq {position : Nat} {previous : Option Nat} {found : Match Groups}
    (before : List UInt8) :
    (if (!decide (Occurrence.mk position found previous).Adjacent) = true then
      before ++ doSubstWBackrefs (line.drop position) found string else before) =
        before ++ printed line string ⟨position, found, previous⟩ := by
  by_cases adjacent : (Occurrence.mk position found previous).Adjacent
  · simp [printed, adjacent]
  · simp [printed, adjacent, replacedBy]

/-- A match is rewritten, and the search goes on behind it. -/
theorem replace_further {position matchCount : Nat} {previous : Option Nat} {found : Match Groups}
    {altered : Bool} {pipeline : List UInt8}
    (earlier : ∀ stop ∈ previous, stop ≤ position)
    (isFound : current.find (line.drop position) (position ≠ 0) = some found)
    (further : (Occurrence.mk position found previous).next ≤ line.length) :
    (rewrittenTo line position previous matchCount altered pipeline).turn 0 string found =
      (true, rewrittenTo line (Occurrence.mk position found previous).next
        (some (Occurrence.mk position found previous).stop) (matchCount + 1)
        (altered || !decide (Occurrence.mk position found previous).Adjacent)
        (pipeline ++ (line.drop position).take found.start ++
          printed line string ⟨position, found, previous⟩ ++
          (line.drop (Occurrence.mk position found previous).stop).take
            ((Occurrence.mk position found previous).next -
              (Occurrence.mk position found previous).stop))) := by
  have rewrites : Subst.replaceMatch { rewrittenTo line position previous matchCount altered
        pipeline with matchCount := matchCount + 1 } string found =
      { rewrittenTo line (Occurrence.mk position found previous).next
        (some (Occurrence.mk position found previous).stop) (matchCount + 1)
        (altered || !decide (Occurrence.mk position found previous).Adjacent)
        (pipeline ++ (line.drop position).take found.start ++
          printed line string ⟨position, found, previous⟩ ++
          (line.drop (Occurrence.mk position found previous).stop).take
            ((Occurrence.mk position found previous).next -
              (Occurrence.mk position found previous).stop)) with
        triedAtEol := position = line.length ∧ position ≠ 0 } := by
    have inserts := @inserts_iff position previous found earlier
    by_cases empty : (Occurrence.mk position found previous).Empty
    · have same : found.start = found.stop := empty
      rw [Occurrence.next_of_empty empty] at further ⊢
      obtain ⟨c, rest, isRest⟩ : ∃ c rest, (line.drop position).drop found.stop = c :: rest :=
        List.exists_cons_of_ne_nil fun none => by
          rw [List.drop_drop, List.drop_eq_nil_iff] at none
          exact absurd (Nat.le_trans further none) (Nat.not_succ_le_self _)
      have atStop : line.drop (Occurrence.mk position found previous).stop = c :: rest := by
        rw [← isRest, List.drop_drop]
        rfl
      have behind : line.drop ((Occurrence.mk position found previous).stop + 1) = rest := by
        rw [← List.drop_drop, atStop]
        rfl
      have notTouching : decide (some (Occurrence.mk position found previous).stop ≠
          some ((Occurrence.mk position found previous).stop + 1)) = true :=
        decide_eq_true fun same => absurd (Option.some.inj same) (Nat.ne_of_lt (Nat.lt_succ_self _))
      simp only [Subst.replaceMatch, rewrittenTo, inserts, print_eq, if_pos same, isRest, atStop,
        behind, notTouching, Nat.add_sub_cancel_left, List.take_succ_cons, List.take_zero]
    · have other : found.start ≠ found.stop := empty
      have touching : decide (some (Occurrence.mk position found previous).stop ≠
          some (Occurrence.mk position found previous).stop) = false :=
        decide_eq_false fun differ => differ rfl
      have atStop : (line.drop position).drop found.stop =
          line.drop (Occurrence.mk position found previous).stop := List.drop_drop
      rw [Occurrence.next_of_nonempty empty]
      simp only [Subst.replaceMatch, rewrittenTo, inserts, print_eq, if_neg other, atStop,
        touching, Nat.sub_self, List.take_zero, List.append_nil]
  have turns : (rewrittenTo line position previous matchCount altered pipeline).turn 0 string
        found =
      (Subst.replaceMatch { rewrittenTo line position previous matchCount altered pipeline with
        matchCount := matchCount + 1 } string found).next := rfl
  rw [turns, rewrites,
    next_further (position_lt_next current line previous isFound) further rfl rfl]
  rfl

/-- An empty match at the end of the line is the last one. -/
theorem replace_end {position matchCount : Nat} {previous : Option Nat} {found : Match Groups}
    {altered : Bool} {pipeline : List UInt8}
    (earlier : ∀ stop ∈ previous, stop ≤ position)
    (isFound : current.find (line.drop position) (position ≠ 0) = some found)
    (inText : position ≤ line.length)
    (behind : line.length < (Occurrence.mk position found previous).next) :
    (substLoop current 0 string (position ≠ 0)
        (rewrittenTo line position previous matchCount altered pipeline)).outcome =
      (altered || !decide (Occurrence.mk position found previous).Adjacent,
        pipeline ++ (line.drop position).take found.start ++
          printed line string ⟨position, found, previous⟩) := by
  obtain ⟨empty, atEnd⟩ := behind_end isFound inText behind
  have same : found.start = found.stop := empty
  have rest : (line.drop position).drop found.stop = [] := by
    rw [List.drop_drop, ← same]
    exact List.drop_eq_nil_iff.mpr (Nat.le_of_eq atEnd.symm)
  have inserts := @inserts_iff position previous found earlier
  have stops : (rewrittenTo line position previous matchCount altered pipeline).turn 0 string
        found =
      (false, Subst.replaceMatch { rewrittenTo line position previous matchCount altered pipeline
        with matchCount := matchCount + 1 } string found) := by
    simp only [Subst.turn, Subst.replaceMatch, rewrittenTo, if_pos same, rest, Subst.next]
    rfl
  rw [substLoop_stops isFound stops]
  simp only [Subst.replaceMatch, rewrittenTo, inserts, print_eq, if_pos same, rest, Subst.outcome,
    List.append_nil]

/-- A match and what is behind it. -/
theorem rewritten_step {position : Nat} {previous : Option Nat} {found : Match Groups}
    {altered : Bool} {pipeline : List UInt8} {rest : List (Occurrence Groups)}
    (earlier : ∀ stop ∈ previous, stop ≤ position)
    (forward : position < (Occurrence.mk position found previous).next)
    (later : ∀ occurrence ∈ rest.filter (fun occurrence => ¬occurrence.Adjacent),
      (Occurrence.mk position found previous).next ≤ occurrence.start) :
    ((altered || !decide (Occurrence.mk position found previous).Adjacent ||
        !(rest.filter fun occurrence => ¬occurrence.Adjacent).isEmpty),
      pipeline ++ (line.drop position).take found.start ++
        printed line string ⟨position, found, previous⟩ ++
        (line.drop (Occurrence.mk position found previous).stop).take
          ((Occurrence.mk position found previous).next -
            (Occurrence.mk position found previous).stop) ++
        rewriteFrom (replacedBy line string) line (Occurrence.mk position found previous).next
          (rest.filter fun occurrence => ¬occurrence.Adjacent)) =
      (altered || !((⟨position, found, previous⟩ :: rest).filter
          fun occurrence => ¬occurrence.Adjacent).isEmpty,
        pipeline ++ rewriteFrom (replacedBy line string) line position
          ((⟨position, found, previous⟩ :: rest).filter
            fun occurrence => ¬occurrence.Adjacent)) := by
  by_cases adjacent : (Occurrence.mk position found previous).Adjacent
  · have same : found.start = found.stop := adjacent.1
    have start := earlier _ adjacent.2
    rw [Occurrence.start] at start
    simp only at start
    have zero : found.start = 0 := by omega
    have stop : (Occurrence.mk position found previous).stop = position := by
      rw [Occurrence.stop, ← same, zero]
      rfl
    rw [List.filter_cons_of_neg (by simpa using adjacent),
      ← rewriteFrom_keep (Nat.le_of_lt forward) later]
    simp [printed, adjacent, zero, stop]
  · rw [List.filter_cons_of_pos (by simpa using adjacent), rewriteFrom,
      ← rewriteFrom_keep (Occurrence.stop_le_next _) later]
    simp [printed, adjacent, Occurrence.start]

/-- Without a number every match that is apart is replaced. -/
theorem substLoop_rewrites {position matchCount : Nat} {previous : Option Nat} {altered : Bool}
    {pipeline : List UInt8} (earlier : ∀ stop ∈ previous, stop ≤ position)
    (inText : position ≤ line.length) :
    (substLoop current 0 string (position ≠ 0)
        (rewrittenTo line position previous matchCount altered pipeline)).outcome =
      (altered || !((occurrencesFrom current line position previous).filter
          fun occurrence => ¬occurrence.Adjacent).isEmpty,
        pipeline ++ rewriteFrom (replacedBy line string) line position
          ((occurrencesFrom current line position previous).filter
            fun occurrence => ¬occurrence.Adjacent)) := by
  induction position, previous using occurrencesFrom.induct current line
      generalizing matchCount altered pipeline with
  | case1 position previous _ notFound =>
    rw [occurrencesFrom_none notFound, substLoop_none notFound]
    simp [Subst.outcome, rewrittenTo, rewriteFrom]
  | case2 position previous _ found isFound ih =>
    have forward := position_lt_next current line previous isFound
    rw [occurrencesFrom_some inText isFound]
    by_cases further : (Occurrence.mk position found previous).next ≤ line.length
    · have notFirst : decide ((Occurrence.mk position found previous).next ≠ 0) = true :=
        decide_eq_true (Nat.ne_of_gt (Nat.lt_of_le_of_lt (Nat.zero_le _) forward))
      have earlier' : ∀ stop ∈ some (Occurrence.mk position found previous).stop,
          stop ≤ (Occurrence.mk position found previous).next := by
        rintro stop ⟨⟩
        exact Occurrence.stop_le_next _
      have rest := @ih (matchCount + 1)
        (altered || !decide (Occurrence.mk position found previous).Adjacent)
        (pipeline ++ (line.drop position).take found.start ++
          printed line string ⟨position, found, previous⟩ ++
          (line.drop (Occurrence.mk position found previous).stop).take
            ((Occurrence.mk position found previous).next -
              (Occurrence.mk position found previous).stop)) earlier' further
      rw [notFirst] at rest
      rw [substLoop_again isFound (replace_further earlier isFound further), rest,
        rewritten_step earlier forward fun occurrence mem =>
          (occurrencesFrom_bounds _ _ occurrence (List.mem_filter.mp mem).1).1]
    · have behind := Nat.lt_of_not_le further
      rw [occurrencesFrom_behind behind, replace_end earlier isFound inText behind]
      have rest : line.drop (Occurrence.mk position found previous).stop = [] := by
        obtain ⟨empty, atEnd⟩ := behind_end isFound inText behind
        have same : found.start = found.stop := empty
        rw [Occurrence.stop, ← same]
        exact List.drop_eq_nil_iff.mpr (Nat.le_of_eq atEnd.symm)
      have step := @rewritten_step string line position previous found altered pipeline [] earlier
        forward (by rintro _ ⟨⟩)
      have behindAll : line.drop (Occurrence.mk position found previous).next = [] :=
        List.drop_eq_nil_iff.mpr (Nat.le_of_lt behind)
      rw [← step, rest]
      simp [rewriteFrom, behindAll]
  | case3 position previous behind => exact absurd inText behind

end Rounds

/-! ## The command -/

section Command

variable {Regex : Type*} (regexec : Regex → Finder UInt8 Groups) (cmd : SubstCmd Regex)
  (previous : Option Regex) (line : List UInt8)

/-- The matches that are asked for are replaced. -/
def documented : Except String (Bool × List UInt8 × Option Regex) :=
  match cmd.subMatch <|> previous with
  | none => .error "no previous regexp"
  | some current =>
    let (altered, line) := replaced line cmd.string.1 (asked (regexec current) cmd.whichMatch line)
    .ok (altered, line, some current)

/-- The matches that are replaced. -/
def taken (current : Finder UInt8 Groups) (whichMatch : Nat) (line : List UInt8) :
    List (Occurrence Groups) :=
  if whichMatch = 0 then apart current line else (counted current line)[whichMatch - 1]?.toList

theorem doSubstCommand_takes :
    doSubstCommand regexec cmd previous line =
      match cmd.subMatch <|> previous with
      | none => .error "no previous regexp"
      | some current =>
        let (altered, line) :=
          replaced line cmd.string.1 (taken (regexec current) cmd.whichMatch line)
        .ok (altered, line, some current) := by
  unfold doSubstCommand
  cases cmd.subMatch <|> previous with
  | none => rfl
  | some current =>
    have ran : (substLoop (regexec current) cmd.whichMatch cmd.string.1 false { line }).outcome =
        replaced line cmd.string.1 (taken (regexec current) cmd.whichMatch line) := by
      by_cases all : cmd.whichMatch = 0
      · have rewrites := @substLoop_rewrites (regexec current) cmd.string.1 line 0 0 none false []
          nofun (Nat.zero_le _)
        have start : rewrittenTo line 0 none 0 false [] = { line } := by simp [rewrittenTo]
        rw [start] at rewrites
        rw [all, taken, if_pos rfl]
        exact rewrites
      · have counts := @substLoop_counts (regexec current) cmd.whichMatch cmd.string.1 line 0 0 none
          (Nat.pos_of_ne_zero all) (Nat.zero_le _)
        have start : copiedTo line 0 0 = { line } := by simp [copiedTo]
        rw [start] at counts
        rw [taken, if_neg all]
        exact counts
    simp only
    rw [← ran]
    split
    case h_1 notFound =>
      rw [substLoop_none notFound]
      rfl
    case h_2 => rfl

end Command

/-! ## The number -/

section Number

variable {current : Finder UInt8 Groups} {whichMatch : Nat} {line : List UInt8}

/-- The number is not reached, or no match up to it touches the one before. -/
def Counts (current : Finder UInt8 Groups) (whichMatch : Nat) (line : List UInt8) : Prop :=
  whichMatch ≤ (counted current line).length →
    ∀ occurrence ∈ (counted current line).take whichMatch, ¬occurrence.Adjacent

/-- What is repeated touches the end of the line. -/
theorem repeated_adjacent {found : List (Occurrence Groups)} :
    ∀ occurrence ∈ repeated current line found, occurrence.Adjacent := by
  intro occurrence mem
  unfold repeated at mem
  split at mem
  · split at mem
    · obtain ⟨regmatch, isFound, rfl⟩ := List.mem_map.mp mem
      obtain ⟨ordered, inside⟩ := current.bounded (Option.mem_toList.mp isFound)
      have stop : regmatch.stop = 0 := Nat.le_zero.mp inside
      have start : regmatch.start = 0 := Nat.le_zero.mp (stop ▸ ordered)
      refine ⟨start.trans stop.symm, ?_⟩
      rw [Occurrence.start, start]
      rfl
    · cases mem
  · cases mem

/-- The matches that are apart are those of the counted ones. -/
theorem apart_counted : apart current line =
    (counted current line).filter fun occurrence => ¬occurrence.Adjacent := by
  have none : (repeated current line (occurrences current line)).filter
      (fun occurrence => ¬occurrence.Adjacent) = [] := by
    rw [List.filter_eq_nil_iff]
    intro occurrence mem
    simpa using repeated_adjacent occurrence mem
  rw [counted, List.filter_append, none, List.append_nil]
  rfl

/-- If no match touches the one before, the number is that of a match that is apart. -/
theorem taken_eq_asked (counts : whichMatch = 0 ∨ Counts current whichMatch line) :
    taken current whichMatch line = asked current whichMatch line := by
  rcases counts with rfl | counts
  · rfl
  · by_cases all : whichMatch = 0
    · rw [taken, asked, if_pos all, if_pos all]
    · have number : whichMatch - 1 + 1 = whichMatch := Nat.sub_add_cancel (Nat.pos_of_ne_zero all)
      rw [taken, asked, if_neg all, if_neg all, apart_counted]
      by_cases reached : whichMatch ≤ (counted current line).length
      · rw [getElem?_filter_of_take]
        intro occurrence mem
        rw [number] at mem
        exact decide_eq_true (counts reached occurrence mem)
      · have fewer := List.length_filter_le (fun occurrence => decide ¬occurrence.Adjacent)
          (counted current line)
        rw [List.getElem?_eq_none (by omega), List.getElem?_eq_none (by omega)]

/-- A match that comes later is another one for some character in its place. -/
theorem replaced_differs {first second : Occurrence Groups} (before : first.start < second.start)
    (inText : second.start ≤ line.length) :
    ∃ string : Replacement, replaced line string.1 [first] ≠ replaced line string.1 [second] := by
  have inLine : first.start < line.length := Nat.lt_of_lt_of_le before inText
  obtain ⟨c, string, text, other⟩ : ∃ c, ∃ string : Replacement,
      (∀ occurrence, replacedBy line string.1 occurrence = [c]) ∧ c ≠ line.get ⟨first.start, inLine⟩ := by
    by_cases isR : line.get ⟨first.start, inLine⟩ = 82
    · exact ⟨83, ⟨[83], rfl⟩, fun _ => rfl, by rw [isR]; decide⟩
    · exact ⟨82, ⟨[82], rfl⟩, fun _ => rfl, fun same => isR same.symm⟩
  refine ⟨string, fun same => other ?_⟩
  have lines := congrArg Prod.snd same
  simp only [replaced, rewriteFrom_single, text, List.append_assoc] at lines
  have atFirst :
      (line.take first.start ++ ([c] ++ line.drop first.stop))[first.start]? = some c := by
    have length : (line.take first.start).length = first.start :=
      List.length_take_of_le (Nat.le_of_lt inLine)
    rw [List.getElem?_append_right (Nat.le_of_eq length), length, Nat.sub_self]
    rfl
  have kept : (line.take second.start ++ ([c] ++ line.drop second.stop))[first.start]? =
      some (line.get ⟨first.start, inLine⟩) := by
    rw [List.getElem?_append_left (by rw [List.length_take_of_le inText]; exact before),
      List.getElem?_take_of_lt before, List.getElem?_eq_getElem inLine]
    rfl
  rw [lines, kept] at atFirst
  exact (Option.some.inj atFirst).symm

/-- The matches that are taken are those that are asked for only if no match touches the one
before. -/
theorem counts_of_same (same : ∀ string : Replacement,
      replaced line string.1 (taken current whichMatch line) =
        replaced line string.1 (asked current whichMatch line)) :
    whichMatch = 0 ∨ Counts current whichMatch line := by
  by_cases all : whichMatch = 0
  · exact .inl all
  refine .inr fun reached => ?_
  by_contra touches
  push Not at touches
  obtain ⟨dropped, inFront, adjacent⟩ := touches
  have number : whichMatch - 1 + 1 = whichMatch := Nat.sub_add_cancel (Nat.pos_of_ne_zero all)
  have inCounted : whichMatch - 1 < (counted current line).length := by omega
  have isTaken : taken current whichMatch line = [(counted current line)[whichMatch - 1]] := by
    rw [taken, if_neg all, List.getElem?_eq_getElem inCounted]
    rfl
  rw [isTaken, asked, if_neg all, apart_counted] at same
  cases isAsked : ((counted current line).filter
      fun occurrence => ¬occurrence.Adjacent)[whichMatch - 1]? with
  | none =>
    have altered := congrArg Prod.fst (same ⟨[], rfl⟩)
    rw [isAsked] at altered
    cases altered
  | some second =>
    obtain ⟨m, -, atM, later⟩ := exists_of_getElem?_filter isAsked
    have behind := later ⟨dropped, by rw [number]; exact inFront, by simpa using adjacent⟩
    have apart : ¬second.Adjacent := by
      have mem := List.mem_filter.mp (List.mem_of_getElem? isAsked)
      simpa using mem.2
    -- the one that is repeated is not the one that is asked for
    have found : m < (occurrences current line).length := by
      by_contra isRepeated
      rw [counted, List.getElem?_append_right (by omega)] at atM
      exact apart (repeated_adjacent second (List.mem_of_getElem? atM))
    rw [counted, List.getElem?_append_left found] at atM
    have isSecond : (occurrences current line)[m] = second := by
      rw [List.getElem?_eq_getElem found] at atM
      exact Option.some.inj atM
    have isFirst : (counted current line)[whichMatch - 1] =
        (occurrences current line)[whichMatch - 1] := List.getElem_append_left (by omega)
    have bounds : ∀ occurrence ∈ occurrences current line, 0 ≤ occurrence.start ∧
        occurrence.start ≤ occurrence.stop ∧ occurrence.stop ≤ line.length :=
      occurrencesFrom_bounds 0 none
    have ordering : (occurrences current line).Pairwise Occurrence.Before :=
      occurrencesFrom_pairwise 0 none
    have inFound : whichMatch - 1 < (occurrences current line).length := by omega
    obtain ⟨-, ordered, -⟩ := bounds _ (List.getElem_mem inFound)
    obtain ⟨-, ordered', inText⟩ := bounds _ (List.getElem_mem found)
    have before := List.pairwise_iff_getElem.mp ordering _ _ inFound found behind
    obtain ⟨string, differs⟩ := replaced_differs
      (Nat.lt_of_lt_of_le (Occurrence.start_lt_next ordered) before)
      (Nat.le_trans ordered' inText)
    have here := same string
    rw [isAsked, isFirst] at here
    rw [isSecond] at differs
    exact differs here

end Number

/-- `s` replaces what is asked for exactly if it takes all matches or the number counts only matches
that are apart. -/
theorem doSubstCommand_documented_iff {Regex : Type*} (regexec : Regex → Finder UInt8 Groups)
    (subMatch previous : Option Regex) (whichMatch : Nat) (line : List UInt8) :
    (∀ string : Replacement, doSubstCommand regexec ⟨subMatch, whichMatch, string⟩ previous line =
        documented regexec ⟨subMatch, whichMatch, string⟩ previous line) ↔
      ∀ current ∈ subMatch <|> previous,
        whichMatch = 0 ∨ Counts (regexec current) whichMatch line := by
  simp only [doSubstCommand_takes, documented]
  cases subMatch <|> previous with
  | none => exact iff_of_true (fun _ => rfl) nofun
  | some current =>
    constructor
    · rintro same _ ⟨⟩
      refine counts_of_same fun string => ?_
      have results := Except.ok.inj (same string)
      simp only [Prod.mk.injEq, and_true] at results
      exact Prod.ext results.1 results.2
    · intro counts string
      simp only
      rw [taken_eq_asked (counts current rfl)]

/-- `b*` -/
def manyB : Finder UInt8 Groups where
  find text _ := some ⟨0, (text.takeWhile (· == 98)).length, fun _ => none⟩
  bounded isFound := by
    cases isFound
    exact ⟨Nat.zero_le _, (List.takeWhile_sublist _).length_le⟩

/-- `s/b*/x/3` on `abc` replaces the empty match behind `b`, where `s/b*/x/g` gives `xaxcx`. -/
theorem doSubstCommand_adjacent :
    ¬∀ (regexec : Unit → Finder UInt8 Groups) (cmd : SubstCmd Unit) (previous : Option Unit)
      (line : List UInt8),
      doSubstCommand regexec cmd previous line = documented regexec cmd previous line := by
  intro always
  have same := always (fun _ => manyB) ⟨some (), 3, ⟨[120], rfl⟩⟩ none [97, 98, 99]
  revert same
  decide +kernel

end Busybox.Sed
