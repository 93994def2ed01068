import Busybox.Sed.Address

/-!
# The lines a sed command selects

A command selects the ranges its addresses describe. Between ranges a numeric
start is still alive exactly while every line before was smaller, and inside a
range the end field holds the line the range runs to.
-/

namespace Busybox.Sed

open Ranges

variable {Regex : Type*} (regexec : Regex → List UInt8 → Bool)

/-- The addresses describe ranges; an end in line 0 leaves single lines. -/
def Addresses.isRange : Addresses Regex → Bool
  | .none | .one _ => false
  | .two _ (.line number) => number ≠ 0
  | .two _ _ => true

/-- Where a range begins. The start `N` of a range is the first line evaluated from `N` on;
`N` alone is line `N`, and 0 alone is every line. -/
def Begins (addresses : Addresses Regex) (earlier : List Visit) (visit : Visit) : Prop :=
  match addresses.first? with
  | none => True
  | some (.line number) =>
      if addresses.isRange then
        number ≠ 0 ∧ number ≤ visit.linenum ∧ ∀ before ∈ earlier, before.linenum < number
      else number = 0 ∨ visit.linenum = number
  | some .last => visit.isLast = true
  | some (.regex re) => regexec re visit.patternSpace = true

/-- A range that is over with its first line. -/
def Single (addresses : Addresses Regex) (visit : Visit) : Prop :=
  match addresses.second? with
  | none => True
  | some (.line number) => number ≤ visit.linenum
  | some .last => visit.isLast = true
  | some (.regex _) => False
  | some (.plus count) => count = 0

/-- A later line that ends a range; for a number it is the first line evaluated from it on. -/
def Ends (addresses : Addresses Regex) (first visit : Visit) : Prop :=
  match addresses.second? with
  | none => True
  | some (.line number) => number ≤ visit.linenum
  | some .last => visit.isLast = true
  | some (.regex re) => regexec re visit.patternSpace = true
  | some (.plus count) => first.linenum + count ≤ visit.linenum

/-- The ranges the addresses describe. -/
def rule (addresses : Addresses Regex) : Rule Visit where
  begins := Begins regexec addresses
  single := Single addresses
  ends := Ends regexec addresses

/-- The lines come in order, and every number the command computes on them is an `int`. -/
def Admitted (addresses : Addresses Regex) (earlier : List Visit) (visit : Visit) : Prop :=
  (∀ before ∈ earlier, before.linenum < visit.linenum) ∧
    ∀ count, addresses.second? = some (.plus count) → visit.linenum + count < 2 ^ 31

/-- The numbers of the addresses are `int`s, and so is the encoding of a count. -/
def Fits (addresses : Addresses Regex) : Prop :=
  (∀ number, addresses.first? = some (.line number) → number < 2 ^ 31) ∧
  (∀ number, addresses.second? = some (.line number) → number < 2 ^ 31) ∧
  ∀ count, addresses.second? = some (.plus count) → count + 2 < 2 ^ 31

/-! ## The fields of a command -/

theorem int_eq {value : Int} (least : -2 ^ 31 ≤ value) (most : value < 2 ^ 31) :
    int value = value :=
  Int.bmod_eq_of_le_mul_two (by omega) (by omega)

theorem parseNumber_eq {number : Nat} (small : number < 2 ^ 31) : parseNumber number = number := by
  unfold parseNumber
  have small' : (number : Int) < 2 ^ 31 := by exact_mod_cast small
  rw [min_eq_left (by omega)]
  exact int_eq (by omega) small'

def begMatchOf (addresses : Addresses Regex) : Option Regex :=
  addresses.first?.bind fun first => (getAddress first).2

def endMatchOf (addresses : Addresses Regex) : Option Regex :=
  match addresses.second? with
  | some (.regex re) => some re
  | _ => none

/-- The end field of a command between ranges. -/
def endLineOf (addresses : Addresses Regex) : Int :=
  match addresses.second? with
  | none | some (.regex _) => 0
  | some (.line number) => number
  | some .last => -1
  | some (.plus count) => -2 - count

/-- The end field inside a range that began with a line. -/
def resolvedOf (addresses : Addresses Regex) (first : Visit) : Int :=
  match addresses.second? with
  | none | some (.regex _) => 0
  | some (.line number) => number
  | some .last => -1
  | some (.plus count) => first.linenum + count

/-- The fields no evaluation changes. -/
structure Kept (addresses : Addresses Regex) (invert : Bool) (cmd : SedCmd Regex) : Prop where
  begMatch : cmd.begMatch = begMatchOf addresses
  endMatch : cmd.endMatch = endMatchOf addresses
  endLineOrig : cmd.endLineOrig = endLineOf addresses
  invert : cmd.invert = invert

/-- The start field: a number is dead once a line from it on has been evaluated. -/
def StartField (addresses : Addresses Regex) (earlier : List Visit) (begLine : Int) : Prop :=
  match addresses.first? with
  | none | some (.regex _) => begLine = 0
  | some .last => begLine = -1
  | some (.line number) =>
      begLine = number ∧ (addresses.isRange → number = 0 ∨ ∀ before ∈ earlier, before.linenum < number) ∨
        begLine = -2 ∧ number ≠ 0 ∧ ∃ before ∈ earlier, number ≤ before.linenum

/-- A command between ranges. -/
structure Idle (addresses : Addresses Regex) (invert : Bool) (earlier : List Visit)
    (cmd : SedCmd Regex) : Prop extends Kept addresses invert cmd where
  inMatch : cmd.inMatch = false
  start : StartField addresses earlier cmd.begLine

/-- A command inside a range that began with a line. -/
structure Inside (addresses : Addresses Regex) (invert : Bool) (earlier : List Visit)
    (first : Visit) (cmd : SedCmd Regex) : Prop extends Kept addresses invert cmd where
  inMatch : cmd.inMatch = true
  start : StartField addresses earlier cmd.begLine
  startDead : ¬ cmd.begLine > 0
  endLine : cmd.endLine = resolvedOf addresses first
  notOver : ∀ before ∈ earlier, cmd.endLine > 0 → before.linenum < cmd.endLine
  isRange : addresses.isRange = true
  member : first ∈ earlier

variable {regexec} {addresses : Addresses Regex} {invert : Bool} {earlier : List Visit}
  {cmd : SedCmd Regex} {visit first : Visit}

/-- What `add_cmd` makes of addresses that fit. -/
theorem addCmd_idle (fits : Fits addresses) (invert : Bool) :
    ∃ cmd, addCmd addresses invert = some cmd ∧ Idle addresses invert [] cmd := by
  have start : ∀ address, addresses.first? = some address →
      StartField addresses [] (getAddress address).1 := by
    intro address isFirst
    unfold StartField
    rw [isFirst]
    cases address with
    | line number => exact .inl ⟨parseNumber_eq (fits.1 number isFirst), fun _ => .inr (by simp)⟩
    | last => rfl
    | regex re => rfl
  cases addresses with
  | none => exact ⟨_, rfl, ⟨rfl, rfl, rfl, rfl⟩, rfl, rfl⟩
  | one address => exact ⟨_, rfl, ⟨rfl, rfl, rfl, rfl⟩, rfl, start address rfl⟩
  | two address second =>
    have ending : getEndAddress second =
        some (endLineOf (.two address second), endMatchOf (.two address second)) := by
      cases second with
      | line number =>
        rw [getEndAddress, parseNumber_eq (fits.2.1 number rfl)]
        rfl
      | last => rfl
      | regex re => rfl
      | plus count =>
        have small := fits.2.2 count rfl
        have small' : (count : Int) + 2 < 2 ^ 31 := by exact_mod_cast small
        rw [getEndAddress, parseNumber_eq (by omega), if_neg (by omega),
          int_eq (by omega) (by omega)]
        rfl
    refine ⟨_, by rw [addCmd, ending]; rfl, ⟨rfl, rfl, rfl, rfl⟩, rfl, start address rfl⟩

/-- The command has an end exactly when its addresses describe ranges. -/
theorem hasEnd_iff :
    (endLineOf addresses ≠ 0 ∨ (endMatchOf addresses).isSome) ↔ addresses.isRange = true := by
  cases addresses with
  | none => simp [endLineOf, endMatchOf, Addresses.second?, Addresses.isRange]
  | one address => simp [endLineOf, endMatchOf, Addresses.second?, Addresses.isRange]
  | two address second =>
    cases second with
    | line number => simp [endLineOf, endMatchOf, Addresses.second?, Addresses.isRange]
    | last => simp [endLineOf, endMatchOf, Addresses.second?, Addresses.isRange]
    | regex re => simp [endLineOf, endMatchOf, Addresses.second?, Addresses.isRange]
    | plus count =>
      simp only [endLineOf, endMatchOf, Addresses.second?, Addresses.isRange, iff_true]
      exact .inl (by omega)

theorem isRange_of_none (none : addresses.first? = none) : addresses.isRange = false := by
  cases addresses with
  | none => rfl
  | one address => rfl
  | two address second => cases none

theorem isRange_of_lineZero (zero : addresses.second? = some (.line 0)) :
    addresses.isRange = false := by
  cases addresses with
  | none => rfl
  | one address => rfl
  | two address second =>
    obtain rfl := Option.some.inj zero
    rfl

/-- Between ranges a line is part of a range exactly when it begins one. -/
theorem matchesLine_iff (idle : Idle addresses invert earlier cmd)
    (admitted : Admitted addresses earlier visit) :
    matchesLine regexec (restoreEnd cmd) visit = true ↔
      Begins regexec addresses earlier visit := by
  have hasEnd := @hasEnd_iff _ addresses
  have start := idle.start
  rw [restoreEnd, if_neg (by simp [idle.inMatch])]
  unfold matchesLine matchesRegex Begins
  unfold StartField at start
  simp only [idle.inMatch, idle.begMatch, idle.endMatch, idle.endLineOrig, begMatchOf]
  cases kind : addresses.first? with
  | none =>
    rw [kind] at start
    have single := isRange_of_none kind
    rw [single] at hasEnd
    simp only [Bool.false_eq_true, iff_false, not_or, not_not, Option.not_isSome_iff_eq_none] at hasEnd
    simp [start, hasEnd]
  | some address =>
    rw [kind] at start
    cases address with
    | last => simp [start, getAddress]
    | regex re => simp [start, getAddress]
    | line number =>
      have ordered := admitted.1
      cases range : addresses.isRange with
      | false =>
        rw [range] at hasEnd
        simp only [Bool.false_eq_true, iff_false, not_or, not_not,
          Option.not_isSome_iff_eq_none] at hasEnd
        rcases start with ⟨alive, -⟩ | ⟨dead, nonzero, before, seen, reached⟩
        · simp [alive, hasEnd, getAddress]
          omega
        · have past := ordered before seen
          simp [dead, getAddress, nonzero]
          omega
      | true =>
        rw [range] at hasEnd start
        rcases start with ⟨alive, below⟩ | ⟨dead, nonzero, before, seen, reached⟩
        · have ends := hasEnd.2 rfl
          have notBare : endLineOf addresses = 0 → endMatchOf addresses ≠ none := by
            intro noLine noMatch
            rw [noLine, noMatch] at ends
            simp at ends
          have fields : (if endLineOf addresses ≠ 0 ∨ (endMatchOf addresses).isSome = true then
              decide ((number : Int) ≤ visit.linenum) else decide ((number : Int) = visit.linenum)) =
                decide ((number : Int) ≤ visit.linenum) := if_pos ends
          have notLast : ¬ (number : Int) = -1 := by omega
          simp only [alive, getAddress, Option.bind_some, fields, Bool.false_or, Bool.or_eq_true,
            Bool.and_eq_true, decide_eq_true_eq, beq_iff_eq, Option.isNone_iff_eq_none,
            Option.any_none, Bool.false_eq_true, or_false, notLast, false_and, if_true]
          constructor
          · rintro (⟨⟨⟨zero, noLine⟩, -⟩, noMatch⟩ | ⟨positive, reached⟩)
            · exact absurd noMatch (notBare noLine)
            · have nonzero : number ≠ 0 := by omega
              exact ⟨nonzero, by omega, (below rfl).resolve_left nonzero⟩
          · rintro ⟨nonzero, reached, -⟩
            exact .inr ⟨by omega, by omega⟩
        · simp [dead, getAddress]
          intro _ _
          exact ⟨before, seen, reached⟩


/-- A matched line turns a count into the line its range runs to. -/
theorem resolveLines_endLine (fits : Fits addresses) (admitted : Admitted addresses earlier visit)
    (between : cmd.endLine = endLineOf addresses) :
    (resolveLines cmd visit).endLine = resolvedOf addresses visit := by
  simp only [resolveLines, between]
  unfold endLineOf resolvedOf
  cases kind : addresses.second? with
  | none => rfl
  | some second =>
    cases second with
    | line number =>
      have positive : ¬ (number : Int) ≤ -2 := by omega
      exact if_neg positive
    | last => rfl
    | regex re => rfl
    | plus count =>
      have small := fits.2.2 count kind
      have sum := admitted.2 count kind
      have encoded : (-2 - count : Int) ≤ -2 := by omega
      have decoded : int (-(-2 - count)) = count + 2 :=
        (int_eq (by omega) (by omega)).trans (by omega)
      have sumFits : int (visit.linenum + (count + 2 - 2)) = visit.linenum + count :=
        (int_eq (by omega) (by omega)).trans (by omega)
      simp only [if_pos encoded, decoded, sumFits]

/-- Inside a range the end field is a line already. -/
theorem resolveLines_resolved (resolved : cmd.endLine = resolvedOf addresses first) :
    (resolveLines cmd visit).endLine = resolvedOf addresses first := by
  have above : ¬ resolvedOf addresses first ≤ -2 := by
    unfold resolvedOf
    split <;> omega
  simp only [resolveLines, resolved, if_neg above]

/-- A matched line kills a numeric start. -/
theorem resolveLines_start (start : StartField addresses earlier cmd.begLine)
    (begins : cmd.begLine > 0 → Begins regexec addresses earlier visit) :
    StartField addresses (earlier ++ [visit]) (resolveLines cmd visit).begLine ∧
      ¬ (resolveLines cmd visit).begLine > 0 := by
  have begLine : (resolveLines cmd visit).begLine = if cmd.begLine > 0 then -2 else cmd.begLine := rfl
  refine ⟨?_, by rw [begLine]; split <;> omega⟩
  rw [begLine]
  unfold StartField at start ⊢
  unfold Begins at begins
  cases kind : addresses.first? with
  | none =>
    rw [kind] at start
    simp [start]
  | some address =>
    rw [kind] at start begins
    cases address with
    | last => simp [start]
    | regex re => simp [start]
    | line number =>
      rcases start with ⟨alive, below⟩ | ⟨dead, nonzero, before, seen, reached⟩
      · by_cases positive : cmd.begLine > 0
        · have here := begins positive
          rw [if_pos positive]
          refine .inr ⟨rfl, by omega, visit, by simp, ?_⟩
          dsimp only at here
          split at here
          · exact here.2.1
          · omega
        · rw [if_neg positive]
          exact .inl ⟨alive, fun _ => .inl (by omega)⟩
      · rw [dead, if_neg (by omega)]
        exact .inr ⟨rfl, nonzero, before, by simp [seen], reached⟩

/-- A range is over with its first line. -/
theorem endsMatch_single (kept : Kept addresses invert cmd)
    (resolved : cmd.endLine = resolvedOf addresses visit) :
    endsMatch regexec cmd false visit = true ↔ Single addresses visit := by
  unfold endsMatch Single
  rw [resolved, kept.endMatch]
  unfold resolvedOf endMatchOf
  cases addresses.second? with
  | none => simp
  | some second =>
    cases second with
    | line number =>
      have notLast : ¬ (number : Int) = -1 := by omega
      by_cases zero : number = 0 <;> simp [zero, notLast]
    | last => simp
    | regex re => simp
    | plus count =>
      have notLast : ¬ (visit.linenum + count : Int) = -1 := by omega
      by_cases zero : (visit.linenum + count : Int) = 0
      · simp [zero]
        omega
      · simp only [zero, notLast, ne_eq, not_false_eq_true, if_true, if_false, Bool.false_and,
          Bool.or_false, decide_eq_true_eq]
        omega

/-- A range is over with a later line. -/
theorem endsMatch_ends (kept : Kept addresses invert cmd)
    (resolved : cmd.endLine = resolvedOf addresses first) :
    endsMatch regexec cmd true visit = true ↔ Ends regexec addresses first visit := by
  unfold endsMatch Ends matchesRegex
  rw [resolved, kept.endMatch]
  unfold resolvedOf endMatchOf
  cases kind : addresses.second? with
  | none => simp
  | some second =>
    cases second with
    | line number =>
      have notLast : ¬ (number : Int) = -1 := by omega
      by_cases zero : number = 0 <;> simp [zero, notLast]
    | last => simp
    | regex re => simp
    | plus count =>
      have notLast : ¬ (first.linenum + count : Int) = -1 := by omega
      by_cases zero : (first.linenum + count : Int) = 0
      · simp [zero]
        omega
      · simp only [zero, notLast, ne_eq, not_false_eq_true, if_true, if_false, Option.any_none,
          Bool.and_false, Bool.or_false, decide_eq_true_eq]
        omega

theorem Kept.resolveLines (kept : Kept addresses invert cmd) (visit : Visit) :
    Kept addresses invert (resolveLines cmd visit) :=
  ⟨kept.begMatch, kept.endMatch, kept.endLineOrig, kept.invert⟩

/-- What is not over with its first line is a range. -/
theorem isRange_of_not_single (long : ¬ Single addresses visit) : addresses.isRange = true := by
  unfold Single at long
  cases addresses with
  | none => exact absurd trivial long
  | one address => exact absurd trivial long
  | two address second =>
    cases second with
    | line number =>
      have positive : number ≠ 0 := by
        rintro rfl
        exact long (Nat.zero_le _)
      simp [Addresses.isRange, positive]
    | last => rfl
    | regex re => rfl
    | plus count => rfl

/-- The line a range runs to lies behind its first line. -/
theorem lt_resolved (long : ¬ Single addresses visit) (positive : resolvedOf addresses visit > 0) :
    (visit.linenum : Int) < resolvedOf addresses visit := by
  unfold Single at long
  unfold resolvedOf at positive ⊢
  cases kind : addresses.second? with
  | none => simp [kind] at long
  | some second =>
    rw [kind] at long positive
    cases second with
    | line number =>
      have above : ¬ number ≤ visit.linenum := long
      have below : (visit.linenum : Int) < number := Int.ofNat_lt.2 (Nat.not_le.1 above)
      exact below
    | last => cases positive
    | regex re => cases positive
    | plus count =>
      have more : count ≠ 0 := long
      dsimp only
      omega

theorem lt_resolved_of_not_ends (going : ¬ Ends regexec addresses first visit)
    (positive : resolvedOf addresses first > 0) :
    (visit.linenum : Int) < resolvedOf addresses first := by
  unfold Ends at going
  unfold resolvedOf at positive ⊢
  cases kind : addresses.second? with
  | none => simp [kind] at going
  | some second =>
    rw [kind] at going positive
    cases second with
    | line number =>
      have above : ¬ number ≤ visit.linenum := going
      have below : (visit.linenum : Int) < number := Int.ofNat_lt.2 (Nat.not_le.1 above)
      exact below
    | last => cases positive
    | regex re => cases positive
    | plus count =>
      have above : ¬ first.linenum + count ≤ visit.linenum := going
      dsimp only
      omega

/-! ## One evaluation -/

theorem StartField.append (start : StartField addresses earlier cmd.begLine)
    (skipped : ¬ Begins regexec addresses earlier visit) :
    StartField addresses (earlier ++ [visit]) cmd.begLine := by
  unfold StartField at start ⊢
  unfold Begins at skipped
  cases kind : addresses.first? with
  | none => simp [kind] at skipped
  | some address =>
    rw [kind] at start skipped
    cases address with
    | last => exact start
    | regex re => exact start
    | line number =>
      rcases start with ⟨alive, below⟩ | ⟨dead, nonzero, before, seen, reached⟩
      · refine .inl ⟨alive, fun range => ?_⟩
        rcases below range with zero | less
        · exact .inl zero
        · by_cases zero : number = 0
          · exact .inl zero
          · right
            intro before member
            rcases List.mem_append.1 member with old | new
            · exact less before old
            · obtain rfl := List.mem_singleton.1 new
              by_contra reached
              exact skipped (by simp only [range, if_true]; exact ⟨zero, Nat.not_lt.1 reached, less⟩)
      · exact .inr ⟨dead, nonzero, before, by simp [seen], reached⟩

theorem restoreEnd_kept (kept : Kept addresses invert cmd) :
    Kept addresses invert (restoreEnd cmd) := by
  unfold restoreEnd
  split
  · exact kept
  · exact ⟨kept.begMatch, kept.endMatch, kept.endLineOrig, kept.invert⟩

@[simp] theorem restoreEnd_begLine : (restoreEnd cmd).begLine = cmd.begLine := by
  unfold restoreEnd
  split <;> rfl

theorem Kept.setInMatch (kept : Kept addresses invert cmd) (inMatch : Bool) :
    Kept addresses invert { cmd with inMatch := inMatch } :=
  ⟨kept.begMatch, kept.endMatch, kept.endLineOrig, kept.invert⟩

/-- What an evaluation does on a matched line. -/
theorem matchStep_matched (kept : Kept addresses invert cmd)
    (matched : matchesLine regexec (restoreEnd cmd) visit = true)
    (start : StartField addresses earlier cmd.begLine)
    (begins : cmd.begLine > 0 → Begins regexec addresses earlier visit) :
    ∃ next, matchStep regexec cmd visit = (next, true) ∧ Kept addresses invert next ∧
      StartField addresses (earlier ++ [visit]) next.begLine ∧ ¬ next.begLine > 0 ∧
      next.endLine = (resolveLines (restoreEnd cmd) visit).endLine ∧
      next.inMatch = !endsMatch regexec (resolveLines (restoreEnd cmd) visit) cmd.inMatch visit := by
  have same : (restoreEnd cmd).begLine = cmd.begLine := restoreEnd_begLine
  obtain ⟨started, dead⟩ := resolveLines_start (same ▸ start)
    (fun positive => begins (same ▸ positive))
  exact ⟨_, if_pos matched, ((restoreEnd_kept kept).resolveLines visit).setInMatch _, started, dead,
    rfl, rfl⟩

/-- A command that has been set up follows the rule of its addresses. -/
theorem matchStep_simulates (fits : Fits addresses) :
    Simulates (rule regexec addresses) (Admitted addresses) (matchStep regexec)
      (Idle addresses invert) (Inside addresses invert) := by
  have begun : ∀ {earlier cmd visit}, Admitted addresses earlier visit →
      Idle addresses invert earlier cmd → Begins regexec addresses earlier visit →
      ∃ next, matchStep regexec cmd visit = (next, true) ∧ Kept addresses invert next ∧
        StartField addresses (earlier ++ [visit]) next.begLine ∧ ¬ next.begLine > 0 ∧
        next.endLine = resolvedOf addresses visit ∧
        (next.inMatch = true ↔ ¬ Single addresses visit) := by
    intro earlier cmd visit admitted idle begins
    obtain ⟨next, result, kept, start, dead, endLine, inMatch⟩ := matchStep_matched idle.toKept
      ((matchesLine_iff idle admitted).2 begins) idle.start fun _ => begins
    have resolved : (resolveLines (restoreEnd cmd) visit).endLine = resolvedOf addresses visit := by
      refine resolveLines_endLine fits admitted ?_
      rw [restoreEnd, if_neg (by simp [idle.inMatch])]
      exact idle.endLineOrig
    refine ⟨next, result, kept, start, dead, endLine.trans resolved, ?_⟩
    rw [inMatch, idle.inMatch, Bool.not_eq_true', ← Bool.not_eq_true,
      endsMatch_single ((restoreEnd_kept idle.toKept).resolveLines visit) resolved]
  have continued : ∀ {earlier first cmd visit}, Inside addresses invert earlier first cmd →
      ∃ next, matchStep regexec cmd visit = (next, true) ∧ Kept addresses invert next ∧
        StartField addresses (earlier ++ [visit]) next.begLine ∧ ¬ next.begLine > 0 ∧
        next.endLine = resolvedOf addresses first ∧
        (next.inMatch = true ↔ ¬ Ends regexec addresses first visit) := by
    intro earlier first cmd visit within
    have unchanged : restoreEnd cmd = cmd := if_pos within.inMatch
    have matched : matchesLine regexec (restoreEnd cmd) visit = true := by
      simp [unchanged, matchesLine, within.inMatch]
    obtain ⟨next, result, kept, start, dead, endLine, inMatch⟩ := matchStep_matched within.toKept
      matched within.start fun alive => absurd alive within.startDead
    rw [unchanged] at endLine inMatch
    have resolved : (resolveLines cmd visit).endLine = resolvedOf addresses first :=
      resolveLines_resolved within.endLine
    refine ⟨next, result, kept, start, dead, endLine.trans resolved, ?_⟩
    rw [inMatch, within.inMatch, Bool.not_eq_true', ← Bool.not_eq_true,
      endsMatch_ends (within.toKept.resolveLines visit) resolved]
  have closed : ∀ {p : Prop} {flag : Bool}, (flag = true ↔ ¬ p) → p → flag = false :=
    fun same closes => Bool.not_eq_true _ ▸ fun set => same.1 set closes
  constructor
  case skip =>
    intro earlier cmd visit admitted idle skipped
    have unmatched : ¬ matchesLine regexec (restoreEnd cmd) visit = true := fun matched =>
      skipped ((matchesLine_iff idle admitted).1 matched)
    have start : StartField addresses (earlier ++ [visit]) (restoreEnd cmd).begLine := by
      rw [restoreEnd_begLine]
      exact idle.start.append skipped
    rw [matchStep, if_neg unmatched]
    exact ⟨rfl, (restoreEnd_kept idle.toKept).setInMatch _, rfl, start⟩
  case one =>
    intro earlier cmd visit admitted idle begins single
    obtain ⟨next, result, kept, start, -, -, inMatch⟩ := begun admitted idle begins
    rw [result]
    exact ⟨rfl, kept, closed inMatch single, start⟩
  case enter =>
    intro earlier cmd visit admitted idle begins long
    obtain ⟨next, result, kept, start, dead, endLine, inMatch⟩ := begun admitted idle begins
    rw [result]
    refine ⟨rfl, kept, inMatch.2 long, start, dead, endLine, ?_, isRange_of_not_single long,
      List.mem_append_right _ List.mem_cons_self⟩
    intro before member positive
    rw [endLine] at positive ⊢
    have here := lt_resolved long positive
    rcases List.mem_append.1 member with old | new
    · have less := admitted.1 before old
      omega
    · obtain rfl := List.mem_singleton.1 new
      exact here
  case stay =>
    intro earlier first cmd visit admitted within going
    obtain ⟨next, result, kept, start, dead, endLine, inMatch⟩ := continued within
    rw [result]
    refine ⟨rfl, kept, inMatch.2 going, start, dead, endLine, ?_, within.isRange,
      List.mem_append_left _ within.member⟩
    intro before member positive
    rw [endLine] at positive ⊢
    rcases List.mem_append.1 member with old | new
    · rw [← within.endLine] at positive ⊢
      exact within.notOver before old positive
    · obtain rfl := List.mem_singleton.1 new
      exact lt_resolved_of_not_ends going positive
  case leave =>
    intro earlier first cmd visit admitted within closes
    obtain ⟨next, result, kept, start, -, -, inMatch⟩ := continued within
    rw [result]
    exact ⟨rfl, kept, closed inMatch closes, start⟩

/-! ## Evaluating on every line -/

/-- The line numbers of the addresses taken literally. -/
def literalRule (regexec : Regex → List UInt8 → Bool) (addresses : Addresses Regex) : Rule Visit where
  begins _ visit :=
    match addresses.first? with
    | none => True
    | some (.line number) => visit.linenum = number
    | some .last => visit.isLast = true
    | some (.regex re) => regexec re visit.patternSpace = true
  single := Single addresses
  ends first visit :=
    match addresses.second? with
    | none => True
    | some (.line number) => visit.linenum = number
    | some .last => visit.isLast = true
    | some (.regex re) => regexec re visit.patternSpace = true
    | some (.plus count) => visit.linenum = first.linenum + count

/-- The command is evaluated on every line. -/
def OnEveryLine (visits : List Visit) : Prop :=
  visits.map Visit.linenum = List.range' 1 visits.length

/-- Line 0 is not asked for by itself. -/
def NamesNoLineZero (addresses : Addresses Regex) : Prop :=
  addresses.first? = some (.line 0) → addresses.isRange = true

/-- The next line after all the lines so far. -/
def AdmittedNext (addresses : Addresses Regex) (earlier : List Visit) (visit : Visit) : Prop :=
  Admitted addresses earlier visit ∧ OnEveryLine earlier ∧ visit.linenum = earlier.length + 1

theorem OnEveryLine.exists_iff (all : OnEveryLine earlier) (number : Nat) :
    (∃ before ∈ earlier, before.linenum = number) ↔ 1 ≤ number ∧ number ≤ earlier.length := by
  rw [← List.mem_map (f := Visit.linenum), all, List.mem_range'_1]
  omega

/-- On consecutive lines the numbers of a range are reached exactly. -/
theorem matchStep_simulates_literal (fits : Fits addresses) (noZero : NamesNoLineZero addresses) :
    Simulates (literalRule regexec addresses) (AdmittedNext addresses) (matchStep regexec)
      (Idle addresses invert) (Inside addresses invert) := by
  refine (matchStep_simulates fits).congr (fun _ _ next => next.1) ?_ (fun _ => Iff.rfl) ?_
  · intro earlier cmd visit next _
    obtain ⟨⟨less, -⟩, all, here⟩ := next
    unfold literalRule rule Begins
    dsimp only
    cases kind : addresses.first? with
    | none => exact Iff.rfl
    | some address =>
      cases address with
      | last => exact Iff.rfl
      | regex re => exact Iff.rfl
      | line number =>
        cases range : addresses.isRange with
        | false =>
          have nonzero : number ≠ 0 := by
            rintro rfl
            rw [noZero kind] at range
            cases range
          simp [nonzero]
        | true =>
          simp only [if_true]
          constructor
          · rintro rfl
            exact ⟨by omega, Nat.le_refl _, less⟩
          · rintro ⟨nonzero, reached, below⟩
            by_contra past
            obtain ⟨before, seen, same⟩ := (all.exists_iff number).2 (by omega)
            exact absurd (below before seen) (by omega)
  · intro earlier first cmd visit next within
    obtain ⟨⟨less, -⟩, all, here⟩ := next
    have known := (all.exists_iff first.linenum).1 ⟨first, within.member, rfl⟩
    obtain ⟨last, seen, lastLine⟩ := (all.exists_iff earlier.length).2 (by omega)
    have notOver := within.notOver last seen
    rw [within.endLine] at notOver
    unfold resolvedOf at notOver
    unfold literalRule rule Ends
    dsimp only
    cases kind : addresses.second? with
    | none => exact Iff.rfl
    | some second =>
      rw [kind] at notOver
      cases second with
      | last => exact Iff.rfl
      | regex re => exact Iff.rfl
      | line number =>
        have nonzero : number ≠ 0 := by
          rintro rfl
          exact absurd within.isRange (by simp [isRange_of_lineZero kind])
        dsimp only at notOver ⊢
        omega
      | plus count =>
        dsimp only at notOver ⊢
        omega

/-! ## A whole run -/

theorem matchStep_kept (kept : Kept addresses invert cmd) (visit : Visit) :
    Kept addresses invert (matchStep regexec cmd visit).1 := by
  rw [matchStep]
  dsimp only
  split
  · exact ((restoreEnd_kept kept).resolveLines visit).setInMatch _
  · exact (restoreEnd_kept kept).setInMatch _

/-- The lines a command is carried out on are those that match, or with `!` the others. -/
theorem selected_eq (kept : Kept addresses invert cmd) (visits : List Visit) :
    selected regexec cmd visits = (run (matchStep regexec) cmd visits).map (· != invert) := by
  induction visits generalizing cmd with
  | nil => rfl
  | cons visit rest ih =>
    have next : Kept addresses invert (matchStep regexec cmd visit).1 := matchStep_kept kept visit
    have chosen : (evaluate regexec cmd visit).2 = ((matchStep regexec cmd visit).2 != invert) := by
      rw [evaluate]
      dsimp only
      rw [next.invert]
      cases invert <;> simp
    rw [selected, run, run, List.map_cons, ← ih next, chosen]
    rfl

/-- Numbers on these lines stay `int`s. -/
def FitsOn (addresses : Addresses Regex) (visits : List Visit) : Prop :=
  Fits addresses ∧ ∀ count, addresses.second? = some (.plus count) →
    ∀ visit ∈ visits, visit.linenum + count < 2 ^ 31

theorem FitsOn.admitted {visits : List Visit} (fits : FitsOn addresses visits)
    (ordered : visits.Pairwise fun u v => u.linenum < v.linenum) :
    AllAdmitted (Admitted addresses) [] visits := by
  rintro before visit after rfl
  refine ⟨fun u member => ?_, fun count plus => fits.2 count plus visit (by simp)⟩
  exact (List.pairwise_append.1 ordered).2.2 u member visit List.mem_cons_self

theorem FitsOn.admittedNext {visits : List Visit} (fits : FitsOn addresses visits)
    (all : OnEveryLine visits) : AllAdmitted (AdmittedNext addresses) [] visits := by
  have ordered : visits.Pairwise fun u v => u.linenum < v.linenum := by
    rw [← List.pairwise_map (f := Visit.linenum), all]
    exact List.pairwise_lt_range'
  rintro before visit after rfl
  have parts : before.map Visit.linenum ++ visit.linenum :: after.map Visit.linenum =
      List.range' 1 before.length ++ List.range' (1 + before.length) (after.length + 1) := by
    rw [List.range'_append_1, ← List.map_cons, ← List.map_append, all, List.length_append]
    rfl
  obtain ⟨first, second⟩ := List.append_inj parts (by simp)
  rw [List.range'_succ] at second
  refine ⟨fits.admitted ordered rfl, first, ?_⟩
  rw [(List.cons.inj second).1, List.nil_append, Nat.add_comm]

/-- A command is carried out on the lines of its ranges, or with `!` on the others. On
consecutive lines the numbers mean the lines they name, line 0 apart. -/
theorem selected_scan (regexec : Regex → List UInt8 → Bool) (addresses : Addresses Regex)
    (invert : Bool) (visits : List Visit) (fits : FitsOn addresses visits)
    (ordered : visits.Pairwise fun u v => u.linenum < v.linenum) :
    ∃ cmd chosen, addCmd addresses invert = some cmd ∧
      selected regexec cmd visits = chosen.map (· != invert) ∧
      Scan (rule regexec addresses) [] visits chosen ∧
      (OnEveryLine visits → NamesNoLineZero addresses →
        Scan (literalRule regexec addresses) [] visits chosen) := by
  obtain ⟨cmd, added, idle⟩ := addCmd_idle fits.1 invert
  refine ⟨cmd, _, added, selected_eq idle.toKept visits, ?_, ?_⟩
  · exact (matchStep_simulates fits.1).scan idle (fits.admitted ordered)
  · intro all noZero
    exact (matchStep_simulates_literal fits.1 noZero).scan idle (fits.admittedNext all)

/-- A line of one byte that is not the last one. -/
def lineAt (linenum : Nat) : Visit := { linenum := linenum, patternSpace := [97], isLast := false }

def noRegex : Unit → List UInt8 → Bool := fun _ _ => false

theorem selected_scan_range :
    ∃ cmd chosen,
      addCmd (.two (.line 2) (.plus 1) : Addresses Unit) true = some cmd ∧
      selected noRegex cmd [lineAt 1, lineAt 3, lineAt 9] = chosen.map (· != true) ∧
      Scan (rule noRegex (.two (.line 2) (.plus 1))) []
        [lineAt 1, lineAt 3, lineAt 9] chosen ∧
      (OnEveryLine [lineAt 1, lineAt 3, lineAt 9] →
        NamesNoLineZero (.two (.line 2) (.plus 1) : Addresses Unit) →
        Scan (literalRule noRegex (.two (.line 2) (.plus 1))) []
          [lineAt 1, lineAt 3, lineAt 9] chosen) :=
  selected_scan noRegex (.two (.line 2) (.plus 1)) true [lineAt 1, lineAt 3, lineAt 9]
    (by simp [FitsOn, Fits, Addresses.first?, Addresses.second?, lineAt])
    (by simp [lineAt])

/-- `0p` prints line 1, which is not line 0; and `2,5p` prints line 3 when line 2 has been
passed over, though line 3 matches no first address. -/
theorem selected_not_literal :
    (∃ cmd, addCmd (.one (.line 0) : Addresses Unit) false = some cmd ∧
      selected noRegex cmd [lineAt 1] = [true] ∧
      ¬ Scan (literalRule noRegex (.one (.line 0))) [] [lineAt 1] [true]) ∧
    ∃ cmd, addCmd (.two (.line 2) (.line 5) : Addresses Unit) false = some cmd ∧
      selected noRegex cmd [lineAt 1, lineAt 3] = [false, true] ∧
      ¬ Scan (literalRule noRegex (.two (.line 2) (.line 5))) []
        [lineAt 1, lineAt 3] [false, true] := by
  refine ⟨⟨_, rfl, rfl, ?_⟩, ⟨_, rfl, rfl, ?_⟩⟩
  · intro scan
    obtain ⟨_, chosen, -⟩ := scan.of_not_begins (by simp [literalRule, Addresses.first?, lineAt])
    cases chosen
  · intro scan
    obtain ⟨_, chosen, later⟩ := scan.of_not_begins
      (by simp [literalRule, Addresses.first?, lineAt])
    obtain rfl := (List.cons.inj chosen).2
    obtain ⟨_, chosen', -⟩ := later.of_not_begins (by simp [literalRule, Addresses.first?, lineAt])
    cases chosen'

end Busybox.Sed
