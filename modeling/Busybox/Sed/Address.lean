import Mathlib
import Busybox.Lib.Ranges

/-!
# Addresses of a sed command

A command keeps its addresses in five fields that change as lines go by.
`get_address` and `add_cmd` fill them: `$` becomes line -1, `+N` becomes line
-2-N, and line 0 stands for an absent address. Each evaluation of the command on
a line asks whether a range goes on, begins or ends there, kills a numeric start
that has matched and turns `+N` into a line number while its range lasts.
-/

namespace Busybox.Sed

/-- First address of a command, or its only one. -/
inductive Address (Regex : Type*)
  | line (number : Nat)
  | last
  | regex (re : Regex)

/-- Second address of a command. -/
inductive EndAddress (Regex : Type*)
  | line (number : Nat)
  | last
  | regex (re : Regex)
  | plus (count : Nat)

/-- The addresses before a command. -/
inductive Addresses (Regex : Type*)
  | none
  | one (first : Address Regex)
  | two (first : Address Regex) (second : EndAddress Regex)

/-- The fields of `sed_cmd_t` that select lines. -/
structure SedCmd (Regex : Type*) where
  begMatch : Option Regex := none
  endMatch : Option Regex := none
  begLine : Int := 0
  endLine : Int := 0
  endLineOrig : Int := 0
  invert : Bool := false
  inMatch : Bool := false

/-- One evaluation of a command: `linenum`, the pattern space, and `next_line == NULL`. -/
structure Visit where
  linenum : Nat
  patternSpace : List UInt8
  isLast : Bool

/-- An `int`: the low 32 bits, signed. -/
def int (value : Int) : Int := value.bmod (2 ^ 32)

/-- `*linenum = strtol(my_str, ..., 10)`; `strtol` saturates at `LONG_MAX`. -/
def parseNumber (digits : Nat) : Int := int (min digits (2 ^ 63 - 1))

variable {Regex : Type*}

def Addresses.first? : Addresses Regex → Option (Address Regex)
  | .none => Option.none
  | .one first | .two first _ => some first

def Addresses.second? : Addresses Regex → Option (EndAddress Regex)
  | .none | .one _ => Option.none
  | .two _ second => some second

/-- The line number and the regex of a first address. -/
def getAddress : Address Regex → Int × Option Regex
  | .line number => (parseNumber number, none)
  | .last => (-1, none)
  | .regex re => (0, some re)

/-- The part behind the comma; a count that has turned negative is "no address after comma". -/
def getEndAddress : EndAddress Regex → Option (Int × Option Regex)
  | .line number => some (parseNumber number, none)
  | .last => some (-1, none)
  | .regex re => some (0, some re)
  | .plus count =>
      let idx := parseNumber count
      if idx < 0 then none else some (int (-2 - idx), none)

/-- The command as `add_cmd` leaves it. -/
def addCmd (addresses : Addresses Regex) (invert : Bool) : Option (SedCmd Regex) :=
  match addresses with
  | .none => some { invert := invert }
  | .one first =>
      let (begLine, begMatch) := getAddress first
      some { begLine := begLine, begMatch := begMatch, invert := invert }
  | .two first second => do
      let (begLine, begMatch) := getAddress first
      let (endLine, endMatch) ← getEndAddress second
      some { begLine := begLine, begMatch := begMatch, endLine := endLine, endLineOrig := endLine,
             endMatch := endMatch, invert := invert }

section

variable (regexec : Regex → List UInt8 → Bool)

/-- Does the pattern space match the regex, if there is one? -/
def matchesRegex (re : Option Regex) (visit : Visit) : Bool :=
  re.any fun re => regexec re visit.patternSpace

/-- Is the line part of the range, or does it begin one? -/
def matchesLine (cmd : SedCmd Regex) (visit : Visit) : Bool :=
  -- Are we continuing a previous multi-line match?
  cmd.inMatch ||
  -- Or is no range necessary?
  (cmd.begLine == 0 && cmd.endLine == 0 && cmd.begMatch.isNone && cmd.endMatch.isNone) ||
  -- Or did we match the start of a numerical range?
  (cmd.begLine > 0 &&
    (if cmd.endLine ≠ 0 ∨ cmd.endMatch.isSome then cmd.begLine ≤ visit.linenum
      else cmd.begLine = visit.linenum)) ||
  -- Or does this line match our begin address regex?
  matchesRegex regexec cmd.begMatch visit ||
  -- Or did we match last line of input?
  (cmd.begLine == -1 && visit.isLast)

/-- Is this line the end of the current match? -/
def endsMatch (cmd : SedCmd Regex) (oldMatched : Bool) (visit : Visit) : Bool :=
  (if cmd.endLine ≠ 0 then
      if cmd.endLine = -1 then visit.isLast else cmd.endLine ≤ visit.linenum
    else cmd.endMatch.isNone) ||
  (oldMatched && matchesRegex regexec cmd.endMatch visit)

/-- What a matched line does to the line fields. -/
def resolveLines (cmd : SedCmd Regex) (visit : Visit) : SedCmd Regex :=
  { cmd with
    endLine := if cmd.endLine ≤ -2 then int (visit.linenum + (int (-cmd.endLine) - 2))
      else cmd.endLine
    -- once matched, "n,xxx" range is dead, disabling it
    begLine := if cmd.begLine > 0 then -2 else cmd.begLine }

/-- Between ranges the end field is what the script gave. -/
def restoreEnd (cmd : SedCmd Regex) : SedCmd Regex :=
  if cmd.inMatch then cmd else { cmd with endLine := cmd.endLineOrig }

/-- The first part of a round of the loop over the commands: the fields afterwards, and
whether the line matched. -/
def matchStep (cmd : SedCmd Regex) (visit : Visit) : SedCmd Regex × Bool :=
  let restored := restoreEnd cmd
  if matchesLine regexec restored visit then
    let resolved := resolveLines restored visit
    ({ resolved with inMatch := !endsMatch regexec resolved cmd.inMatch visit }, true)
  else ({ restored with inMatch := false }, false)

/-- Is the command carried out on the line? -/
def evaluate (cmd : SedCmd Regex) (visit : Visit) : SedCmd Regex × Bool :=
  let (cmd, matched) := matchStep regexec cmd visit
  (cmd, if cmd.invert then !matched else matched)

/-- The lines a command is carried out on, of those it is evaluated on. -/
def selected (cmd : SedCmd Regex) (visits : List Visit) : List Bool :=
  Ranges.run (evaluate regexec) cmd visits

end

end Busybox.Sed
