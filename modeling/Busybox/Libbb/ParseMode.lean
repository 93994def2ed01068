import Mathlib.Data.List.TakeWhile
import Mathlib.Tactic.Common

/-!
# Mode strings

`bb_parse_mode` reads a mode string and applies it as it goes. A pointer into
the string is the text that is left of it, without the NUL, and the result -1 is
`none`. The process has a umask that the code reads with two calls of `umask`.
-/

namespace Busybox.Libbb.ParseMode

abbrev Text := List UInt8

/-- `mode_t`, and the `unsigned` that the current mode comes in. -/
abbrev Mode := BitVec 32

/-! ## Bits -/

def sIfmt : Mode := 0o170000
def sIfdir : Mode := 0o040000
def sIsuid : Mode := 0o4000
def sIsgid : Mode := 0o2000
def sIsvtx : Mode := 0o1000
def sIrwxu : Mode := 0o700
def sIrwxg : Mode := 0o070
def sIrwxo : Mode := 0o007

/-- `S_IXUSR | S_IXGRP | S_IXOTH`. -/
def sIxugo : Mode := 0o111

/-- `FILEMODEBITS`. -/
def fileModeBits : Mode := sIsuid ||| sIsgid ||| sIsvtx ||| sIrwxu ||| sIrwxg ||| sIrwxo

/-- `who_mask` by `who_chars`. -/
def whoMask (c : UInt8) : Option Mode :=
  if c = 97 then some fileModeBits                 -- a
  else if c = 117 then some (sIsuid ||| sIrwxu)    -- u
  else if c = 103 then some (sIsgid ||| sIrwxg)    -- g
  else if c = 111 then some sIrwxo                 -- o
  else none

/-- `perm_mask` by `perm_chars`. -/
def permMask (c : UInt8) : Option Mode :=
  if c = 114 then some 0o444                       -- r
  else if c = 119 then some 0o222                  -- w
  else if c = 120 then some sIxugo                 -- x
  else if c = 88 then some sIxugo                  -- X
  else if c = 115 then some (sIsuid ||| sIsgid)    -- s
  else if c = 116 then some sIsvtx                 -- t
  else none

/-! ## One clause -/

/-- The loop at `WHO_LIST`: the mask and the text after the list, `none` where the text
is over. -/
def whoList (wholist : Mode) : Text → Option (Mode × Text)
  | [] => some (wholist, [])
  | c :: rest =>
    match whoMask c with
    | none => some (wholist, c :: rest)
    | some mask => if rest = [] then none else whoList (wholist ||| mask) rest

/-- The loop over `perm_mask` that completes the permissions of a permcopy. -/
def completed (permlist : Mode) : Mode :=
  ([0o444, 0o222, 0o111] : List Mode).foldl
    (fun permlist mask => if permlist &&& mask ≠ 0 then permlist ||| mask else permlist) permlist

/-- The permissions of a permcopy, `none` where the character is none of u, g and o. -/
def permcopy (newMode : Mode) (c : UInt8) : Option Mode :=
  if c = 97 then none
  else (whoMask c).map fun mask => completed (mask &&& (sIrwxu ||| sIrwxg ||| sIrwxo) &&& newMode)

/-- The loop at `PERM_LIST`: the permissions and the text after the list. -/
def permList (newMode permlist : Mode) : Text → Mode × Text
  | [] => (permlist, [])
  | c :: rest =>
    match permMask c with
    | none => (permlist, c :: rest)
    | some mask =>
      if c ≠ 88 ∨ newMode &&& (sIfdir ||| sIxugo) ≠ 0 then permList newMode (permlist ||| mask) rest
      else permList newMode permlist rest

/-- The permissions behind an operator: a permcopy, or a list. -/
def permissions (newMode : Mode) (s : Text) : Mode × Text :=
  match s with
  | [] => (0, [])
  | c :: rest =>
    match permcopy newMode c with
    | some permlist => (permlist, rest)
    | none => permList newMode 0 (c :: rest)

/-- The bits that the operator `=` leaves alone. -/
def kept (wholist : Mode) : Mode := if wholist ≠ 0 then ~~~wholist else ~~~fileModeBits

/-- What is done at `GOT_ACTION`. -/
def gotAction (umask wholist permlist newMode : Mode) (op : UInt8) : Mode :=
  if permlist ≠ 0 then
    let permlist := permlist &&& if wholist = 0 then ~~~umask else wholist
    if op = 45 then newMode &&& ~~~permlist else newMode ||| permlist
  else newMode

/-- One pass of the action list: the new mode and the text after the action. -/
def action (umask wholist newMode : Mode) : Text → Option (Mode × Text)
  | [] => none
  | op :: s =>
    if op ≠ 43 ∧ op ≠ 45 ∧ op ≠ 61 then none
    else
      -- since op is '=', clear all bits corresponding to the wholist
      let newMode := if op = 61 then newMode &&& kept wholist else newMode
      let (permlist, s) := permissions newMode s
      some (gotAction umask wholist permlist newMode op, s)

theorem length_permList_le (newMode permlist : Mode) (s : Text) :
    (permList newMode permlist s).2.length ≤ s.length := by
  induction s generalizing permlist with
  | nil => exact le_refl _
  | cons c rest ih =>
    rw [permList]
    split
    · exact le_refl _
    · split <;> exact Nat.le_succ_of_le (ih _)

theorem length_permissions_le (newMode : Mode) (s : Text) :
    (permissions newMode s).2.length ≤ s.length := by
  cases s with
  | nil => exact le_refl _
  | cons c rest =>
    rw [permissions]
    split
    · exact Nat.le_succ _
    · exact length_permList_le _ _ _

/-- An action uses up its operator. -/
theorem length_action_lt {umask wholist newMode after : Mode} {s rest : Text}
    (result : action umask wholist newMode s = some (after, rest)) : rest.length < s.length := by
  cases s with
  | nil => cases result
  | cons op s =>
    rw [action] at result
    split at result
    · cases result
    · cases result
      exact Nat.lt_succ_of_le (length_permissions_le _ _)

/-- The action list of a clause. -/
def actionList (umask wholist newMode : Mode) (s : Text) : Option (Mode × Text) :=
  match _result : action umask wholist newMode s with
  | none => none
  | some (newMode, s) =>
    if s = [] ∨ s.head? = some 44 then some (newMode, s)
    else actionList umask wholist newMode s
termination_by s.length
decreasing_by exact length_action_lt _result

theorem length_whoList_le {wholist mask : Mode} {s rest : Text}
    (result : whoList wholist s = some (mask, rest)) : rest.length ≤ s.length := by
  induction s generalizing wholist with
  | nil =>
    cases result
    exact le_refl _
  | cons c s ih =>
    rw [whoList] at result
    split at result
    · cases result
      exact le_refl _
    · split at result
      · cases result
      · exact Nat.le_succ_of_le (ih result)

theorem length_actionList_lt {umask wholist newMode after : Mode} {s rest : Text}
    (result : actionList umask wholist newMode s = some (after, rest)) :
    rest.length < s.length := by
  induction size : s.length using Nat.strong_induction_on generalizing s newMode with
  | _ size ih =>
    rw [actionList] at result
    split at result
    · cases result
    case h_2 next behind acted =>
      have used := length_action_lt acted
      split at result
      · cases result
        omega
      · exact lt_trans (ih behind.length (by omega) result rfl) (by omega)

/-! ## The whole string -/

/-- The loop over the clauses. -/
def clauses (umask newMode : Mode) (s : Text) : Option Mode :=
  match s with
  | [] => some newMode
  | c :: rest =>
    if c = 44 then clauses umask newMode rest  -- we allow empty clauses
    else
      match _who : whoList 0 (c :: rest) with
      | none => none
      | some (wholist, s) =>
        match _acted : actionList umask wholist newMode s with
        | none => none
        | some (newMode, s) => clauses umask newMode s
termination_by s.length
decreasing_by
  · exact Nat.lt_succ_self _
  · exact lt_of_lt_of_le (length_actionList_lt _acted) (length_whoList_le _who)

def isOctal (c : UInt8) : Bool := 48 ≤ c && c ≤ 55

/-- An octal mode: `strtoul` and the check of range and trailing characters. -/
def octalMode (s : Text) : Option Mode :=
  let tmp := (s.takeWhile isOctal).foldl (fun value c => value * 8 + (c.toNat - 48)) 0
  if s.dropWhile isOctal ≠ [] ∨ 0o7777 < tmp then none else some (BitVec.ofNat 32 tmp)

/-- `bb_parse_mode`. -/
def bbParseMode (umask : Mode) (s : Text) (currentMode : Mode) : Option Mode :=
  if s.head?.any isOctal then octalMode s else clauses umask currentMode s

end Busybox.Libbb.ParseMode
