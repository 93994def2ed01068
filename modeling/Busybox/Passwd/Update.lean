import Mathlib
import Busybox.Lib.Runs
import Busybox.Libbb.GetLine

/-!
# What `update_passwd` writes

The old file is read line by line and each line is copied, changed or dropped,
depending on the applet's name and on which of name, new password and member are
given. `resume` continues from any line, so that a process can be stopped between
two lines; `edit` is the whole of it.
-/

namespace Busybox.Passwd

open Libbb (fgetlines)

abbrev Text := List UInt8

/-- The arguments of `update_passwd`, the first letter of `applet_name`, whether the file's
name holds "shadow", and what `time(NULL)` answers at each line. -/
structure Request where
  applet : UInt8
  name : Option Text := none
  newPasswd : Option Text := none
  member : Option Text := none
  shadow : Bool := false
  time : Nat → Nat := fun _ => 0

/-- What follows the key, if the string begins with it. -/
def isPrefixedWith : Text → Text → Option Text
  | str, [] => some str
  | [], _ :: _ => none
  | ch :: str, k :: key => if ch = k then isPrefixedWith str key else none

/-- `strrchr`: the string before and after the last such byte. -/
def strrchr (line : Text) (ch : UInt8) : Option (Text × Text) :=
  if ch ∈ line then
    let after := (line.reverse.takeWhile (· ≠ ch)).reverse
    some (line.take (line.length - after.length - 1), after)
  else none

theorem isPrefixedWith_length {str key rest : Text} (found : isPrefixedWith str key = some rest) :
    rest.length ≤ str.length := by
  induction key generalizing str with
  | nil =>
    obtain rfl : str = rest := by simpa [isPrefixedWith] using found
    exact Nat.le_refl _
  | cons k key ih =>
    cases str with
    | nil => cases found
    | cons ch str =>
      rw [isPrefixedWith] at found
      split at found
      · exact Nat.le_succ_of_le (ih found)
      · cases found

/-- The loop that deletes a member from the list behind a group's last colon; `before` is the
line up to the list element that is looked at. -/
def dropMember (member before list : Text) : Text × Nat :=
  match _found : isPrefixedWith list member with
  | some [] => (if before.getLast? = some 44 then before.dropLast else before, 1)
  | some (44 :: rest) =>
      let (line, changed) := dropMember member before rest
      (line, changed + 1)
  | _ =>
      match _others : list.dropWhile (· ≠ 44) with
      | [] => (before ++ list, 0)
      | comma :: rest => dropMember member (before ++ list.takeWhile (· ≠ 44) ++ [comma]) rest
termination_by list.length
decreasing_by
  · have shorter := isPrefixedWith_length _found
    exact shorter
  · have shorter := (list.dropWhile_sublist (· ≠ 44)).length_le
    rw [_others] at shorter
    exact shorter

/-- `"%s"` of a string that may be missing. -/
def printed (text : Option Text) : Text := text.getD [40, 110, 117, 108, 108, 41]

def decimal (number : Nat) : Text := (Nat.toDigits 10 number).map fun digit => digit.toNat.toUInt8

/-- The change date, in days as an `unsigned`; 0 has special meaning and is avoided. -/
def timeDays (seconds : Nat) : Nat :=
  let days := seconds / (24 * 60 * 60) % 2 ^ 32
  if days = 0 then 1 else days

def nameColon (request : Request) : Text := request.name.getD [] ++ [58]

/-- A line with its password field replaced; `cp` is the line behind "name:". -/
def changePasswd (request : Request) (seconds : Nat) (cp : Text) : Text :=
  match request.shadow, cp.dropWhile (· ≠ 58) with
  | true, colon :: date =>
      nameColon request ++ printed request.newPasswd ++ [colon] ++ decimal (timeDays seconds) ++
        date.dropWhile (· ≠ 58)
  | _, rest => nameColon request ++ printed request.newPasswd ++ rest

/-- What is written for one line, its newline included, and how many lines it changes. -/
def editLine (request : Request) (seconds : Nat) (line : Text) : Text × Nat :=
  match request.name, request.member with
  | none, some member =>
      -- Delete member from all groups
      match strrchr line 58 with
      | none => (line ++ [10], 0)
      | some (before, list) =>
          let (line, changed) := dropMember member (before ++ [58]) list
          (line ++ [10], changed)
  | _, member =>
      match isPrefixedWith line (nameColon request), member with
      | none, _ => (line ++ [10], 0)
      | some _, some member =>
          if request.applet = 97 then
            -- Add user to group
            (line ++ (if line.getLast? = some 58 then [] else [44]) ++ member ++ [10], 1)
          else
            -- Delete user from group
            match strrchr line 58 with
            | none => (line ++ [10], 0)
            | some (before, list) =>
                let names := list.splitOn 44
                (before ++ [58] ++ List.intercalate [44] (names.filter (· ≠ member)) ++ [10],
                  names.count member)
      | some cp, none =>
          if request.applet = 112 ∨ request.applet = 99 then
            (changePasswd request seconds cp ++ [10], 1)
          else ([], 0)

/-- A new user or group is added when no line has changed. -/
def addedLine (request : Request) (changed : Nat) : Text × Nat :=
  if changed = 0 ∧ request.applet = 97 ∧ request.member = none then
    (nameColon request ++ printed request.newPasswd ++ [10], 1)
  else ([], changed)

/-- The rest of the edit, from the line with the given number on. -/
def resume (request : Request) : Nat → List Text → Text → Nat → Text × Nat
  | _, [], out, changed =>
      let (text, changed) := addedLine request changed
      (out ++ text, changed)
  | number, line :: rest, out, changed =>
      let (text, more) := editLine request (request.time number) line
      resume request (number + 1) rest (out ++ text) (changed + more)

/-- The new file, and how many lines have changed. -/
def edit (request : Request) (old : Text) : Text × Nat :=
  resume request 0 (fgetlines [] old) [] 0

/-!
## Processes that run `update_passwd`

Any number of processes run `update_passwd` on one file. The directory holds
three names, FILE, FILE+ and FILE-, that stand for inodes; a process keeps the
inode of the file it has opened, whatever FILE stands for later. The steps of a
process are its system calls and the reading and writing of one line. A turn
names the process that takes its next step and says whether the system fails it
there.
-/

abbrev Inode := Nat

/-- Where a process stands in `update_passwd`. `old` is the inode behind `old_fd` and `new`
the one behind `new_fd`. -/
inductive Proc
  | starting
  /-- trying to create FILE+, with `i` tries left -/
  | waiting (old : Inode) (i : Nat)
  /-- FILE+ is created, the old backup still there -/
  | created (old new : Inode)
  /-- about to link FILE-, unless deleting it has failed -/
  | linking (old new : Inode) (failed : Bool)
  | locking (old new : Inode)
  /-- about to read the line of that number -/
  | editing (old new : Inode) (number changedLines : Nat)
  | unlocking (old new : Inode) (changedLines : Nat) (ferror : Bool)
  | closing (old new : Inode) (changedLines : Nat) (ferror : Bool)
  | publishing (old new : Inode) (changedLines : Nat)
  /-- at `unlink_new` with a failure -/
  | unlinkNew (new : Inode)
  | returned (ret : Int)
  deriving DecidableEq

/-- The files, the processes, and the processes whose rename has succeeded, in that order. -/
structure State (Pid : Type*) where
  contents : Inode → Text
  file : Inode
  plus : Option Inode
  minus : Option Inode
  fresh : Inode
  locks : Inode → Option Pid
  procs : Pid → Proc
  committed : List Pid

/-- One step of a process; `fault` if the system call it makes fails. -/
structure Turn (Pid : Type*) where
  pid : Pid
  fault : Bool := false

variable {Pid : Type*} [DecidableEq Pid]

/-- The process goes on to its next step. -/
def State.goto (s : State Pid) (pid : Pid) (next : Proc) : State Pid :=
  { s with procs := Function.update s.procs pid next }

/-- More text at the end of an inode. -/
def State.write (s : State Pid) (inode : Inode) (text : Text) : State Pid :=
  { s with contents := Function.update s.contents inode (s.contents inode ++ text) }

/-- `open(fnamesfx, O_WRONLY|O_CREAT|O_EXCL, 0600)` when nothing has that name. -/
def State.create (s : State Pid) : State Pid :=
  { s with
    contents := Function.update s.contents s.fresh []
    plus := some s.fresh
    fresh := s.fresh + 1 }

/-- `rename` of FILE+ to FILE, by that process. -/
def State.publish (s : State Pid) (pid : Pid) (new : Inode) : State Pid :=
  { s with file := new, plus := none, committed := s.committed ++ [pid] }

/-- `fcntl(old_fd, F_SETLK, &lock)` with `F_WRLCK`: not granted while another process has it. -/
def State.lock (s : State Pid) (pid : Pid) (inode : Inode) : State Pid :=
  if s.locks inode = none then { s with locks := Function.update s.locks inode (some pid) } else s

def State.unlock (s : State Pid) (pid : Pid) (inode : Inode) : State Pid :=
  if s.locks inode = some pid then { s with locks := Function.update s.locks inode none } else s

variable (requests : Pid → Request)

/-- The step of a process that stands there. -/
def advance (s : State Pid) (pid : Pid) (fault : Bool) : Proc → State Pid
  | .starting =>
      -- missing shadow is not an error
      if fault then s.goto pid (.returned (if (requests pid).shadow then 0 else -1))
      else s.goto pid (.waiting s.file 30)
  | .waiting old i =>
      if fault then s.goto pid (.returned (-1))
      else if s.plus.isSome then
        -- EEXIST
        s.goto pid (if i - 1 = 0 then .returned (-1) else .waiting old (i - 1))
      else s.create.goto pid (.created old s.fresh)
  | .created old new =>
      if fault then s.goto pid (.linking old new true)
      else State.goto { s with minus := none } pid (.linking old new false)
  | .linking old new failed =>
      if failed ∨ fault ∨ s.minus.isSome then s.goto pid (.locking old new)
      else State.goto { s with minus := some s.file } pid (.locking old new)
  | .locking old new =>
      if fault then s.goto pid (.editing old new 0 0)
      else (s.lock pid old).goto pid (.editing old new 0 0)
  | .editing old new number changedLines =>
      let line := if fault then none else (fgetlines [] (s.contents old))[number]?
      match line with
      | some line =>
          let (text, more) := editLine (requests pid) ((requests pid).time number) line
          (s.write new text).goto pid (.editing old new (number + 1) (changedLines + more))
      | none =>
          let (text, changedLines) := addedLine (requests pid) changedLines
          (s.write new text).goto pid (.unlocking old new changedLines fault)
  | .unlocking old new changedLines ferror =>
      (s.unlock pid old).goto pid (.closing old new changedLines ferror)
  | .closing old new changedLines ferror =>
      if ferror ∨ fault then s.goto pid (.unlinkNew new)
      else s.goto pid (.publishing old new changedLines)
  | .publishing _ new changedLines =>
      match fault, s.plus with
      | false, some inode => (s.publish pid inode).goto pid (.returned changedLines)
      | _, _ => s.goto pid (.unlinkNew new)
  | .unlinkNew _ =>
      if fault then s.goto pid (.returned (-1))
      else State.goto { s with plus := none } pid (.returned (-1))
  | .returned _ => s

/-- A process takes its next step. -/
def step (s : State Pid) (turn : Turn Pid) : State Pid :=
  advance requests s turn.pid turn.fault (s.procs turn.pid)

/-- FILE holds the text, nothing is named FILE+ or FILE-, and nobody has started. -/
def start (text : Text) : State Pid where
  contents := fun _ => text
  file := 0
  plus := none
  minus := none
  fresh := 1
  locks := fun _ => none
  procs := fun _ => .starting
  committed := []

end Busybox.Passwd
