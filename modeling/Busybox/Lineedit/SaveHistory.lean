import Busybox.Lib.Runs
import Busybox.Lineedit.Loading

/-!
# Shells that share a history file

Each new line is appended to the file by itself. A shell that has counted enough lines reads the
file again, writes the last ones to a file of its own and renames that one. The steps of a shell
are its system calls; names stand for inodes, and a shell that has opened a file keeps the inode.
-/

namespace Busybox.Lineedit

open LinkedHeap (Heap)
open Libbb (fgetlines unlines Unbroken Terminated)
open GuardedRun
open Fallible

abbrev Inode := ℕ

/-- A `max_history`. -/
structure HistorySize where
  val : ℕ
  positive : 1 ≤ val
  most : val ≤ MAX_HISTORY

/-- A line as `read_line_input` returns it and `remember_in_history` does not refuse it. -/
structure CommandLine where
  text : Text
  nonempty : text ≠ []
  unbroken : Unbroken text
  short : text.length < MAX_LINELEN

/-- Where a shell stands in `save_history`. -/
inductive Proc
  | idle
  /-- about to write the line to `fd` -/
  | appending (fd : Inode) (str : CommandLine)
  /-- about to open the file for `load_history` -/
  | trimming
  | reloading (fp : Inode)
  /-- about to open the new file for the lines of `st_temp` -/
  | creating (lines : List Text)
  | writing (lines : List Text)
  | replacing (lines : List Text)

/-- What the shell does next: the start of `read_line_input`, a new line, or the next system call,
which may fail. -/
inductive Action
  | load
  | save (str : CommandLine)
  | proceed (fault : Bool)

structure Turn (Pid : Type*) where
  pid : Pid
  action : Action

/-- The files, `cnt_history_in_file` of each shell, and the lines that have been appended. -/
structure State (Pid : Type*) where
  contents : Inode → Text
  histFile : Option Inode
  newFile : Pid → Option Inode
  fresh : Inode
  procs : Pid → Proc
  cntHistoryInFile : Pid → ℕ
  appended : List Text

variable {Pid : Type*} [DecidableEq Pid]

/-- The lines in `st_temp->history[]` after `load_history(st_temp)`. -/
def reload (maxHistory : HistorySize) (file : Option Text) : List Text :=
  match loadHistory file (newLineInput true maxHistory.val []) with
  | .ok stTemp => (List.range stTemp.cntHistory).filterMap stTemp.entry
  | .error _ => []

/-- The text of the history file. -/
def State.text (s : State Pid) : Text := (s.histFile.map s.contents).getD []

/-- The lines in the history file. -/
def State.lines (s : State Pid) : List Text := fgetlines [] s.text

def State.goto (s : State Pid) (pid : Pid) (next : Proc) : State Pid :=
  { s with procs := Function.update s.procs pid next }

/-- `open(hist_file, O_WRONLY | O_CREAT | O_APPEND, 0600)` -/
def State.openAppend (s : State Pid) : State Pid × Inode :=
  match s.histFile with
  | some inode => (s, inode)
  | none =>
    ({ s with
      contents := Function.update s.contents s.fresh []
      histFile := some s.fresh
      fresh := s.fresh + 1 }, s.fresh)

/-- One write of the line and its newline at the end of the inode. -/
def State.append (s : State Pid) (inode : Inode) (str : CommandLine) : State Pid :=
  { s with
    contents := Function.update s.contents inode (s.contents inode ++ (str.text ++ [10]))
    appended := s.appended ++ [str.text] }

/-- `open(new_name, O_WRONLY | O_CREAT | O_TRUNC, 0600)` -/
def State.openNew (s : State Pid) (pid : Pid) : State Pid :=
  match s.newFile pid with
  | some inode => { s with contents := Function.update s.contents inode [] }
  | none =>
    { s with
      contents := Function.update s.contents s.fresh []
      newFile := Function.update s.newFile pid (some s.fresh)
      fresh := s.fresh + 1 }

/-- What is written to the new file. -/
def State.writeNew (s : State Pid) (pid : Pid) (lines : List Text) : State Pid :=
  match s.newFile pid with
  | some inode => { s with contents := Function.update s.contents inode (unlines lines) }
  | none => s

/-- `rename(new_name, hist_file)` -/
def State.rename (s : State Pid) (pid : Pid) : State Pid :=
  { s with histFile := s.newFile pid, newFile := Function.update s.newFile pid none }

def State.setCnt (s : State Pid) (pid : Pid) (cnt : ℕ) : State Pid :=
  { s with cntHistoryInFile := Function.update s.cntHistoryInFile pid cnt }

variable (maxHistory : Pid → HistorySize)

/-- The step of a shell that stands there. -/
def advance (s : State Pid) (pid : Pid) : Proc → Action → State Pid
  | .idle, .load =>
    match s.histFile with
    | some _ => s.setCnt pid (s.lines.filter (· ≠ [])).length
    | none => s
  | .idle, .save str =>
    let (s, fd) := s.openAppend
    s.goto pid (.appending fd str)
  | .appending fd str, .proceed fault =>
    -- "wtf?"
    if fault then s.goto pid .idle
    else
      let s := s.append fd str
      let cnt := s.cntHistoryInFile pid + 1
      let s := s.setCnt pid cnt
      s.goto pid (if cnt > (maxHistory pid).val * 4 then .trimming else .idle)
  | .trimming, .proceed fault =>
    match fault, s.histFile with
    | false, some fp => s.goto pid (.reloading fp)
    | _, _ => s.goto pid (.creating (reload (maxHistory pid) none))
  | .reloading fp, .proceed _ =>
    s.goto pid (.creating (reload (maxHistory pid) (some (s.contents fp))))
  | .creating lines, .proceed fault =>
    if fault then s.goto pid .idle else (s.openNew pid).goto pid (.writing lines)
  | .writing lines, .proceed _ => (s.writeNew pid lines).goto pid (.replacing lines)
  | .replacing lines, .proceed fault =>
    if fault then s.goto pid .idle
    else ((s.rename pid).setCnt pid lines.length).goto pid .idle
  | _, _ => s

/-- A shell takes its next step. -/
def advanceTurn (s : State Pid) (turn : Turn Pid) : State Pid :=
  advance maxHistory s turn.pid (s.procs turn.pid) turn.action

/-- A history file that is there or not, before any of the shells. -/
def start (file : Option Text) : State Pid where
  contents := fun _ => file.getD []
  histFile := file.map fun _ => 0
  newFile := fun _ => none
  fresh := 1
  procs := fun _ => .idle
  cntHistoryInFile := fun _ => 0
  appended := []

end Busybox.Lineedit
