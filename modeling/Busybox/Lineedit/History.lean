import Mathlib
import Busybox.Lib.LinkedHeap
import Busybox.Lib.Fallible
import Busybox.Libbb.GetLine

/-!
# The command history

`history[]` of a `line_input_t` holds pointers to allocated strings, the oldest line first. The
slot behind the last line keeps the line that is being edited while older ones are looked at.
-/

namespace Busybox.Lineedit

open LinkedHeap (Heap)
open Libbb (fgetlines)

abbrev Text := List UInt8

/-- `CONFIG_FEATURE_EDITING_HISTORY` -/
def MAX_HISTORY : ℕ := 255

/-- `CONFIG_FEATURE_EDITING_MAX_LEN` -/
def MAX_LINELEN : ℕ := 1024

/-- What the code must not run into. -/
inductive Fault
  | outOfBounds
  /-- a pointer that is used or freed although its block is not allocated -/
  | invalidPointer
  | overrun
  deriving DecidableEq

/-- `line_input_t`, and the heap with its strings. The flag is `DO_HISTORY`. -/
structure LineInput where
  doHistory : Bool
  cntHistory : ℕ
  curHistory : ℕ
  maxHistory : ℕ
  cntHistoryInFile : ℕ
  history : List (Option ℕ)
  heap : Heap Text
  deriving DecidableEq

/-- `new_line_input_t`, and `max_history` as a shell sets it. -/
def newLineInput (doHistory : Bool) (maxHistory : ℕ) (heap : Heap Text) : LineInput where
  doHistory := doHistory
  cntHistory := 0
  curHistory := 0
  maxHistory := maxHistory
  cntHistoryInFile := 0
  history := List.replicate (MAX_HISTORY + 1) none
  heap := heap

/-! ## Pointers and strings -/

/-- The pointer in a cell. -/
def pointer (cells : List (Option ℕ)) (i : ℕ) : Except Fault (Option ℕ) :=
  match cells[i]? with
  | some p => .ok p
  | none => .error .outOfBounds

def store (cells : List (Option ℕ)) (i : ℕ) (p : Option ℕ) : Except Fault (List (Option ℕ)) :=
  if i < cells.length then .ok (cells.set i p) else .error .outOfBounds

/-- `free` -/
def release (heap : Heap Text) : Option ℕ → Except Fault (Heap Text)
  | none => .ok heap
  | some id =>
    if (LinkedHeap.get heap id).isSome then .ok (LinkedHeap.free heap id)
    else .error .invalidPointer

/-- The string a pointer points to. -/
def string (heap : Heap Text) : Option ℕ → Except Fault Text
  | none => .error .invalidPointer
  | some id =>
    match LinkedHeap.get heap id with
    | some text => .ok text
    | none => .error .invalidPointer

/-- `free(history[i])` -/
def LineInput.freeAt (n : LineInput) (i : ℕ) : Except Fault LineInput := do
  let p ← pointer n.history i
  let heap ← release n.heap p
  return { n with heap := heap }

/-- `history[i] = NULL` -/
def LineInput.clearAt (n : LineInput) (i : ℕ) : Except Fault LineInput := do
  let history ← store n.history i none
  return { n with history := history }

/-- `history[i] = xstrdup(str)` -/
def LineInput.strdupAt (n : LineInput) (i : ℕ) (str : Text) : Except Fault LineInput := do
  let history ← store n.history i (some n.heap.length)
  return { n with history := history, heap := LinkedHeap.alloc n.heap str }

/-! ## Looking at older lines -/

/-- `save_command_ps_at_cur_history` -/
def saveCommandPsAtCurHistory (commandPs : Text) (state : LineInput) : Except Fault LineInput :=
  if commandPs = [] then .ok state
  else do
    let state ← state.freeAt state.curHistory
    state.strdupAt state.curHistory commandPs

/-- `get_previous_history` -/
def getPreviousHistory (commandPs : Text) (state : LineInput) : Except Fault (LineInput × ℕ) :=
  if state.doHistory ∧ state.curHistory ≠ 0 then do
    let state ← saveCommandPsAtCurHistory commandPs state
    return ({ state with curHistory := state.curHistory - 1 }, 1)
  else .ok (state, 0)

/-- `get_next_history` -/
def getNextHistory (commandPs : Text) (state : LineInput) : Except Fault (LineInput × ℕ) :=
  if state.doHistory ∧ state.curHistory < state.cntHistory then do
    let state ← saveCommandPsAtCurHistory commandPs state
    return ({ state with curHistory := state.curHistory + 1 }, state.curHistory + 1)
  else .ok (state, 0)

/-- The loop of `reverse_i_search` over `h`, which is one less than the first argument. -/
def searchLoop (matchBuf : Text) (state : LineInput) : ℕ → Except Fault (Option ℕ)
  | 0 => .ok none
  | h + 1 => do
    let p ← pointer state.history h
    if p = none then searchLoop matchBuf state h
    else do
      let line ← string state.heap p
      if matchBuf <:+: line then return some h else searchLoop matchBuf state h

/-- A key of `reverse_i_search`: the next line that matches becomes the current one. `again` is
Ctrl-R. -/
def reverseISearch (matchBuf : Text) (again : Bool) (state : LineInput) : Except Fault LineInput :=
  do
    let found ← searchLoop matchBuf state (if again then state.curHistory else state.curHistory + 1)
    return { state with curHistory := found.getD state.curHistory }

/-! ## The history file -/

/-- Clean up old history. -/
def cleanLoop : ℕ → LineInput → Except Fault LineInput
  | 0, n => .ok n
  | idx + 1, n => do
    let n ← n.freeAt idx
    let n ← n.clearAt idx
    cleanLoop idx n

/-- What `load_history` keeps besides its argument. -/
structure Ring where
  heap : Heap Text
  tempH : List (Option ℕ)
  idx : ℕ
  cntHistoryInFile : ℕ

/-- `idx++`, back to 0 at `max_history` -/
def wrap (maxHistory idx : ℕ) : ℕ := if idx + 1 = maxHistory then 0 else idx + 1

/-- Fill `temp_h[]`, retaining only the last lines. -/
def fillLoop (maxHistory : ℕ) : List Text → Ring → Except Fault Ring
  | [], ring => .ok ring
  | line :: lines, ring =>
    let id := ring.heap.length
    let heap := LinkedHeap.alloc ring.heap line
    if line = [] then do
      let heap ← release heap (some id)
      fillLoop maxHistory lines { ring with heap := heap }
    else do
      let p ← pointer ring.tempH ring.idx
      let heap ← release heap p
      let tempH ← store ring.tempH ring.idx (some id)
      fillLoop maxHistory lines
        ⟨heap, tempH, wrap maxHistory ring.idx, ring.cntHistoryInFile + 1⟩

/-- Find the first pointer in `temp_h[]` that is not null. -/
def findLoop (maxHistory : ℕ) (tempH : List (Option ℕ)) (fuel idx : ℕ) : Except Fault ℕ := do
  let p ← pointer tempH idx
  if p ≠ none then return idx
  else match fuel with
    | 0 => .error .overrun
    | fuel + 1 => findLoop maxHistory tempH fuel (wrap maxHistory idx)

/-- `if (line_len >= MAX_LINELEN) line[MAX_LINELEN-1] = '\0'` -/
def cutLine (heap : Heap Text) (id : ℕ) : Except Fault (Heap Text) := do
  let line ← string heap (some id)
  if line.length ≥ MAX_LINELEN then
    return LinkedHeap.modify heap id (List.take (MAX_LINELEN - 1))
  else return heap

/-- Copy `temp_h[]` to `history[]`; the first argument is how far `i` is from `max_history`. -/
def copyLoop (tempH : List (Option ℕ)) : ℕ → ℕ → ℕ → LineInput → Except Fault (LineInput × ℕ)
  | 0, i, _, n => .ok (n, i)
  | left + 1, i, idx, n => do
    let line ← pointer tempH idx
    match line with
    | none => return (n, i)
    | some id =>
      let heap ← cutLine n.heap id
      let history ← store n.history i (some id)
      copyLoop tempH left (i + 1) (wrap n.maxHistory idx)
        { n with history := history, heap := heap }

/-- `load_history`, with the text of `hist_file` if it can be opened. -/
def loadHistory (file : Option Text) (n : LineInput) : Except Fault LineInput :=
  match file with
  -- the old history is not trashed
  | none => .ok n
  | some text => do
    let n ← cleanLoop n.cntHistory n
    let ring ← fillLoop n.maxHistory (fgetlines [] text)
      ⟨n.heap, List.replicate MAX_HISTORY none, 0, 0⟩
    let idx ← (if ring.cntHistoryInFile ≠ 0 then
        findLoop n.maxHistory ring.tempH n.maxHistory ring.idx
      else .ok ring.idx)
    let (n, i) ← copyLoop ring.tempH n.maxHistory 0 idx
      { n with heap := ring.heap, cntHistoryInFile := ring.cntHistoryInFile }
    return { n with cntHistory := i }

/-! ## New lines -/

/-- `for (i = 0; i < max_history-1; i++) history[i] = history[i+1]`; the first argument is how many
turns are left. -/
def shiftLoop : ℕ → ℕ → LineInput → Except Fault LineInput
  | 0, _, n => .ok n
  | left + 1, i, n => do
    let p ← pointer n.history (i + 1)
    let history ← store n.history i p
    shiftLoop left (i + 1) { n with history := history }

/-- `remember_in_history`, but for what `save_history` does to the file at its end. -/
def rememberInHistory (str : Text) (state : LineInput) : Except Fault LineInput :=
  if ¬state.doHistory then .ok state
  else if str = [] then .ok state
  else do
    let i := state.cntHistory
    let dupe ← (if i = 0 then .ok false else do
      let p ← pointer state.history (i - 1)
      let last ← string state.heap p
      return last = str)
    if dupe then return state
    else do
      let state ← state.freeAt state.maxHistory
      let state ← state.clearAt state.maxHistory
      let (state, i) ← (if i ≥ state.maxHistory then do
          let state ← state.freeAt 0
          let state ← shiftLoop (state.maxHistory - 1) 0 state
          return (state, state.maxHistory - 1)
        else .ok (state, i))
      let state ← state.strdupAt i str
      return { state with curHistory := i + 1, cntHistory := i + 1 }

/-- The start of `read_line_input`: `load_history` is only called without a history. -/
def readLineInput (file : Option Text) (state : LineInput) : Except Fault LineInput :=
  if state.doHistory then do
    let state ← (if state.cntHistory = 0 then loadHistory file state else .ok state)
    return { state with curHistory := state.cntHistory }
  else .ok state

end Busybox.Lineedit
