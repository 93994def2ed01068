import Busybox.Lineedit.SaveHistory

/-!
# What is left of the appended lines

A shell that appends to the file that has the name, and one that renames its new file only while
the last lines are still those it has read, leave the last appended lines in the file.
-/

namespace Busybox.Lineedit

open Libbb (fgetlines unlines Unbroken Terminated)
open GuardedRun
open Fallible

/-! ## The lines that are loaded -/

theorem filterMap_range {α : Type*} (l : List α) {n : ℕ} (within : n ≤ l.length) :
    (List.range n).filterMap (fun i => l[i]?) = l.take n := by
  induction n with
  | zero => rfl
  | succ n ih =>
    rw [List.range_succ, List.filterMap_append, ih (by omega), List.take_add_one,
      List.getElem?_eq_getElem within]
    simp only [List.filterMap_cons, List.filterMap_nil, List.getElem?_eq_getElem within,
      Option.toList_some]

/-- `load_history(st_temp)` gets the last lines of the file. -/
theorem reload_some (maxHistory : HistorySize) (text : Text) :
    reload maxHistory (some text) = historyLines maxHistory.val text := by
  obtain ⟨n, loaded, -, -, -, -, cnt, entries⟩ := loadHistory_spec
    (newLineInput_inv true maxHistory.positive maxHistory.most []) text
  have entries (i : ℕ) (less : i ∈ List.range n.cntHistory) :
      n.entry i = (historyLines maxHistory.val text)[i]? := entries i (List.mem_range.mp less)
  unfold reload
  rw [loaded]
  dsimp only
  rw [List.filterMap_congr entries, cnt]
  exact (filterMap_range _ le_rfl).trans List.take_length

/-- Lines that can be written and read again. -/
def Clean (lines : List Text) : Prop := ∀ line ∈ lines, line ≠ [] ∧ Unbroken line

theorem historyLines_clean (m : ℕ) (text : Text) : Clean (historyLines m text) := by
  intro line mem
  obtain ⟨whole, inside, rfl⟩ := List.mem_map.mp mem
  obtain ⟨read, some⟩ := List.mem_filter.mp (List.mem_of_mem_drop inside)
  have some : whole ≠ [] := by simpa using some
  have unbroken : Unbroken whole :=
    Libbb.unbroken_of_mem_fgetlines (fun ch mem => absurd mem List.not_mem_nil) read
  refine ⟨fun none => ?_, fun ch mem => unbroken ch (List.mem_of_mem_take mem)⟩
  rcases List.take_eq_nil_iff.mp none with zero | none
  · exact absurd zero (by decide)
  · exact some none

theorem reload_clean (maxHistory : HistorySize) (file : Option Text) :
    Clean (reload maxHistory file) := by
  cases file with
  | none => exact fun line mem => absurd mem List.not_mem_nil
  | some text =>
    rw [reload_some]
    exact historyLines_clean _ _

/-- Short lines at the end of a file are among those that are loaded. -/
theorem suffix_historyLines {m : ℕ} {text : Text} {lines : List Text} (few : lines.length ≤ m)
    (short : ∀ line ∈ lines, line.length < MAX_LINELEN)
    (last : lines <:+ (fgetlines [] text).filter (· ≠ [])) :
    lines <:+ historyLines m text := by
  obtain ⟨front, split⟩ := last
  have uncut : lines.map (List.take (MAX_LINELEN - 1)) = lines := by
    refine (List.map_congr_left fun line mem => ?_).trans (List.map_id lines)
    exact List.take_of_length_le (Nat.le_sub_one_of_lt (short line mem))
  unfold historyLines List.rtake
  rw [← split, List.drop_append_of_le_length (by rw [List.length_append]; omega),
    List.map_append, uncut]
  exact ⟨_, rfl⟩

/-! ## The property and its condition -/

/-- Every line that has been appended is in the file, or `m` newer ones are. -/
def Kept (m : ℕ) (appended lines : List Text) : Prop :=
  ∀ i line, appended[i]? = some line → line ∈ lines ∨
    ∃ newer : List Text, newer.Sublist (appended.drop (i + 1)) ∧ newer.Sublist lines ∧
      m ≤ newer.length

variable {Pid : Type*} {s : State Pid} {pid : Pid} {m : ℕ}

/-- A line is written to the file that has the name, and what has been reloaded still ends with the
last `m` lines of that file when the new one takes its name. -/
def Careful (m : ℕ) (s : State Pid) (turn : Turn Pid) : Prop :=
  match s.procs turn.pid, turn.action with
  | .appending fd _, .proceed false => s.histFile = some fd
  | .replacing lines, .proceed false => historyLines m s.text <:+ lines
  | _, _ => True

/-- The last lines that have been appended end the file. -/
theorem kept_of_suffix {appended lines : List Text} (last : (appended.rtake m).Sublist lines) :
    Kept m appended lines := by
  intro i line here
  have less := (List.getElem?_eq_some_iff.mp here).1
  by_cases late : appended.length - m ≤ i
  · left
    refine last.subset ?_
    refine List.mem_of_getElem? (i := i - (appended.length - m)) ?_
    unfold List.rtake
    rw [List.getElem?_drop, Nat.add_sub_cancel' late, here]
  · right
    refine ⟨appended.rtake m, ?_, last, ?_⟩
    · have further : appended.length - m = i + 1 + (appended.length - m - (i + 1)) := by omega
      unfold List.rtake
      rw [further, ← List.drop_drop]
      exact List.drop_sublist _ _
    · rw [rtake_length]
      omega

/-! ## The invariant -/

/-- What a shell that is about to rename a file has prepared. -/
def Ready (s : State Pid) (pid : Pid) : Proc → Prop
  | .creating lines => Clean lines
  | .writing lines => Clean lines ∧ ∃ inode, s.newFile pid = some inode
  | .replacing lines => Clean lines ∧
    ∃ inode, s.newFile pid = some inode ∧ s.contents inode = unlines lines
  | _ => True

/-- New files are apart from each other and from the history file, and the history file ends with
the last lines that have been appended. -/
structure Sharing (m : ℕ) (s : State Pid) : Prop where
  file : ∀ inode, s.histFile = some inode → inode < s.fresh
  own : ∀ pid inode, s.newFile pid = some inode → inode < s.fresh ∧ s.histFile ≠ some inode
  apart : ∀ pid pid' inode, s.newFile pid = some inode → s.newFile pid' = some inode → pid = pid'
  procs : ∀ pid, Ready s pid (s.procs pid)
  terminated : Terminated s.text
  short : ∀ line ∈ s.appended, line.length < MAX_LINELEN
  last : s.appended.rtake m <:+ s.lines.filter (· ≠ [])

theorem start_sharing (m : ℕ) {file : Option Text} (terminated : Terminated (file.getD [])) :
    Sharing m (start file : State Pid) := by
  have text : (start file : State Pid).text = file.getD [] := by
    cases file with
    | none => rfl
    | some text => rfl
  constructor
  · intro inode named
    cases file with
    | none => cases named
    | some text =>
      cases named
      exact Nat.zero_lt_one
  · exact fun pid inode absurdity => nomatch absurdity
  · exact fun pid pid' inode absurdity => nomatch absurdity
  · exact fun pid => trivial
  · rwa [text]
  · exact fun line mem => absurd mem List.not_mem_nil
  · have none : (start file : State Pid).appended.rtake m = [] := List.rtake_nil m
    rw [none]
    exact List.nil_suffix

namespace Sharing

/-- The shells are as ready as before where their new files have not changed. -/
theorem ready_congr {s' : State Pid} {proc : Proc} (ready : Ready s pid proc)
    (named : s'.newFile pid = s.newFile pid)
    (same : ∀ inode, s.newFile pid = some inode → s'.contents inode = s.contents inode) :
    Ready s' pid proc := by
  cases proc with
  | creating lines => exact ready
  | writing lines => exact ⟨ready.1, named ▸ ready.2⟩
  | replacing lines =>
    obtain ⟨clean, inode, isNew, written⟩ := ready
    exact ⟨clean, inode, named.trans isNew, (same inode isNew).trans written⟩
  | _ => trivial

theorem openAppend (sharing : Sharing m s) : Sharing m s.openAppend.1 := by
  unfold State.openAppend
  cases named : s.histFile with
  | some inode => exact sharing
  | none =>
    have text : s.text = [] := by
      unfold State.text
      rw [named]
      rfl
    have text' : ({ s with
        contents := Function.update s.contents s.fresh []
        histFile := some s.fresh
        fresh := s.fresh + 1 } : State Pid).text = [] := Function.update_self _ _ _
    constructor
    · intro inode here
      cases here
      exact Nat.lt_succ_self _
    · intro pid inode isNew
      obtain ⟨less, -⟩ := sharing.own pid inode isNew
      refine ⟨Nat.lt_succ_of_lt less, fun same => ?_⟩
      cases same
      exact lt_irrefl _ less
    · exact sharing.apart
    · refine fun pid => ready_congr (sharing.procs pid) rfl fun inode isNew => ?_
      exact Function.update_of_ne (sharing.own pid inode isNew).1.ne _ _
    · rw [text']
      exact .inl rfl
    · exact sharing.short
    · have last := sharing.last
      unfold State.lines at last ⊢
      rw [text']
      rwa [text] at last

/-- A line that is appended to the history file is its last one. -/
theorem append (sharing : Sharing m s) {fd : Inode} (named : s.histFile = some fd)
    (str : CommandLine) : Sharing m (s.append fd str) := by
  have text : s.text = s.contents fd := by
    unfold State.text
    rw [named]
    rfl
  have text' : (s.append fd str).text = s.text ++ (str.text ++ [10]) := by
    rw [text]
    unfold State.text State.append
    dsimp only
    rw [named, Option.map_some, Option.getD_some, Function.update_self]
  constructor
  · exact sharing.file
  · exact sharing.own
  · exact sharing.apart
  · refine fun pid => ready_congr (sharing.procs pid) rfl fun inode isNew => ?_
    refine Function.update_of_ne (fun same => ?_) _ _
    exact (sharing.own pid inode isNew).2 (same ▸ named)
  · rw [text', ← List.append_assoc]
    exact .concat _
  · intro line mem
    rcases List.mem_append.mp mem with before | here
    · exact sharing.short line before
    · rw [List.mem_singleton.mp here]
      exact str.short
  · have lines : (s.append fd str).lines = s.lines ++ [str.text] := by
      unfold State.lines
      rw [text', sharing.terminated.fgetlines_line str.unbroken]
    have some : [str.text].filter (fun line => decide (line ≠ [])) = [str.text] :=
      List.filter_cons_of_pos (by simpa using str.nonempty)
    rw [lines, List.filter_append, some]
    obtain ⟨front, split⟩ := sharing.last
    have longer : s.appended.rtake m ++ [str.text] <:+ s.lines.filter (· ≠ []) ++ [str.text] :=
      ⟨front, by rw [← split, List.append_assoc]⟩
    refine List.IsSuffix.trans ?_ longer
    -- both end the list of what has been appended
    have ends : s.appended.rtake m ++ [str.text] <:+ s.appended ++ [str.text] := by
      obtain ⟨older, whole⟩ : s.appended.rtake m <:+ s.appended := List.drop_suffix _ _
      exact ⟨older, by rw [← List.append_assoc, whole]⟩
    refine List.suffix_of_suffix_length_le (List.drop_suffix _ _) ends ?_
    · show ((s.appended ++ [str.text]).rtake m).length ≤ _
      rw [rtake_length, List.length_append, List.length_append, rtake_length]
      omega

/-- What a shell does to its own new file changes nothing for the others. -/
theorem ofOwnFile (sharing : Sharing m s) {inode : Inode} (named : s.newFile pid = some inode)
    (text : Text) (ready : Ready { s with contents := Function.update s.contents inode text } pid
      (s.procs pid)) :
    Sharing m { s with contents := Function.update s.contents inode text } := by
  have other {file : Inode} (isFile : s.histFile = some file) :
      Function.update s.contents inode text file = s.contents file := by
    refine Function.update_of_ne ?_ _ _
    rintro rfl
    exact (sharing.own pid file named).2 isFile
  have same : State.text { s with contents := Function.update s.contents inode text } = s.text := by
    unfold State.text
    dsimp only
    cases isFile : s.histFile with
    | none => rfl
    | some file => exact other isFile
  refine { sharing with procs := fun pid' => ?_, terminated := ?_, last := ?_ }
  · rcases eq_or_ne pid' pid with rfl | different
    · exact ready
    · refine ready_congr (sharing.procs pid') rfl fun inode' isNew => ?_
      refine Function.update_of_ne ?_ _ _
      rintro rfl
      exact different (sharing.apart pid' pid inode' isNew named)
  · rw [same]
    exact sharing.terminated
  · unfold State.lines
    rw [same]
    exact sharing.last

/-- The lines are written to a new file that only this shell knows. -/
theorem writeNew (sharing : Sharing m s) {lines : List Text} (at_ : s.procs pid = .writing lines) :
    Sharing m (s.writeNew pid lines) ∧ Ready (s.writeNew pid lines) pid (.replacing lines) := by
  have ready := sharing.procs pid
  rw [at_] at ready
  obtain ⟨clean, inode, named⟩ := ready
  unfold State.writeNew
  rw [named]
  refine ⟨sharing.ofOwnFile named _ ?_, clean, inode, named, Function.update_self _ _ _⟩
  rw [at_]
  exact ⟨clean, inode, named⟩

variable [DecidableEq Pid]

theorem goto (sharing : Sharing m s) {next : Proc} (ready : Ready s pid next) :
    Sharing m (s.goto pid next) := by
  refine { sharing with procs := fun pid' => ?_ }
  unfold State.goto
  dsimp only
  rcases eq_or_ne pid' pid with rfl | other
  · rw [Function.update_self]
    exact ready
  · rw [Function.update_of_ne other]
    exact sharing.procs pid'

theorem setCnt (sharing : Sharing m s) (cnt : ℕ) : Sharing m (s.setCnt pid cnt) :=
  { sharing with }

theorem openNew (sharing : Sharing m s) {lines : List Text} (at_ : s.procs pid = .creating lines) :
    Sharing m (s.openNew pid) ∧ ∃ inode, (s.openNew pid).newFile pid = some inode := by
  have clean : Clean lines := by
    have ready := sharing.procs pid
    rwa [at_] at ready
  unfold State.openNew
  cases named : s.newFile pid with
  | some inode =>
    refine ⟨sharing.ofOwnFile named [] ?_, inode, named⟩
    rw [at_]
    exact clean
  | none =>
    have cases {pid' : Pid} {inode : Inode}
        (isNew : Function.update s.newFile pid (some s.fresh) pid' = some inode) :
        (pid' = pid ∧ inode = s.fresh) ∨ (s.newFile pid' = some inode ∧ inode < s.fresh) := by
      rcases eq_or_ne pid' pid with rfl | other
      · rw [Function.update_self] at isNew
        exact .inl ⟨rfl, (Option.some.inj isNew).symm⟩
      · rw [Function.update_of_ne other] at isNew
        exact .inr ⟨isNew, (sharing.own pid' inode isNew).1⟩
    -- the name is given to an inode that nothing stands for
    have given : Sharing m { s with
        newFile := Function.update s.newFile pid (some s.fresh), fresh := s.fresh + 1 } := by
      refine { sharing with file := ?_, own := ?_, apart := ?_, procs := ?_ }
      · exact fun inode isFile => Nat.lt_succ_of_lt (sharing.file inode isFile)
      · intro pid' inode isNew
        rcases cases isNew with ⟨-, rfl⟩ | ⟨isNew, less⟩
        · exact ⟨Nat.lt_succ_self _, fun isFile => lt_irrefl _ (sharing.file _ isFile)⟩
        · exact ⟨Nat.lt_succ_of_lt less, (sharing.own pid' inode isNew).2⟩
      · intro pid₁ pid₂ inode isNew isNew'
        rcases cases isNew with ⟨rfl, rfl⟩ | ⟨isNew, less⟩
        · rcases cases isNew' with ⟨rfl, -⟩ | ⟨-, less⟩
          · rfl
          · exact absurd less (lt_irrefl _)
        · rcases cases isNew' with ⟨-, rfl⟩ | ⟨isNew', -⟩
          · exact absurd less (lt_irrefl _)
          · exact sharing.apart pid₁ pid₂ inode isNew isNew'
      · intro pid'
        rcases eq_or_ne pid' pid with rfl | other
        · dsimp only
          rw [at_]
          exact clean
        · exact ready_congr (sharing.procs pid') (Function.update_of_ne other _ _) fun _ _ => rfl
    have isNew : Function.update s.newFile pid (some s.fresh) pid = some s.fresh :=
      Function.update_self _ _ _
    refine ⟨given.ofOwnFile isNew [] ?_, s.fresh, isNew⟩
    dsimp only
    rw [at_]
    exact clean

/-- The new file takes the place of one whose last lines it has. -/
theorem rename (sharing : Sharing m s) {lines : List Text}
    (ready : Ready s pid (.replacing lines)) (idle : s.procs pid = .idle)
    (careful : historyLines m s.text <:+ lines) : Sharing m (s.rename pid) := by
  obtain ⟨clean, inode, named, written⟩ := ready
  have text : (s.rename pid).text = unlines lines := by
    unfold State.text State.rename
    dsimp only
    rw [named]
    exact written
  have unchanged {pid' : Pid} {inode' : Inode}
      (isNew : Function.update s.newFile pid none pid' = some inode') :
      pid' ≠ pid ∧ s.newFile pid' = some inode' := by
    rcases eq_or_ne pid' pid with rfl | other
    · rw [Function.update_self] at isNew
      cases isNew
    · exact ⟨other, by rwa [Function.update_of_ne other] at isNew⟩
  constructor
  · exact fun inode' isFile => (sharing.own pid inode' isFile).1
  · intro pid' inode' isNew
    obtain ⟨other, isNew⟩ := unchanged isNew
    exact ⟨(sharing.own pid' inode' isNew).1,
      fun isFile => other (sharing.apart pid' pid inode' isNew isFile)⟩
  · intro pid₁ pid₂ inode' isNew isNew'
    exact sharing.apart pid₁ pid₂ inode' (unchanged isNew).2 (unchanged isNew').2
  · intro pid'
    rcases eq_or_ne pid' pid with rfl | other
    · show Ready _ _ (s.procs pid')
      rw [idle]
      trivial
    · exact ready_congr (sharing.procs pid') (Function.update_of_ne other _ _) fun _ _ => rfl
  · rw [text]
    exact Libbb.unlines_terminated lines
  · exact sharing.short
  · have read : (s.rename pid).lines = lines := by
      unfold State.lines
      rw [text, Libbb.fgetlines_unlines fun line mem => (clean line mem).2]
    rw [read, List.filter_eq_self.mpr fun line mem => by simpa using (clean line mem).1]
    refine (suffix_historyLines ?_ (fun line mem => ?_) sharing.last).trans careful
    · rw [rtake_length]
      exact Nat.min_le_left _ _
    · exact sharing.short line (List.mem_of_mem_drop mem)

end Sharing

/-! ## Steps and runs -/

variable [DecidableEq Pid] (maxHistory : Pid → HistorySize)

/-- What one careful step keeps. -/
theorem Sharing.advanceTurn (sharing : Sharing m s) (turn : Turn Pid) (careful : Careful m s turn) :
    Sharing m (advanceTurn maxHistory s turn) := by
  obtain ⟨pid, action⟩ := turn
  have ready := sharing.procs pid
  unfold Careful at careful
  unfold Lineedit.advanceTurn
  dsimp only at careful ⊢
  cases at_ : s.procs pid with
  | idle =>
    cases action with
    | load =>
      unfold advance
      dsimp only
      split
      · exact sharing.setCnt _
      · exact sharing
    | save str => exact sharing.openAppend.goto trivial
    | proceed fault => exact sharing
  | appending fd str =>
    cases action with
    | load => exact sharing
    | save _ => exact sharing
    | proceed fault =>
      cases fault with
      | true => exact sharing.goto trivial
      | false =>
        rw [at_] at careful
        refine ((sharing.append careful str).setCnt _).goto ?_
        split
        · trivial
        · trivial
  | trimming =>
    cases action with
    | load => exact sharing
    | save _ => exact sharing
    | proceed fault =>
      unfold advance
      dsimp only
      split
      · exact sharing.goto trivial
      · exact sharing.goto (reload_clean _ _)
  | reloading fp =>
    cases action with
    | load => exact sharing
    | save _ => exact sharing
    | proceed fault => exact sharing.goto (reload_clean _ _)
  | creating lines =>
    cases action with
    | load => exact sharing
    | save _ => exact sharing
    | proceed fault =>
      cases fault with
      | true => exact sharing.goto trivial
      | false =>
        rw [at_] at ready
        obtain ⟨opened, named⟩ := sharing.openNew at_
        exact opened.goto ⟨ready, named⟩
  | writing lines =>
    cases action with
    | load => exact sharing
    | save _ => exact sharing
    | proceed fault =>
      obtain ⟨written, ready⟩ := sharing.writeNew at_
      exact written.goto ready
  | replacing lines =>
    cases action with
    | load => exact sharing
    | save _ => exact sharing
    | proceed fault =>
      cases fault with
      | true => exact sharing.goto trivial
      | false =>
        rw [at_] at ready careful
        have idle : Sharing m (s.goto pid .idle) := sharing.goto trivial
        have ready : Ready (s.goto pid .idle) pid (.replacing lines) := ready
        exact (idle.rename ready (Function.update_self _ _ _) careful).setCnt _

/-- In a run of careful steps every line that has been appended is in the file, unless `m` newer
ones are. -/
theorem lines_survive (m : ℕ) {file : Option Text} (terminated : Terminated (file.getD []))
    (turns : List (Turn Pid))
    (careful : Admitted (advanceTurn maxHistory) (Careful m) (start file) turns) :
    Kept m (GuardedRun.run (advanceTurn maxHistory) (start file) turns).appended
      (GuardedRun.run (advanceTurn maxHistory) (start file) turns).lines := by
  have sharing := invariant_of_admitted
    (fun s turn (sharing : Sharing m s) => sharing.advanceTurn maxHistory turn)
    (start_sharing m terminated) careful
  exact kept_of_suffix (sharing.last.sublist.trans List.filter_sublist)

/-- A line with one letter. -/
def letter (ch : UInt8) (unbroken : Unbroken [ch]) : CommandLine :=
  ⟨[ch], List.cons_ne_nil ch [], unbroken, (by decide : 1 < MAX_LINELEN)⟩

def oneLine : HistorySize := ⟨1, le_rfl, by decide⟩

/-- The first shell reads a file of four lines, appends a fifth one and begins to trim the file. -/
def trimTurns : List (Turn Bool) :=
  [⟨true, .load⟩, ⟨true, .save (letter 97 (by decide))⟩, ⟨true, .proceed false⟩,
    ⟨true, .proceed false⟩, ⟨true, .proceed false⟩]

/-- It writes the new file and renames it. -/
def renameTurns : List (Turn Bool) :=
  [⟨true, .proceed false⟩, ⟨true, .proceed false⟩, ⟨true, .proceed false⟩]

/-- The second shell appends a line. -/
def saveTurns : List (Turn Bool) :=
  [⟨false, .save (letter 98 (by decide))⟩, ⟨false, .proceed false⟩]

instance Careful.decidable (m : ℕ) (s : State Pid) (turn : Turn Pid) :
    Decidable (Careful m s turn) := by
  unfold Careful
  split
  · infer_instance
  · infer_instance
  · infer_instance

/-- The two shells begin with four lines in the file, and keep one. -/
def twoShells (turns : List (Turn Bool)) : State Bool :=
  GuardedRun.run (advanceTurn fun _ => oneLine)
    (start (some (unlines [[120], [120], [120], [120]]))) turns

/-- Trimmed by one shell, and then appended to by the other one. -/
theorem lines_survive_one :
    Kept 1 (twoShells (trimTurns ++ renameTurns ++ saveTurns)).appended
      (twoShells (trimTurns ++ renameTurns ++ saveTurns)).lines :=
  have terminated : Terminated ((some (unlines [[120], [120], [120], [120]])).getD []) :=
    Libbb.unlines_terminated _
  lines_survive (fun _ => oneLine) 1 terminated _ (by decide +kernel)

/-- The second shell appends its line after the first one has read the file: no line is newer, and
the file does not have it. -/
theorem lines_lost :
    ¬Kept 1 (twoShells (trimTurns ++ saveTurns ++ renameTurns)).appended
      (twoShells (trimTurns ++ saveTurns ++ renameTurns)).lines := by
  have final : (twoShells (trimTurns ++ saveTurns ++ renameTurns)).appended = [[97], [98]] ∧
      (twoShells (trimTurns ++ saveTurns ++ renameTurns)).lines = [[97]] := by
    decide +kernel
  rw [final.1, final.2]
  intro kept
  rcases kept 1 [98] rfl with mem | ⟨newer, among, -, enough⟩
  · exact absurd mem (by decide)
  · have none : newer.length ≤ 0 := among.length_le
    omega

end Busybox.Lineedit
