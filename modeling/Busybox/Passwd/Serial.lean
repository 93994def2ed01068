import Busybox.Passwd.Update

/-!
# Changes in the order of their renames

Only the creator of FILE+ writes it, renames it or deletes it, so at most one
process is between the creation and the rename. If FILE still named the inode the
process had opened when it created FILE+, then it still does at the rename, and
what is published is the edit of the file as it stands. FILE is then always the
old text with every published change made one after the other.
-/

namespace Busybox.Passwd

open GuardedRun
open Libbb (fgetlines)

variable {Pid : Type*} (requests : Pid → Request)

/-- The text with the changes of these processes made to it, one after the other. -/
def inOrder (text : Text) (order : List Pid) : Text :=
  order.foldl (fun text pid => (edit (requests pid) text).1) text

/-- FILE+ is created while FILE still names the inode the process has opened, and a shadow
file can be opened. -/
def Undisturbed (s : State Pid) (turn : Turn Pid) : Prop :=
  match s.procs turn.pid with
  | .starting => turn.fault = true → (requests turn.pid).shadow = false
  | .waiting old _ => turn.fault = false → s.plus = none → old = s.file
  | _ => True

/-- The FILE+ a process has created and neither renamed nor deleted yet. -/
def Proc.holds : Proc → Option Inode
  | .created _ new | .linking _ new _ | .locking _ new | .editing _ new _ _
  | .unlocking _ new _ _ | .closing _ new _ _ | .publishing _ new _ | .unlinkNew new => some new
  | .starting | .waiting _ _ | .returned _ => none

/-- The process has returned success. -/
def Proc.succeeded : Proc → Prop
  | .returned ret => 0 ≤ ret
  | _ => False

/-- What a process has written so far leads to the edit of FILE. -/
def Sound (request : Request) (contents : Inode → Text) (file : Inode) : Proc → Prop
  | .created old new | .linking old new _ | .locking old new => old = file ∧ contents new = []
  | .editing old new number changedLines => old = file ∧
      resume request number ((fgetlines [] (contents file)).drop number) (contents new)
        changedLines = edit request (contents file)
  | .unlocking old new changedLines ferror | .closing old new changedLines ferror => old = file ∧
      (ferror = false → (contents new, changedLines) = edit request (contents file))
  | .publishing _ new changedLines => (contents new, changedLines) = edit request (contents file)
  | _ => True

/-- What holds of a process: it has returned success exactly if its change is published, and
it alone has created what FILE+ names. -/
structure Good (owner : Option Pid) (s : State Pid) (pid : Pid) (proc : Proc) : Prop where
  returned : pid ∈ s.committed ↔ proc.succeeded
  holder : ∀ new, proc.holds = some new → s.plus = some new ∧ owner = some pid
  sound : Sound (requests pid) s.contents s.file proc

/-- What holds in every state of an undisturbed run; the owner is the process between the
creation and the rename of FILE+, if there is one. -/
structure Inv (text : Text) (owner : Option Pid) (s : State Pid) : Prop where
  serial : s.contents s.file = inOrder requests text s.committed
  nodup : s.committed.Nodup
  plusFresh : ∀ new, s.plus = some new → new < s.fresh ∧ new ≠ s.file
  fileFresh : s.file < s.fresh
  good : ∀ pid, Good requests owner s pid (s.procs pid)

variable {requests} {text : Text} {owner : Option Pid} {s s' : State Pid} {pid other : Pid}
  {proc next : Proc} {old new : Inode}

theorem Sound.of_free {request : Request} {contents : Inode → Text} {file : Inode}
    (free : proc.holds = none) : Sound request contents file proc := by
  cases proc <;> trivial

theorem not_succeeded_of_holds (held : proc.holds = some new) : ¬ proc.succeeded := by
  intro success
  cases proc <;> first | exact success | cases held

theorem Inv.unpublished (inv : Inv requests text owner s) (held : (s.procs pid).holds = some new) :
    pid ∉ s.committed :=
  fun member => not_succeeded_of_holds held ((inv.good pid).returned.1 member)

/-- Nobody else has a FILE+. -/
theorem Inv.free (inv : Inv requests text owner s) (held : (s.procs pid).holds = some new)
    (different : other ≠ pid) : (s.procs other).holds = none := by
  cases has : (s.procs other).holds with
  | none => rfl
  | some inode =>
    have mine := ((inv.good pid).holder new held).2
    have theirs := ((inv.good other).holder inode has).2
    exact absurd (Option.some.inj (theirs.symm.trans mine)) different

/-- Nobody has a FILE+ when there is none. -/
theorem Inv.all_free (inv : Inv requests text owner s) (none : s.plus = none) (pid : Pid) :
    (s.procs pid).holds = Option.none := by
  cases has : (s.procs pid).holds with
  | none => rfl
  | some inode =>
    have named := ((inv.good pid).holder inode has).1
    rw [none] at named
    cases named

theorem Good.of_free (free : proc.holds = none) (returned : pid ∈ s.committed ↔ proc.succeeded) :
    Good requests owner s pid proc where
  returned := returned
  holder := by
    intro new held
    rw [free] at held
    cases held
  sound := Sound.of_free free

theorem inv_start (requests : Pid → Request) (text : Text) :
    Inv requests text none (start text) where
  serial := rfl
  nodup := List.nodup_nil
  plusFresh := nofun
  fileFresh := Nat.zero_lt_one
  good := by
    intro pid
    exact Good.of_free rfl ⟨fun member => absurd member List.not_mem_nil, fun success => success.elim⟩

/-! ## The steps -/

variable [DecidableEq Pid]

/-- A process without a FILE+ goes on without one. -/
theorem Inv.wait (inv : Inv requests text owner s) (free : next.holds = none)
    (running : ¬ (s.procs pid).succeeded) (failing : ¬ next.succeeded) :
    Inv requests text owner (s.goto pid next) where
  serial := inv.serial
  nodup := inv.nodup
  plusFresh := inv.plusFresh
  fileFresh := inv.fileFresh
  good := by
    refine (Function.forall_update_iff s.procs (Good requests owner (s.goto pid next))).2 ⟨?_, ?_⟩
    · apply Good.of_free free
      have same := (inv.good pid).returned
      exact ⟨fun member => absurd (same.1 member) running, fun success => absurd success failing⟩
    · intro other _
      exact ⟨(inv.good other).returned, (inv.good other).holder, (inv.good other).sound⟩

/-- The owner of FILE+ goes on as its owner; it changes no text but that of FILE+. -/
theorem Inv.move (inv : Inv requests text owner s) (held : (s.procs pid).holds = some new)
    (procs : s'.procs = Function.update s.procs pid next) (file : s'.file = s.file)
    (plus : s'.plus = s.plus) (committed : s'.committed = s.committed)
    (fresh : s'.fresh = s.fresh) (contents : s'.contents s.file = s.contents s.file)
    (holds : next.holds = some new)
    (sound : Sound (requests pid) s'.contents s'.file next) : Inv requests text owner s' where
  serial := by rw [file, contents, committed, inv.serial]
  nodup := by rw [committed]; exact inv.nodup
  plusFresh := by rw [plus, fresh, file]; exact inv.plusFresh
  fileFresh := by rw [fresh, file]; exact inv.fileFresh
  good := by
    rw [procs]
    refine (Function.forall_update_iff s.procs (Good requests owner s')).2 ⟨?_, ?_⟩
    · refine ⟨?_, ?_, sound⟩
      · rw [committed]
        exact ⟨fun member => absurd member (inv.unpublished held),
          fun success => absurd success (not_succeeded_of_holds holds)⟩
      · intro inode isHeld
        rw [plus, ← Option.some.inj (holds.symm.trans isHeld)]
        exact (inv.good pid).holder new held
    · intro other different
      apply Good.of_free (inv.free held different)
      rw [committed]
      exact (inv.good other).returned

/-- A process creates FILE+. -/
theorem Inv.create (inv : Inv requests text owner s) (none : s.plus = none)
    (running : ¬ (s.procs pid).succeeded) :
    Inv requests text (some pid) (s.create.goto pid (.created s.file s.fresh)) where
  serial := by
    have old : s.file ≠ s.fresh := Nat.ne_of_lt inv.fileFresh
    exact (Function.update_of_ne old _ _).trans inv.serial
  nodup := inv.nodup
  plusFresh := by
    intro new named
    obtain rfl := Option.some.inj named
    exact ⟨Nat.lt_succ_self _, Nat.ne_of_gt inv.fileFresh⟩
  fileFresh := Nat.lt_succ_of_lt inv.fileFresh
  good := by
    refine (Function.forall_update_iff s.procs
      (Good requests (some pid) (s.create.goto pid (.created s.file s.fresh)))).2 ⟨?_, ?_⟩
    · refine ⟨⟨fun member => absurd ((inv.good pid).returned.1 member) running, fun success => success.elim⟩,
        ?_, rfl, Function.update_self _ _ _⟩
      intro new isHeld
      obtain rfl := Option.some.inj isHeld
      exact ⟨rfl, rfl⟩
    · intro other _
      exact Good.of_free (inv.all_free none other) (inv.good other).returned

/-- The owner deletes FILE+ and fails. -/
theorem Inv.unlink (inv : Inv requests text owner s) (held : (s.procs pid).holds = some new) :
    Inv requests text owner (State.goto { s with plus := none } pid (.returned (-1))) where
  serial := inv.serial
  nodup := inv.nodup
  plusFresh := nofun
  fileFresh := inv.fileFresh
  good := by
    refine (Function.forall_update_iff s.procs (Good requests owner
      (State.goto { s with plus := none } pid (.returned (-1))))).2 ⟨?_, ?_⟩
    · apply Good.of_free rfl
      exact ⟨fun member => absurd member (inv.unpublished held), fun success => absurd success (by simp [Proc.succeeded])⟩
    · intro other different
      exact Good.of_free (inv.free held different) (inv.good other).returned

/-- The owner renames FILE+ to FILE. -/
theorem Inv.publish (inv : Inv requests text owner s) {changedLines : Nat}
    (held : s.procs pid = .publishing old new changedLines) (named : s.plus = some new) :
    Inv requests text owner ((s.publish pid new).goto pid (.returned changedLines)) where
  serial := by
    have sound := (inv.good pid).sound
    rw [held] at sound
    have edited : s.contents new = (edit (requests pid) (s.contents s.file)).1 :=
      congrArg Prod.fst sound
    simp only [State.publish, State.goto, inOrder, List.foldl_append, List.foldl_cons, List.foldl_nil]
    rw [edited, inv.serial, inOrder]
  nodup := by
    have absent := inv.unpublished (congrArg Proc.holds held)
    exact List.nodup_append.2 ⟨inv.nodup, List.nodup_singleton _, by
      intro a member b isPid
      obtain rfl := List.mem_singleton.1 isPid
      rintro rfl
      exact absent member⟩
  plusFresh := nofun
  fileFresh := (inv.plusFresh new named).1
  good := by
    have holds : (s.procs pid).holds = some new := congrArg Proc.holds held
    refine (Function.forall_update_iff s.procs (Good requests owner
      ((s.publish pid new).goto pid (.returned changedLines)))).2 ⟨?_, ?_⟩
    · apply Good.of_free rfl
      exact ⟨fun _ => Int.natCast_nonneg _, fun _ => List.mem_append_right _ List.mem_cons_self⟩
    · intro other different
      apply Good.of_free (inv.free holds different)
      rw [← (inv.good other).returned]
      constructor
      · intro member
        rcases List.mem_append.1 member with earlier | last
        · exact earlier
        · exact absurd (List.mem_singleton.1 last) different
      · intro member
        exact List.mem_append_left _ member

/-- The line a process reads next, taken off the rest of the edit. -/
theorem resume_line {request : Request} {lines : List Text} {number changed : Nat} {out line : Text}
    (found : lines[number]? = some line) :
    resume request number (lines.drop number) out changed =
      resume request (number + 1) (lines.drop (number + 1))
        (out ++ (editLine request (request.time number) line).1)
        (changed + (editLine request (request.time number) line).2) := by
  obtain ⟨inside, rfl⟩ := List.getElem?_eq_some_iff.1 found
  rw [List.drop_eq_getElem_cons inside]
  rfl

theorem resume_end {request : Request} {lines : List Text} {number changed : Nat} {out : Text}
    (ended : lines[number]? = none) :
    resume request number (lines.drop number) out changed =
      (out ++ (addedLine request changed).1, (addedLine request changed).2) := by
  rw [List.drop_eq_nil_of_le (List.getElem?_eq_none_iff.1 ended)]
  rfl

/-- An undisturbed step keeps the invariant, with another owner perhaps. -/
theorem Inv.step (inv : Inv requests text owner s) {turn : Turn Pid}
    (undisturbed : Undisturbed requests s turn) :
    ∃ owner, Inv requests text owner (step requests s turn) := by
  obtain ⟨pid, fault⟩ := turn
  have sound := (inv.good pid).sound
  have running : ∀ proc, s.procs pid = proc → ¬ proc.succeeded → ¬ (s.procs pid).succeeded := by
    rintro proc rfl fails
    exact fails
  unfold Undisturbed at undisturbed
  rw [Passwd.step]
  dsimp only at undisturbed ⊢
  cases proc : s.procs pid with
  | starting =>
    rw [proc] at undisturbed
    rw [advance]
    split
    case isTrue faults =>
      refine ⟨owner, inv.wait rfl (running _ proc id) ?_⟩
      rw [undisturbed faults]
      simp [Proc.succeeded]
    case isFalse => exact ⟨owner, inv.wait rfl (running _ proc id) id⟩
  | waiting old i =>
    rw [proc] at undisturbed
    rw [advance]
    split
    · exact ⟨owner, inv.wait rfl (running _ proc id) (by simp [Proc.succeeded])⟩
    case isFalse works =>
      split
      · refine ⟨owner, inv.wait ?_ (running _ proc id) ?_⟩
        · split <;> rfl
        · split <;> simp [Proc.succeeded]
      case isFalse absent =>
        have none : s.plus = none := by simpa using absent
        obtain rfl := undisturbed (by simpa using works) none
        exact ⟨some pid, inv.create none (running _ proc id)⟩
  | created old new =>
    rw [proc] at sound
    have held : (s.procs pid).holds = some new := congrArg Proc.holds proc
    rw [advance]
    split
    · exact ⟨owner, inv.move held rfl rfl rfl rfl rfl rfl rfl sound⟩
    · exact ⟨owner, inv.move held rfl rfl rfl rfl rfl rfl rfl sound⟩
  | linking old new failed =>
    rw [proc] at sound
    have held : (s.procs pid).holds = some new := congrArg Proc.holds proc
    rw [advance]
    split
    · exact ⟨owner, inv.move held rfl rfl rfl rfl rfl rfl rfl sound⟩
    · exact ⟨owner, inv.move held rfl rfl rfl rfl rfl rfl rfl sound⟩
  | locking old new =>
    rw [proc] at sound
    obtain ⟨rfl, empty⟩ := sound
    have held : (s.procs pid).holds = some new := congrArg Proc.holds proc
    have begun : Sound (requests pid) s.contents s.file (.editing s.file new 0 0) := by
      refine ⟨rfl, ?_⟩
      rw [empty]
      rfl
    rw [advance]
    split
    · exact ⟨owner, inv.move held rfl rfl rfl rfl rfl rfl rfl begun⟩
    · unfold State.lock
      split
      · exact ⟨owner, inv.move held rfl rfl rfl rfl rfl rfl rfl begun⟩
      · exact ⟨owner, inv.move held rfl rfl rfl rfl rfl rfl rfl begun⟩
  | editing old new number changedLines =>
    rw [proc] at sound
    obtain ⟨rfl, part⟩ := sound
    have held : (s.procs pid).holds = some new := congrArg Proc.holds proc
    have other : s.file ≠ new := (inv.plusFresh new ((inv.good pid).holder new held).1).2.symm
    have unchanged : ∀ written, (s.write new written).contents s.file = s.contents s.file := by
      intro written
      exact Function.update_of_ne other _ _
    have sameFile : ∀ written, (s.write new written).file = s.file := fun _ => rfl
    have appended : ∀ written, (s.write new written).contents new = s.contents new ++ written := by
      intro written
      exact Function.update_self _ _ _
    rw [advance]
    dsimp only
    split
    case h_1 line read =>
      have found : (fgetlines [] (s.contents s.file))[number]? = some line := by
        split at read
        · cases read
        · exact read
      refine ⟨owner, inv.move held rfl rfl rfl rfl rfl (unchanged _) rfl ⟨rfl, ?_⟩⟩
      have line := part
      rw [resume_line found] at line
      simp only [State.goto]
      rw [sameFile, unchanged, appended]
      exact line
    case h_2 read =>
      refine ⟨owner, inv.move held rfl rfl rfl rfl rfl (unchanged _) rfl ⟨rfl, fun works => ?_⟩⟩
      rw [works, if_neg Bool.false_ne_true] at read
      rw [resume_end read] at part
      simp only [State.goto]
      rw [sameFile, unchanged, appended]
      exact part
  | unlocking old new changedLines ferror =>
    rw [proc] at sound
    have held : (s.procs pid).holds = some new := congrArg Proc.holds proc
    rw [advance]
    unfold State.unlock
    split
    · exact ⟨owner, inv.move held rfl rfl rfl rfl rfl rfl rfl sound⟩
    · exact ⟨owner, inv.move held rfl rfl rfl rfl rfl rfl rfl sound⟩
  | closing old new changedLines ferror =>
    rw [proc] at sound
    have held : (s.procs pid).holds = some new := congrArg Proc.holds proc
    rw [advance]
    split
    · exact ⟨owner, inv.move held rfl rfl rfl rfl rfl rfl rfl trivial⟩
    case isFalse works =>
      have clean : ferror = false := by simpa using (not_or.1 works).1
      exact ⟨owner, inv.move held rfl rfl rfl rfl rfl rfl rfl (sound.2 clean)⟩
  | publishing old new changedLines =>
    have held : (s.procs pid).holds = some new := congrArg Proc.holds proc
    have named := ((inv.good pid).holder new held).1
    cases fault with
    | true =>
      exact ⟨owner, inv.move held rfl rfl rfl rfl rfl rfl (rfl : Proc.holds (.unlinkNew new) = _) trivial⟩
    | false =>
      have renamed : advance requests s pid false (.publishing old new changedLines) =
          (s.publish pid new).goto pid (.returned changedLines) := by
        simp only [advance, named]
      rw [renamed]
      exact ⟨owner, inv.publish proc named⟩
  | unlinkNew new =>
    have held : (s.procs pid).holds = some new := congrArg Proc.holds proc
    rw [advance]
    split
    · exact ⟨owner, inv.wait rfl (running _ proc id) (by simp [Proc.succeeded])⟩
    · exact ⟨owner, inv.unlink held⟩
  | returned ret => exact ⟨owner, inv⟩

/-- In every run in which FILE+ is always created by a process that has the present FILE open,
FILE holds the changes of exactly the processes that have returned success, one after the
other. -/
theorem run_serial (requests : Pid → Request) (text : Text) (turns : List (Turn Pid))
    (admitted : Admitted (step requests) (Undisturbed requests) (start text) turns) :
    ∃ order : List Pid, order.Nodup ∧
      (∀ pid, pid ∈ order ↔ ∃ ret, 0 ≤ ret ∧
        (run (step requests) (start text) turns).procs pid = .returned ret) ∧
      (run (step requests) (start text) turns).contents
        (run (step requests) (start text) turns).file = inOrder requests text order := by
  have reached : ∃ owner, Inv requests text owner (run (step requests) (start text) turns) := by
    refine @invariant_of_admitted _ _ (step requests) (Undisturbed requests)
      (fun s => ∃ owner, Inv requests text owner s) ?_ _ ?_ _ admitted
    · rintro s turn ⟨owner, inv⟩ undisturbed
      exact inv.step undisturbed
    · exact ⟨none, inv_start requests text⟩
  obtain ⟨owner, inv⟩ := reached
  refine ⟨_, inv.nodup, fun pid => ?_, inv.serial⟩
  rw [(inv.good pid).returned]
  cases proc : (run (step requests) (start text) turns).procs pid with
  | returned ret => exact ⟨fun success => ⟨ret, success, rfl⟩, fun ⟨_, success, same⟩ => by cases same; exact success⟩
  | _ => exact ⟨fun success => success.elim, fun ⟨_, _, same⟩ => by cases same⟩

/-- Two processes, each adding a user: "p:x" and "q:x". -/
def adders : Bool → Request
  | true => { applet := 97, name := some [112], newPasswd := some [120] }
  | false => { applet := 97, name := some [113], newPasswd := some [120] }

/-- A file of the one line "r:x". -/
def oneLine : Text := [114, 58, 120, 10]

/-- What a process does once it has opened the file, from the creation of FILE+ to its rename. -/
def remaining (pid : Bool) : List (Turn Bool) := List.replicate 9 { pid := pid }

/-- Both processes open the file before one of them, and then the other, goes on. -/
def racing : List (Turn Bool) :=
  { pid := true } :: { pid := false } :: (remaining false ++ remaining true)

theorem run_serial_alone :
    ∃ order : List Bool, order.Nodup ∧
      (∀ pid, pid ∈ order ↔ ∃ ret, 0 ≤ ret ∧
        (run (step adders) (start oneLine) ({ pid := true } :: remaining true)).procs pid =
          .returned ret) ∧
      (run (step adders) (start oneLine) ({ pid := true } :: remaining true)).contents
        (run (step adders) (start oneLine) ({ pid := true } :: remaining true)).file =
          inOrder adders oneLine order :=
  run_serial adders oneLine ({ pid := true } :: remaining true)
    ⟨nofun, fun _ _ => rfl, trivial, trivial, trivial, trivial, trivial, trivial, trivial, trivial,
      trivial⟩

/-- Both processes return success, and the user one of them has added is not in the file. -/
theorem run_loses_change :
    (run (step adders) (start oneLine) racing).procs true = .returned 1 ∧
    (run (step adders) (start oneLine) racing).procs false = .returned 1 ∧
    ∀ order : List Bool, order.Nodup → (∀ pid, pid ∈ order) →
      (run (step adders) (start oneLine) racing).contents
        (run (step adders) (start oneLine) racing).file ≠ inOrder adders oneLine order := by
  refine ⟨by decide, by decide, ?_⟩
  intro order different every
  have orders : order = [true, false] ∨ order = [false, true] := by
    have both := every true
    have others := every false
    match order, different with
    | [], _ => cases both
    | [a], _ => revert both others; cases a <;> decide
    | [a, b], different => revert different; cases a <;> cases b <;> decide
    | a :: b :: c :: _, different => cases a <;> cases b <;> cases c <;> simp at different
  rcases orders with rfl | rfl
  · decide
  · decide

end Busybox.Passwd
