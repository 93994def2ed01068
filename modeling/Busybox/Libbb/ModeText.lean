import Busybox.Libbb.SymbolicMode

/-!
# Reading symbolic modes

`bb_parse_mode` accepts the texts of the grammar and no others, and its result is
the run of `code` over their actions. The result is that of POSIX where each
action agrees on the mode before it, and the first action that does not agree
shows when it is the last.
-/

namespace Busybox.Libbb.ParseMode

open GuardedRun

/-! ## Pieces of a text -/

/-- The text goes on with an operator or a comma, or is over. -/
def Stops (rest : Text) : Prop := ∀ c ∈ rest.head?, c = 43 ∨ c = 45 ∨ c = 61 ∨ c = 44

/-- The text goes on with a comma, or is over. -/
def Closed (rest : Text) : Prop := rest = [] ∨ rest.head? = some 44

theorem Closed.stops {rest : Text} (closed : Closed rest) : Stops rest := by
  intro c head
  rcases closed with rfl | comma
  · cases head
  · rw [comma] at head
    cases head
    decide

theorem stops_text (op : Op) (rest : Text) : Stops (op.char :: rest) := by
  intro c head
  cases head
  cases op <;> decide

theorem Who.whoMask_char (w : Who) : whoMask w.char = some w.mask := by
  rcases w with _ | part
  · rfl
  · cases part <;> rfl

theorem Op.whoMask_char (op : Op) : whoMask op.char = none := by
  cases op <;> rfl

/-- The code's list of permissions for a letter. -/
theorem Letter.permMask_char (letter : Letter) :
    ∃ mask, permMask letter.char = some mask ∧ ∀ anyX,
      lettersBits anyX [letter] = if letter = .search ∧ anyX = false then 0 else mask := by
  cases letter <;> exact ⟨_, rfl, by decide⟩

theorem permMask_of_stops {c : UInt8} {rest : Text} (stops : Stops (c :: rest)) :
    permMask c = none := by
  rcases stops c rfl with rfl | rfl | rfl | rfl <;> rfl

theorem permcopy_of_stops {c : UInt8} {rest : Text} (stops : Stops (c :: rest)) (mode : Mode) :
    permcopy mode c = none := by
  rcases stops c rfl with rfl | rfl | rfl | rfl <;> rfl

theorem Letter.permcopy_char (letter : Letter) (mode : Mode) :
    permcopy mode letter.char = none := by
  cases letter <;> rfl

theorem Class.permcopy_char (part : Class) (mode : Mode) :
    permcopy mode part.char = some (completed (part.bits &&& mode)) := by
  have bits : (Who.of part).mask &&& (sIrwxu ||| sIrwxg ||| sIrwxo) = part.bits := by
    cases part <;> decide
  rw [← bits]
  cases part <;> rfl

/-! ## What the code reads -/

theorem whoList_text (who : List Who) (wholist : Mode) (op : Op) (rest : Text) :
    whoList wholist (who.map Who.char ++ op.char :: rest) =
      some (wholist ||| whoBits who, op.char :: rest) := by
  induction who generalizing wholist with
  | nil =>
    rw [List.map_nil, List.nil_append, whoList, Op.whoMask_char]
    simp [whoBits]
  | cons w who ih =>
    have more : who.map Who.char ++ op.char :: rest ≠ [] := by simp
    rw [List.map_cons, List.cons_append, whoList, Who.whoMask_char]
    simp only [if_neg more]
    rw [ih, whoBits_cons, BitVec.or_assoc]

theorem permList_text (mode : Mode) (letters : List Letter) (permlist : Mode) {rest : Text}
    (stops : Stops rest) :
    permList mode permlist (letters.map Letter.char ++ rest) =
      (permlist ||| lettersBits (testsX mode) letters, rest) := by
  induction letters generalizing permlist with
  | nil =>
    have nothing : lettersBits (testsX mode) [] = 0 := rfl
    rw [List.map_nil, List.nil_append, nothing, or_zero]
    cases rest with
    | nil => rfl
    | cons c rest => rw [permList, permMask_of_stops stops]
  | cons letter letters ih =>
    obtain ⟨mask, known, bits⟩ := letter.permMask_char
    have counts : letter.char ≠ 88 ∨ mode &&& (sIfdir ||| sIxugo) ≠ 0 ↔
        ¬(letter = .search ∧ testsX mode = false) := by
      have isSearch : letter.char = 88 ↔ letter = .search := by cases letter <;> decide
      rw [not_and_or, Ne, isSearch, testsX, decide_eq_false_iff_not, not_not]
    rw [List.map_cons, List.cons_append, permList, known, lettersBits_cons, bits]
    by_cases ignored : letter = .search ∧ testsX mode = false
    · simp only [counts, not_not.mpr ignored, if_false, if_pos ignored]
      rw [ih, zero_or]
    · simp only [counts, ignored, not_false_eq_true, if_true, if_false]
      rw [ih, BitVec.or_assoc]

theorem permissions_text (mode : Mode) (perm : Perm) {rest : Text} (stops : Stops rest) :
    permissions mode (perm.text ++ rest) = (perm.read mode, rest) := by
  cases perm with
  | copy part =>
    simp only [Perm.text, List.singleton_append, permissions, Class.permcopy_char, Perm.read]
  | list letters =>
    have read := permList_text mode letters 0 stops
    rw [zero_or] at read
    rw [Perm.text, Perm.read, ← read]
    cases letters with
    | nil =>
      cases rest with
      | nil => rfl
      | cons c rest =>
        simp only [List.map_nil, List.nil_append, permissions, permcopy_of_stops stops]
    | cons letter letters =>
      simp only [List.map_cons, List.cons_append, permissions, Letter.permcopy_char]

theorem gotAction_eq (umask permlist mode : Mode) (who : List Who) (op : Op) :
    gotAction umask (whoBits who) permlist mode op.char =
      let bits := permlist &&& scope umask who
      if op = .remove then mode &&& ~~~bits else mode ||| bits := by
  have minus : op.char = 45 ↔ op = .remove := by cases op <;> decide
  have reach : (if whoBits who = 0 then ~~~umask else whoBits who) = scope umask who := by
    simp only [whoBits_eq_zero, scope]
  by_cases empty : permlist = 0
  · rw [gotAction, if_neg (not_not.mpr empty), empty, zero_and]
    split
    · exact BitVec.and_allOnes.symm
    · exact (or_zero mode).symm
  · rw [gotAction, if_pos empty, reach]
    simp only [minus]

theorem kept_eq (who : List Who) : kept (whoBits who) = ~~~cleared who := by
  unfold kept cleared
  by_cases empty : who = []
  · rw [if_neg (not_not.mpr (whoBits_eq_zero.mpr empty)), if_pos empty]
  · rw [if_pos (mt whoBits_eq_zero.mp empty), if_neg empty]

theorem action_text (umask mode : Mode) (who : List Who) (a : Action) {rest : Text}
    (stops : Stops rest) :
    action umask (whoBits who) mode (a.text ++ rest) = some (code umask mode (who, a), rest) := by
  obtain ⟨op, perm⟩ := a
  have known : ¬(op.char ≠ 43 ∧ op.char ≠ 45 ∧ op.char ≠ 61) := by cases op <;> decide
  have assign : op.char = 61 ↔ op = .assign := by cases op <;> decide
  rw [Action.text, List.cons_append, action, if_neg known]
  simp only [kept_eq, assign]
  have read := permissions_text (seen mode who op) perm stops
  rw [seen] at read
  simp only [read, gotAction_eq, code, seen]

theorem actionList_of_action {umask wholist mode after : Mode} {s rest : Text}
    (acted : action umask wholist mode s = some (after, rest)) :
    actionList umask wholist mode s =
      if rest = [] ∨ rest.head? = some 44 then some (after, rest)
      else actionList umask wholist after rest := by
  rw [actionList]
  split
  case h_1 refused => exact absurd (refused.symm.trans acted) (by simp)
  case h_2 next behind other =>
    cases other.symm.trans acted
    rfl

theorem actionList_text (umask mode : Mode) (who : List Who) (first : Action)
    (others : List Action) {rest : Text} (closed : Closed rest) :
    actionList umask (whoBits who) mode ((first :: others).flatMap Action.text ++ rest) =
      some (run (code umask) mode ((first :: others).map fun a => (who, a)), rest) := by
  induction others generalizing first mode with
  | nil =>
    have ends : rest = [] ∨ rest.head? = some 44 := closed
    rw [List.flatMap_singleton, actionList_of_action (action_text _ _ _ _ closed.stops),
      if_pos ends]
    rfl
  | cons next others ih =>
    have goes : ¬((next :: others).flatMap Action.text ++ rest = [] ∨
        ((next :: others).flatMap Action.text ++ rest).head? = some 44) := by
      obtain ⟨op, perm⟩ := next
      cases op <;> simp [Action.text, Op.char]
    have more : Stops ((next :: others).flatMap Action.text ++ rest) := stops_text next.op _
    rw [List.flatMap_cons, List.append_assoc,
      actionList_of_action (action_text _ _ _ _ more), if_neg goes, ih]
    rfl

theorem clauses_comma (umask mode : Mode) (rest : Text) :
    clauses umask mode (44 :: rest) = clauses umask mode rest := by
  rw [clauses, if_pos rfl]

theorem clauses_text (umask mode : Mode) (clause : Clause) {rest : Text} (closed : Closed rest) :
    clauses umask mode (clause.text ++ rest) =
      clauses umask (run (code umask) mode (clause.actions.map fun a => (clause.who, a))) rest := by
  obtain ⟨who, first, others⟩ := clause
  have listed : whoList 0 (Clause.text ⟨who, first, others⟩ ++ rest) =
      some (whoBits who, (first :: others).flatMap Action.text ++ rest) := by
    have read := whoList_text who 0 first.op
      (first.perm.text ++ others.flatMap Action.text ++ rest)
    rw [zero_or] at read
    simpa [Clause.text, Clause.actions, Action.text] using read
  have acted := actionList_text umask mode who first others closed
  obtain ⟨c, tail, begins, comma⟩ : ∃ c tail,
      Clause.text ⟨who, first, others⟩ ++ rest = c :: tail ∧ c ≠ 44 := by
    cases who with
    | nil => exact ⟨first.op.char, _, rfl, by cases first.op <;> decide⟩
    | cons w who =>
      refine ⟨w.char, _, rfl, ?_⟩
      rcases w with _ | part
      · decide
      · cases part <;> decide
  rw [begins] at listed
  rw [begins, clauses, if_neg comma]
  split
  case h_1 refused => exact absurd (refused.symm.trans listed) (by simp)
  case h_2 other =>
    cases other.symm.trans listed
    split
    case h_1 refused => exact absurd (refused.symm.trans acted) (by simp)
    case h_2 other =>
      cases other.symm.trans acted
      rfl

theorem steps_cons (clause : Option Clause) (rest : List (Option Clause)) :
    steps (clause :: rest) = steps [clause] ++ steps rest := by
  simp [steps]

/-- On a text of the grammar the code runs through its actions. -/
theorem clauses_modeText (umask mode : Mode) (ast : List (Option Clause)) :
    clauses umask mode (modeText ast) = some (run (code umask) mode (steps ast)) := by
  -- a clause and what is behind it
  have one (clause : Option Clause) (mode : Mode) {rest : Text} (closed : Closed rest) :
      clauses umask mode ((clause.map Clause.text).getD [] ++ rest) =
        clauses umask (run (code umask) mode (steps [clause])) rest := by
    cases clause with
    | none => rfl
    | some clause => simpa [steps] using clauses_text umask mode clause closed
  induction ast generalizing mode with
  | nil => rw [modeText, clauses]; rfl
  | cons clause rest ih =>
    cases rest with
    | nil =>
      have read := one clause mode (.inl rfl : Closed [])
      rw [List.append_nil] at read
      rw [modeText, read, clauses]
    | cons next rest =>
      have more : next :: rest = [] → False := by simp
      rw [modeText.eq_3 _ _ more, one clause mode (.inr rfl), clauses_comma, ih,
        steps_cons clause (next :: rest), run, run, run, List.foldl_append]

/-! ## What the code accepts -/

theorem Who.of_whoMask {c : UInt8} {mask : Mode} (known : whoMask c = some mask) :
    ∃ w : Who, w.char = c := by
  unfold whoMask at known
  split at known
  case isTrue is => exact ⟨.all, is.symm⟩
  split at known
  case isTrue is => exact ⟨.of .user, is.symm⟩
  split at known
  case isTrue is => exact ⟨.of .group, is.symm⟩
  split at known
  case isTrue is => exact ⟨.of .other, is.symm⟩
  cases known

theorem Letter.of_permMask {c : UInt8} {mask : Mode} (known : permMask c = some mask) :
    ∃ letter : Letter, letter.char = c := by
  unfold permMask at known
  split at known
  case isTrue is => exact ⟨.read, is.symm⟩
  split at known
  case isTrue is => exact ⟨.write, is.symm⟩
  split at known
  case isTrue is => exact ⟨.execute, is.symm⟩
  split at known
  case isTrue is => exact ⟨.search, is.symm⟩
  split at known
  case isTrue is => exact ⟨.setId, is.symm⟩
  split at known
  case isTrue is => exact ⟨.sticky, is.symm⟩
  cases known

theorem Op.of_char {c : UInt8} (known : ¬(c ≠ 43 ∧ c ≠ 45 ∧ c ≠ 61)) : ∃ op : Op, op.char = c := by
  by_cases plus : c = 43
  · exact ⟨.add, plus.symm⟩
  · by_cases minus : c = 45
    · exact ⟨.remove, minus.symm⟩
    · refine ⟨.assign, ?_⟩
      by_contra other
      exact known ⟨plus, minus, fun equal => other equal.symm⟩

theorem Class.of_permcopy {mode permlist : Mode} {c : UInt8}
    (known : permcopy mode c = some permlist) : ∃ part : Class, part.char = c := by
  unfold permcopy at known
  split at known
  case isTrue => cases known
  case isFalse notAll =>
    obtain ⟨mask, isWho, -⟩ := Option.map_eq_some_iff.mp known
    obtain ⟨w, rfl⟩ := Who.of_whoMask isWho
    rcases w with _ | part
    · exact absurd rfl notAll
    · exact ⟨part, rfl⟩

theorem text_of_whoList {wholist mask : Mode} {s rest : Text}
    (read : whoList wholist s = some (mask, rest)) :
    ∃ who : List Who, s = who.map Who.char ++ rest := by
  induction s generalizing wholist with
  | nil =>
    cases read
    exact ⟨[], rfl⟩
  | cons c s ih =>
    rw [whoList] at read
    split at read
    case h_1 => cases read; exact ⟨[], rfl⟩
    case h_2 known =>
      split at read
      case isTrue => cases read
      case isFalse =>
        obtain ⟨w, rfl⟩ := Who.of_whoMask known
        obtain ⟨who, rfl⟩ := ih read
        exact ⟨w :: who, rfl⟩

theorem text_of_permList (mode permlist : Mode) (s : Text) :
    ∃ letters : List Letter, s = letters.map Letter.char ++ (permList mode permlist s).2 := by
  induction s generalizing permlist with
  | nil => exact ⟨[], rfl⟩
  | cons c s ih =>
    rw [permList]
    split
    case h_1 => exact ⟨[], rfl⟩
    case h_2 known =>
      obtain ⟨letter, rfl⟩ := Letter.of_permMask known
      split
      all_goals
        obtain ⟨letters, rest⟩ := ih _
        exact ⟨letter :: letters, congrArg (letter.char :: ·) rest⟩

theorem text_of_permissions (mode : Mode) (s : Text) :
    ∃ perm : Perm, s = perm.text ++ (permissions mode s).2 := by
  cases s with
  | nil => exact ⟨.list [], rfl⟩
  | cons c s =>
    rw [permissions]
    split
    case h_1 known =>
      obtain ⟨part, rfl⟩ := Class.of_permcopy known
      exact ⟨.copy part, rfl⟩
    case h_2 =>
      obtain ⟨letters, rest⟩ := text_of_permList mode 0 (c :: s)
      exact ⟨.list letters, rest⟩

theorem text_of_action {umask wholist mode after : Mode} {s rest : Text}
    (read : action umask wholist mode s = some (after, rest)) :
    ∃ a : Action, s = a.text ++ rest := by
  cases s with
  | nil => cases read
  | cons op s =>
    rw [action] at read
    split at read
    case isTrue => cases read
    case isFalse known =>
      cases read
      obtain ⟨op, rfl⟩ := Op.of_char known
      obtain ⟨perm, text⟩ := text_of_permissions
        (if op.char = 61 then mode &&& kept wholist else mode) s
      exact ⟨⟨op, perm⟩, congrArg (op.char :: ·) text⟩

theorem text_of_actionList {umask wholist mode after : Mode} {s rest : Text}
    (read : actionList umask wholist mode s = some (after, rest)) :
    Closed rest ∧ ∃ first others,
      s = (first :: others).flatMap Action.text ++ rest := by
  induction size : s.length using Nat.strong_induction_on generalizing s mode with
  | _ size ih =>
    rw [actionList] at read
    split at read
    case h_1 => cases read
    case h_2 next behind acted =>
      have used := length_action_lt acted
      obtain ⟨first, rfl⟩ := text_of_action acted
      split at read
      case isTrue closed =>
        cases read
        exact ⟨closed, first, [], by rw [List.flatMap_singleton]⟩
      case isFalse =>
        obtain ⟨closed, second, others, rfl⟩ := ih behind.length (by omega) read rfl
        exact ⟨closed, first, second :: others, (List.append_assoc ..).symm⟩

/-- What the code accepts is a text of the grammar. -/
theorem modeText_of_clauses {umask mode result : Mode} {s : Text}
    (accepted : clauses umask mode s = some result) : ∃ clause rest, modeText (clause :: rest) = s := by
  induction size : s.length using Nat.strong_induction_on generalizing s mode with
  | _ bound ih =>
    cases s with
    | nil => exact ⟨none, [], rfl⟩
    | cons c s =>
      rw [clauses] at accepted
      split at accepted
      case isTrue comma =>
        have shorter : s.length < bound := size ▸ Nat.lt_succ_self _
        obtain ⟨clause, rest, rfl⟩ := ih s.length shorter accepted rfl
        exact ⟨none, clause :: rest, by rw [comma]; rfl⟩
      case isFalse =>
        split at accepted
        case h_1 => cases accepted
        case h_2 wholist behindWho listed =>
          split at accepted
          case h_1 => cases accepted
          case h_2 next behind acted =>
            have shorter : behind.length < bound := size ▸
              lt_of_lt_of_le (length_actionList_lt acted) (length_whoList_le listed)
            obtain ⟨who, text⟩ := text_of_whoList listed
            obtain ⟨closed, first, others, rfl⟩ := text_of_actionList acted
            rw [text, ← List.append_assoc]
            rcases closed with rfl | comma
            · exact ⟨some ⟨who, first, others⟩, [], (List.append_nil _).symm⟩
            · obtain ⟨behind, rfl⟩ := List.head?_eq_some_iff.mp comma
              rw [clauses_comma] at accepted
              obtain ⟨clause, rest, rfl⟩ := ih behind.length (Nat.lt_of_succ_lt shorter) accepted rfl
              exact ⟨some ⟨who, first, others⟩, clause :: rest, rfl⟩

/-! ## The result -/

/-- No action touches the file type. -/
theorem code_fileType (umask mode : Mode) (a : List Who × Action) :
    code umask mode a &&& ~~~fileModeBits = mode &&& ~~~fileModeBits := by
  obtain ⟨who, op, perm⟩ := a
  have read : perm.read (seen mode who op) &&& fileModeBits = perm.read (seen mode who op) := by
    cases perm with
    | list letters => exact lettersBits_subset _ letters
    | copy part =>
      rw [Perm.read, completed_eq_spread]
      exact spread_subset _ _
  have within : cleared who &&& fileModeBits = cleared who := by
    unfold cleared
    split
    · exact BitVec.and_self
    · exact whoBits_subset who
  have seenType : seen mode who op &&& ~~~fileModeBits = mode &&& ~~~fileModeBits := by
    unfold seen
    split
    · ext i
      have bit := congrArg (fun bits => bits.getLsbD i) within
      simp at bit ⊢
      grind
    · rfl
  have bits := and_and_subset read (scope umask who)
  rw [← seenType, code]
  generalize perm.read (seen mode who op) &&& scope umask who = touched at bits
  split
  all_goals
    ext i
    have bit := congrArg (fun bits => bits.getLsbD i) bits
    simp at bit ⊢
    grind

theorem run_fileType (umask mode : Mode) (actions : List (List Who × Action)) :
    run (code umask) mode actions &&& ~~~fileModeBits = mode &&& ~~~fileModeBits := by
  induction actions generalizing mode with
  | nil => rfl
  | cons a actions ih => rw [run_cons, ih, code_fileType]

/-- A symbolic mode that is accepted keeps the file type and is a text of the grammar. Its
result is that of POSIX where each action agrees on the mode before it, and where only the
last one may fail to, exactly if that one agrees. -/
theorem bbParseMode_symbolic {umask mode result : Mode} {s : Text}
    (symbolic : ¬s.head?.any isOctal) (accepted : bbParseMode umask s mode = some result) :
    result &&& ~~~fileModeBits = mode &&& ~~~fileModeBits ∧
    (∃ ast, modeText ast = s) ∧
    ∀ ast, modeText ast = s →
      (Admitted (apply umask) (Agrees umask) mode (steps ast) →
        result = run (apply umask) mode (steps ast)) ∧
      ∀ actions last, steps ast = actions ++ [last] →
        Admitted (apply umask) (Agrees umask) mode actions →
        (result = run (apply umask) mode (steps ast) ↔
          Agrees umask (run (apply umask) mode actions) last) := by
  rw [bbParseMode, if_neg symbolic] at accepted
  obtain ⟨clause, rest, text⟩ := modeText_of_clauses accepted
  have isRun {ast : List (Option Clause)} (text : modeText ast = s) :
      result = run (code umask) mode (steps ast) := by
    rw [← text, clauses_modeText] at accepted
    exact (Option.some.inj accepted).symm
  have same {actions : List (List Who × Action)}
      (admitted : Admitted (apply umask) (Agrees umask) mode actions) :
      run (code umask) mode actions = run (apply umask) mode actions :=
    run_eq_of_admitted (fun mode a => (code_eq_apply_iff umask mode a).mpr) admitted
  refine ⟨?_, ⟨_, text⟩, fun ast text => ⟨fun admitted => ?_, ?_⟩⟩
  · rw [isRun text]
    exact run_fileType umask mode _
  · rw [isRun text]
    exact same admitted
  · intro actions last order admitted
    rw [isRun text, order, run_concat, run_concat, same admitted]
    exact code_eq_apply_iff umask _ last

/-- `u+x,g=o,a-w` on a file with mode 0640, where all three actions agree. -/
theorem bbParseMode_symbolic_agrees :
    bbParseMode 0o022 "u+x,g=o,a-w".toUTF8.toList 0o100640 = some 0o100500 ∧
    ∃ ast, modeText ast = "u+x,g=o,a-w".toUTF8.toList ∧
      (0o100500 : Mode) = run (apply 0o022) 0o100640 (steps ast) := by
  have accepted : bbParseMode 0o022 "u+x,g=o,a-w".toUTF8.toList 0o100640 = some 0o100500 := by
    decide +kernel
  refine ⟨accepted, [some ⟨[.of .user], ⟨.add, .list [.execute]⟩, []⟩,
    some ⟨[.of .group], ⟨.assign, .copy .other⟩, []⟩,
    some ⟨[.all], ⟨.remove, .list [.write]⟩, []⟩], by decide +kernel, ?_⟩
  exact ((bbParseMode_symbolic (by decide +kernel) accepted).2.2 _ (by decide +kernel)).1
    (by decide)

/-- `u=u` takes the permissions from the owner, as they are cleared before they are read. -/
theorem bbParseMode_loses_copy :
    ¬∀ (umask mode result : Mode) (s : Text), ¬s.head?.any isOctal →
      bbParseMode umask s mode = some result →
      ∀ ast, modeText ast = s → result = run (apply umask) mode (steps ast) := by
  intro claim
  have differs := claim 0o022 0o100644 0o100044 "u=u".toUTF8.toList (by decide +kernel)
    (by decide +kernel) [some ⟨[.of .user], ⟨.assign, .copy .user⟩, []⟩] (by decide +kernel)
  exact absurd differs (by decide)

end Busybox.Libbb.ParseMode
