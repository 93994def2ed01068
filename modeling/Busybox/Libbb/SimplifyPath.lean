import Busybox.Lib.Directories

/-!
# `bb_simplify_abs_path_inplace`

`libbb/simplify_path.c` reads a path and writes its canonical form into the same buffer. The
reader never falls behind the writer, so a path that was written and one that is still to be read
are all there is to a state.
-/

namespace Busybox.Libbb.SimplifyPath

/-- The characters `/` and `.`. -/
def slash : UInt8 := 47
def dot : UInt8 := 46

/-- The buffer, with the pointers of the reader and of the writer into it. -/
structure Cursor where
  buffer : List UInt8
  s : Nat
  p : Nat

/-- What becomes of the character under the reader. -/
inductive Action
  | keep
  | skip
  | skipDots
  deriving DecidableEq

/-- The conditions of the loop; nothing stands outside the buffer. -/
def action (state : Cursor) : Option Action := do
  if (← state.buffer[state.p]?) ≠ slash then return .keep
  let c ← state.buffer[state.s]?
  if c = slash then return .skip
  if c ≠ dot then return .keep
  let second ← state.buffer[state.s + 1]?
  if second = slash ∨ second = 0 then return .skip
  if second ≠ dot then return .keep
  let third ← state.buffer[state.s + 2]?
  return if third = slash ∨ third = 0 then .skipDots else .keep

/-- `while (*--p != '/')` -/
def omitDir (buffer : List UInt8) : Nat → Option Nat
  | 0 => none
  | p + 1 => do if (← buffer[p]?) ≠ slash then omitDir buffer p else some p

/-- The writer goes back over a directory, and stays at the start. -/
def backUp (state : Cursor) : Option Nat :=
  if 0 < state.p then omitDir state.buffer state.p else some state.p

/-- The body of the loop. -/
def pass (state : Cursor) : Option Cursor := do
  match ← action state with
  | .skip => return state
  | .skipDots => return { state with s := state.s + 1, p := ← backUp state }
  | .keep =>
    let c ← state.buffer[state.s]?
    if state.p + 1 < state.buffer.length then
      return { state with buffer := state.buffer.set (state.p + 1) c, p := state.p + 1 }
    else none

theorem pass_forward {state next : Cursor} (passed : pass state = some next) :
    next.buffer.length = state.buffer.length ∧ state.s ≤ next.s := by
  simp only [pass, Option.bind_eq_bind, Option.bind_eq_some_iff, Option.pure_def] at passed
  obtain ⟨act, -, passed⟩ := passed
  cases act with
  | skip => cases passed; exact ⟨rfl, Nat.le_refl _⟩
  | skipDots =>
    obtain ⟨p, -, passed⟩ := Option.bind_eq_some_iff.mp passed
    cases passed
    exact ⟨rfl, Nat.le_succ _⟩
  | keep =>
    obtain ⟨c, -, passed⟩ := Option.bind_eq_some_iff.mp passed
    split at passed
    · cases passed; exact ⟨List.length_set, Nat.le_refl _⟩
    · cases passed

/-- The loop up to the state in which the reader stands on the NUL. -/
def simplifyLoop (state : Cursor) : Option Cursor :=
  match _passed : pass state with
  | none => none
  | some next =>
    match _more : next.buffer[next.s + 1]? with
    | none => none
    | some c =>
      let next' := { next with s := next.s + 1 }
      if c = 0 then some next' else simplifyLoop next'
termination_by state.buffer.length - state.s
decreasing_by
  have forward := pass_forward _passed
  have inside := (List.getElem?_eq_some_iff.mp _more).1
  omega

/-- The buffer afterwards, and the pointer to the NUL behind the path. -/
def bbSimplifyAbsPathInplace (start : List UInt8) : Option (List UInt8 × Nat) := do
  let state ← simplifyLoop ⟨start, 0, 0⟩
  let last ← state.buffer[state.p]?
  let p := if state.p = 0 ∨ last ≠ slash then state.p + 1 else state.p
  if p < state.buffer.length then return (state.buffer.set p 0, p) else none

/-! ## Two paths in one buffer -/

/-- A path was written, its last character first, and `rest` is to be read in front of a NUL. What
lies between them was read and is not part of either. -/
def Holds (state : Cursor) (written rest behind : List UInt8) : Prop :=
  ∃ gap, state.buffer = written.reverse ++ (gap ++ (rest ++ 0 :: behind)) ∧
    state.p + 1 = written.length ∧ state.s = written.length + gap.length

variable {state : Cursor} {written rest behind : List UInt8} {c : UInt8}

/-- The writer stands on the last character it has written. -/
theorem Holds.written_last (holds : Holds state written rest behind) :
    state.buffer[state.p]? = written.head? := by
  obtain ⟨gap, buffer, writer, _⟩ := holds
  rw [buffer, List.getElem?_append_left (by simp; omega), List.getElem?_reverse (by omega),
    List.head?_eq_getElem?]
  congr 1
  omega

/-- The reader stands on the rest. -/
theorem Holds.ahead (holds : Holds state written rest behind) (k : Nat) :
    state.buffer[state.s + k]? = (rest ++ 0 :: behind)[k]? := by
  obtain ⟨gap, buffer, _, reader⟩ := holds
  rw [buffer, List.getElem?_append_right (by simp; omega),
    List.getElem?_append_right (by simp; omega)]
  congr 1
  simp
  omega

/-- A name ends in front of the rest. -/
def Ends (rest : List UInt8) : Prop := ∀ c ∈ rest.head?, c = slash

instance (rest : List UInt8) : Decidable (Ends rest) :=
  decidable_of_iff (rest.head?.all (· = slash) = true) (by
    cases first : rest.head? <;> simp [Ends, first])

theorem ends_slash (rest : List UInt8) : Ends (slash :: rest) := by
  rintro c ⟨⟩
  rfl

/-- What becomes of a character between two paths. -/
def choose (written : List UInt8) (c : UInt8) (rest : List UInt8) : Action :=
  if written.head? ≠ some slash then .keep
  else if c = slash then .skip
  else if c ≠ dot then .keep
  else if Ends rest then .skip
  else if rest.head? = some dot ∧ Ends rest.tail then .skipDots
  else .keep

theorem ends_iff (clean : 0 ∉ rest) {next : UInt8} (ahead : (rest ++ 0 :: behind)[0]? = some next) :
    Ends rest ↔ next = slash ∨ next = 0 := by
  cases rest with
  | nil =>
    obtain rfl : 0 = next := by simpa using ahead
    exact ⟨fun _ => .inr rfl, fun _ => nofun⟩
  | cons d rest =>
    obtain rfl : d = next := by simpa using ahead
    have notNul : d ≠ 0 := fun nul => clean (nul ▸ List.mem_cons_self)
    simp [Ends, notNul]

theorem action_holds (holds : Holds state written (c :: rest) behind) (clean : 0 ∉ rest)
    (nonempty : written ≠ []) : action state = some (choose written c rest) := by
  obtain ⟨last, older, rfl⟩ := List.exists_cons_of_ne_nil nonempty
  have here : state.buffer[state.p]? = some last := holds.written_last
  have first : state.buffer[state.s]? = some c := holds.ahead 0
  have second : state.buffer[state.s + 1]? = (rest ++ 0 :: behind)[0]? := holds.ahead 1
  have third : state.buffer[state.s + 2]? = (rest ++ 0 :: behind)[1]? := holds.ahead 2
  unfold action choose
  simp only [here, first, second, third, Option.bind_eq_bind, Option.bind_some, List.head?_cons,
    Option.some.injEq, ne_eq, Option.pure_def]
  split; · rfl
  split; · rfl
  split; · rfl
  obtain ⟨next, ahead⟩ : ∃ next, (rest ++ 0 :: behind)[0]? = some next := by cases rest <;> simp
  simp only [ahead, Option.bind_some, ends_iff clean ahead]
  split; · rfl
  case isFalse inside =>
    cases rest with
    | nil =>
      obtain rfl : 0 = next := by simpa using ahead
      exact absurd (.inr rfl) inside
    | cons d rest =>
      obtain rfl : d = next := by simpa using ahead
      have clean : 0 ∉ rest := fun nul => clean (List.mem_cons_of_mem _ nul)
      obtain ⟨after, beyond⟩ : ∃ after, (rest ++ 0 :: behind)[0]? = some after := by
        cases rest <;> simp
      have beyond' : (d :: rest ++ 0 :: behind)[1]? = some after := beyond
      simp only [beyond', Option.bind_some, List.head?_cons, Option.some.injEq, List.tail_cons,
        ends_iff clean beyond]
      split
      · rw [if_neg fun both => absurd both.1 ‹_›]
      · split <;> simp_all

/-- Where the writer goes for two dots: to the slash in front of the last name. -/
def parent (written : List UInt8) : List UInt8 :=
  if written.tail = [] then written else written.tail.dropWhile (· ≠ slash)

theorem omitDir_dropWhile {older : List UInt8} (rooted : older.getLast? = some slash)
    (front : List UInt8) : ∃ p, omitDir (older.reverse ++ front) older.length = some p ∧
      p + 1 = (older.dropWhile (· ≠ slash)).length := by
  induction older generalizing front with
  | nil => cases rooted
  | cons d older ih =>
    have here : ((d :: older).reverse ++ front)[older.length]? = some d := by
      rw [List.getElem?_append_left (by simp), List.getElem?_reverse (by simp)]
      simp
    rw [List.length_cons, omitDir, here, Option.bind_eq_bind, Option.bind_some]
    by_cases isSlash : d = slash
    · exact ⟨older.length, if_neg (not_not.mpr isSlash), by simp [isSlash]⟩
    · have deeper : older.getLast? = some slash := by
        cases older with
        | nil => exact absurd (Option.some.inj rooted) isSlash
        | cons => rwa [List.getLast?_cons_cons] at rooted
      obtain ⟨p, back, length⟩ := ih deeper (d :: front)
      refine ⟨p, ?_, by rwa [List.dropWhile_cons_of_pos (by simpa using isSlash)]⟩
      rw [if_pos isSlash, List.reverse_cons, List.append_assoc]
      exact back

theorem parent_rooted (rooted : written.getLast? = some slash) :
    (parent written).getLast? = some slash := by
  unfold parent
  split
  case isTrue => exact rooted
  case isFalse deeper =>
    cases written with
    | nil => cases rooted
    | cons last older =>
      rw [List.tail_cons] at deeper ⊢
      obtain ⟨init, item, rfl⟩ := (List.eq_nil_or_concat older).resolve_left deeper
      obtain rfl : item = slash := by simpa [List.getLast?_cons] using rooted
      rw [List.concat_eq_append, List.dropWhile_append]
      split <;> simp

/-- The test of the loop, and what is left of it. -/
def resume (state : Cursor) : Option Cursor := do
  if (← state.buffer[state.s]?) = 0 then some state else simplifyLoop state

theorem simplifyLoop_pass {next : Cursor} (passed : pass state = some next) :
    simplifyLoop state = resume { next with s := next.s + 1 } := by
  rw [simplifyLoop, passed]
  simp only [resume, Option.bind_eq_bind]
  cases next.buffer[next.s + 1]? <;> rfl

/-- What is written when the reader has come to the end. -/
def walk : List UInt8 → List UInt8 → List UInt8
  | written, [] => written
  | written, c :: rest =>
    match choose written c rest with
    | .keep => walk (c :: written) rest
    | .skip => walk written rest
    | .skipDots => walk (parent written) rest.tail
termination_by _ rest => rest.length

/-- What one turn leaves written and to be read. -/
def stride (written : List UInt8) (c : UInt8) (rest : List UInt8) : List UInt8 × List UInt8 :=
  match choose written c rest with
  | .keep => (c :: written, rest)
  | .skip => (written, rest)
  | .skipDots => (parent written, rest.tail)

theorem walk_cons (written : List UInt8) (c : UInt8) (rest : List UInt8) :
    walk written (c :: rest) = walk (stride written c rest).1 (stride written c rest).2 := by
  rw [walk, stride]
  cases choose written c rest <;> rfl

theorem stride_suffix (written : List UInt8) (c : UInt8) (rest : List UInt8) :
    (stride written c rest).2 <:+ rest := by
  unfold stride
  cases choose written c rest with
  | keep => exact List.suffix_refl rest
  | skip => exact List.suffix_refl rest
  | skipDots => exact List.tail_suffix rest

theorem stride_rooted (rooted : written.getLast? = some slash) (c : UInt8) (rest : List UInt8) :
    (stride written c rest).1.getLast? = some slash := by
  unfold stride
  cases choose written c rest with
  | keep =>
    have nonempty : written ≠ [] := by
      rintro rfl
      cases rooted
    exact (List.getLast?_cons_of_ne_nil nonempty).trans rooted
  | skip => exact rooted
  | skipDots => exact parent_rooted rooted

theorem backUp_holds (holds : Holds state written rest behind)
    (rooted : written.getLast? = some slash) :
    ∃ p, backUp state = some p ∧ p + 1 = (parent written).length := by
  obtain ⟨gap, buffer, writer, _⟩ := holds
  obtain ⟨last, older, rfl⟩ : ∃ last older, written = last :: older := by
    cases written with
    | nil => cases rooted
    | cons last older => exact ⟨last, older, rfl⟩
  have place : state.p = older.length := Nat.succ.inj writer
  unfold backUp parent
  rw [place, buffer, List.tail_cons]
  by_cases atRoot : older = []
  · subst atRoot
    exact ⟨0, rfl, rfl⟩
  · have deeper : older.getLast? = some slash := by
      rwa [List.getLast?_cons_of_ne_nil atRoot] at rooted
    obtain ⟨p, back, length⟩ :=
      omitDir_dropWhile deeper (last :: (gap ++ (rest ++ 0 :: behind)))
    refine ⟨p, ?_, by rwa [if_neg atRoot]⟩
    rw [if_pos (List.length_pos_iff.mpr atRoot), List.reverse_cons, List.append_assoc]
    exact back

theorem parent_suffix (written : List UInt8) : parent written <:+ written := by
  unfold parent
  split
  · exact List.suffix_refl written
  · exact (List.dropWhile_suffix _).trans (List.tail_suffix written)

/-- One turn of the loop is one stride of the walk. -/
theorem pass_stride (holds : Holds state written (c :: rest) behind) (clean : 0 ∉ c :: rest)
    (rooted : written.getLast? = some slash) :
    ∃ next, pass state = some next ∧
      Holds { next with s := next.s + 1 } (stride written c rest).1 (stride written c rest).2
        behind := by
  have nonempty : written ≠ [] := by
    rintro rfl
    cases rooted
  have chosen := action_holds holds (fun nul => clean (List.mem_cons_of_mem _ nul)) nonempty
  have first : state.buffer[state.s]? = some c := holds.ahead 0
  obtain ⟨p, back, parentLength⟩ := backUp_holds holds rooted
  obtain ⟨gap, buffer, writer, reader⟩ := holds
  unfold pass stride
  simp only [chosen, Option.bind_eq_bind, Option.bind_some]
  cases choice : choose written c rest with
  | keep =>
    have inside : state.p + 1 < state.buffer.length := by
      rw [buffer]
      simp only [List.length_append, List.length_reverse, List.length_cons]
      omega
    refine ⟨_, by rw [first, Option.bind_some, if_pos inside]; rfl, ?_⟩
    -- the first cell behind the writer is in the gap, or it is the character itself
    cases gap with
    | nil =>
      refine ⟨[], ?_, by rw [List.length_cons, writer], by simp [reader]⟩
      simp only [buffer, writer, List.nil_append, List.cons_append, List.reverse_cons,
        List.append_assoc]
      rw [List.set_append_right _ _ (by simp)]
      simp
    | cons g gap =>
      refine ⟨gap ++ [c], ?_, by rw [List.length_cons, writer], by simp [reader]; omega⟩
      simp only [buffer, writer, List.cons_append, List.reverse_cons, List.append_assoc,
        List.nil_append]
      rw [List.set_append_right _ _ (by simp)]
      simp
  | skip =>
    refine ⟨_, rfl, gap ++ [c], ?_, writer, ?_⟩
    · simp [buffer]
    · simp [reader, Nat.add_assoc]
  | skipDots =>
    have dots : ∃ next later, rest = next :: later := by
      cases rest with
      | nil =>
        have stops : Ends [] := nofun
        simp only [choose, if_pos stops] at choice
        split_ifs at choice
      | cons next later => exact ⟨next, later, rfl⟩
    obtain ⟨next, later, rfl⟩ := dots
    obtain ⟨omitted, whole⟩ := parent_suffix written
    refine ⟨_, by rw [back]; rfl, omitted.reverse ++ gap ++ [c, next], ?_, parentLength, ?_⟩
    · simp only [buffer]
      conv => lhs; rw [← whole]
      simp
    · have length := congrArg List.length whole
      rw [List.length_append] at length
      simp [reader]
      omega

/-- The loop ends where the walk does. -/
theorem resume_walk (holds : Holds state written rest behind) (clean : 0 ∉ rest)
    (rooted : written.getLast? = some slash) :
    ∃ final, resume state = some final ∧ Holds final (walk written rest) [] behind ∧
      final.buffer.length = state.buffer.length := by
  induction length : rest.length using Nat.strongRecOn generalizing state written rest with
  | _ n ih =>
  subst length
  have first := holds.ahead 0
  rw [Nat.add_zero] at first
  cases rest with
  | nil =>
    have ended : state.buffer[state.s]? = some 0 := first
    rw [walk]
    exact ⟨state, by rw [resume, ended]; rfl, holds, rfl⟩
  | cons c rest =>
    have here : state.buffer[state.s]? = some c := first
    have notNul : c ≠ 0 := fun nul => clean (nul ▸ List.mem_cons_self)
    obtain ⟨next, passed, holds'⟩ := pass_stride holds clean rooted
    have shorter := stride_suffix written c rest
    have clean' : 0 ∉ (stride written c rest).2 := fun nul =>
      clean (List.mem_cons_of_mem _ (shorter.subset nul))
    have looped : resume state = resume { next with s := next.s + 1 } := by
      rw [← simplifyLoop_pass passed, resume, here, Option.bind_eq_bind, Option.bind_some,
        if_neg notNul]
    rw [looped, walk_cons]
    rw [← (pass_forward passed).1]
    exact ih _ (Nat.lt_succ_of_le shorter.length_le) holds' clean'
      (stride_rooted rooted c rest) rfl

/-! ## Names -/

open Directories

variable {dirs : List (List UInt8)} {name tail : List UInt8}

/-- A directory as it was written, with a slash behind its name. -/
def place (dirs : List (List UInt8)) : List UInt8 :=
  (slash :: dirs.flatMap fun name => name ++ [slash]).reverse

theorem place_concat (dirs : List (List UInt8)) (name : List UInt8) :
    place (dirs ++ [name]) = slash :: (name.reverse ++ place dirs) := by
  simp [place]

theorem place_head (dirs : List (List UInt8)) : ∃ older, place dirs = slash :: older := by
  rcases List.eq_nil_or_concat dirs with rfl | ⟨init, last, rfl⟩
  · exact ⟨[], rfl⟩
  · exact ⟨_, List.concat_eq_append ▸ place_concat init last⟩

theorem place_eq (nonempty : dirs ≠ []) : place dirs = slash :: (absolute slash dirs).reverse := by
  have joined : dirs.flatMap (fun name => name ++ [slash]) =
      List.intercalate [slash] dirs ++ [slash] := by
    induction dirs with
    | nil => exact absurd rfl nonempty
    | cons name rest ih =>
      cases rest with
      | nil => simp
      | cons next rest =>
        rw [List.flatMap_cons, ih (by simp), List.intercalate_cons_cons]
        simp
  rw [place, joined, absolute]
  simp

theorem parent_place (clean : ∀ name ∈ dirs, slash ∉ name) :
    parent (place dirs) = place dirs.dropLast := by
  rcases List.eq_nil_or_concat dirs with rfl | ⟨init, last, rfl⟩
  · rfl
  · rw [List.concat_eq_append] at clean ⊢
    have inLast : ∀ c ∈ last.reverse, decide (c ≠ slash) = true := fun c mem =>
      decide_eq_true (ne_of_mem_of_not_mem (List.mem_reverse.mp mem) (clean last (by simp)))
    obtain ⟨older, front⟩ := place_head init
    rw [place_concat, List.dropLast_concat, parent, List.tail_cons, if_neg (by simp [front]),
      List.dropWhile_append_of_pos inLast, front]
    rfl

/-- A value of the two paths that a stride leaves as it is, unless it is one that stays at the
root where the name asks for its parent. -/
def Follows {γ : Type*} (f : List UInt8 → List UInt8 → γ) : Prop :=
  ∀ written c rest, (choose written c rest = .skipDots → written.tail ≠ []) →
    f written (c :: rest) = f (stride written c rest).1 (stride written c rest).2

theorem follows_walk : Follows walk := fun written c rest _ => walk_cons written c rest

section Follows

variable {γ : Type*} {f : List UInt8 → List UInt8 → γ}

theorem Follows.keep (follows : Follows f) (kept : choose written c rest = .keep) :
    f written (c :: rest) = f (c :: written) rest := by
  rw [follows written c rest (by simp [kept]), stride, kept]

theorem Follows.skip (follows : Follows f) (skipped : choose written c rest = .skip) :
    f written (c :: rest) = f written rest := by
  rw [follows written c rest (by simp [skipped]), stride, skipped]

theorem Follows.skipDots (follows : Follows f) (dots : choose written c rest = .skipDots)
    (below : written.tail ≠ []) : f written (c :: rest) = f (parent written) rest.tail := by
  rw [follows written c rest fun _ => below, stride, dots]

/-- Behind a character that is no slash a name is written as it is. -/
theorem Follows.characters (follows : Follows f) (inside : written.head? ≠ some slash)
    (clean : slash ∉ name) : f written (name ++ tail) = f (name.reverse ++ written) tail := by
  induction name generalizing written with
  | nil => rfl
  | cons c name ih =>
    have notSlash : c ≠ slash := fun isSlash => clean (isSlash ▸ List.mem_cons_self)
    rw [List.cons_append, follows.keep (if_pos inside),
      ih (by simpa using notSlash) fun mem => clean (List.mem_cons_of_mem _ mem)]
    simp

end Follows

/-! ### What is chosen in a directory -/

/-- The first character of a proper name is kept. -/
theorem choose_proper {c : UInt8} {more : List UInt8} (proper : Proper dot (c :: more))
    (clean : slash ∉ c :: more) (dirs : List (List UInt8)) (tail : List UInt8) :
    choose (place dirs) c (more ++ tail) = .keep := by
  obtain ⟨first, later⟩ := not_or.mp (mt List.mem_cons.mpr clean)
  have notSlash : c ≠ slash := Ne.symm first
  obtain ⟨older, front⟩ := place_head dirs
  rw [choose, front, if_neg (by simp), if_neg notSlash]
  by_cases isDot : c = dot
  · subst isDot
    rw [if_neg (by simp)]
    cases more with
    | nil => exact absurd rfl proper.notDot
    | cons d more =>
      obtain ⟨second, third⟩ := not_or.mp (mt List.mem_cons.mpr later)
      have goesOn : ¬Ends (d :: more ++ tail) := fun stops => second (stops d rfl).symm
      rw [if_neg goesOn]
      refine if_neg fun ⟨isDot, stops⟩ => ?_
      obtain rfl : d = dot := by simpa using isDot
      cases more with
      | nil => exact proper.notDots rfl
      | cons e more =>
        have isSlash : e = slash := stops e rfl
        exact third (isSlash ▸ List.mem_cons_self)
  · exact if_pos isDot

theorem choose_slash (dirs : List (List UInt8)) (rest : List UInt8) :
    choose (place dirs) slash rest = .skip := by
  obtain ⟨older, front⟩ := place_head dirs
  rw [choose, front, if_neg (by simp), if_pos rfl]

theorem choose_dot (ends : Ends tail) (dirs : List (List UInt8)) :
    choose (place dirs) dot tail = .skip := by
  obtain ⟨older, front⟩ := place_head dirs
  rw [choose, front, if_neg (by simp), if_neg (by decide), if_neg (by simp), if_pos ends]

theorem choose_dots (ends : Ends tail) (dirs : List (List UInt8)) :
    choose (place dirs) dot (dot :: tail) = .skipDots := by
  have later : ¬Ends (dot :: tail) := fun stops => absurd (stops dot rfl) (by decide)
  obtain ⟨older, front⟩ := place_head dirs
  rw [choose, front, if_neg (by simp), if_neg (by decide), if_neg (by simp), if_neg later,
    if_pos ⟨rfl, ends⟩]

/-- The slash behind a name is kept. -/
theorem choose_behind (nonempty : name ≠ []) (clean : slash ∉ name) (written rest : List UInt8) :
    choose (name.reverse ++ written) slash rest = .keep := by
  obtain ⟨c, back, reversed⟩ :=
    List.exists_cons_of_ne_nil (mt List.reverse_eq_nil_iff.mp nonempty)
  refine if_pos ?_
  rw [reversed, List.cons_append, List.head?_cons, ne_eq, Option.some.injEq]
  rintro rfl
  exact clean (List.mem_reverse.mp (reversed ▸ List.mem_cons_self))

section Follows

variable {γ : Type*} {f : List UInt8 → List UInt8 → γ}

/-- A proper name is written behind the directory. -/
theorem Follows.proper (follows : Follows f) (proper : Proper dot name) (clean : slash ∉ name) :
    f (place dirs) (name ++ tail) = f (name.reverse ++ place dirs) tail := by
  obtain ⟨c, more, rfl⟩ := List.exists_cons_of_ne_nil proper.nonempty
  obtain ⟨first, later⟩ := not_or.mp (mt List.mem_cons.mpr clean)
  have inside : (c :: place dirs).head? ≠ some slash := by simpa using Ne.symm first
  rw [List.cons_append, follows.keep (choose_proper proper clean dirs tail),
    follows.characters inside later]
  simp

/-- A name that is not proper is not written. -/
theorem Follows.improper (follows : Follows f) (entered : ∀ name ∈ dirs, slash ∉ name)
    (improper : ¬Proper dot name) (ends : Ends tail) (below : name = [dot, dot] → dirs ≠ []) :
    f (place dirs) (name ++ tail) = f (place (enter dot dirs name)) tail := by
  unfold enter
  by_cases empty : name = []
  · rw [if_pos (.inl empty), empty, List.nil_append]
  by_cases isDot : name = [dot]
  · rw [if_pos (.inr isDot), isDot, List.singleton_append, follows.skip (choose_dot ends dirs)]
  by_cases isDots : name = [dot, dot]
  · have deep : (place dirs).tail ≠ [] := by
      rw [place_eq (below isDots), absolute]
      simp
    rw [if_neg (by simp [empty, isDot]), if_pos isDots, isDots, List.cons_append,
      List.singleton_append, follows.skipDots (choose_dots ends dirs) deep, List.tail_cons,
      parent_place entered]
  · exact absurd ⟨empty, isDot, isDots⟩ improper

/-- A name and the slash behind it are walked as the name is entered. -/
theorem Follows.enter (follows : Follows f) (entered : ∀ name ∈ dirs, slash ∉ name)
    (clean : slash ∉ name) (below : name = [dot, dot] → dirs ≠ []) (rest : List UInt8) :
    f (place dirs) (name ++ slash :: rest) = f (place (Directories.enter dot dirs name)) rest := by
  by_cases proper : Proper dot name
  · rw [follows.proper proper clean, follows.keep (choose_behind proper.nonempty clean _ rest),
      enter_proper proper, place_concat]
  · rw [follows.improper entered proper (ends_slash rest) below, follows.skip (choose_slash _ rest)]

end Follows

/-- Two dots are skipped at the root. -/
theorem walk_root (ends : Ends tail) :
    walk (place []) ([dot, dot] ++ tail) = walk (place []) tail := by
  rw [List.cons_append, List.singleton_append, walk_cons, stride, choose_dots ends]
  rfl

/-- A name that is not proper is not written, wherever it leads. -/
theorem walk_improper (entered : ∀ name ∈ dirs, slash ∉ name) (improper : ¬Proper dot name)
    (ends : Ends tail) :
    walk (place dirs) (name ++ tail) = walk (place (enter dot dirs name)) tail := by
  by_cases atRoot : name = [dot, dot] ∧ dirs = []
  · obtain ⟨rfl, rfl⟩ := atRoot
    exact walk_root ends
  · exact follows_walk.improper entered improper ends fun isDots root => atRoot ⟨isDots, root⟩

theorem walk_enter (entered : ∀ name ∈ dirs, slash ∉ name) (clean : slash ∉ name)
    (rest : List UInt8) :
    walk (place dirs) (name ++ slash :: rest) = walk (place (enter dot dirs name)) rest := by
  by_cases atRoot : name = [dot, dot] ∧ dirs = []
  · obtain ⟨rfl, rfl⟩ := atRoot
    rw [walk_root (ends_slash rest), follows_walk.skip (choose_slash _ rest)]
    rfl
  · exact follows_walk.enter entered clean (fun isDots root => atRoot ⟨isDots, root⟩) rest

/-- The slash at the end is taken off, but not the one of the root. -/
def strip (written : List UInt8) : List UInt8 :=
  if written.tail = [] ∨ written.head? ≠ some slash then written else written.tail

theorem strip_place (dirs : List (List UInt8)) :
    strip (place dirs) = (absolute slash dirs).reverse := by
  by_cases nonempty : dirs = []
  · rw [nonempty]
    rfl
  · rw [place_eq nonempty, strip, if_neg (by simp [absolute]), List.tail_cons]

/-- A directory with a name behind it that has no slash yet. -/
theorem place_name (dirs : List (List UInt8)) (name : List UInt8) :
    name.reverse ++ place dirs = (absolute slash (dirs ++ [name])).reverse := by
  have whole := place_eq (by simp : dirs ++ [name] ≠ [])
  rw [place_concat] at whole
  exact (List.cons.inj whole).2

theorem strip_name (nonempty : name ≠ []) (clean : slash ∉ name) :
    strip (name.reverse ++ place dirs) = (absolute slash (dirs ++ [name])).reverse := by
  obtain ⟨c, back, reversed⟩ :=
    List.exists_cons_of_ne_nil (mt List.reverse_eq_nil_iff.mp nonempty)
  rw [← place_name]
  refine if_pos (.inr ?_)
  rw [reversed, List.cons_append, List.head?_cons, ne_eq, Option.some.injEq]
  rintro rfl
  exact clean (List.mem_reverse.mp (reversed ▸ List.mem_cons_self))

/-- A path is walked as its names are entered. -/
theorem walk_names {names : List (List UInt8)} (nonempty : names ≠ [])
    (clean : ∀ name ∈ names, slash ∉ name)
    (entered : ∀ name ∈ dirs, Proper dot name ∧ slash ∉ name) :
    strip (walk (place dirs) (List.intercalate [slash] names)) =
      (absolute slash (names.foldl (enter dot) dirs)).reverse := by
  induction names generalizing dirs with
  | nil => exact absurd rfl nonempty
  | cons name rest ih =>
    obtain ⟨here, later⟩ := List.forall_mem_cons.mp clean
    have noSlash : ∀ name ∈ dirs, slash ∉ name := fun name mem => (entered name mem).2
    cases rest with
    | nil =>
      have ends : Ends [] := nofun
      rw [List.intercalate_singleton, ← List.append_nil name, List.foldl_cons, List.foldl_nil]
      by_cases proper : Proper dot name
      · rw [follows_walk.proper proper here, walk, strip_name proper.nonempty here, List.append_nil,
          enter_proper proper]
      · rw [walk_improper noSlash proper ends, walk, strip_place, List.append_nil]
    | cons next rest =>
      have entered' : ∀ other ∈ enter dot dirs name, Proper dot other ∧ slash ∉ other :=
        foldl_enter_forall (List.forall_mem_singleton.mpr here) entered
      rw [List.intercalate_cons_cons, List.append_assoc, List.singleton_append,
        walk_enter noSlash here, ih (by simp) later entered']
      rfl

/-! ## The whole path -/

/-- An absolute path. -/
structure AbsPath where
  text : List UInt8
  isAbsolute : text.head? = some slash
  noNul : 0 ∉ text

/-- What is in the buffer afterwards. -/
theorem bbSimplifyAbsPathInplace_eq (path : AbsPath) (behind : List UInt8) :
    ∃ left, bbSimplifyAbsPathInplace (path.text ++ 0 :: behind) =
        some (absolute slash (resolve slash dot path.text) ++ 0 :: (left ++ behind),
          (absolute slash (resolve slash dot path.text)).length) ∧
      (absolute slash (resolve slash dot path.text)).length + left.length = path.text.length := by
  obtain ⟨text, isAbsolute, noNul⟩ := path
  obtain ⟨rest, rfl⟩ : ∃ rest, text = slash :: rest := by
    cases text with
    | nil => cases isAbsolute
    | cons c rest => exact ⟨rest, by rw [Option.some.inj isAbsolute]⟩
  have clean : 0 ∉ rest := fun nul => noNul (List.mem_cons_of_mem _ nul)
  -- the first slash is skipped where it stands
  have passed : pass ⟨slash :: rest ++ 0 :: behind, 0, 0⟩ =
      some ⟨slash :: rest ++ 0 :: behind, 0, 0⟩ := rfl
  have started : Holds ⟨slash :: rest ++ 0 :: behind, 1, 0⟩ (place []) rest behind :=
    ⟨[], rfl, rfl, rfl⟩
  obtain ⟨final, looped, holds, length⟩ := resume_walk started clean rfl
  rw [← simplifyLoop_pass passed] at looped
  have last := holds.written_last
  have names := walk_names (List.splitOn_ne_nil slash rest) Directories.not_mem_splitOn
    (fun _ mem => absurd mem List.not_mem_nil : ∀ name ∈ [], Proper dot name ∧ slash ∉ name)
  rw [List.intercalate_splitOn, ← resolve_sep] at names
  obtain ⟨gap, buffer, writer, _⟩ := holds
  generalize absolute slash (resolve slash dot (slash :: rest)) = canonical at names ⊢
  generalize walk (place []) rest = written at last names buffer writer
  obtain ⟨c, older, rfl⟩ : ∃ c older, written = c :: older :=
    List.exists_cons_of_ne_nil (by rintro rfl; cases writer)
  have writer : final.p = older.length := Nat.succ.inj writer
  rw [writer, List.head?_cons] at last
  unfold bbSimplifyAbsPathInplace
  simp only [looped, Option.bind_eq_bind, Option.bind_some, writer, last,
    List.length_eq_zero_iff]
  simp only [strip, List.tail_cons, List.head?_cons, ne_eq, Option.some.injEq] at names
  have total := congrArg List.length buffer
  simp only [List.length_append, List.length_cons, List.length_reverse] at total length
  by_cases kept : older = [] ∨ ¬c = slash
  · rw [if_pos kept] at names
    have same : canonical = (c :: older).reverse := by rw [names, List.reverse_reverse]
    have place : canonical.length = older.length + 1 := by rw [same, List.length_reverse]; rfl
    rw [if_pos kept, if_pos (by omega), buffer, ← same, ← place,
      List.set_append_right _ _ (by omega), Nat.sub_self]
    cases gap with
    | nil => exact ⟨[], rfl, by simp at total ⊢; omega⟩
    | cons g gap => exact ⟨gap ++ [0], by simp, by simp at total ⊢; omega⟩
  · obtain ⟨-, isSlash⟩ := not_or.mp kept
    rw [if_neg kept] at names
    have same : canonical = older.reverse := by rw [names, List.reverse_reverse]
    have place : canonical.length = older.length := by rw [same, List.length_reverse]
    rw [if_neg kept, if_pos (by omega), buffer, List.reverse_cons, ← same, ← place,
      List.append_assoc, List.set_append_right _ _ (by omega), Nat.sub_self]
    exact ⟨gap ++ [0], by simp, by simp at total ⊢; omega⟩

/-- The canonical path that names a directory. -/
def canonical (path : AbsPath) : AbsPath where
  text := absolute slash (resolve slash dot path.text)
  isAbsolute := rfl
  noNul := fun nul => path.noNul ((mem_absolute nul).resolve_left (by decide))

/-- The path in the buffer becomes the canonical one, with single slashes between the names that
are left: it is not longer, and is left alone afterwards. -/
theorem bbSimplifyAbsPathInplace_canonical (path : AbsPath) (behind : List UInt8) :
    (∃ left, bbSimplifyAbsPathInplace (path.text ++ 0 :: behind) =
        some ((canonical path).text ++ 0 :: (left ++ behind), (canonical path).text.length) ∧
      (canonical path).text.length + left.length = path.text.length) ∧
    (∀ name ∈ resolve slash dot path.text, Proper dot name ∧ slash ∉ name) ∧
    resolve slash dot (canonical path).text = resolve slash dot path.text ∧
    bbSimplifyAbsPathInplace ((canonical path).text ++ 0 :: behind) =
      some ((canonical path).text ++ 0 :: behind, (canonical path).text.length) := by
  have same : resolve slash dot (canonical path).text = resolve slash dot path.text :=
    resolve_absolute resolve_proper
  refine ⟨bbSimplifyAbsPathInplace_eq path behind, resolve_proper, same, ?_⟩
  obtain ⟨left, again, length⟩ := bbSimplifyAbsPathInplace_eq (canonical path) behind
  rw [same] at again length
  obtain rfl : left = [] := List.length_eq_zero_iff.mp (Nat.add_left_cancel length)
  exact again

end Busybox.Libbb.SimplifyPath
