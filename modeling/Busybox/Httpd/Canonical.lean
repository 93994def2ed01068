import Busybox.Libbb.PercentDecode
import Busybox.Libbb.SimplifyPath

/-!
# The path of a request

`handle_incoming_and_exit` in `networking/httpd.c` cuts the query off the URL of a request, decodes
its escapes and brings the path into canonical form, all in the buffer `urlcopy`. The loop follows
`bb_simplify_abs_path_inplace`, but it keeps a trailing slash and does not stay at the root.
-/

namespace Busybox.Httpd.Canonical

open Turns Directories
open Libbb.SimplifyPath
open Libbb.PercentDecode (percentDecodeInPlace Encodes WellFormed decoded outcome read
  percent)

/-- The answers to a request whose path is not accepted. -/
inductive Refusal
  | badRequest
  | notFound
  deriving DecidableEq

def question : UInt8 := 63

/-- Where the first `c` of a string is, if there is one. Nothing stands outside the buffer. -/
def strchr (c : UInt8) : List UInt8 → Option (Option Nat)
  | [] => none
  | d :: rest =>
    if d = c then some (some 0)
    else if d = 0 then some none
    else (strchr c rest).map (Option.map (· + 1))

/-! ## The loop -/

/-- The buffer afterwards, and the pointer to the NUL behind the path. -/
structure Copied where
  urlcopy : List UInt8
  urlp : Nat

/-- A turn of the loop. The pointer `tptr` is that of the reader, and `urlp` that of the writer. -/
abbrev Turned := Turn Cursor (Except Refusal Copied)

/-- `tptr[1] == '/' || tptr[1] == '\0'`, and the same with another offset. -/
def endsName (state : Cursor) (offset : Nat) : Option Bool := do
  let c ← state.buffer[state.s + offset]?
  return c = slash ∨ c = 0

/-- The label `next_char`. -/
def nextChar (state : Cursor) : Option Turned := some (.next { state with s := state.s + 1 })

/-- `*++urlp = *tptr`, and the end of the loop behind the NUL. -/
def copy (state : Cursor) : Option Turned := do
  let c ← state.buffer[state.s]?
  let urlp := state.p + 1
  if urlp < state.buffer.length then
    let buffer := state.buffer.set urlp c
    if c = 0 then some (.leave (.ok ⟨buffer, urlp⟩)) else nextChar { state with buffer, p := urlp }
  else none

/-- The branch for `..`: the request is refused at the root, and else the directory in front is
left out. -/
def omitPrevious (state : Cursor) : Option (Except Refusal Cursor) := do
  if (← state.buffer[state.s + 1]?) = dot then
    if ← endsName state 2 then
      if state.p = 0 then return .error .badRequest
      else return .ok { state with p := ← omitDir state.buffer state.p, s := state.s + 1 }
    else return .ok state
  else return .ok state

/-- The body of the loop. -/
def turn (state : Cursor) : Option Turned := do
  if (← state.buffer[state.p]?) = slash then
    let c ← state.buffer[state.s]?
    if c = slash then nextChar state
    else if c = dot then
      match ← omitPrevious state with
      | .error refusal => some (.leave (.error refusal))
      | .ok state => if ← endsName state 1 then nextChar state else copy state
    else copy state
  else copy state

theorem nextChar_lower {state next : Cursor} (inside : state.s < state.buffer.length)
    (more : nextChar state = some (.next next)) :
    next.buffer.length - next.s < state.buffer.length - state.s := by
  cases more
  exact Nat.sub_lt_sub_left inside (Nat.lt_succ_self _)

theorem copy_lower {state next : Cursor} (more : copy state = some (.next next)) :
    next.buffer.length - next.s < state.buffer.length - state.s := by
  obtain ⟨c, here, more⟩ := Option.bind_eq_some_iff.mp more
  have inside := (List.getElem?_eq_some_iff.mp here).1
  simp only at more
  split at more
  · split at more
    · cases more
    · have lower := nextChar_lower (by rwa [List.length_set]) more
      rwa [List.length_set] at lower
  · cases more

theorem omitPrevious_keeps {state state' : Cursor} (inside : state.s < state.buffer.length)
    (left : omitPrevious state = some (.ok state')) :
    state'.buffer = state.buffer ∧ state.s ≤ state'.s ∧ state'.s < state.buffer.length := by
  obtain ⟨second, next, left⟩ := Option.bind_eq_some_iff.mp left
  have further := (List.getElem?_eq_some_iff.mp next).1
  split at left
  case isFalse => cases left; exact ⟨rfl, Nat.le_refl _, inside⟩
  obtain ⟨ends, -, left⟩ := Option.bind_eq_some_iff.mp left
  split at left
  case isFalse => cases left; exact ⟨rfl, Nat.le_refl _, inside⟩
  split at left
  case isTrue => cases left
  obtain ⟨p, -, left⟩ := Option.bind_eq_some_iff.mp left
  cases left
  exact ⟨rfl, Nat.le_succ _, further⟩

theorem turn_lower {state next : Cursor} (more : turn state = some (.next next)) :
    next.buffer.length - next.s < state.buffer.length - state.s := by
  obtain ⟨last, -, more⟩ := Option.bind_eq_some_iff.mp more
  split at more
  case isFalse => exact copy_lower more
  obtain ⟨c, here, more⟩ := Option.bind_eq_some_iff.mp more
  have inside := (List.getElem?_eq_some_iff.mp here).1
  split at more
  case isTrue => exact nextChar_lower inside more
  split at more
  case isFalse => exact copy_lower more
  obtain ⟨result, omitted, more⟩ := Option.bind_eq_some_iff.mp more
  cases result with
  | error refusal => cases more
  | ok state' =>
    obtain ⟨same, forward, inside'⟩ := omitPrevious_keeps inside omitted
    obtain ⟨ends, -, more⟩ := Option.bind_eq_some_iff.mp more
    have lower : next.buffer.length - next.s < state'.buffer.length - state'.s := by
      split at more
      · exact nextChar_lower (same ▸ inside') more
      · exact copy_lower more
    rw [same] at lower
    omega

/-- The loop. -/
def canonicalLoop : Bounded Cursor (Except Refusal Copied) where
  turn := turn
  left state := state.buffer.length - state.s
  lower := turn_lower

/-! ## From the request to the path -/

/-- The buffer with the path in it, the pointer to its end, and the one to the query. -/
structure Accepted where
  urlcopy : List UInt8
  urlp : Nat
  query : Option Nat

/-- What becomes of the URL in `urlcopy`. -/
def acceptPath (urlcopy : List UInt8) : Option (Except Refusal Accepted) := do
  let mark ← strchr question urlcopy
  let urlcopy := mark.elim urlcopy fun place => urlcopy.set place 0
  let ⟨urlcopy, tptr⟩ ← percentDecodeInPlace urlcopy true
  match tptr with
  | none => return .error .badRequest
  | some 1 => return .error .notFound
  | some _ =>
    match ← canonicalLoop.run ⟨urlcopy, 0, 0⟩ with
    | .error refusal => return .error refusal
    | .ok copied => return .ok ⟨copied.urlcopy, copied.urlp, mark.map (· + 1)⟩

/-! ## The loop walks over the path -/

variable {state : Cursor} {written rest behind : List UInt8} {c : UInt8}

theorem endsName_read {offset : Nat} (ahead : state.buffer[state.s + offset]? = some c) :
    endsName state offset = some (c = slash ∨ c = 0 : Bool) := by
  rw [endsName, ahead]
  rfl

/-- What follows the branch for `..`. -/
theorem behindDot (ahead : state.buffer[state.s + 1]? = some c) :
    (do if ← endsName state 1 then nextChar state else copy state) =
      if c = slash ∨ c = 0 then nextChar state else copy state := by
  rw [endsName_read ahead, Option.bind_eq_bind, Option.bind_some]
  simp

/-- The branch for `..` is not taken for another character, nor where the name is longer. -/
theorem omitPrevious_other (second : state.buffer[state.s + 1]? = some c) (other : c ≠ dot) :
    omitPrevious state = some (.ok state) := by
  rw [omitPrevious, second, Option.bind_eq_bind, Option.bind_some, if_neg other]
  rfl

theorem omitPrevious_longer {third : UInt8} (second : state.buffer[state.s + 1]? = some dot)
    (ahead : state.buffer[state.s + 2]? = some third) (longer : ¬(third = slash ∨ third = 0)) :
    omitPrevious state = some (.ok state) := by
  rw [omitPrevious, second, Option.bind_eq_bind, Option.bind_some, if_pos rfl,
    endsName_read ahead, Option.bind_eq_bind, Option.bind_some, if_neg (by simpa using longer)]
  rfl

theorem omitPrevious_parent {third : UInt8} (second : state.buffer[state.s + 1]? = some dot)
    (ahead : state.buffer[state.s + 2]? = some third) (ends : third = slash ∨ third = 0) :
    omitPrevious state = if state.p = 0 then some (.error .badRequest)
      else (omitDir state.buffer state.p).map fun p => .ok { state with p, s := state.s + 1 } := by
  rw [omitPrevious, second, Option.bind_eq_bind, Option.bind_some, if_pos rfl,
    endsName_read ahead, Option.bind_eq_bind, Option.bind_some, if_pos (by simpa using ends)]
  by_cases atRoot : state.p = 0
  · rw [if_pos atRoot, if_pos atRoot]
    rfl
  · rw [if_neg atRoot, if_neg atRoot]
    cases omitDir state.buffer state.p <;> rfl

/-- A turn in the words of the loop of `bb_simplify_abs_path_inplace`. -/
def respond (state : Cursor) : Action → Option Turned
  | .keep => copy state
  | .skip => nextChar state
  | .skipDots =>
    if state.p = 0 then some (.leave (.error .badRequest))
    else (omitDir state.buffer state.p).map fun p => .next { state with p, s := state.s + 2 }

theorem turn_action {act : Action} (acts : action state = some act) :
    turn state = respond state act := by
  obtain ⟨last, here, acts⟩ := Option.bind_eq_some_iff.mp acts
  simp only [turn, here, Option.bind_eq_bind, Option.bind_some]
  split at acts
  case isTrue inside =>
    cases acts
    exact if_neg inside
  case isFalse behindSlash =>
  obtain ⟨c, first, acts⟩ := Option.bind_eq_some_iff.mp acts
  rw [if_pos (not_not.mp behindSlash), first, Option.bind_some]
  split at acts
  case isTrue isSlash =>
    cases acts
    exact if_pos isSlash
  case isFalse notSlash =>
  rw [if_neg notSlash]
  split at acts
  case isTrue notDot =>
    cases acts
    exact if_neg notDot
  case isFalse isDot =>
  obtain ⟨second, ahead, acts⟩ := Option.bind_eq_some_iff.mp acts
  rw [if_pos (not_not.mp isDot)]
  split at acts
  case isTrue ends =>
    cases acts
    have other : second ≠ dot := by rcases ends with rfl | rfl <;> decide
    rw [omitPrevious_other ahead other, Option.bind_some]
    exact (behindDot ahead).trans (if_pos ends)
  case isFalse goesOn =>
  split at acts
  case isTrue other =>
    cases acts
    rw [omitPrevious_other ahead other, Option.bind_some]
    exact (behindDot ahead).trans (if_neg goesOn)
  case isFalse twoDots =>
  obtain rfl : second = dot := not_not.mp twoDots
  obtain ⟨third, beyond, acts⟩ := Option.bind_eq_some_iff.mp acts
  obtain rfl := Option.some.inj acts
  by_cases ends : third = slash ∨ third = 0
  · rw [omitPrevious_parent ahead beyond ends, if_pos ends, respond]
    by_cases atRoot : state.p = 0
    · rw [if_pos atRoot, if_pos atRoot, Option.bind_some]
    · rw [if_neg atRoot, if_neg atRoot]
      cases omitDir state.buffer state.p with
      | none => rfl
      | some p =>
        have further : ({ state with p, s := state.s + 1 } : Cursor).buffer[state.s + 1 + 1]? =
          some third := beyond
        rw [Option.map_some, Option.bind_some, Option.map_some]
        exact (behindDot further).trans (if_pos ends)
  · rw [omitPrevious_longer ahead beyond ends, if_neg ends, Option.bind_some]
    exact (behindDot ahead).trans (if_neg goesOn)

/-- Below the root a turn is a pass of `bb_simplify_abs_path_inplace` and one step further. -/
theorem turn_pass {act : Action} {next : Cursor} (acts : action state = some act)
    (here : state.buffer[state.s]? = some c) (notNul : c ≠ 0)
    (below : act = .skipDots → state.p ≠ 0) (passed : pass state = some next) :
    turn state = some (.next { next with s := next.s + 1 }) := by
  rw [turn_action acts]
  unfold Libbb.SimplifyPath.pass at passed
  rw [acts, Option.bind_eq_bind, Option.bind_some] at passed
  cases act with
  | keep =>
    simp only [here, Option.bind_eq_bind, Option.bind_some] at passed
    split at passed
    case isTrue inside =>
      cases passed
      rw [respond, copy, here, Option.bind_eq_bind, Option.bind_some]
      exact (if_pos inside).trans (if_neg notNul)
    case isFalse => cases passed
  | skip =>
    cases passed
    rfl
  | skipDots =>
    have deep := below rfl
    obtain ⟨p, back, passed⟩ := Option.bind_eq_some_iff.mp passed
    cases passed
    rw [backUp, if_pos (Nat.pos_of_ne_zero deep)] at back
    rw [respond, if_neg deep, back]
    rfl

theorem atRoot_iff (holds : Holds state written rest behind) :
    state.p = 0 ↔ written.tail = [] := by
  obtain ⟨_, _, writer, _⟩ := holds
  rw [← List.length_eq_zero_iff, List.length_tail]
  omega

/-- A turn is one stride of the walk, where that does not ask for the parent of the root. -/
theorem turn_stride (holds : Holds state written (c :: rest) behind) (clean : 0 ∉ c :: rest)
    (rooted : written.getLast? = some slash)
    (stays : choose written c rest = .skipDots → written.tail ≠ []) :
    ∃ next, turn state = some (.next next) ∧
      Holds next (stride written c rest).1 (stride written c rest).2 behind := by
  have nonempty : written ≠ [] := by
    rintro rfl
    cases rooted
  have later : 0 ∉ rest := fun nul => clean (List.mem_cons_of_mem _ nul)
  have notNul : c ≠ 0 := fun nul => clean (nul ▸ List.mem_cons_self)
  obtain ⟨next, passed, holds'⟩ := pass_stride holds clean rooted
  exact ⟨_, turn_pass (action_holds holds later nonempty) (holds.ahead 0) notNul
    (fun dots => mt (atRoot_iff holds).mp (stays dots)) passed, holds'⟩

theorem turn_root (holds : Holds state written (c :: rest) behind) (clean : 0 ∉ c :: rest)
    (rooted : written.getLast? = some slash) (dots : choose written c rest = .skipDots)
    (atRoot : written.tail = []) : turn state = some (.leave (.error .badRequest)) := by
  have nonempty : written ≠ [] := by
    rintro rfl
    cases rooted
  have later : 0 ∉ rest := fun nul => clean (List.mem_cons_of_mem _ nul)
  rw [turn_action (action_holds holds later nonempty), dots, respond,
    if_pos ((atRoot_iff holds).mpr atRoot)]

/-- The NUL is copied behind what was written, and the loop ends. -/
theorem turn_end (holds : Holds state written [] behind) (rooted : written.getLast? = some slash) :
    ∃ left, turn state = some (.leave (.ok
      ⟨written.reverse ++ 0 :: (left ++ behind), written.length⟩)) := by
  have here : state.buffer[state.s]? = some 0 := holds.ahead 0
  have last := holds.written_last
  obtain ⟨newest, older, rfl⟩ : ∃ newest older, written = newest :: older := by
    cases written with
    | nil => cases rooted
    | cons newest older => exact ⟨newest, older, rfl⟩
  have kept : action state = some .keep := by
    rw [action, last, List.head?_cons, Option.bind_eq_bind, Option.bind_some, here]
    split <;> rfl
  obtain ⟨gap, buffer, writer, -⟩ := holds
  have inside : state.p + 1 < state.buffer.length := by
    simp only [buffer, writer, List.length_append, List.length_reverse, List.length_cons]
    omega
  have copied : turn state =
      some (.leave (.ok ⟨state.buffer.set (state.p + 1) 0, state.p + 1⟩)) := by
    rw [turn_action kept, respond, copy, here, Option.bind_eq_bind, Option.bind_some]
    exact (if_pos inside).trans (if_pos rfl)
  rw [copied, writer, buffer, List.set_append_right _ _ (by simp),
    List.length_reverse, Nat.sub_self]
  cases gap with
  | nil => exact ⟨[], rfl⟩
  | cons g gap => exact ⟨gap ++ [0], by simp⟩

/-- The walk, where the parent of the root is not asked for. -/
def climb (written : List UInt8) : List UInt8 → Option (List UInt8)
  | [] => some written
  | c :: rest =>
    if choose written c rest = .skipDots ∧ written.tail = [] then none
    else climb (stride written c rest).1 (stride written c rest).2
termination_by rest => rest.length
decreasing_by exact Nat.lt_succ_of_le (stride_suffix written c rest).length_le

/-- What the loop leaves of a walk. -/
def Leaves (result : Option (Except Refusal Copied)) (behind : List UInt8) :
    Option (List UInt8) → Prop
  | none => result = some (.error .badRequest)
  | some written =>
    ∃ left, result = some (.ok ⟨written.reverse ++ 0 :: (left ++ behind), written.length⟩)

/-- The loop ends where the walk does. -/
theorem run_climb (holds : Holds state written rest behind) (clean : 0 ∉ rest)
    (rooted : written.getLast? = some slash) :
    Leaves (canonicalLoop.run state) behind (climb written rest) := by
  induction length : rest.length using Nat.strongRecOn generalizing state written rest with
  | _ n ih =>
  subst length
  cases rest with
  | nil =>
    obtain ⟨left, ended⟩ := turn_end holds rooted
    rw [climb]
    exact ⟨left, Bounded.run_leave ended⟩
  | cons c rest =>
    rw [climb]
    by_cases leaves : choose written c rest = .skipDots ∧ written.tail = []
    · rw [if_pos leaves]
      exact Bounded.run_leave (turn_root holds clean rooted leaves.1 leaves.2)
    · obtain ⟨next, more, holds'⟩ := turn_stride holds clean rooted fun dots atRoot =>
        leaves ⟨dots, atRoot⟩
      have step : canonicalLoop.run state = canonicalLoop.run next := Bounded.run_next more
      have shorter := stride_suffix written c rest
      rw [if_neg leaves, step]
      exact ih _ (Nat.lt_succ_of_le shorter.length_le) holds'
        (fun nul => clean (List.mem_cons_of_mem _ (shorter.subset nul)))
        (stride_rooted rooted c rest) rfl

/-! ## The path and its names -/

variable {dirs names : List (List UInt8)} {name : List UInt8}

theorem follows_climb : Follows climb := by
  intro written c rest stays
  rw [climb, if_neg fun ⟨dots, atRoot⟩ => stays dots atRoot]

/-- Two dots are not followed at the root. -/
theorem climb_root (ends : Ends rest) : climb (place []) ([dot, dot] ++ rest) = none := by
  rw [List.cons_append, List.singleton_append, climb]
  exact if_pos ⟨choose_dots ends [], rfl⟩

theorem climb_enter (entered : ∀ name ∈ dirs, slash ∉ name) (clean : slash ∉ name)
    (rest : List UInt8) :
    climb (place dirs) (name ++ slash :: rest) =
      (descend dot dirs name).bind fun dirs => climb (place dirs) rest := by
  unfold descend
  by_cases leaves : name = [dot, dot] ∧ dirs = []
  · rw [if_pos leaves, Option.bind_none]
    obtain ⟨rfl, rfl⟩ := leaves
    exact climb_root (ends_slash rest)
  · rw [if_neg leaves, Option.bind_some]
    exact follows_climb.enter entered clean (fun isDots atRoot => leaves ⟨isDots, atRoot⟩) rest

/-- What is written of a directory, with the last name that was read. -/
def spelled (last : List UInt8) (dirs : List (List UInt8)) : List UInt8 :=
  if Proper dot last then (absolute slash dirs).reverse else place dirs

theorem climb_last (entered : ∀ name ∈ dirs, slash ∉ name) (clean : slash ∉ name) :
    climb (place dirs) name = (descend dot dirs name).map (spelled name) := by
  have ends : Ends [] := nofun
  have done (written : List UInt8) : climb written [] = some written := by rw [climb]
  have whole := List.append_nil name
  unfold descend
  by_cases leaves : name = [dot, dot] ∧ dirs = []
  · rw [if_pos leaves]
    obtain ⟨rfl, rfl⟩ := leaves
    exact climb_root ends
  rw [if_neg leaves, Option.map_some, spelled]
  by_cases proper : Proper dot name
  · rw [if_pos proper, enter_proper proper, ← place_name, ← done,
      ← follows_climb.proper proper clean, whole]
  · rw [if_neg proper, ← done, ← follows_climb.improper entered proper ends
      fun isDots atRoot => leaves ⟨isDots, atRoot⟩, whole]

/-- A path is walked as its names are entered, one after the other. -/
theorem climb_names (nonempty : names ≠ []) (clean : ∀ name ∈ names, slash ∉ name)
    (entered : ∀ name ∈ dirs, Proper dot name ∧ slash ∉ name) :
    climb (place dirs) (List.intercalate [slash] names) =
      (names.foldlM (descend dot) dirs).map (spelled (names.getLast nonempty)) := by
  induction names generalizing dirs with
  | nil => exact absurd rfl nonempty
  | cons name rest ih =>
    obtain ⟨here, later⟩ := List.forall_mem_cons.mp clean
    have noSlash : ∀ name ∈ dirs, slash ∉ name := fun name mem => (entered name mem).2
    cases rest with
    | nil =>
      rw [List.intercalate_singleton, climb_last noSlash here, List.foldlM_cons]
      cases descend dot dirs name <;> rfl
    | cons next rest =>
      rw [List.intercalate_cons_cons, List.append_assoc, List.singleton_append,
        climb_enter noSlash here, List.foldlM_cons, List.getLast_cons (by simp)]
      cases stepped : descend dot dirs name with
      | none => rfl
      | some dirs' =>
        rw [Option.bind_some, Option.bind_eq_bind, Option.bind_some]
        refine ih (by simp) later ?_
        rw [descend_eq stepped]
        exact foldl_enter_forall (List.forall_mem_singleton.mpr here) entered

/-- A path in canonical form. It leads to the same directory with no detour, and ends in a slash if
it did before, or in a name that only leads to a directory. -/
def normal (path : List UInt8) : List UInt8 :=
  absolute slash (resolve slash dot path) ++
    if resolve slash dot path ≠ [] ∧ EndsInDirectory slash dot path then [slash] else []

theorem spelled_reverse (last : List UInt8) (dirs : List (List UInt8)) :
    (spelled last dirs).reverse =
      absolute slash dirs ++ if dirs ≠ [] ∧ ¬Proper dot last then [slash] else [] := by
  unfold spelled
  by_cases proper : Proper dot last
  · simp [proper]
  · by_cases atRoot : dirs = []
    · subst atRoot
      simp [proper, place, absolute]
    · simp [proper, atRoot, place_eq atRoot]

/-- The walk over a path ends with its canonical form, unless it climbs. -/
theorem climb_path (rest : List UInt8) :
    (Climbs dot ((slash :: rest).splitOn slash) ∧ climb (place []) rest = none) ∨
    (¬Climbs dot ((slash :: rest).splitOn slash) ∧
      climb (place []) rest = some (normal (slash :: rest)).reverse) := by
  have walked := climb_names (List.splitOn_ne_nil slash rest) not_mem_splitOn
    (fun _ mem => absurd mem List.not_mem_nil : ∀ name ∈ [], Proper dot name ∧ slash ∉ name)
  have started : ((slash :: rest).splitOn slash).foldlM (descend dot) [] =
      (rest.splitOn slash).foldlM (descend dot) [] := by
    rw [List.splitOn_cons_eq_if_modifyHead, if_pos BEq.rfl, List.foldlM_cons]
    rfl
  rw [List.intercalate_splitOn, ← started] at walked
  by_cases climbs : Climbs dot ((slash :: rest).splitOn slash)
  · rw [foldlM_descend_none.mpr climbs] at walked
    exact .inl ⟨climbs, walked⟩
  · rw [foldlM_descend_some climbs, Option.map_some] at walked
    refine .inr ⟨climbs, walked.trans (congrArg some ?_)⟩
    refine List.reverse_eq_iff.mp ?_
    rw [spelled_reverse]
    simp only [← endsInDirectory_iff (by decide : dot ≠ slash)]
    rfl

/-! ## The whole request -/

/-- The part of a URL in front of its query. -/
def pathPart (url : List UInt8) : List UInt8 := url.takeWhile (· ≠ question)

/-- The query is cut off. -/
theorem cut_path {url : List UInt8} (clean : 0 ∉ url) (behind : List UInt8) :
    ∃ mark left, strchr question (url ++ 0 :: behind) = some mark ∧
      mark.elim (url ++ 0 :: behind) (fun place => (url ++ 0 :: behind).set place 0) =
        pathPart url ++ 0 :: left := by
  induction url with
  | nil => exact ⟨none, behind, rfl, rfl⟩
  | cons c rest ih =>
    obtain ⟨first, later⟩ := not_or.mp (mt List.mem_cons.mpr clean)
    by_cases isQuestion : c = question
    · refine ⟨some 0, rest ++ 0 :: behind, if_pos isQuestion, ?_⟩
      rw [pathPart, List.takeWhile_cons_of_neg (by simp [isQuestion])]
      rfl
    · obtain ⟨mark, left, found, cut⟩ := ih later
      refine ⟨mark.map (· + 1), left, ?_, ?_⟩
      · rw [List.cons_append, strchr, if_neg isQuestion, if_neg (Ne.symm first), found]
        rfl
      · rw [pathPart, List.takeWhile_cons_of_pos (by simpa using isQuestion), ← pathPart]
        simp only [List.cons_append, ← cut]
        cases mark <;> rfl

/-- The loop over a decoded path, whose first slash is skipped where it stands. -/
theorem run_path {rest : List UInt8} (clean : 0 ∉ rest) (behind : List UInt8) :
    Leaves (canonicalLoop.run ⟨slash :: rest ++ 0 :: behind, 0, 0⟩) behind
      (climb (place []) rest) := by
  have first : turn ⟨slash :: rest ++ 0 :: behind, 0, 0⟩ =
      some (.next ⟨slash :: rest ++ 0 :: behind, 1, 0⟩) := rfl
  have step : canonicalLoop.run ⟨slash :: rest ++ 0 :: behind, 0, 0⟩ =
      canonicalLoop.run ⟨slash :: rest ++ 0 :: behind, 1, 0⟩ := Bounded.run_next first
  rw [step]
  exact run_climb ⟨[], rfl, rfl, rfl⟩ clean rfl

theorem pathPart_rooted (url : AbsPath) : ∃ rest, pathPart url.text = slash :: rest := by
  obtain ⟨text, isAbsolute, -⟩ := url
  cases text with
  | nil => cases isAbsolute
  | cons c text =>
    obtain rfl : c = slash := Option.some.inj isAbsolute
    exact ⟨pathPart text, List.takeWhile_cons_of_pos (by decide)⟩

/-- What a path is refused for. -/
def Unacceptable (path : List UInt8) : Prop :=
  Encodes path ∨ ¬WellFormed path ∨ Climbs dot ((decoded path).splitOn slash)

theorem outcome_iff (path : List UInt8) :
    (Encodes path ∧ outcome (read path) = .encoded) ∨
    (¬Encodes path ∧ ¬WellFormed path ∧ outcome (read path) = .malformed) ∨
    (¬Encodes path ∧ WellFormed path ∧ outcome (read path) = .text (decoded path)) := by
  unfold outcome
  by_cases encodes : Encodes path
  · exact .inl ⟨encodes, if_pos encodes⟩
  by_cases formed : WellFormed path
  · exact .inr (.inr ⟨encodes, formed, (if_neg encodes).trans (if_pos formed)⟩)
  · exact .inr (.inl ⟨encodes, formed, (if_neg encodes).trans (if_neg formed)⟩)

/-- The URL is answered with a refusal, or its path is left in canonical form. -/
theorem acceptPath_ends (url : AbsPath) (behind : List UInt8) :
    (Unacceptable (pathPart url.text) ∧
      ∃ refusal, acceptPath (url.text ++ 0 :: behind) = some (.error refusal)) ∨
    (¬Unacceptable (pathPart url.text) ∧
      ∃ query left, acceptPath (url.text ++ 0 :: behind) = some (.ok
        ⟨normal (decoded (pathPart url.text)) ++ 0 :: left,
          (normal (decoded (pathPart url.text))).length, query⟩)) := by
  obtain ⟨mark, behind, found, cut⟩ := cut_path url.noNul behind
  have clean : 0 ∉ pathPart url.text := fun nul =>
    url.noNul ((List.takeWhile_prefix _).subset nul)
  have decodes := Libbb.PercentDecode.percentDecodeInPlace_read clean behind
  unfold acceptPath
  simp only [found, Option.bind_eq_bind, Option.bind_some, cut]
  rcases outcome_iff (pathPart url.text) with ⟨encodes, comes⟩ | ⟨_, bad, comes⟩ |
    ⟨allowed, formed, comes⟩
  · rw [comes] at decodes
    obtain ⟨buffer, decodes⟩ := decodes
    rw [decodes]
    exact .inl ⟨.inl encodes, .notFound, rfl⟩
  · rw [comes] at decodes
    obtain ⟨buffer, decodes⟩ := decodes
    rw [decodes]
    exact .inl ⟨.inr (.inl bad), .badRequest, rfl⟩
  · rw [comes] at decodes
    obtain ⟨left, decodes⟩ := decodes
    obtain ⟨rest, path⟩ := pathPart_rooted url
    have decodedPath := Libbb.PercentDecode.decoded_plain (by decide : slash ≠ percent) rest
    have noNul := Libbb.PercentDecode.decoded_clean clean allowed
    rw [path, decodedPath] at noNul
    have ran := run_path (fun nul => noNul (List.mem_cons_of_mem _ nul)) (left ++ behind)
    rw [decodes, path, decodedPath]
    rcases climb_path (decoded rest) with ⟨climbs, walked⟩ | ⟨stays, walked⟩
    · rw [walked] at ran
      have ended : canonicalLoop.run ⟨slash :: decoded rest ++ 0 :: (left ++ behind), 0, 0⟩ =
        some (.error .badRequest) := ran
      refine .inl ⟨.inr (.inr (by rwa [decodedPath])), .badRequest, ?_⟩
      simp only [Option.bind_some, List.nil_append, ended]
      rfl
    · rw [walked] at ran
      obtain ⟨left', ran⟩ := ran
      refine .inr ⟨?_, mark.map (· + 1), left' ++ (left ++ behind), ?_⟩
      · rw [Unacceptable, decodedPath, ← path]
        exact not_or.mpr ⟨allowed, not_or.mpr ⟨not_not.mpr formed, stays⟩⟩
      · simp only [Option.bind_some, List.nil_append, ran, List.reverse_reverse,
          List.length_reverse]
        rfl

/-- For every URL, the request is refused where an escape of the path is malformed or stands for a
slash or the NUL, or where the decoded path climbs above the root. Else the decoded path is left in
canonical form, with the pointer behind it, and its names are proper. -/
theorem acceptPath_canonical (url : AbsPath) (behind : List UInt8) :
    let path := pathPart url.text
    let result := acceptPath (url.text ++ 0 :: behind)
    let refused := Encodes path ∨ ¬WellFormed path ∨ Climbs dot ((decoded path).splitOn slash)
    ((∃ refusal, result = some (.error refusal)) ↔ refused) ∧
    (¬refused → ∃ query left, result = some (.ok
      ⟨normal (decoded path) ++ 0 :: left, (normal (decoded path)).length, query⟩)) ∧
    ∀ name ∈ resolve slash dot (decoded path), Proper dot name ∧ slash ∉ name := by
  refine ⟨?_, ?_, resolve_proper⟩
  · rcases acceptPath_ends url behind with ⟨refused, refusal⟩ | ⟨allowed, query, left, accepted⟩
    · exact iff_of_true refusal refused
    · refine iff_of_false ?_ allowed
      rintro ⟨refusal, refused⟩
      cases refused.symm.trans accepted
  · intro allowed
    exact ((acceptPath_ends url behind).resolve_left fun refused => allowed refused.1).2

end Busybox.Httpd.Canonical
