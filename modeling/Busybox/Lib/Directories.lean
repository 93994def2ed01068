import Mathlib.Data.List.Basic
import Mathlib.Data.List.Infix
import Mathlib.Tactic.Common

/-!
# Components of a path

A path is a list of items in which a separator stands between components. `Cut` takes
whole leading components away, and a component is what stands in front of the rest of
a cut path.
-/

namespace Busybox.Components

variable {α : Type*} {sep : α} {path middle tail name : List α}

/-- Whole leading components of the path, with the separator behind them, are cut. -/
def Cut (sep : α) (path tail : List α) : Prop :=
  ∃ front, path = front ++ tail ∧ (front = [] ∨ front.getLast? = some sep)

/-- The name is one of the path's components. -/
def Component (sep : α) (name path : List α) : Prop :=
  ∃ back, Cut sep path (name ++ back) ∧ (back = [] ∨ back.head? = some sep)

theorem Cut.refl (path : List α) : Cut sep path path := ⟨[], rfl, .inl rfl⟩

theorem Cut.of_front (front tail : List α) : Cut sep (front ++ sep :: tail) tail :=
  ⟨front ++ [sep], by simp, .inr (by simp)⟩

theorem Cut.suffix (cut : Cut sep path tail) : tail <:+ path := by
  obtain ⟨front, rfl, _⟩ := cut
  exact List.suffix_append front tail

theorem Cut.trans (first : Cut sep path middle) (second : Cut sep middle tail) :
    Cut sep path tail := by
  obtain ⟨front, rfl, front_last⟩ := first
  obtain ⟨back, rfl, back_last⟩ := second
  refine ⟨front ++ back, (List.append_assoc ..).symm, ?_⟩
  rcases back_last with rfl | back_last
  · simpa using front_last
  · exact .inr (by simp [List.getLast?_append, back_last])

theorem Cut.last_component (cut : Cut sep path name) : Component sep name path :=
  ⟨[], by rwa [List.append_nil], .inl rfl⟩

/-- The last component survives every cut. -/
theorem Cut.last_iff (cut : Cut sep path tail) (whole : sep ∉ name) :
    Cut sep path name ↔ Cut sep tail name := by
  constructor
  · rintro ⟨front, split, last⟩
    obtain ⟨lead, rfl, lead_last⟩ := cut
    rcases List.append_eq_append_iff.mp split with ⟨more, rfl, rfl⟩ | ⟨more, rfl, rfl⟩
    · -- the cut ends before the name begins
      refine ⟨more, rfl, ?_⟩
      rcases List.eq_nil_or_concat more with rfl | ⟨init, item, rfl⟩
      · exact .inl rfl
      · exact .inr (by simpa using last)
    · -- the cut goes into the name, and takes all of it that has a separator
      rcases List.eq_nil_or_concat more with rfl | ⟨init, item, rfl⟩
      · exact ⟨[], by simp, .inl rfl⟩
      · obtain rfl : item = sep := by simpa using lead_last
        exact absurd (by simp) whole
  · exact cut.trans

/-- A component is the first one, and then the whole of the rest or followed by a
separator, or it stands behind a separator. -/
theorem Component.cases (component : Component sep name path) :
    path = name ∨ name ++ [sep] <+: path ∨
      (∃ front, path = front ++ sep :: name) ∨ sep :: name ++ [sep] <:+: path := by
  obtain ⟨back, ⟨front, rfl, last⟩, ends⟩ := component
  have close : back = [] ∨ ∃ rest, back = sep :: rest := by
    cases back with
    | nil => exact .inl rfl
    | cons item rest =>
      obtain rfl : item = sep := by simpa using ends
      exact .inr ⟨rest, rfl⟩
  rcases List.eq_nil_or_concat front with rfl | ⟨init, item, rfl⟩
  · rcases close with rfl | ⟨rest, rfl⟩
    · exact .inl (by simp)
    · exact .inr (.inl ⟨rest, by simp⟩)
  · obtain rfl : item = sep := by simpa using last
    rcases close with rfl | ⟨rest, rfl⟩
    · exact .inr (.inr (.inl ⟨init, by simp⟩))
    · exact .inr (.inr (.inr ⟨init, rest, by simp⟩))

end Busybox.Components

/-!
## Directories

An absolute path leads from the root to a directory, one name after the other. An empty name
and one dot stay where they are, and two dots lead to the parent, which the root is for itself.
-/

namespace Busybox.Directories

variable {α : Type*} [DecidableEq α] {sep dot : α} {names dirs : List (List α)} {name path : List α}

/-- Where a name leads. -/
def enter (dot : α) (dirs : List (List α)) (name : List α) : List (List α) :=
  if name = [] ∨ name = [dot] then dirs
  else if name = [dot, dot] then dirs.dropLast
  else dirs ++ [name]

/-- Where a path leads. -/
def resolve (sep dot : α) (path : List α) : List (List α) :=
  (path.splitOn sep).foldl (enter dot) []

/-- The path that leads to a directory with no detour. -/
def absolute (sep : α) (dirs : List (List α)) : List α := sep :: List.intercalate [sep] dirs

/-- A name that leads from a directory to one of its own. -/
structure Proper (dot : α) (name : List α) : Prop where
  nonempty : name ≠ []
  notDot : name ≠ [dot]
  notDots : name ≠ [dot, dot]

omit [DecidableEq α] in
theorem proper_iff : Proper dot name ↔ name ≠ [] ∧ name ≠ [dot] ∧ name ≠ [dot, dot] :=
  ⟨fun proper => ⟨proper.nonempty, proper.notDot, proper.notDots⟩,
    fun ⟨nonempty, notDot, notDots⟩ => ⟨nonempty, notDot, notDots⟩⟩

instance : Decidable (Proper dot name) := decidable_of_iff _ proper_iff.symm

theorem enter_proper (proper : Proper dot name) : enter dot dirs name = dirs ++ [name] := by
  rw [enter, if_neg (not_or.mpr ⟨proper.nonempty, proper.notDot⟩), if_neg proper.notDots]

/-- Every name on the way to a directory is proper, whatever was entered. -/
theorem foldl_enter_forall {holds : List α → Prop} (clean : ∀ name ∈ names, holds name)
    (start : ∀ name ∈ dirs, Proper dot name ∧ holds name) :
    ∀ name ∈ names.foldl (enter dot) dirs, Proper dot name ∧ holds name := by
  induction names generalizing dirs with
  | nil => exact start
  | cons first rest ih =>
    obtain ⟨here, later⟩ := List.forall_mem_cons.mp clean
    apply ih later
    unfold enter
    split
    case isTrue => exact start
    case isFalse other =>
      obtain ⟨nonempty, notDot⟩ := not_or.mp other
      split
      case isTrue => exact fun name mem => start name (List.dropLast_sublist dirs |>.subset mem)
      case isFalse notDots =>
        intro name mem
        rcases List.mem_append.mp mem with old | new
        · exact start name old
        · obtain rfl := List.mem_singleton.mp new
          exact ⟨⟨nonempty, notDot, notDots⟩, here⟩

theorem foldl_enter_proper (proper : ∀ name ∈ names, Proper dot name) :
    names.foldl (enter dot) dirs = dirs ++ names := by
  induction names generalizing dirs with
  | nil => exact (List.append_nil dirs).symm
  | cons first rest ih =>
    obtain ⟨here, later⟩ := List.forall_mem_cons.mp proper
    rw [List.foldl_cons, enter_proper here, ih later, List.append_assoc, List.singleton_append]

/-- The pieces between separators are made of the other items of the path. -/
theorem splitOn_items : ∀ name ∈ path.splitOn sep, ∀ item ∈ name, item ≠ sep ∧ item ∈ path := by
  induction path with
  | nil => simp
  | cons first rest ih =>
    have further : ∀ name ∈ rest.splitOn sep, ∀ item ∈ name, item ≠ sep ∧ item ∈ first :: rest :=
      fun name mem item inName =>
        ⟨(ih name mem item inName).1, List.mem_cons_of_mem _ (ih name mem item inName).2⟩
    rw [List.splitOn_cons_eq_if_modifyHead]
    split
    case isTrue => exact List.forall_mem_cons.mpr ⟨nofun, further⟩
    case isFalse other =>
      obtain ⟨head, more, pieces⟩ := List.exists_cons_of_ne_nil (List.splitOn_ne_nil sep rest)
      rw [pieces] at further ⊢
      obtain ⟨here, later⟩ := List.forall_mem_cons.mp further
      refine List.forall_mem_cons.mpr ⟨List.forall_mem_cons.mpr ⟨⟨?_, List.mem_cons_self⟩, here⟩,
        later⟩
      rintro rfl
      exact other BEq.rfl

theorem not_mem_splitOn : ∀ name ∈ path.splitOn sep, sep ∉ name := fun name mem inName =>
  (splitOn_items name mem sep inName).1 rfl

theorem resolve_proper : ∀ name ∈ resolve sep dot path, Proper dot name ∧ sep ∉ name :=
  foldl_enter_forall not_mem_splitOn fun _ mem => absurd mem List.not_mem_nil

omit [DecidableEq α] in
theorem mem_intercalate {item : α} (mem : item ∈ List.intercalate [sep] names) :
    item = sep ∨ ∃ name ∈ names, item ∈ name := by
  induction names with
  | nil => cases mem
  | cons name rest ih =>
    cases rest with
    | nil => exact .inr ⟨name, List.mem_cons_self, by rwa [List.intercalate_singleton] at mem⟩
    | cons next rest =>
      rw [List.intercalate_cons_cons, List.append_assoc] at mem
      rcases List.mem_append.mp mem with here | mem
      · exact .inr ⟨name, List.mem_cons_self, here⟩
      · rcases List.mem_cons.mp mem with isSep | later
        · exact .inl isSep
        · refine (ih later).imp_right fun ⟨other, isOther, inOther⟩ => ?_
          exact ⟨other, List.mem_cons_of_mem _ isOther, inOther⟩

/-- The path with no detour is made of the items of the path. -/
theorem mem_absolute {item : α} (mem : item ∈ absolute sep (resolve sep dot path)) :
    item = sep ∨ item ∈ path := by
  have names : ∀ name ∈ resolve sep dot path, Proper dot name ∧ ∀ item ∈ name, item ∈ path :=
    foldl_enter_forall (fun name mem item inName => (splitOn_items name mem item inName).2)
      fun _ mem => absurd mem List.not_mem_nil
  rcases List.mem_cons.mp mem with isSep | inside
  · exact .inl isSep
  · exact (mem_intercalate inside).imp_right fun ⟨name, isName, inName⟩ =>
      (names name isName).2 item inName

/-- The separator in front of a path is at the root. -/
theorem resolve_sep (path : List α) :
    resolve sep dot (sep :: path) = (path.splitOn sep).foldl (enter dot) [] := by
  rw [resolve, List.splitOn_cons_eq_if_modifyHead, if_pos BEq.rfl, List.foldl_cons, enter,
    if_pos (.inl rfl)]

/-- A path with no detour leads to the directory it names. -/
theorem resolve_absolute (proper : ∀ name ∈ dirs, Proper dot name ∧ sep ∉ name) :
    resolve sep dot (absolute sep dirs) = dirs := by
  rw [absolute, resolve_sep]
  by_cases root : dirs = []
  · subst root
    rw [List.intercalate_nil, List.splitOn_nil, List.foldl_cons, enter, if_pos (.inl rfl)]
    rfl
  · rw [List.splitOn_intercalate sep (fun name mem => (proper name mem).2) root,
      foldl_enter_proper fun name mem => (proper name mem).1, List.nil_append]

/-! ## The last name -/

omit [DecidableEq α] in
/-- A path ends in its last name, with a separator in front of it. -/
theorem getLast_suffix (nonempty : names ≠ []) :
    sep :: names.getLast nonempty <:+ sep :: List.intercalate [sep] names := by
  induction names with
  | nil => exact absurd rfl nonempty
  | cons name rest ih =>
    cases rest with
    | nil => simp
    | cons next rest =>
      rw [List.getLast_cons (by simp), List.intercalate_cons_cons, List.append_assoc,
        List.singleton_append]
      exact (ih (by simp)).trans (List.suffix_append (sep :: name) _)

omit [DecidableEq α] in
/-- One name only is behind the last separator. -/
theorem suffix_unique {last last' : List α} (ends : sep :: last <:+ path)
    (ends' : sep :: last' <:+ path) (clean : sep ∉ last) (clean' : sep ∉ last') : last = last' := by
  have inside {long short : List α} (suffix : sep :: short <:+ sep :: long) (clean : sep ∉ long) :
      long = short := by
    rcases List.suffix_cons_iff.mp suffix with same | deeper
    · exact (List.cons.inj same).2.symm
    · exact absurd (deeper.subset List.mem_cons_self) clean
  rcases List.suffix_or_suffix_of_suffix ends ends' with short | short
  · exact (inside short clean').symm
  · exact inside short clean

/-- The path ends in a separator, in one dot or in two. -/
def EndsInDirectory (sep dot : α) (path : List α) : Prop :=
  [sep] <:+ path ∨ [sep, dot] <:+ path ∨ [sep, dot, dot] <:+ path

instance : Decidable (EndsInDirectory sep dot path) :=
  inferInstanceAs (Decidable ([sep] <:+ path ∨ [sep, dot] <:+ path ∨ [sep, dot, dot] <:+ path))

/-- A path ends in a directory where its last name is not proper. -/
theorem endsInDirectory_iff (other : dot ≠ sep) (path : List α) :
    EndsInDirectory sep dot (sep :: path) ↔
      ¬Proper dot ((path.splitOn sep).getLast (List.splitOn_ne_nil sep path)) := by
  have ends := @getLast_suffix _ sep _ (List.splitOn_ne_nil sep path)
  rw [List.intercalate_splitOn] at ends
  have clean : sep ∉ (path.splitOn sep).getLast (List.splitOn_ne_nil sep path) :=
    not_mem_splitOn _ (List.getLast_mem _)
  generalize (path.splitOn sep).getLast (List.splitOn_ne_nil sep path) = last at ends clean ⊢
  have named {name : List α} (noSep : sep ∉ name) :
      sep :: name <:+ sep :: path ↔ last = name := by
    constructor
    · exact fun suffix => suffix_unique ends suffix clean noSep
    · rintro rfl
      exact ends
  rw [EndsInDirectory, named (by simp), named (by simpa using Ne.symm other),
    named (by simpa using Ne.symm other), proper_iff]
  tauto

/-! ## A root that is not left -/

/-- Where a name leads when the root has no parent. -/
def descend (dot : α) (dirs : List (List α)) (name : List α) : Option (List (List α)) :=
  if name = [dot, dot] ∧ dirs = [] then none else some (enter dot dirs name)

theorem descend_eq {dirs' : List (List α)} (descends : descend dot dirs name = some dirs') :
    dirs' = enter dot dirs name := by
  unfold descend at descends
  split at descends
  · cases descends
  · exact (Option.some.inj descends).symm

/-- How many of the names lead down, and how many lead up. -/
def downs (dot : α) (names : List (List α)) : Nat := names.countP fun name => Proper dot name
def ups (dot : α) (names : List (List α)) : Nat := names.count [dot, dot]

/-- Somewhere on the way the names have led further up than down. -/
def Climbs (dot : α) (names : List (List α)) : Prop :=
  ∃ front, front <+: names ∧ downs dot front < ups dot front

theorem enter_length (below : name = [dot, dot] → dirs ≠ []) :
    (enter dot dirs name).length + ups dot [name] = dirs.length + downs dot [name] := by
  unfold enter ups downs
  by_cases stays : name = [] ∨ name = [dot]
  · rcases stays with rfl | rfl <;> simp [proper_iff]
  · obtain ⟨nonempty, notDot⟩ := not_or.mp stays
    rw [if_neg stays]
    by_cases isDots : name = [dot, dot]
    · have deep := List.length_pos_iff.mpr (below isDots)
      rw [if_pos isDots, isDots]
      simp [proper_iff]
      omega
    · rw [if_neg isDots, List.length_append]
      simp [proper_iff, nonempty, notDot, isDots]

theorem downs_cons (first : List α) (rest : List (List α)) :
    downs dot (first :: rest) = downs dot [first] + downs dot rest := by
  rw [← List.singleton_append, downs, List.countP_append]
  rfl

theorem ups_cons (first : List α) (rest : List (List α)) :
    ups dot (first :: rest) = ups dot [first] + ups dot rest := by
  rw [← List.singleton_append, ups, List.count_append]
  rfl

/-- The way fails where it has led further up than down, and without that it leads where it leads
from a root that is its own parent. -/
theorem foldlM_descend (names dirs : List (List α)) :
    (names.foldlM (descend dot) dirs = none ∧
      ∃ front, front <+: names ∧ dirs.length + downs dot front < ups dot front) ∨
    (names.foldlM (descend dot) dirs = some (names.foldl (enter dot) dirs) ∧
      ∀ front, front <+: names → ups dot front ≤ dirs.length + downs dot front) := by
  induction names generalizing dirs with
  | nil =>
    refine .inr ⟨rfl, ?_⟩
    intro front isPrefix
    rw [List.prefix_nil.mp isPrefix]
    exact Nat.zero_le _
  | cons first rest ih =>
    rw [List.foldlM_cons]
    by_cases leaves : first = [dot, dot] ∧ dirs = []
    · refine .inl ⟨by rw [descend, if_pos leaves]; rfl, [first], by simp, ?_⟩
      obtain ⟨rfl, rfl⟩ := leaves
      simp [downs, ups, proper_iff]
    · have stepped : descend dot dirs first = some (enter dot dirs first) := if_neg leaves
      have counted := enter_length fun isDots atRoot => leaves ⟨isDots, atRoot⟩
      rw [stepped, Option.bind_eq_bind, Option.bind_some, List.foldl_cons]
      refine (ih (enter dot dirs first)).imp (And.imp_right ?_) (And.imp_right ?_)
      · rintro ⟨front, isPrefix, higher⟩
        refine ⟨first :: front, List.cons_prefix_cons.mpr ⟨rfl, isPrefix⟩, ?_⟩
        rw [downs_cons, ups_cons]
        omega
      · intro below front isPrefix
        rcases List.prefix_cons_iff.mp isPrefix with rfl | ⟨more, rfl, later⟩
        · exact Nat.zero_le _
        · have here := below more later
          rw [downs_cons, ups_cons]
          omega

theorem foldlM_descend_none {names : List (List α)} :
    names.foldlM (descend dot) [] = none ↔ Climbs dot names := by
  rcases @foldlM_descend _ _ dot names [] with ⟨fails, front, isPrefix, higher⟩ | ⟨leads, below⟩
  · exact iff_of_true fails ⟨front, isPrefix, by simpa using higher⟩
  · refine iff_of_false (by simp [leads]) ?_
    rintro ⟨front, isPrefix, higher⟩
    have least := below front isPrefix
    rw [List.length_nil] at least
    omega

theorem foldlM_descend_some {names : List (List α)} (stays : ¬Climbs dot names) :
    names.foldlM (descend dot) [] = some (names.foldl (enter dot) []) :=
  ((foldlM_descend names []).resolve_left fun ⟨fails, _⟩ =>
    stays (foldlM_descend_none.mp fails)).1

end Busybox.Directories
