import Mathlib.Data.List.Basic
import Mathlib.Data.List.Pairwise

/-!
# Occurrences in a text

A finder returns a match in the text behind a position. Searching again behind each match, one
further behind an empty one, gives the occurrences from left to right; no two of them overlap.
An empty one that touches the end of the one before it is adjacent.
-/

namespace Busybox.Occurrences

variable {α Groups : Type*}

/-- Where a match starts and ends, and what else is known of it. -/
structure Match (Groups : Type*) where
  start : Nat
  stop : Nat
  groups : Groups

/-- A match lies in the text that is searched. `inside` tells that something is in front of it. -/
structure Finder (α Groups : Type*) where
  find : (text : List α) → (inside : Bool) → Option (Match Groups)
  bounded : ∀ {text inside found}, find text inside = some found →
    found.start ≤ found.stop ∧ found.stop ≤ text.length

/-- A match in the text from a position on, and where the one before it ended. -/
structure Occurrence (Groups : Type*) where
  position : Nat
  found : Match Groups
  previous : Option Nat

namespace Occurrence

variable (occurrence : Occurrence Groups)

def start : Nat := occurrence.position + occurrence.found.start

def stop : Nat := occurrence.position + occurrence.found.stop

def Empty : Prop := occurrence.found.start = occurrence.found.stop

instance : Decidable occurrence.Empty := Nat.decEq _ _

/-- Where the search goes on. -/
def next : Nat := if occurrence.Empty then occurrence.stop + 1 else occurrence.stop

variable {occurrence} in
theorem next_of_empty (empty : occurrence.Empty) : occurrence.next = occurrence.stop + 1 :=
  if_pos empty

variable {occurrence} in
theorem next_of_nonempty (nonempty : ¬occurrence.Empty) : occurrence.next = occurrence.stop :=
  if_neg nonempty

theorem stop_le_next : occurrence.stop ≤ occurrence.next := by
  unfold next
  split
  · exact Nat.le_succ _
  · exact Nat.le_refl _

variable {occurrence} in
theorem start_lt_next (ordered : occurrence.start ≤ occurrence.stop) :
    occurrence.start < occurrence.next := by
  by_cases empty : occurrence.Empty
  · rw [next_of_empty empty]
    exact Nat.lt_succ_of_le ordered
  · rw [next_of_nonempty empty]
    exact Nat.lt_of_le_of_ne ordered fun same => empty (Nat.add_left_cancel same)

def Adjacent : Prop := occurrence.Empty ∧ occurrence.previous = some occurrence.start

instance : Decidable occurrence.Adjacent := (inferInstance : Decidable (_ ∧ _))

end Occurrence

variable (finder : Finder α Groups) (text : List α)

theorem position_lt_next {position : Nat} {found : Match Groups} {inside : Bool}
    (previous : Option Nat) (isFound : finder.find (text.drop position) inside = some found) :
    position < (Occurrence.mk position found previous).next := by
  have ordered := (finder.bounded isFound).1
  by_cases empty : (Occurrence.mk position found previous).Empty
  · rw [Occurrence.next_of_empty empty]
    exact Nat.lt_succ_of_le (Nat.le_add_right _ _)
  · rw [Occurrence.next_of_nonempty empty]
    have positive : 0 < found.stop :=
      Nat.lt_of_le_of_lt (Nat.zero_le _) (Nat.lt_of_le_of_ne ordered empty)
    exact Nat.lt_add_of_pos_right positive

/-- The occurrences from a position on, adjacent ones among them. -/
def occurrencesFrom (position : Nat) (previous : Option Nat) : List (Occurrence Groups) :=
  if position ≤ text.length then
    match _isFound : finder.find (text.drop position) (position ≠ 0) with
    | none => []
    | some found =>
      ⟨position, found, previous⟩ ::
        occurrencesFrom (Occurrence.mk position found previous).next
          (some (Occurrence.mk position found previous).stop)
  else []
termination_by text.length + 1 - position
decreasing_by
  have further := position_lt_next finder text previous _isFound
  omega

def occurrences : List (Occurrence Groups) := occurrencesFrom finder text 0 none

/-- The occurrences, without those adjacent to the one before. -/
def apart : List (Occurrence Groups) :=
  (occurrences finder text).filter fun occurrence => ¬occurrence.Adjacent

variable {finder text}

theorem occurrencesFrom_none {position : Nat} {previous : Option Nat}
    (notFound : finder.find (text.drop position) (position ≠ 0) = none) :
    occurrencesFrom finder text position previous = [] := by
  rw [occurrencesFrom]
  split
  · split
    · rfl
    case h_2 isFound =>
      rw [notFound] at isFound
      cases isFound
  · rfl

theorem occurrencesFrom_some {position : Nat} {previous : Option Nat} {found : Match Groups}
    (inText : position ≤ text.length)
    (isFound : finder.find (text.drop position) (position ≠ 0) = some found) :
    occurrencesFrom finder text position previous =
      ⟨position, found, previous⟩ ::
        occurrencesFrom finder text (Occurrence.mk position found previous).next
          (some (Occurrence.mk position found previous).stop) := by
  rw [occurrencesFrom, if_pos inText]
  split
  case h_1 notFound =>
    rw [notFound] at isFound
    cases isFound
  case h_2 found' isFound' =>
    rw [isFound] at isFound'
    cases isFound'
    rfl

theorem occurrencesFrom_behind {position : Nat} {previous : Option Nat}
    (behind : text.length < position) : occurrencesFrom finder text position previous = [] := by
  rw [occurrencesFrom, if_neg (by omega)]

/-- One after another: the next one starts behind an empty one, or where another one ends. -/
def Occurrence.Before (first second : Occurrence Groups) : Prop := first.next ≤ second.start

theorem occurrencesFrom_bounds (position : Nat) (previous : Option Nat) :
    ∀ occurrence ∈ occurrencesFrom finder text position previous,
      position ≤ occurrence.start ∧ occurrence.start ≤ occurrence.stop ∧
        occurrence.stop ≤ text.length := by
  induction position, previous using occurrencesFrom.induct finder text with
  | case1 position previous inText notFound =>
    rw [occurrencesFrom_none notFound]
    nofun
  | case2 position previous inText found isFound ih =>
    rw [occurrencesFrom_some inText isFound]
    rintro occurrence (- | ⟨-, later⟩)
    · obtain ⟨ordered, inside⟩ := finder.bounded isFound
      rw [List.length_drop] at inside
      refine ⟨Nat.le_add_right _ _, Nat.add_le_add_left ordered _, ?_⟩
      have inRest := Nat.add_le_add_left inside position
      rwa [Nat.add_sub_cancel' inText] at inRest
    · obtain ⟨further, rest⟩ := ih occurrence later
      exact ⟨Nat.le_trans (Nat.le_of_lt (position_lt_next finder text previous isFound)) further,
        rest⟩
  | case3 position previous behind =>
    rw [occurrencesFrom_behind (Nat.lt_of_not_le behind)]
    nofun

theorem occurrencesFrom_pairwise (position : Nat) (previous : Option Nat) :
    (occurrencesFrom finder text position previous).Pairwise Occurrence.Before := by
  induction position, previous using occurrencesFrom.induct finder text with
  | case1 position previous inText notFound =>
    rw [occurrencesFrom_none notFound]
    exact .nil
  | case2 position previous inText found isFound ih =>
    rw [occurrencesFrom_some inText isFound]
    refine .cons (fun occurrence later => ?_) ih
    exact (occurrencesFrom_bounds _ _ occurrence later).1
  | case3 position previous behind =>
    rw [occurrencesFrom_behind (Nat.lt_of_not_le behind)]
    exact .nil

/-! ## Rewriting -/

section Rewriting

variable (replacement : Occurrence Groups → List α) (text : List α)

/-- The text from a position on, with some occurrences replaced. -/
def rewriteFrom (position : Nat) : List (Occurrence Groups) → List α
  | [] => text.drop position
  | occurrence :: rest =>
    (text.drop position).take (occurrence.start - position) ++ replacement occurrence ++
      rewriteFrom occurrence.stop rest

variable {replacement text}

/-- Text in front of the first occurrence is kept. -/
theorem rewriteFrom_keep {position later : Nat} {occurrences : List (Occurrence Groups)}
    (forward : position ≤ later) (before : ∀ occurrence ∈ occurrences, later ≤ occurrence.start) :
    (text.drop position).take (later - position) ++
        rewriteFrom replacement text later occurrences =
      rewriteFrom replacement text position occurrences := by
  have behind : text.drop later = (text.drop position).drop (later - position) := by
    rw [List.drop_drop, Nat.add_sub_cancel' forward]
  cases occurrences with
  | nil => rw [rewriteFrom, rewriteFrom, behind, List.take_append_drop]
  | cons occurrence rest =>
    have first := before occurrence List.mem_cons_self
    have whole : occurrence.start - position =
        (later - position) + (occurrence.start - later) := by omega
    rw [rewriteFrom, rewriteFrom, behind, whole, List.take_add]
    simp only [List.append_assoc]

/-- One occurrence is replaced and everything else is kept. -/
theorem rewriteFrom_single (occurrence : Occurrence Groups) :
    rewriteFrom replacement text 0 [occurrence] =
      text.take occurrence.start ++ replacement occurrence ++ text.drop occurrence.stop := rfl

end Rewriting

/-! ## The occurrences that are left -/

/-- If the first ones are kept they keep their numbers. -/
theorem getElem?_filter_of_take {p : α → Bool} {items : List α} {n : Nat}
    (kept : ∀ item ∈ items.take (n + 1), p item = true) : (items.filter p)[n]? = items[n]? := by
  induction items generalizing n with
  | nil => rfl
  | cons item items ih =>
    have first : p item = true := kept item (by simp)
    rw [List.filter_cons_of_pos first]
    cases n with
    | zero => rfl
    | succ n =>
      rw [List.getElem?_cons_succ, List.getElem?_cons_succ]
      exact ih fun later mem => kept later (List.mem_cons_of_mem _ mem)

/-- An item that is left comes from no earlier, and from later if one in front of it is dropped. -/
theorem exists_of_getElem?_filter {p : α → Bool} {items : List α} {n : Nat} {item : α}
    (isItem : (items.filter p)[n]? = some item) :
    ∃ m, n ≤ m ∧ items[m]? = some item ∧
      ((∃ dropped ∈ items.take (n + 1), p dropped = false) → n < m) := by
  induction items generalizing n with
  | nil => cases isItem
  | cons first items ih =>
    by_cases keep : p first = true
    · rw [List.filter_cons_of_pos keep] at isItem
      cases n with
      | zero =>
        refine ⟨0, Nat.le_refl _, isItem, ?_⟩
        rintro ⟨dropped, mem, isDropped⟩
        rw [List.take_succ_cons, List.take_zero, List.mem_singleton] at mem
        rw [mem, keep] at isDropped
        cases isDropped
      | succ n =>
        obtain ⟨m, later, atM, strict⟩ := ih isItem
        refine ⟨m + 1, Nat.succ_le_succ later, atM, ?_⟩
        rintro ⟨dropped, mem, isDropped⟩
        rw [List.take_succ_cons] at mem
        rcases List.mem_cons.mp mem with rfl | mem
        · rw [keep] at isDropped
          cases isDropped
        · exact Nat.succ_lt_succ (strict ⟨dropped, mem, isDropped⟩)
    · rw [List.filter_cons_of_neg keep] at isItem
      obtain ⟨m, later, atM, -⟩ := ih isItem
      exact ⟨m + 1, Nat.le_succ_of_le later, atM, fun _ => Nat.lt_succ_of_le later⟩

end Busybox.Occurrences
