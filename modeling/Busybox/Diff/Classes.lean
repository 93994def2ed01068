import Mathlib.Data.Int.Order.Basic
import Mathlib.Data.List.Count
import Mathlib.Data.List.TakeWhile
import Mathlib.Tactic.Common

/-!
# Classes of lines

`equiv` and `unsort` of `editors/diff.c`: lines of both files, sorted by their hashes, become the
class of each line of the old file and a table with the members of each class in the new one.
-/

namespace Busybox.Diff

/-- `struct line`; the word of the union is the offset of the line before it is its serial. -/
structure Line where
  serial : Int
  value : Nat
deriving Repr, DecidableEq, Inhabited

/-- Hashes are masked with `INT_MAX`, so that their difference is the one of `int`. -/
def line_compar (l0 l1 : Line) : Int :=
  let r : Int := (l0.value : Int) - l1.value
  if r ≠ 0 then r else l0.serial - l1.serial

/-- `qsort` with `line_compar` -/
def qsort (f : List Line) : List Line := f.mergeSort fun l0 l1 => line_compar l0 l1 ≤ 0

/-- The loops over `a`: the values become places in the sorted `b`, where `j` is the next one. -/
def classesFrom : List Line → List Line → Nat → List Line
  | [], _, _ => []
  | a, [], _ => a.map fun l => { l with value := 0 }
  | l :: a, r :: b, j =>
    if l.value < r.value then { l with value := 0 } :: classesFrom a (r :: b) j
    else if l.value = r.value then { l with value := j } :: classesFrom a (r :: b) j
    else classesFrom (l :: a) b (j + 1)
termination_by a b => a.length + b.length
decreasing_by all_goals simp only [List.length_cons]; omega

/-- `b[m + 1].value = 0`, on what is behind the lines. -/
def sentinel : List Line → List Line
  | [] => []
  | l :: behind => { l with value := 0 } :: behind

def sameValue (r l : Line) : Bool := l.value = r.value

/-- The loops over `b`: a class starts with a negative serial. `left` lines are still to come,
and the inner loop may run on behind them. -/
def membersFrom (left : Nat) : List Line → List Int
  | [] => [-1]
  | r :: b =>
    if left = 0 then [-1]
    else -r.serial :: ((b.takeWhile (sameValue r)).map Line.serial ++
      membersFrom (left - 1 - (b.takeWhile (sameValue r)).length) (b.dropWhile (sameValue r)))
termination_by b => b.length
decreasing_by exact Nat.lt_succ_of_le (List.dropWhile_sublist _).length_le

/-- `equiv`; `behind` is what is stored behind the lines of `b`. -/
def equiv (a b behind : List Line) : List Line × List Int :=
  (classesFrom a b 1, membersFrom b.length (b ++ sentinel behind))

/-- `unsort`, whose second loop copies what the first one has stored. -/
def unsort (f : List Line) : List Nat :=
  f.foldl (fun a l => a.set (l.serial.toNat - 1) l.value) (List.replicate f.length 0)

/-- `sfile[j][i].serial = i` -/
def numbered (f : List Line) : List Line := f.mapIdx fun i l => { l with serial := i + 1 }

/-! ## Sorted lines -/

section Sorted

variable {f : List Line} {l : Line}

theorem line_compar_le {l0 l1 : Line} : line_compar l0 l1 ≤ 0 ↔
    l0.value < l1.value ∨ l0.value = l1.value ∧ l0.serial ≤ l1.serial := by
  rw [line_compar]
  split <;> omega

theorem qsort_perm : (qsort f).Perm f := List.mergeSort_perm f _

theorem qsort_sorted : (qsort f).Pairwise fun l0 l1 => line_compar l0 l1 ≤ 0 := by
  have sorted := @List.pairwise_mergeSort _ (fun l0 l1 => decide (line_compar l0 l1 ≤ 0))
    (fun l0 l1 l2 => by simp only [decide_eq_true_eq, line_compar_le]; omega)
    (fun l0 l1 => by simp only [Bool.or_eq_true, decide_eq_true_eq, line_compar_le]; omega) f
  exact sorted.imp of_decide_eq_true

theorem mem_numbered : l ∈ numbered f ↔ ∃ i : Nat, ∃ r : Line, f[i]? = some r ∧
    l = { r with serial := i + 1 } := by
  rw [numbered, List.mem_mapIdx]
  constructor
  · rintro ⟨i, inside, rfl⟩
    exact ⟨i, f[i], List.getElem?_eq_getElem inside, rfl⟩
  · rintro ⟨i, r, found, rfl⟩
    obtain ⟨inside, rfl⟩ := List.getElem?_eq_some_iff.mp found
    exact ⟨i, inside, rfl⟩

theorem numbered_values : (numbered f).map Line.value = f.map Line.value := by
  apply List.ext_getElem?
  intro i
  rw [numbered, List.getElem?_map, List.getElem?_map, List.getElem?_mapIdx, Option.map_map]
  rfl

theorem numbered_ascending : (numbered f).Pairwise fun l0 l1 => l0.serial < l1.serial := by
  rw [numbered, List.pairwise_iff_getElem]
  intro i j first second order
  rw [List.getElem_mapIdx, List.getElem_mapIdx]
  dsimp only
  omega

/-- A change of the values that leaves the serials. -/
theorem numbered_map {g : Nat → Nat} : (numbered f).map (fun l => { l with value := g l.value }) =
    numbered (f.map fun l => { l with value := g l.value }) := by
  apply List.ext_getElem?
  intro i
  simp only [numbered, List.getElem?_map, List.getElem?_mapIdx, Option.map_map]
  rfl

end Sorted

/-! ## The classes of the old file -/

/-- The class of a hash: the place of the first such line of the sorted new file, if it has one. -/
def classOf (G : List Nat) (v : Nat) : Nat := if v ∈ G then G.countP (· < v) + 1 else 0

theorem classOf_perm {G G' : List Nat} (perm : G.Perm G') : classOf G = classOf G' := by
  funext v
  rw [classOf, classOf, perm.countP_eq]
  exact if_congr perm.mem_iff rfl rfl

/-- The class that a loop that is at place `j` gives. -/
def placed (b : List Line) (j v : Nat) : Nat :=
  if v ∈ b.map Line.value then j + (b.map Line.value).countP (· < v) else 0

theorem placed_lower {r : Line} {b : List Line} {j v : Nat} (less : r.value < v) :
    placed (r :: b) j v = placed b (j + 1) v := by
  have other : v ≠ r.value := Nat.ne_of_gt less
  simp only [placed, List.map_cons, List.mem_cons, other, false_or, List.countP_cons, less,
    decide_true, if_true]
  split <;> omega

theorem placed_upper {r : Line} {b : List Line} {j v : Nat} (most : v ≤ r.value)
    (sorted : ∀ l ∈ b, r.value ≤ l.value) :
    placed (r :: b) j v = if v = r.value then j else 0 := by
  have none : ((r :: b).map Line.value).countP (· < v) = 0 := by
    refine List.countP_eq_zero.mpr fun w member => ?_
    obtain ⟨l, known, rfl⟩ := List.mem_map.mp member
    rw [decide_eq_true_eq]
    rcases List.mem_cons.mp known with rfl | known
    · omega
    · have := sorted l known
      omega
  have only : v ∈ (r :: b).map Line.value ↔ v = r.value := by
    rw [List.map_cons, List.mem_cons]
    refine or_iff_left_of_imp fun member => ?_
    obtain ⟨l, known, rfl⟩ := List.mem_map.mp member
    exact Nat.le_antisymm most (sorted l known)
  rw [placed, none]
  exact if_congr only rfl rfl

theorem classesFrom_eq {a b : List Line} {j : Nat} (first : a.Pairwise fun l0 l1 => l0.value ≤ l1.value)
    (second : b.Pairwise fun l0 l1 => l0.value ≤ l1.value) :
    classesFrom a b j = a.map fun l => { l with value := placed b j l.value } := by
  fun_induction classesFrom a b j with
  | case1 => rfl
  | case2 a j => rfl
  | case3 l a r b j less ih =>
    rw [ih first.of_cons second, List.map_cons,
      placed_upper (Nat.le_of_lt less) (List.pairwise_cons.mp second).1, if_neg (Nat.ne_of_lt less)]
  | case4 l a r b j notLess same ih =>
    rw [ih first.of_cons second, List.map_cons,
      placed_upper (Nat.le_of_eq same) (List.pairwise_cons.mp second).1, if_pos same]
  | case5 l a r b j notLess other ih =>
    rw [ih first second.of_cons]
    refine List.map_congr_left fun l' member => ?_
    have : l.value ≤ l'.value := by
      rcases List.mem_cons.mp member with rfl | member
      · exact Nat.le_refl _
      · exact (List.pairwise_cons.mp first).1 l' member
    rw [placed_lower (by omega)]

/-- What the last store into a place leaves there, when all such stores are of one value. -/
theorem stored {f : List Line} {a : List Nat} {i w : Nat} (inside : i < a.length)
    (same : ∀ l ∈ f, l.serial.toNat - 1 = i → l.value = w)
    (holds : (∃ l ∈ f, l.serial.toNat - 1 = i) ∨ a[i]? = some w) :
    (f.foldl (fun a l => a.set (l.serial.toNat - 1) l.value) a)[i]? = some w := by
  induction f generalizing a with
  | nil => exact holds.resolve_left nofun
  | cons l f ih =>
    rw [List.foldl_cons]
    refine ih (by rwa [List.length_set]) (fun l' member => same l' (List.mem_cons_of_mem _ member)) ?_
    by_cases here : l.serial.toNat - 1 = i
    · rw [here, List.getElem?_set_self inside, same l (List.mem_cons_self ..) here]
      exact .inr rfl
    · rw [List.getElem?_set_ne here]
      rcases holds with ⟨l', member, there⟩ | before
      · rcases List.mem_cons.mp member with rfl | member
        · exact absurd there here
        · exact .inl ⟨l', member, there⟩
      · exact .inr before

theorem foldl_set_length {f : List Line} {a : List Nat} :
    (f.foldl (fun a l => a.set (l.serial.toNat - 1) l.value) a).length = a.length := by
  induction f generalizing a with
  | nil => rfl
  | cons l f ih => rw [List.foldl_cons, ih, List.length_set]

/-- `unsort` brings the values back into the order of the file. -/
theorem unsort_numbered {f file : List Line} (perm : f.Perm (numbered file)) :
    unsort f = file.map Line.value := by
  have size : f.length = file.length := by rw [perm.length_eq, numbered, List.length_mapIdx]
  have found : ∀ l ∈ f, file[l.serial.toNat - 1]?.map Line.value = some l.value := by
    intro l member
    obtain ⟨i, r, found, rfl⟩ := mem_numbered.mp (perm.mem_iff.mp member)
    have place : ((i : Int) + 1).toNat - 1 = i := by omega
    dsimp only
    rw [place, found]
    rfl
  apply List.ext_getElem?
  intro i
  by_cases inside : i < file.length
  · have room : i < (List.replicate f.length 0).length := by rwa [List.length_replicate, size]
    rw [List.getElem?_map, List.getElem?_eq_getElem inside, unsort]
    refine stored room (fun l member here => ?_) (.inl ?_)
    · have := found l member
      rw [here, List.getElem?_eq_getElem inside] at this
      exact (Option.some.inj this).symm
    · refine ⟨{ file[i] with serial := i + 1 }, perm.mem_iff.mpr (mem_numbered.mpr
        ⟨i, file[i], List.getElem?_eq_getElem inside, rfl⟩), ?_⟩
      dsimp only
      omega
  · rw [List.getElem?_eq_none, List.getElem?_eq_none]
    · rw [List.length_map]
      omega
    · rw [unsort, foldl_set_length, List.length_replicate]
      omega

theorem qsort_values {f : List Line} : (qsort f).Pairwise fun l0 l1 => l0.value ≤ l1.value := by
  refine qsort_sorted.imp fun order => ?_
  have := line_compar_le.mp order
  omega

theorem placed_qsort {new : List Line} :
    placed (qsort (numbered new)) 1 = classOf (new.map Line.value) := by
  have perm : ((qsort (numbered new)).map Line.value).Perm (new.map Line.value) :=
    (qsort_perm.map Line.value).trans (.of_eq numbered_values)
  rw [← classOf_perm perm]
  funext v
  rw [placed, classOf, Nat.add_comm]

/-- The array `class`. -/
theorem unsort_classes {old new behind : List Line} :
    unsort (equiv (qsort (numbered old)) (qsort (numbered new)) behind).1 =
      (old.map Line.value).map (classOf (new.map Line.value)) := by
  rw [equiv]
  dsimp only
  rw [classesFrom_eq qsort_values qsort_values, placed_qsort]
  have perm := (qsort_perm (f := numbered old)).map fun l =>
    { l with value := classOf (new.map Line.value) l.value }
  rw [numbered_map] at perm
  rw [unsort_numbered perm, List.map_map, List.map_map]
  rfl

/-! ## The table of the new file -/

/-- Sorted lines, cut at a value. -/
theorem cut_at {f : List Line} (sorted : f.Pairwise fun l0 l1 => l0.value ≤ l1.value) (v : Nat) :
    ∃ before same behind, f = before ++ same ++ behind ∧ (∀ l ∈ before, l.value < v) ∧
      (∀ l ∈ same, l.value = v) ∧ ∀ l ∈ behind, v < l.value := by
  induction f with
  | nil => exact ⟨[], [], [], rfl, nofun, nofun, nofun⟩
  | cons l f ih =>
    have ⟨first, rest⟩ := List.pairwise_cons.mp sorted
    obtain ⟨before, same, behind, rfl, low, equal, high⟩ := ih rest
    rcases Nat.lt_trichotomy l.value v with less | here | more
    · exact ⟨l :: before, same, behind, rfl, List.forall_mem_cons.mpr ⟨less, low⟩, equal, high⟩
    · have none : before = [] := List.eq_nil_iff_forall_not_mem.mpr fun l' member => by
        have := first l' (by simp [member])
        have := low l' member
        omega
      subst none
      exact ⟨[], l :: same, behind, rfl, nofun, List.forall_mem_cons.mpr ⟨here, equal⟩, high⟩
    · have none : before ++ same = [] := List.eq_nil_iff_forall_not_mem.mpr fun l' member => by
        have above := first l' (List.mem_append_left _ member)
        rcases List.mem_append.mp member with member | member
        · have := low l' member
          omega
        · have := equal l' member
          omega
      rw [none, List.nil_append] at first ⊢
      exact ⟨[], [], l :: behind, rfl, nofun, nofun, List.forall_mem_cons.mpr ⟨more, high⟩⟩

/-- What is behind does not start with a line that goes on with the run of the front. -/
theorem span_append {p : Line → Bool} (front : List Line) {behind : List Line} (ends : behind.takeWhile p = []) :
    (front ++ behind).takeWhile p = front.takeWhile p ∧
      (front ++ behind).dropWhile p = front.dropWhile p ++ behind := by
  induction front with
  | nil =>
    have whole := List.takeWhile_append_dropWhile (p := p) (l := behind)
    rw [ends, List.nil_append] at whole
    exact ⟨ends, whole⟩
  | cons l front ih =>
    rw [List.cons_append]
    by_cases goes : p l
    · rw [List.takeWhile_cons_of_pos goes, List.takeWhile_cons_of_pos goes,
        List.dropWhile_cons_of_pos goes, List.dropWhile_cons_of_pos goes, ih.1]
      exact ⟨rfl, ih.2⟩
    · rw [List.takeWhile_cons_of_neg goes, List.takeWhile_cons_of_neg goes,
        List.dropWhile_cons_of_neg goes, List.dropWhile_cons_of_neg goes]
      exact ⟨rfl, rfl⟩

/-- The lines behind start another class. -/
def Apart (front behind : List Line) : Prop := ∀ l ∈ front, behind.takeWhile (sameValue l) = []

theorem membersFrom_zero {behind : List Line} : membersFrom 0 behind = [-1] := by
  cases behind with
  | nil => rw [membersFrom]
  | cons l behind => rw [membersFrom, if_pos rfl]

theorem membersFrom_succ {r : Line} {b : List Line} {left : Nat} : membersFrom (left + 1) (r :: b) =
    -r.serial :: ((b.takeWhile (sameValue r)).map Line.serial ++
      membersFrom (left - (b.takeWhile (sameValue r)).length) (b.dropWhile (sameValue r))) := by
  rw [membersFrom, if_neg (Nat.succ_ne_zero left), Nat.add_sub_cancel]

/-- The entries of whole classes are as many as their lines. -/
theorem membersFrom_append {front behind : List Line} (apart : Apart front behind) (left : Nat) :
    ∃ c, c.length = front.length ∧
      membersFrom (front.length + left) (front ++ behind) = c ++ membersFrom left behind := by
  induction size : front.length using Nat.strongRecOn generalizing front with
  | _ n ih =>
  obtain _ | ⟨r, front⟩ := front
  · subst size
    exact ⟨[], rfl, by rw [List.length_nil, Nat.zero_add, List.nil_append, List.nil_append]⟩
  obtain ⟨same, other⟩ := span_append front (apart r (List.mem_cons_self ..))
  have whole := congrArg List.length
    (List.takeWhile_append_dropWhile (p := sameValue r) (l := front))
  rw [List.length_append] at whole
  rw [List.length_cons] at size
  have known : ∀ l ∈ front.dropWhile (sameValue r), l ∈ r :: front := fun l member =>
    List.mem_cons_of_mem _ ((List.dropWhile_sublist _).subset member)
  obtain ⟨c, entries, rest⟩ := ih _ (by omega) (fun l member => apart l (known l member)) rfl
  refine ⟨-r.serial :: ((front.takeWhile (sameValue r)).map Line.serial ++ c), ?_, ?_⟩
  · rw [List.length_cons, List.length_append, List.length_map]
    omega
  · have count : n + left = (front.length + left) + 1 := by omega
    have remain : front.length + left - (front.takeWhile (sameValue r)).length =
        (front.dropWhile (sameValue r)).length + left := by omega
    rw [count, List.cons_append, membersFrom_succ, same, other, remain, rest, List.cons_append,
      List.append_assoc]

/-- The entries of one class. -/
theorem membersFrom_class {r : Line} {same behind : List Line} {v : Nat}
    (equal : ∀ l ∈ r :: same, l.value = v) (apart : Apart [r] behind) (left : Nat) :
    membersFrom (same.length + 1 + left) (r :: same ++ behind) =
      -r.serial :: (same.map Line.serial ++ membersFrom left behind) := by
  obtain ⟨run, rest⟩ := span_append same (apart r (List.mem_cons_self ..))
  have goes : ∀ l ∈ same, sameValue r l := fun l member => decide_eq_true
    ((equal l (List.mem_cons_of_mem _ member)).trans (equal r (List.mem_cons_self ..)).symm)
  have all : same.takeWhile (sameValue r) = same := List.takeWhile_eq_self_iff.mpr goes
  have none : same.dropWhile (sameValue r) = [] := List.dropWhile_eq_nil_iff.mpr goes
  have count : same.length + 1 + left = (same.length + left) + 1 := by omega
  rw [count, List.cons_append, membersFrom_succ, run, rest, all, none, List.nil_append,
    Nat.add_sub_cancel_left]

/-- The entry behind a class ends it. -/
theorem membersFrom_head {left : Nat} {behind : List Line}
    (positive : 0 < left → ∀ l ∈ behind.head?, 0 ≤ l.serial) :
    ∃ e more, membersFrom left behind = e :: more ∧ e ≤ 0 := by
  obtain _ | left := left
  · exact ⟨-1, [], membersFrom_zero, by decide⟩
  obtain _ | ⟨l, behind⟩ := behind
  · exact ⟨-1, [], by rw [membersFrom], by decide⟩
  · have := positive (Nat.succ_pos left) l rfl
    exact ⟨_, _, membersFrom_succ, by omega⟩

end Busybox.Diff
