import Busybox.Diff.Classes
import Busybox.Diff.Runs

/-!
# The table that `stone` is given

The members of each class are the lines of the new file with its hash, in order, unless all lines
have the hash 0, which is what marks the end.
-/

namespace Busybox.Diff

/-- What is left of the table when it is reallocated to `m + 2` words, the first of them `c[0]`;
`beyond` is what is stored behind them. -/
def reallocated (m : Nat) (c beyond : List Int) : List Int := c.take (m + 1) ++ beyond

/-- The table, whatever is stored behind the lines and behind the words. -/
def tableOf (new behind : List Line) (beyond : List Int) : List Int :=
  reallocated new.length (membersFrom new.length (qsort (numbered new) ++ sentinel behind)) beyond

/-- The classes of lines, by the hashes of the new file. -/
def classesOf (lines new : List Line) : List Nat :=
  (lines.map Line.value).map (classOf (new.map Line.value))

section Tables

variable {new behind : List Line} {beyond : List Int} {v : Nat}

theorem reached_all {y e : Int} {ys more : List Int} (positive : ∀ y' ∈ ys, 0 < y') (ends : e ≤ 0) :
    reached y (ys ++ e :: more) = y :: ys := by
  rw [reached, List.takeWhile_append_of_pos fun y' member => decide_eq_true (positive y' member),
    List.takeWhile_cons_of_neg, List.append_nil]
  exact fun more => absurd (of_decide_eq_true more) (not_lt.mpr ends)

theorem numbered_positive {l : Line} (member : l ∈ numbered new) : 0 < l.serial := by
  obtain ⟨i, r, -, rfl⟩ := mem_numbered.mp member
  exact Int.natCast_succ_pos i

/-- Equal lines are sorted by their serials. -/
theorem same_ascending {before same after : List Line}
    (sorted : qsort (numbered new) = before ++ same ++ after) (equal : ∀ l ∈ same, l.value = v) :
    same.Pairwise fun l0 l1 => l0.serial < l1.serial := by
  have whole := qsort_sorted (f := numbered new)
  have distinct : (qsort (numbered new)).Pairwise fun l0 l1 => l0.serial ≠ l1.serial :=
    qsort_perm.symm.pairwise (numbered_ascending.imp fun order => order.ne)
      fun other => other.symm
  rw [sorted] at whole distinct
  have part : same.Sublist (before ++ same ++ after) :=
    (List.sublist_append_right before same).trans (List.sublist_append_left _ after)
  refine ((whole.sublist part).and (distinct.sublist part)).imp_of_mem fun first second both => ?_
  have := line_compar_le.mp both.1
  have := equal _ first
  have := equal _ second
  omega

/-- The lines of one class in the sorted file, with those of the lower classes in front. -/
theorem class_of_file (known : v ∈ new.map Line.value) :
    ∃ before r rest after, qsort (numbered new) = before ++ (r :: rest ++ after) ∧
      classOf (new.map Line.value) v = before.length + 1 ∧ (∀ l ∈ before, l.value < v) ∧
      (∀ l ∈ r :: rest, l.value = v) ∧ ∀ l ∈ after, v < l.value := by
  obtain ⟨before, same, after, sorted, low, equal, high⟩ :=
    cut_at (qsort_values (f := numbered new)) v
  have values : ((qsort (numbered new)).map Line.value).Perm (new.map Line.value) :=
    (qsort_perm.map Line.value).trans (.of_eq numbered_values)
  have there : v ∈ same.map Line.value := by
    have inside := values.mem_iff.mpr known
    rw [sorted, List.mem_map] at inside
    obtain ⟨l, member, here⟩ := inside
    rcases List.mem_append.mp member with member | member
    · rcases List.mem_append.mp member with member | member
      · exact absurd here (low l member).ne
      · exact List.mem_map.mpr ⟨l, member, here⟩
    · exact absurd here (high l member).ne'
  have count : (new.map Line.value).countP (· < v) = before.length := by
    have none : (same ++ after).countP (fun l => l.value < v) = 0 := by
      refine List.countP_eq_zero.mpr fun l member => ?_
      rw [decide_eq_true_eq]
      rcases List.mem_append.mp member with member | member
      · exact (equal l member).not_lt
      · exact (high l member).not_gt
    have all : before.countP (fun l => l.value < v) = before.length :=
      List.countP_eq_length.mpr fun l member => decide_eq_true (low l member)
    rw [← values.countP_eq, List.countP_map, sorted, List.append_assoc, List.countP_append]
    exact congrArg₂ (· + ·) all none
  obtain _ | ⟨r, rest⟩ := same
  · nomatch there
  refine ⟨before, r, rest, after, ?_, ?_, low, equal, high⟩
  · rw [sorted, List.append_assoc]
  · rw [classOf, if_pos known, count]

theorem takeWhile_other {r l : Line} {lines : List Line} (other : l.value ≠ r.value) :
    (l :: lines).takeWhile (sameValue r) = [] :=
  List.takeWhile_cons_of_neg fun same => other (of_decide_eq_true same)

/-- The entries from the place of a class on. -/
theorem drop_table {before rest after back : List Line} {r : Line} {m : Nat}
    (count : m = before.length + (rest.length + 1 + after.length))
    (low : ∀ l ∈ before, l.value < r.value) (equal : ∀ l ∈ r :: rest, l.value = r.value)
    (ends : (after ++ back).takeWhile (sameValue r) = [])
    (positive : ∀ l ∈ after, 0 < l.serial) (beyond : List Int) :
    ∃ e more, e ≤ 0 ∧ (reallocated m (membersFrom m (before ++ (r :: rest ++ after) ++ back))
      beyond).drop before.length = -r.serial :: (rest.map Line.serial ++ e :: more) := by
  have split : before ++ (r :: rest ++ after) ++ back = before ++ (r :: rest ++ (after ++ back)) := by
    rw [List.append_assoc, List.append_assoc]
  have apart : Apart before (r :: rest ++ (after ++ back)) := fun l member =>
    takeWhile_other (low l member).ne'
  obtain ⟨c, entries, table⟩ := membersFrom_append apart (rest.length + 1 + after.length)
  have only : Apart [r] (after ++ back) := fun l member => List.mem_singleton.mp member ▸ ends
  obtain ⟨e, more, tail, stop⟩ : ∃ e more, membersFrom after.length (after ++ back) = e :: more ∧
      e ≤ 0 := by
    refine membersFrom_head fun more l found => ?_
    obtain _ | ⟨first, after⟩ := after
    · exact absurd more (Nat.lt_irrefl 0)
    · obtain rfl : first = l := Option.some.inj found
      exact (positive first (List.mem_cons_self ..)).le
  refine ⟨e, more.take after.length ++ beyond, stop, ?_⟩
  have size : m + 1 = c.length + ((-r.serial :: rest.map Line.serial).length + (after.length + 1)) := by
    rw [List.length_cons, List.length_map]
    omega
  rw [reallocated, split, size, count, table, membersFrom_class equal only, tail,
    List.take_length_add_append, ← List.cons_append, List.take_length_add_append,
    List.take_succ_cons, List.append_assoc, ← entries, List.drop_left, List.cons_append,
    List.cons_append, List.append_assoc, List.cons_append]

theorem members_of_class (known : v ∈ new.map Line.value)
    (clear : v ≠ 0 ∨ ∃ w ∈ new.map Line.value, v < w) :
    ∃ same : List Line, same.Pairwise (fun l0 l1 => l0.serial < l1.serial) ∧
      (∀ l, l ∈ same ↔ l ∈ numbered new ∧ l.value = v) ∧
      membersOf (tableOf new behind beyond) (classOf (new.map Line.value) v) =
        same.map Line.serial := by
  obtain ⟨before, r, rest, after, sorted, place, low, equal, high⟩ := class_of_file known
  have whole : ∀ l, l ∈ numbered new ↔ l ∈ before ∨ l ∈ r :: rest ∨ l ∈ after := by
    intro l
    rw [← qsort_perm.mem_iff, sorted, List.mem_append, List.mem_append]
  have here : r.value = v := equal r (List.mem_cons_self ..)
  have ends : (after ++ sentinel behind).takeWhile (sameValue r) = [] := by
    obtain _ | ⟨l, after⟩ := after
    · have nonzero : v ≠ 0 := by
        refine clear.elim id fun ⟨w, member, more⟩ => ?_
        rw [← numbered_values] at member
        obtain ⟨l, known, rfl⟩ := List.mem_map.mp member
        rcases (whole l).mp known with known | known | known
        · exact absurd (low l known) (Nat.lt_asymm more)
        · exact absurd (equal l known) more.ne'
        · nomatch known
      obtain _ | ⟨l, behind⟩ := behind
      · rfl
      · exact takeWhile_other (here ▸ nonzero.symm)
    · exact takeWhile_other (here ▸ (high l (List.mem_cons_self ..)).ne')
  refine ⟨r :: rest, same_ascending (sorted.trans (List.append_assoc ..).symm) equal, fun l => ?_, ?_⟩
  · constructor
    · exact fun member => ⟨(whole l).mpr (.inr (.inl member)), equal l member⟩
    · rintro ⟨member, value⟩
      rcases (whole l).mp member with member | member | member
      · exact absurd value (low l member).ne
      · exact member
      · exact absurd value (high l member).ne'
  have count : new.length = before.length + (rest.length + 1 + after.length) := by
    have := congrArg List.length sorted
    rw [qsort_perm.length_eq, numbered, List.length_mapIdx, List.length_append, List.length_append,
      List.length_cons] at this
    exact this
  have positive : ∀ l ∈ numbered new, 0 < l.serial := fun l => numbered_positive
  obtain ⟨e, more, stop, table⟩ := drop_table count (here ▸ low) (here ▸ equal) ends
    (fun l member => positive l ((whole l).mpr (.inr (.inr member)))) beyond
  rw [membersOf, place, Nat.add_sub_cancel, tableOf, sorted, table]
  dsimp only
  rw [Int.neg_neg, reached_all _ stop]
  · rfl
  · intro y member
    obtain ⟨l, known, rfl⟩ := List.mem_map.mp member
    exact positive l ((whole l).mpr (.inr (.inl (List.mem_cons_of_mem _ known))))

theorem classOf_ne_zero {G : List Nat} : classOf G v ≠ 0 ↔ v ∈ G := by
  rw [classOf]
  split
  · next known => exact iff_of_true (Nat.succ_ne_zero _) known
  · next absent => exact iff_of_false (fun none => none rfl) absent

theorem countP_lt_of_mem {G : List Nat} {w : Nat} (known : v ∈ G) (order : v < w) :
    G.countP (· < v) < G.countP (· < w) := by
  induction G with
  | nil => nomatch known
  | cons u G ih =>
    have most : G.countP (· < v) ≤ G.countP (· < w) := List.countP_mono_left fun u _ less =>
      decide_eq_true (Nat.lt_trans (of_decide_eq_true less) order)
    rw [List.countP_cons, List.countP_cons]
    rcases List.mem_cons.mp known with rfl | known
    · rw [if_neg (by simp), if_pos (decide_eq_true order)]
      omega
    · have := ih known
      by_cases less : u < v
      · rw [if_pos (decide_eq_true less), if_pos (decide_eq_true (Nat.lt_trans less order))]
        omega
      · rw [if_neg (fun more => less (of_decide_eq_true more))]
        omega

/-- Two hashes of the new file are in different classes. -/
theorem classOf_injective {G : List Nat} {w : Nat} (first : v ∈ G) (second : w ∈ G)
    (same : classOf G v = classOf G w) : v = w := by
  rw [classOf, classOf, if_pos first, if_pos second, Nat.add_right_cancel_iff] at same
  rcases Nat.lt_trichotomy v w with order | equal | order
  · exact absurd same (countP_lt_of_mem first order).ne
  · exact equal
  · exact absurd same (countP_lt_of_mem second order).ne'

/-- Lines of a class, each with the serial that it got as its place in the file. -/
theorem Tabulates.of_members {old : List Line} {b : List Int}
    (members : ∀ v ∈ new.map Line.value, ∃ same : List Line,
      same.Pairwise (fun l0 l1 => l0.serial < l1.serial) ∧
      (∀ l, l ∈ same ↔ l ∈ numbered new ∧ l.value = v) ∧
      membersOf b (classOf (new.map Line.value) v) = same.map Line.serial) :
    Tabulates (classesOf old new) (classesOf new new) b := by
  have real : ∀ j ∈ classesOf old new, j ≠ 0 →
      ∃ v ∈ new.map Line.value, classOf (new.map Line.value) v = j := by
    intro j member real
    obtain ⟨v, -, rfl⟩ := List.mem_map.mp member
    exact ⟨v, classOf_ne_zero.mp real, rfl⟩
  constructor
  · intro absent
    obtain ⟨v, known, zero⟩ := List.mem_map.mp absent
    exact classOf_ne_zero.mpr known zero
  · intro j member nonzero
    obtain ⟨v, known, rfl⟩ := real j member nonzero
    obtain ⟨same, ascending, -, equal⟩ := members v known
    rw [equal]
    exact List.pairwise_map.mpr ascending
  · intro j member nonzero y
    obtain ⟨v, known, rfl⟩ := real j member nonzero
    obtain ⟨same, -, mem, equal⟩ := members v known
    rw [equal, List.mem_map]
    constructor
    · rintro ⟨l, here, rfl⟩
      obtain ⟨numbered, value⟩ := (mem l).mp here
      obtain ⟨i, r, found, rfl⟩ := mem_numbered.mp numbered
      refine ⟨i, (Int.natCast_succ i).symm, ?_⟩
      rw [classesOf, List.getElem?_map, List.getElem?_map, found]
      exact congrArg (fun v => some (classOf (new.map Line.value) v)) value
    · rintro ⟨i, rfl, found⟩
      rw [classesOf, List.getElem?_map, List.getElem?_map, Option.map_map,
        Option.map_eq_some_iff] at found
      obtain ⟨r, found, equal⟩ := found
      have value : r.value = v := classOf_injective
        (List.mem_map_of_mem (List.mem_of_getElem? found)) known equal
      exact ⟨{ r with serial := i + 1 }, (mem _).mpr ⟨mem_numbered.mpr ⟨i, r, found, rfl⟩, value⟩,
        (Int.natCast_succ i).symm⟩

/-- The table of a file whose last class does not have the hash 0. -/
theorem tabulates_of_nonzero {old : List Line}
    (clear : ∀ v ∈ new.map Line.value, v ≠ 0 ∨ ∃ w ∈ new.map Line.value, v < w) :
    Tabulates (classesOf old new) (classesOf new new) (tableOf new behind beyond) :=
  .of_members fun v known => members_of_class known (clear v known)

/-! ## A file of lines with the hash 0 -/

/-- What follows the members when the inner loop runs over the sentinel. -/
def strays (behind : List Line) (beyond : List Int) : List Int :=
  ((behind.head?.map Line.serial).getD (-1) :: beyond).takeWhile fun y => 0 < y

theorem qsort_zero (zero : ∀ l ∈ new, l.value = 0) : qsort (numbered new) = numbered new := by
  refine List.mergeSort_of_pairwise (numbered_ascending.imp_of_mem fun {l0 l1} first second order => ?_)
  obtain ⟨i, r0, found0, rfl⟩ := mem_numbered.mp first
  obtain ⟨j, r1, found1, rfl⟩ := mem_numbered.mp second
  have := zero r0 (List.mem_of_getElem? found0)
  have := zero r1 (List.mem_of_getElem? found1)
  exact decide_eq_true (line_compar_le.mpr (.inr ⟨by dsimp only; omega, order.le⟩))

theorem members_of_zero (zero : ∀ l ∈ new, l.value = 0) (some : new ≠ []) :
    membersOf (tableOf new behind beyond) 1 =
      (numbered new).map Line.serial ++ strays behind beyond := by
  rw [tableOf, qsort_zero zero]
  have size : (numbered new).length = new.length := by rw [numbered, List.length_mapIdx]
  have positive : ∀ l ∈ numbered new, 0 < l.serial := fun l => numbered_positive
  have same : ∀ l ∈ numbered new, l.value = 0 := by
    intro l member
    obtain ⟨i, r, found, rfl⟩ := mem_numbered.mp member
    exact zero r (List.mem_of_getElem? found)
  generalize numbered new = lines at size positive same
  obtain _ | ⟨r, rest⟩ := lines
  · exact absurd (List.length_eq_zero_iff.mp size.symm) some
  have here : r.value = 0 := same r (List.mem_cons_self ..)
  have goes : ∀ l ∈ rest, sameValue r l := fun l member =>
    decide_eq_true ((same l (List.mem_cons_of_mem _ member)).trans here.symm)
  have table : ∃ more, membersFrom new.length (r :: rest ++ sentinel behind) =
      -r.serial :: (rest.map Line.serial ++ (behind.head?.map Line.serial).getD (-1) :: more) := by
    have none : ∀ n, rest.length - (rest.length + n) = 0 := by omega
    rw [← size, List.length_cons, List.cons_append, membersFrom_succ,
      List.takeWhile_append_of_pos goes, List.length_append, none, membersFrom_zero,
      List.map_append, List.append_assoc]
    obtain _ | ⟨l, behind⟩ := behind
    · exact ⟨[], rfl⟩
    · have goesOn : sameValue r { l with value := 0 } = true := decide_eq_true here.symm
      rw [sentinel, List.takeWhile_cons_of_pos goesOn]
      exact ⟨_, rfl⟩
  obtain ⟨more, table⟩ := table
  have kept : reallocated new.length (membersFrom new.length (r :: rest ++ sentinel behind)) beyond =
      -r.serial :: (rest.map Line.serial ++ (behind.head?.map Line.serial).getD (-1) :: beyond) := by
    have count : new.length + 1 = (-r.serial :: rest.map Line.serial).length + 1 := by
      rw [← size, List.length_cons, List.length_cons, List.length_map]
    rw [reallocated, table, count, ← List.cons_append, List.take_length_add_append,
      List.take_succ_cons, List.take_zero, List.append_assoc]
    rfl
  have later : ∀ y ∈ rest.map Line.serial, 0 < y := by
    intro y member
    obtain ⟨l, known, rfl⟩ := List.mem_map.mp member
    exact positive l (List.mem_cons_of_mem _ known)
  rw [membersOf, kept, Nat.sub_self, List.drop_zero]
  dsimp only
  rw [Int.neg_neg, reached,
    List.takeWhile_append_of_pos fun y member => decide_eq_true (later y member)]
  rfl

end Tables

end Busybox.Diff
