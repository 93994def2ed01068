import Busybox.Diff.ZeroLines

/-!
# The matches between two files

`create_J` of `editors/diff.c` from where both files are hashed to where the matches are found.
-/

namespace Busybox.Diff

open Lists CommonSubsequence

def INT_MAX : Nat := 2147483647

/-- The hashed lines of a file; how many they are is an `int`. -/
structure NFile where
  lines : List Line
  fits : lines.length ≤ INT_MAX

/-- How many lines at the start have the same hashes. -/
def commonPrefix : List Line → List Line → Nat
  | l :: a, r :: b => if l.value = r.value then commonPrefix a b + 1 else 0
  | _, _ => 0

def prefOf (old new : NFile) : Nat := commonPrefix old.lines new.lines

/-- Lines at the end with the same hashes, of those behind the prefix. -/
def suffOf (old new : NFile) : Nat :=
  commonPrefix (old.lines.drop (prefOf old new)).reverse (new.lines.drop (prefOf old new)).reverse

/-- The lines between prefix and suffix. -/
def pruned (file : NFile) (pref suff : Nat) : List Line :=
  (file.lines.drop pref).take (file.lines.length - pref - suff)

/-- `J` before the matches are found. -/
def initialJ (nlen0 nlen1 pref suff : Nat) : List Int :=
  (List.range (nlen0 + 1)).map fun i =>
    if i ≤ pref then (i : Int) else if i > nlen0 - suff then i + ((nlen1 : Int) - nlen0) else 0

/-- The lines stored behind those of the new file between prefix and suffix: the suffix, and `rest`,
which is what the memory has behind the last line. -/
def behindOf (old new : NFile) (rest : List Line) : List Line :=
  new.lines.drop (new.lines.length - suffOf old new) ++ rest

/-- The matches; `beyond` is what the memory has behind the reallocated members. -/
def create_J (d : Bool) (old new : NFile) (rest : List Line) (beyond : List Int) : List Int :=
  let pref := prefOf old new
  let suff := suffOf old new
  let a := qsort (numbered (pruned old pref suff))
  let b := qsort (numbered (pruned new pref suff))
  let (a, c) := equiv a b (behindOf old new rest)
  let member := reallocated b.length c beyond
  let J := initialJ old.lines.length new.lines.length pref suff
  stone d (unsort a) member J pref ++ [(new.lines.length : Int) + 1]

/-- The lines that `stone` matches. -/
def oldLines (old new : NFile) : List Line := pruned old (prefOf old new) (suffOf old new)

def newLines (old new : NFile) : List Line := pruned new (prefOf old new) (suffOf old new)

/-- The matches that `stone` records. -/
def matchesOf (d : Bool) (old new : NFile) (rest : List Line) (beyond : List Int) :
    List (Nat × Int) :=
  recorded (create_J d old new rest beyond) (prefOf old new) (oldLines old new).length

section Main

variable {d : Bool} {old new : NFile} {rest : List Line} {beyond : List Int}

theorem commonPrefix_le {a b : List Line} : commonPrefix a b ≤ a.length ∧ commonPrefix a b ≤ b.length := by
  fun_induction commonPrefix a b with
  | case1 l a r b same ih =>
    rw [List.length_cons, List.length_cons]
    omega
  | case2 l a r b other => exact ⟨Nat.zero_le _, Nat.zero_le _⟩
  | case3 a b other => exact ⟨Nat.zero_le _, Nat.zero_le _⟩

theorem pref_suff_le (old new : NFile) : prefOf old new + suffOf old new ≤ old.lines.length ∧
    prefOf old new + suffOf old new ≤ new.lines.length := by
  have pref := commonPrefix_le (a := old.lines) (b := new.lines)
  have suff := commonPrefix_le (a := (old.lines.drop (prefOf old new)).reverse)
    (b := (new.lines.drop (prefOf old new)).reverse)
  rw [List.length_reverse, List.length_reverse, List.length_drop, List.length_drop] at suff
  rw [← prefOf] at pref
  rw [← suffOf] at suff
  omega

theorem pruned_length {file : NFile} {pref suff : Nat} :
    (pruned file pref suff).length = file.lines.length - pref - suff := by
  rw [pruned, List.length_take, List.length_drop]
  omega

theorem initialJ_blank (old new : NFile) : Blank
    (initialJ old.lines.length new.lines.length (prefOf old new) (suffOf old new))
    (prefOf old new) (oldLines old new).length := by
  have fit := pref_suff_le old new
  rw [oldLines, pruned_length]
  constructor
  · rw [initialJ, List.length_map, List.length_range]
    omega
  · intro x from1 upTo
    rw [initialJ, List.getD_eq_getElem?_getD, List.getElem?_map, List.getElem?_range (by omega),
      Option.map_some, Option.getD_some, if_neg (by omega), if_neg (by omega)]

theorem unravel_length {clist : List Cand} {pref fuel i : Nat} {J : List Int} :
    (unravel clist pref fuel i J).length = J.length := by
  induction fuel generalizing i J with
  | zero => rfl
  | succ fuel ih =>
    rw [unravel]
    split
    · rfl
    · rw [ih, List.length_set]

/-- What is stored in `J` behind the lines is not of a match. -/
theorem recorded_append {J more : List Int} {pref n : Nat} (room : n + pref < J.length) :
    recorded (J ++ more) pref n = recorded J pref n := by
  refine List.filterMap_congr fun x member => ?_
  have := List.mem_range'_1.mp member
  rw [recordedLine, recordedLine, List.getD_append _ _ _ _ (by omega)]

theorem matchesOf_stone : matchesOf d old new rest beyond =
    recorded (stone d (classesOf (oldLines old new) (newLines old new))
      (tableOf (newLines old new) (behindOf old new rest) beyond)
      (initialJ old.lines.length new.lines.length (prefOf old new) (suffOf old new))
      (prefOf old new)) (prefOf old new) (oldLines old new).length := by
  have size : (qsort (numbered (newLines old new))).length = (newLines old new).length := by
    rw [qsort_perm.length_eq, numbered, List.length_mapIdx]
  have table : reallocated (qsort (numbered (newLines old new))).length
      (equiv (qsort (numbered (oldLines old new))) (qsort (numbered (newLines old new)))
        (behindOf old new rest)).2 beyond =
      tableOf (newLines old new) (behindOf old new rest) beyond := by
    rw [equiv, tableOf, size]
  rw [matchesOf, create_J]
  dsimp only
  rw [← oldLines, ← newLines, unsort_classes, table, ← classesOf, recorded_append]
  rw [stone, unravel_length]
  exact (initialJ_blank old new).room

/-- The loop over the members of the only class of the new file takes the sentinel for a line of it,
and there are enough lines of that class in the old file to come to what it found there. -/
structure Overrun (old new : NFile) (rest : List Line) (beyond : List Int) : Prop where
  nonempty : newLines old new ≠ []
  zero : ∀ l ∈ newLines old new, l.value = 0
  many : (newLines old new).length < ((oldLines old new).map Line.value).count 0
  stray : ∃ y ∈ strays (behindOf old new rest) beyond, ((newLines old new).length : Int) < y

theorem newLines_fits : (newLines old new).length ≤ UINT_MAX := by
  have := new.fits
  rw [newLines, pruned_length]
  rw [INT_MAX] at this
  rw [UINT_MAX]
  omega

theorem boundOf_pos {n : Nat} : 0 < boundOf d n := by
  rw [boundOf]
  split
  · exact Nat.succ_pos _
  · omega

theorem classesOf_length {lines lines' : List Line} : (classesOf lines lines').length = lines.length := by
  rw [classesOf, List.length_map, List.length_map]

theorem count_zero {lines new : List Line} (zero : ∀ l ∈ new, l.value = 0) (nonempty : new ≠ []) :
    (classesOf lines new).count 1 = (lines.map Line.value).count 0 := by
  rw [classesOf, List.count, List.countP_map, List.count]
  refine List.countP_congr fun v _ => ?_
  rw [Function.comp_apply, classOf_of_zero zero nonempty]
  split <;> simp_all

/-- The matches are right unless the table is run over. -/
theorem matches_right_iff : Right d (classesOf (oldLines old new) (newLines old new))
      (classesOf (newLines old new) (newLines old new)) (matchesOf d old new rest beyond) ↔
    ¬ Overrun old new rest beyond := by
  have size : (classesOf (oldLines old new) (newLines old new)).length = (oldLines old new).length :=
    classesOf_length
  have blank := initialJ_blank old new
  rw [matchesOf_stone]
  rw [← size] at blank ⊢
  have few : (classesOf (newLines old new) (newLines old new)).length ≤ UINT_MAX :=
    Nat.le_trans (Nat.le_of_eq classesOf_length) newLines_fits
  constructor
  · intro right overrun
    have count : (classesOf (oldLines old new) (newLines old new)).count 1 = _ :=
      count_zero overrun.zero overrun.nonempty
    obtain ⟨sound, more⟩ := finalLists_outside overrun.zero overrun.nonempty boundOf_pos
      (count ▸ overrun.many) overrun.stray
    refine stone_wrong blank sound ?_ right
    rw [classesOf_length]
    exact more
  · intro right
    by_cases zero : ∀ l ∈ newLines old new, l.value = 0
    · by_cases nonempty : newLines old new = []
      · refine stone_right_of_table blank (tabulates_of_nonzero fun v known => ?_) few
        rw [nonempty] at known
        nomatch known
      · have count : (classesOf (oldLines old new) (newLines old new)).count 1 = _ :=
          count_zero zero nonempty
        have reach : (classesOf (oldLines old new) (newLines old new)).count 1 ≤
              (newLines old new).length ∨
            ∀ y ∈ strays (behindOf old new rest) beyond, y ≤ (newLines old new).length := by
          refine or_iff_not_imp_left.mpr fun many y member => not_lt.mp fun stray => ?_
          exact right ⟨nonempty, zero, by rw [← count]; omega, y, member, stray⟩
        obtain ⟨inside, exact⟩ := finalLists_inside zero nonempty (boundOf_pos (d := d)) reach
        refine stone_right blank inside.toSound ?_
        rintro rfl
        exact exact few
    · refine stone_right_of_table blank (tabulates_of_nonzero fun v known => ?_) few
      push Not at zero
      obtain ⟨l, member, nonzero⟩ := zero
      by_cases here : v = 0
      · exact .inr ⟨l.value, List.mem_map_of_mem member, by omega⟩
      · exact .inl here

/-- A line and three blank ones before a line, against two blank ones, with `-w`. -/
theorem matches_overrun : ¬ ∀ (old new : NFile) (rest : List Line) (beyond : List Int),
    Right true (classesOf (oldLines old new) (newLines old new))
      (classesOf (newLines old new) (newLines old new)) (matchesOf true old new rest beyond) := by
  intro right
  have pairs := right
    ⟨[⟨2, 120⟩, ⟨3, 0⟩, ⟨4, 0⟩, ⟨5, 0⟩, ⟨7, 121⟩, ⟨11, 1643099⟩], by decide⟩
    ⟨[⟨1, 0⟩, ⟨2, 0⟩, ⟨6, 1643099⟩], by decide⟩ [⟨7, 0⟩] []
  have recorded : (4, 6) ∈ matchesOf true
      ⟨[⟨2, 120⟩, ⟨3, 0⟩, ⟨4, 0⟩, ⟨5, 0⟩, ⟨7, 121⟩, ⟨11, 1643099⟩], by decide⟩
      ⟨[⟨1, 0⟩, ⟨2, 0⟩, ⟨6, 1643099⟩], by decide⟩ [⟨7, 0⟩] [] := by
    rw [matchesOf_stone, tableOf, qsort_zero (by decide)]
    decide +kernel
  obtain ⟨_, j, _, _, there, _, found⟩ := pairs.same _ recorded
  obtain rfl : j = 5 := by omega
  exact absurd (List.getElem?_eq_some_iff.mp found).1 (by decide)

end Main

end Busybox.Diff
