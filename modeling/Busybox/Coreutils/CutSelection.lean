import Busybox.Coreutils.Cut

/-!
# What cut selects

The ranges of a list are intervals of positions. Each of the three loops visits them in the order of
their starts.
-/

namespace Busybox.Coreutils.Cut

open Intervals
open Fallible (ok_bind)
open Libbb.Xatonum (Text Refusal xatoiPositive xatouRange_unsignedText)
open Udhcp (unsignedText_ne_nil unsignedText_digits)
open Udhcp.Optval (unsignedText)

/-! ## What is asked for -/

abbrev Number := {n : Nat // 0 < n ∧ n < 2 ^ 31}

/-- `N`, `N-`, `N-M` and `-M` -/
inductive Range
  | single (n : Number)
  | onward (n : Number)
  | between (n m : Number) (ordered : n.1 ≤ m.1)
  | upTo (m : Number)

def Range.text : Range → Text
  | .single n => unsignedText n.1
  | .onward n => unsignedText n.1 ++ [45]
  | .between n m _ => unsignedText n.1 ++ 45 :: unsignedText m.1
  | .upTo m => 45 :: unsignedText m.1

def listText (ranges : List Range) : Text := List.intercalate [44] (ranges.map Range.text)

/-- Positions are counted from 1 on. -/
def Range.contains : Range → Nat → Bool
  | .single n, position => position == n.1
  | .onward n, position => n.1 ≤ position
  | .between n m _, position => n.1 ≤ position && position ≤ m.1
  | .upTo m, position => position ≤ m.1

/-- The items in one of the ranges, in their order. -/
def selected {α : Type*} (ranges : List Range) (items : List α) : List α :=
  (items.zipIdx.filter fun (_, index) => ranges.any (·.contains (index + 1))).map Prod.fst

/-! ## The list is read -/

def Range.cutList : Range → CutList
  | .single n => ⟨n.1 - 1, NON_RANGE⟩
  | .onward n => ⟨n.1 - 1, EOL⟩
  | .between n m _ => ⟨n.1 - 1, if m.1 = n.1 then NON_RANGE else m.1 - 1⟩
  | .upTo m => ⟨0, if m.1 = 1 then NON_RANGE else m.1 - 1⟩

theorem number_unsignedText (n : Number) : number (unsignedText n.1) = .ok n.1 := by
  obtain ⟨positive, small⟩ := n.2
  have read : xatoiPositive (unsignedText n.1) = .ok n.1 :=
    xatouRange_unsignedText (Nat.zero_le _) (Nat.le_pred_of_lt small) (by omega)
  rw [number, read]

theorem digits_ne {n : Nat} {c : UInt8} (notDigit : c.toNat < 48) : c ∉ unsignedText n := by
  intro mem
  exact absurd (unsignedText_digits n c mem).1 (Nat.not_le_of_lt notDigit)

theorem strsep_digits (n : Nat) : strsep 45 (unsignedText n) = (unsignedText n, none) := by
  have noMinus : ∀ c ∈ unsignedText n, decide (c ≠ 45) = true := fun c mem =>
    decide_eq_true (ne_of_mem_of_not_mem mem (digits_ne (by decide)))
  rw [strsep, List.takeWhile_eq_self_iff.mpr noMinus, List.dropWhile_eq_nil_iff.mpr noMinus]

theorem strsep_digits_append (n : Nat) (rest : Text) :
    strsep 45 (unsignedText n ++ 45 :: rest) = (unsignedText n, some rest) := by
  have noMinus : ∀ c ∈ unsignedText n, decide (c ≠ 45) = true := fun c mem =>
    decide_eq_true (ne_of_mem_of_not_mem mem (digits_ne (by decide)))
  rw [strsep, List.takeWhile_append_of_pos noMinus, List.dropWhile_append_of_pos noMinus]
  simp

theorem getStart_unsignedText (n : Number) : getStart (unsignedText n.1) = .ok (n.1 - 1) := by
  rw [getStart, if_neg (unsignedText_ne_nil _), number_unsignedText]
  rfl

theorem getEnd_unsignedText (s : Nat) (m : Number) :
    getEnd s (some (unsignedText m.1)) =
      .ok (if m.1 = s + 1 then NON_RANGE else (m.1 : Int) - 1) := by
  obtain ⟨c, rest, digits⟩ := List.exists_cons_of_ne_nil (unsignedText_ne_nil m.1)
  have read := number_unsignedText m
  rw [digits] at read ⊢
  obtain ⟨positive, -⟩ := m.2
  have nonzero : m.1 ≠ 0 := Nat.ne_of_gt positive
  have same : (m.1 : Int) - 1 = s ↔ m.1 = s + 1 := by omega
  simp only [getEnd, read, ok_bind, if_neg nonzero, same]
  rfl

theorem parseRange_text (range : Range) : parseRange range.text = .ok range.cutList := by
  cases range with
  | single n =>
    rw [Range.text, parseRange, strsep_digits, getStart_unsignedText]
    rfl
  | onward n =>
    rw [Range.text, parseRange, strsep_digits_append, getStart_unsignedText]
    rfl
  | between n m ordered =>
    have whole : n.1 - 1 + 1 = n.1 := Nat.sub_add_cancel n.2.1
    rw [Range.text, parseRange, strsep_digits_append, getStart_unsignedText]
    simp only [ok_bind, getEnd_unsignedText, whole]
    rfl
  | upTo m =>
    have none : strsep 45 (45 :: unsignedText m.1) = ([], some (unsignedText m.1)) := rfl
    rw [Range.text, parseRange, none]
    simp only [getStart, if_true, ok_bind, getEnd_unsignedText]
    rfl

theorem text_noComma (range : Range) : 44 ∉ range.text := by
  have digits (n : Nat) : 44 ∉ unsignedText n := digits_ne (by decide)
  cases range <;> simp [Range.text, digits]

theorem text_ne_nil (range : Range) : range.text ≠ [] := by
  cases range <;> simp [Range.text, unsignedText_ne_nil]

theorem mapM_parseRange (ranges : List Range) :
    (ranges.map Range.text).mapM parseRange = .ok (ranges.map Range.cutList) := by
  induction ranges with
  | nil => rfl
  | cons range ranges ih =>
    rw [List.map_cons, List.mapM_cons, parseRange_text, ih]
    rfl

theorem parseLists_listText {ranges : List Range} (nonempty : ranges ≠ []) :
    parseLists (listText ranges) = .ok (ranges.map Range.cutList) := by
  have texts : (listText ranges).splitOn 44 = ranges.map Range.text := by
    refine List.splitOn_intercalate 44 (fun text mem => ?_) (by simpa using nonempty)
    obtain ⟨range, -, rfl⟩ := List.mem_map.mp mem
    exact text_noComma range
  have noEmpty : (ranges.map Range.text).filter (· ≠ []) = ranges.map Range.text := by
    refine List.filter_eq_self.mpr fun text mem => ?_
    obtain ⟨range, -, rfl⟩ := List.mem_map.mp mem
    exact decide_eq_true (text_ne_nil range)
  rw [parseLists, texts, noEmpty, mapM_parseRange]

/-! ## Intervals -/

/-- Its start is always in a range. -/
def CutList.interval (list : CutList) : Interval where
  start := list.startpos
  stop := max list.startpos list.endpos.toNat
  ordered := Nat.le_max_left _ _

theorem cutList_covers (range : Range) {index : Nat} (small : index < 2 ^ 31) :
    range.cutList.interval.covers index = range.contains (index + 1) := by
  rw [Bool.eq_iff_iff, Interval.covers_iff]
  cases range with
  | single n =>
    obtain ⟨n, positive, -⟩ := n
    simp only [Range.cutList, CutList.interval, Range.contains, NON_RANGE, beq_iff_eq]
    omega
  | onward n =>
    obtain ⟨n, positive, -⟩ := n
    simp only [Range.cutList, CutList.interval, Range.contains, EOL, decide_eq_true_eq]
    omega
  | between n m ordered =>
    obtain ⟨n, positive, -⟩ := n
    obtain ⟨m, -, -⟩ := m
    simp only [Range.cutList, CutList.interval, Range.contains, NON_RANGE, Bool.and_eq_true,
      decide_eq_true_eq] at ordered ⊢
    split <;> omega
  | upTo m =>
    obtain ⟨m, positive, -⟩ := m
    simp only [Range.cutList, CutList.interval, Range.contains, NON_RANGE, decide_eq_true_eq]
    split <;> omega

/-- The ranges after the sort. -/
def sortedLists (qsort : Qsort) (ranges : List Range) : List CutList :=
  qsort.sort (ranges.map Range.cutList)

theorem sortedLists_covers (qsort : Qsort) (ranges : List Range) {index : Nat}
    (small : index < 2 ^ 31) :
    ((sortedLists qsort ranges).map CutList.interval).any (·.covers index) =
      ranges.any (·.contains (index + 1)) := by
  have perm := (qsort.perm (ranges.map Range.cutList)).any_eq
    (f := fun list => list.interval.covers index)
  rw [List.any_map, sortedLists]
  refine perm.trans ?_
  rw [List.any_map]
  exact congrArg ranges.any (funext fun range => cutList_covers range small)

theorem sortedLists_sorted (qsort : Qsort) (ranges : List Range) :
    ((sortedLists qsort ranges).map CutList.interval).Pairwise fun a b => a.start ≤ b.start :=
  List.pairwise_map.mpr (qsort.sorted _)

/-- What is asked for is found by its positions. -/
theorem selected_eq {α : Type*} (ranges : List Range) (items : List α) (default : α) :
    selected ranges items =
      ((List.range items.length).filter fun index => ranges.any (·.contains (index + 1))).map
        fun index => items.getD index default := by
  have pairs : items.zipIdx =
      (List.range items.length).map fun index => (items.getD index default, index) := by
    refine List.ext_getElem (by simp) fun index inItems _ => ?_
    rw [List.length_zipIdx] at inItems
    simp [inItems]
  rw [selected, pairs, List.filter_map, List.map_map]
  rfl

/-- The visit of the ranges selects what is asked for. -/
theorem visit_selected (qsort : Qsort) (ranges : List Range) {α : Type*} (items : List α)
    (default : α) (small : items.length < 2 ^ 31) :
    (visit items.length (fun _ => false) ((sortedLists qsort ranges).map CutList.interval)).map
        (fun index => items.getD index default) = selected ranges items := by
  rw [visit_eq (sortedLists_sorted qsort ranges), selected_eq ranges items default]
  refine congrArg (List.map _) (List.filter_congr fun index mem => ?_)
  have inItems := List.mem_range.mp mem
  rw [sortedLists_covers qsort ranges (by omega), Bool.not_false, Bool.and_true]

/-! ## Bytes -/

/-! ## Bytes -/

/-- The interval from a position in a range to its end. -/
def interval (endpos : Int) (spos : Nat) : Interval :=
  ⟨spos, max spos endpos.toNat, Nat.le_max_left _ _⟩

theorem interval_single {endpos : Int} {spos : Nat} (last : endpos < (spos + 1 : Nat)) :
    interval endpos spos = ⟨spos, spos, Nat.le_refl _⟩ := by
  rw [interval, Interval.mk.injEq]
  exact ⟨rfl, Nat.max_eq_left (by omega)⟩

theorem interval_next {endpos : Int} {spos : Nat} (more : ¬endpos < (spos + 1 : Nat)) :
    ∃ ordered : spos + 1 ≤ endpos.toNat,
      interval endpos spos = ⟨spos, endpos.toNat, Nat.le_of_lt ordered⟩ ∧
        interval endpos (spos + 1) = ⟨spos + 1, endpos.toNat, ordered⟩ := by
  refine ⟨by omega, ?_, ?_⟩
  · rw [interval, Interval.mk.injEq]
    exact ⟨rfl, Nat.max_eq_right (by omega)⟩
  · rw [interval, Interval.mk.injEq]
    exact ⟨rfl, Nat.max_eq_right (by omega)⟩

/-- The position is put out if it is not yet, and it is marked then. -/
theorem byteLoop_position {line : List UInt8} {spos : Nat} (inLine : spos < line.length)
    (o : Output) (p : Nat) :
    let o' := if o.printed spos then o
      else { printed := o.mark spos, out := o.out ++ [line.get ⟨spos, inLine⟩] }
    o'.out = o.out ++ (if o.printed spos then [] else [spos]).map (line.getD · 0) ∧
      o'.printed p = (p == spos || o.printed p) := by
  by_cases printed : o.printed spos = true
  · simp only [printed, if_true, List.map_nil, List.append_nil, true_and]
    by_cases here : p = spos
    · rw [here, printed, Bool.or_true]
    · simp [here]
  · simp only [printed, Bool.false_eq_true, if_false]
    exact ⟨by simp [inLine], rfl⟩

/-- The loop over a range puts out what is fresh in it. -/
theorem byteLoop_eq (line : List UInt8) (endpos : Int) (spos : Nat) (o : Output) :
    (byteLoop line endpos spos o).out =
        o.out ++ (fresh line.length o.printed (interval endpos spos)).map (line.getD · 0) ∧
      ∀ p < line.length, (byteLoop line endpos spos o).printed p =
        (o.printed p || (interval endpos spos).covers p) := by
  induction remaining : line.length - spos generalizing spos o with
  | zero =>
    have behind : line.length ≤ spos := by omega
    rw [byteLoop, dif_neg (by omega), fresh_behind _ behind]
    refine ⟨by simp, fun p inLine => ?_⟩
    have outside : (interval endpos spos).covers p = false :=
      Bool.eq_false_iff.mpr fun covers => by
        have inside := (Interval.covers_iff.mp covers).1
        simp only [interval] at inside
        omega
    rw [outside, Bool.or_false]
  | succ n ih =>
    have inLine : spos < line.length := by omega
    have position := byteLoop_position inLine o
    rw [byteLoop, dif_pos inLine]
    simp only at position ⊢
    obtain ⟨o', isOutput⟩ : ∃ o', (if o.printed spos then o
      else { printed := o.mark spos, out := o.out ++ [line.get ⟨spos, inLine⟩] }) = o' := ⟨_, rfl⟩
    rw [isOutput] at position ⊢
    have printed : o'.printed = fun p => p == spos || o.printed p :=
      funext fun p => (position p).2
    by_cases last : endpos < (spos + 1 : Nat)
    · rw [if_pos last, interval_single last, fresh_single _ inLine]
      refine ⟨(position spos).1, fun p _ => ?_⟩
      rw [printed, covers_single, Bool.or_comm]
    · obtain ⟨ordered, here, next⟩ := interval_next last
      obtain ⟨out, marked⟩ := ih (spos + 1) o' (by omega)
      rw [if_neg last, out, here, fresh_next ordered _ inLine, next, printed, (position spos).1]
      refine ⟨by simp, fun p inLine' => ?_⟩
      rw [marked p inLine', next, (position p).2, covers_next ordered, ← Bool.or_assoc,
        Bool.or_comm (p == spos)]

/-- The bytes of a line that are asked for. -/
theorem cutBytes_selected (qsort : Qsort) (ranges : List Range) {line : List UInt8}
    (small : line.length < 2 ^ 31) :
    cutBytes (sortedLists qsort ranges) line = selected ranges line ++ [10] := by
  have loop (lists : List CutList) (o : Output) :
      (lists.foldl (fun o list => byteLoop line list.endpos list.startpos o) o).out =
        o.out ++
          (visit line.length o.printed (lists.map CutList.interval)).map (line.getD · 0) := by
    induction lists generalizing o with
    | nil => simp [visit]
    | cons list lists ih =>
      obtain ⟨out, marked⟩ := byteLoop_eq line list.endpos list.startpos o
      rw [List.foldl_cons, ih, out, visit_congr marked, List.map_cons, visit, List.map_append,
        List.append_assoc]
      rfl
  rw [cutBytes, loop, visit_selected qsort ranges line 0 small]
  rfl

/-! ## Lines -/

/-- No range that starts behind a line has it. -/
theorem none_covers {lists : List CutList} {index : Nat}
    (behind : ∀ list ∈ lists, index < list.startpos) :
    lists.any (·.interval.covers index) = false := by
  refine List.any_eq_false.mpr fun list mem covers => ?_
  have start := (Interval.covers_iff.mp covers).1
  have less := behind list mem
  simp only [CutList.interval] at start
  omega

/-- The loop gets to a line exactly if a range has it. -/
theorem lineLoop_eq {linenum : Nat} (endpos : Int) (spos : Nat) (rest : List CutList)
    (start : spos ≤ linenum) (sorted : rest.Pairwise fun a b => a.startpos ≤ b.startpos) :
    lineLoop linenum endpos spos rest =
      ((interval endpos spos).covers linenum || rest.any (·.interval.covers linenum)) := by
  have past {endpos : Int} {spos : Nat} (before : (spos : Int) < linenum)
      (last : endpos < (spos + 1 : Nat) ∨ endpos = NON_RANGE) :
      (interval endpos spos).covers linenum = false := by
    have single : endpos < (spos + 1 : Nat) := by
      rcases last with last | last
      · exact last
      · rw [last, NON_RANGE]
        omega
    rw [interval_single single, covers_single]
    exact beq_eq_false_iff_ne.mpr (by omega)
  fun_induction lineLoop linenum endpos spos rest with
  | case1 endpos spos before last => rw [past before last, List.any_nil, Bool.or_false]
  | case2 endpos spos before last next rest behind =>
    rw [past before last, Bool.false_or, none_covers]
    intro list mem
    rcases List.mem_cons.mp mem with rfl | mem
    · omega
    · have later := (List.pairwise_cons.mp sorted).1 list mem
      omega
  | case3 endpos spos before last next rest reached ih =>
    rw [ih (by omega) (List.pairwise_cons.mp sorted).2, past before last, Bool.false_or,
      List.any_cons]
    rfl
  | case4 endpos spos rest before more ih =>
    obtain ⟨ordered, here, next⟩ := interval_next (fun last => more (.inl last))
    have other : (linenum == spos) = false := beq_eq_false_iff_ne.mpr (by omega)
    rw [ih (by omega) sorted, here, covers_next ordered, other, Bool.false_or, next]
  | case5 endpos spos rest reached =>
    have same : linenum = spos := by omega
    have covers : (interval endpos spos).covers linenum = true :=
      Interval.covers_iff.mpr ⟨same.ge, by rw [same]; exact Nat.le_max_left _ _⟩
    rw [covers, Bool.true_or]

theorem int_small {n : Nat} (small : n < 2 ^ 31) : Int.bmod n (2 ^ 32) = n := by
  have most : (n : Int) < 2 ^ 31 := by exact_mod_cast small
  exact Int.bmod_eq_of_le_mul_two (by omega) (by omega)

theorem lineSelected_cons {linenum : Nat} (small : linenum < 2 ^ 31) (first : CutList)
    (rest : List CutList) : lineSelected (first :: rest) linenum =
      if (linenum : Int) < first.startpos then false
      else lineLoop linenum first.endpos first.startpos rest := by
  unfold lineSelected
  rw [int_small small]

/-- A line is put out exactly if it is asked for. -/
theorem lineSelected_eq (qsort : Qsort) (ranges : List Range) {linenum : Nat}
    (small : linenum < 2 ^ 31) :
    lineSelected (sortedLists qsort ranges) linenum = ranges.any (·.contains (linenum + 1)) := by
  have sorted : (sortedLists qsort ranges).Pairwise fun a b => a.startpos ≤ b.startpos :=
    qsort.sorted _
  rw [← sortedLists_covers qsort ranges small, List.any_map]
  cases lists : sortedLists qsort ranges with
  | nil => rfl
  | cons first rest =>
    rw [lists] at sorted
    rw [lineSelected_cons small]
    split
    case isTrue behind =>
      refine (none_covers fun list mem => ?_).symm
      rcases List.mem_cons.mp mem with rfl | mem
      · omega
      · have later := (List.pairwise_cons.mp sorted).1 list mem
        omega
    case isFalse reached =>
      rw [lineLoop_eq _ _ _ (by omega) (List.pairwise_cons.mp sorted).2]
      rfl

end Busybox.Coreutils.Cut
