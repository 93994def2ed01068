import Busybox.Crond.Denotation

/-!
# Fields with a parse error

Members are set as they are read, and nothing is taken back at an error. So the array is clean only
if no range has been complete before it, or none but such as are stored before the array.
-/

namespace Busybox.Crond

open Libbb.Xatonum (Text)

variable {column : Column}

/-! ## Ranges -/

/-- The ends of a range, with what is behind it; none if there is no value where one is due. -/
def readRange (column : Column) (n1 n2 : Int) (ptr : Text) : Option (Int × Int × Text) :=
  match _read : readValue column n1 n2 ptr with
  | none => none
  | some (n1, n2, rest) =>
    if rest.head? = some 45 ∧ n2 < 0 then readRange column n1 n2 rest.tail
    else some (n1, if n2 < 0 then n1 else n2, rest)
termination_by ptr.length
decreasing_by
  have shorter := readValue_length _read
  rw [List.length_tail]
  omega

theorem readRange_none {n1 n2 : Int} {ptr : Text} (read : readValue column n1 n2 ptr = none) :
    readRange column n1 n2 ptr = none := by
  rw [readRange]
  split
  case h_1 => rfl
  case h_2 isRead => cases isRead.symm.trans read

theorem readRange_some {n1 n2 m1 m2 : Int} {ptr rest : Text}
    (read : readValue column n1 n2 ptr = some (m1, m2, rest)) :
    readRange column n1 n2 ptr =
      if rest.head? = some 45 ∧ m2 < 0 then readRange column m1 m2 rest.tail
      else some (m1, if m2 < 0 then m1 else m2, rest) := by
  rw [readRange]
  split
  case h_1 none => cases none.symm.trans read
  case h_2 isRead =>
    cases isRead.symm.trans read
    rfl

theorem readRange_length {n1 n2 m1 m2 : Int} {ptr rest : Text}
    (range : readRange column n1 n2 ptr = some (m1, m2, rest)) : rest.length < ptr.length := by
  induction n1, n2, ptr using readRange.induct column with
  | case1 n1 n2 ptr none => cases (readRange_none none).symm.trans range
  | case2 n1 n2 ptr k1 k2 behind read minus ih =>
    rw [readRange_some read, if_pos minus] at range
    have shorter := readValue_length read
    have tail := ih range
    rw [List.length_tail] at tail
    omega
  | case3 n1 n2 ptr k1 k2 behind read last =>
    rw [readRange_some read, if_neg last] at range
    cases range
    exact readValue_length read

/-- A range is read, then it is filled. -/
theorem parseLoop_eq (n1 n2 : Int) (set : List Int) (ptr : Text) :
    parseLoop column n1 n2 set ptr =
      match readRange column n1 n2 ptr with
      | none => ⟨set, true⟩
      | some (n1, n2, behind) => afterRange column set n1 n2 behind := by
  induction n1, n2, ptr using readRange.induct column with
  | case1 n1 n2 ptr none => rw [readRange_none none, parseLoop_none none]
  | case2 n1 n2 ptr k1 k2 behind read minus ih =>
    obtain ⟨tail, isMinus⟩ : ∃ tail, behind = 45 :: tail := by
      cases behind with
      | nil => cases minus.1
      | cons c tail => exact ⟨tail, congrArg (· :: tail) (Option.some.inj minus.1)⟩
    rw [readRange_some read, if_pos minus, ← ih, isMinus]
    exact parseLoop_minus (isMinus ▸ read) minus.2
  | case3 n1 n2 ptr k1 k2 behind read last =>
    rw [readRange_some read, if_neg last, parseLoop_range read last]

theorem readValue_unset {n1 n2 m1 m2 : Int} {ptr rest : Text} (unset : n1 < 0 → n2 < 0)
    (read : readValue column n1 n2 ptr = some (m1, m2, rest)) : m1 < 0 → m2 < 0 := by
  unfold readValue at read
  split at read
  case h_1 => cases read
  case h_2 c ptr =>
    split at read
    · cases read
      exact fun negative => absurd negative (by decide)
    · split at read
      · split at read <;> cases read
        · exact fun _ => unset ‹_›
        · exact fun negative => absurd negative ‹_›
      · obtain ⟨i, -, isRead⟩ := Option.map_eq_some_iff.mp read
        split at isRead <;> cases isRead
        · exact fun _ => unset ‹_›
        · exact fun negative => absurd negative ‹_›

/-- A range whose first end is below 0 has only one. -/
theorem readRange_single {n1 n2 m1 m2 : Int} {ptr rest : Text} (unset : n1 < 0 → n2 < 0)
    (range : readRange column n1 n2 ptr = some (m1, m2, rest)) :
    0 ≤ m1 ∧ 0 ≤ m2 ∨ m1 = m2 ∧ m1 < 0 := by
  induction n1, n2, ptr using readRange.induct column with
  | case1 n1 n2 ptr none => cases (readRange_none none).symm.trans range
  | case2 n1 n2 ptr k1 k2 behind read minus ih =>
    rw [readRange_some read, if_pos minus] at range
    exact ih (readValue_unset unset read) range
  | case3 n1 n2 ptr k1 k2 behind read last =>
    have stays := readValue_unset unset read
    rw [readRange_some read, if_neg last] at range
    cases range
    split
    case isTrue => exact same_cases _
    case isFalse isSet =>
      exact .inl ⟨Int.not_lt.mp fun negative => isSet (stays negative), Int.not_lt.mp isSet⟩

/-! ## Clean arrays -/

/-- What is read of the field before an error is stored outside the array. -/
def Untouched (column : Column) (ptr : Text) : Prop :=
  match _range : readRange column (-1) (-1) ptr with
  | none => True
  | some (n1, _, behind) =>
    n1 < 0 ∧ ¬(column.modvalue : Int) ∣ n1 ∧
      if n1 < -column.modvalue then ¬(0 < (readSkip behind).1 ∧ (readSkip behind).1 < 1024)
      else (readSkip behind).2.head? = some 44 → Untouched column (readSkip behind).2.tail
termination_by ptr.length
decreasing_by
  have shorter := readRange_length _range
  have less := readSkip_length behind
  rw [List.length_tail]
  omega

/-- No element of the array is set. -/
def Run.Clean (column : Column) (run : Run) : Prop :=
  ∀ position : Int, 0 ≤ position → position < column.modvalue → position ∉ run.set

theorem untouched_none {ptr : Text} (none : readRange column (-1) (-1) ptr = none) :
    Untouched column ptr := by
  rw [Untouched]
  split
  case h_1 => trivial
  case h_2 isRange => cases isRange.symm.trans none

theorem untouched_some {n1 n2 : Int} {ptr behind : Text}
    (range : readRange column (-1) (-1) ptr = some (n1, n2, behind)) :
    Untouched column ptr ↔ n1 < 0 ∧ ¬(column.modvalue : Int) ∣ n1 ∧
      if n1 < -column.modvalue then ¬(0 < (readSkip behind).1 ∧ (readSkip behind).1 < 1024)
      else (readSkip behind).2.head? = some 44 →
        Untouched column (readSkip behind).2.tail := by
  rw [Untouched]
  split
  case h_1 none => cases none.symm.trans range
  case h_2 isRange =>
    cases isRange.symm.trans range
    rfl

theorem first_mem_fillRange (modvalue : Nat) (n1 n2 skip : Int) :
    n1.tmod modvalue ∈ (fillRange modvalue n1 n2 skip).1 := by
  rw [fillRange_eq, visited, ← next_pred, if_neg (by decide)]
  split <;> exact List.mem_cons_self

/-- What is stored is never taken back. -/
theorem mem_parseLoop (n1 n2 : Int) (ptr : Text) {set : List Int} {x : Int} (mem : x ∈ set) :
    x ∈ (parseLoop column n1 n2 set ptr).set := by
  induction length : ptr.length using Nat.strong_induction_on generalizing n1 n2 ptr set with
  | _ _ ih =>
    rw [parseLoop_eq]
    cases range : readRange column n1 n2 ptr with
    | none => exact mem
    | some ends =>
      obtain ⟨m1, m2, behind⟩ := ends
      have shorter := readRange_length range
      have less := readSkip_length behind
      simp only [afterRange]
      split
      · exact List.mem_append_left _ mem
      · split
        · refine ih _ ?_ (-1) (-1) _ (List.mem_append_left _ mem) rfl
          rw [List.length_tail]
          omega
        · exact List.mem_append_left _ mem

theorem mem_afterRange {n1 n2 : Int} {set : List Int} {behind : Text} {x : Int}
    (mem : x ∈ (fillRange column.modvalue n1 n2 (readSkip behind).1).1) :
    x ∈ (afterRange column set n1 n2 behind).set := by
  simp only [afterRange]
  split
  · exact List.mem_append_right _ mem
  · split
    · exact mem_parseLoop (-1) (-1) _ (List.mem_append_right _ mem)
    · exact List.mem_append_right _ mem

theorem Run.clean_append {set more : List Int} {err : Bool}
    (clean : Run.Clean column ⟨set, true⟩) :
    Run.Clean column ⟨set ++ more, err⟩ ↔ Run.Clean column ⟨more, err⟩ := by
  constructor
  · exact fun all position low high mem => all position low high (List.mem_append_right _ mem)
  · intro all position low high mem
    rcases List.mem_append.mp mem with mem | mem
    · exact clean position low high mem
    · exact all position low high mem

/-- In a loop without an end the elements are come by soon. -/
theorem endless_touches (fits : column.Fits) {n skip : Int} (below : n < -column.modvalue)
    (apart : ¬(column.modvalue : Int) ∣ n) :
    Run.Clean column ⟨(fillRange column.modvalue n n skip).1, true⟩ ↔
      ¬(0 < skip ∧ skip < 1024) := by
  have positive : (0 : Int) < column.modvalue := Int.natCast_pos.mpr fits.positive
  have small := fits.small
  have negative : n.tmod column.modvalue < 0 := (tmod_neg positive).mpr ⟨by omega, apart⟩
  have large : -column.modvalue < n.tmod column.modvalue := by
    have other := Int.tmod_lt_of_pos (-n) positive
    rw [Int.neg_tmod] at other
    omega
  have filled (x : Int) : x ∈ (fillRange column.modvalue n n skip).1 ↔ _ :=
    (fillRange_endless fits.positive (.inr below.le)).2 x
  constructor
  · rintro clean ⟨some_, few⟩
    -- the last round in which the counter comes to 0
    obtain ⟨k, rfl⟩ := Int.eq_ofNat_of_zero_le some_.le
    have last := Nat.div_add_mod 1023 k
    have rest := Nat.mod_lt 1023 (Int.natCast_pos.mp some_)
    have once : k ≤ k * (1023 / k) :=
      Nat.le_mul_of_pos_right k (Nat.div_pos (by omega) (Int.natCast_pos.mp some_))
    have inside : ¬n.tmod column.modvalue + (k * (1023 / k) : Nat) < 0 := by
      omega
    refine clean _ ?_ ?_ ((filled _).mpr ⟨k * (1023 / k), by omega,
      .inr ⟨some_, Int.natCast_dvd_natCast.mpr (Nat.dvd_mul_right _ _)⟩, rfl⟩)
    · rw [iterate_next_below negative large, if_neg inside]
      exact Int.emod_nonneg _ positive.ne'
    · rw [iterate_next_below negative large, if_neg inside]
      exact Int.emod_lt_of_pos _ positive
  · intro never position nonneg _ mem
    obtain ⟨j, less, hit, rfl⟩ := (filled position).mp mem
    have first : j = 0 := by
      rcases hit with first | ⟨some_, divides⟩
      · exact first
      · by_contra later
        have := Int.le_of_dvd (by omega) divides
        exact never ⟨some_, by omega⟩
    subst first
    exact absurd nonneg (Int.not_le.mpr negative)

theorem parseLoop_clean_iff (fits : column.Fits) (ptr : Text) (set : List Int)
    (clean : Run.Clean column ⟨set, true⟩)
    (err : (parseLoop column (-1) (-1) set ptr).err = true) :
    (parseLoop column (-1) (-1) set ptr).Clean column ↔ Untouched column ptr := by
  have positive : (0 : Int) < column.modvalue := Int.natCast_pos.mpr fits.positive
  induction ptr using Untouched.induct column generalizing set with
  | case1 ptr none =>
    rw [parseLoop_eq, none]
    exact iff_of_true clean (untouched_none none)
  | case2 ptr n1 n2 behind range ih =>
    rw [parseLoop_eq, range] at err ⊢
    rw [untouched_some range]
    simp only at err ⊢
    have touches (inside : 0 ≤ n1.tmod column.modvalue) :
        ¬(afterRange column set n1 n2 behind).Clean column := by
      intro cleanAfter
      exact cleanAfter (n1.tmod column.modvalue) inside (Int.tmod_lt_of_pos _ positive)
        (mem_afterRange (first_mem_fillRange _ _ _ _))
    rcases readRange_single (fun _ => by decide) range with ⟨nonneg, -⟩ | ⟨same, negative⟩
    · refine iff_of_false (touches (Int.tmod_nonneg _ nonneg)) fun both => ?_
      exact absurd both.1 (Int.not_lt.mpr nonneg)
    · subst same
      by_cases divides : (column.modvalue : Int) ∣ n1
      · refine iff_of_false (touches ?_) fun both => both.2.1 divides
        rw [Int.tmod_eq_zero_of_dvd divides]
      · rw [and_iff_right negative, and_iff_right divides]
        by_cases below : n1 < -column.modvalue
        · have endless := (fillRange_endless fits.positive (.inr below.le) :
            (fillRange column.modvalue n1 n1 (readSkip behind).1).2 = true ∧ _).1
          have ran : afterRange column set n1 n1 behind =
              ⟨set ++ (fillRange column.modvalue n1 n1 (readSkip behind).1).1, true⟩ :=
            if_pos endless
          rw [if_pos below, ran, ← endless_touches fits below divides, Run.clean_append clean]
        · have above : -column.modvalue < n1 := by
            refine lt_of_le_of_ne (Int.not_lt.mp below) fun same => divides ?_
            rw [← same]
            exact Int.dvd_neg.mpr (Int.dvd_refl _)
          have alone : Run.Clean column ⟨set ++ [n1], true⟩ :=
            (Run.clean_append clean).mpr fun position nonneg _ mem => by
              rw [List.mem_singleton.mp mem] at nonneg
              exact absurd negative (Int.not_lt.mpr nonneg)
          rw [if_neg below]
          simp only [afterRange, fillRange_before negative above, Bool.false_eq_true,
            if_false] at err ⊢
          split
          case isTrue comma =>
            rw [if_pos comma] at err
            rw [forall_prop_of_true comma]
            exact ih (set ++ [n1]) alone err
          case isFalse ends => exact iff_of_true alone fun comma => absurd comma ends

/-- A rejected field leaves the array clean exactly if nothing of it was stored there. -/
theorem parseField_clean_iff (column : CrontabColumn) (ptr : Text)
    (err : (parseField column.1 ptr).err = true) :
    (parseField column.1 ptr).Clean column.1 ↔ Untouched column.1 ptr :=
  parseLoop_clean_iff (Column.fits column.2) ptr [] (fun _ _ _ => List.not_mem_nil) err

theorem parseField_letter : (parseField clMins [120]).err = true := by
  rw [parseField, parseLoop_none rfl]

/-- A field that begins with a letter, in the minutes. -/
theorem parseField_letter_clean_iff :
    (parseField clMins [120]).Clean clMins ↔ Untouched clMins [120] :=
  parseField_clean_iff ⟨clMins, List.mem_cons_self⟩ [120] parseField_letter

theorem parseField_five : parseField clMins [53, 120] = ⟨[5], true⟩ := by
  have read : readValue clMins (-1) (-1) [53, 120] = some (5, -1, [120]) := rfl
  rw [parseField, parseLoop_range read (by decide)]
  rfl

/-- Minute 5 is set though a letter is behind it. -/
theorem parseField_not_clean :
    ¬∀ (column : CrontabColumn) (ptr : Text), (parseField column.1 ptr).err = true →
      (parseField column.1 ptr).Clean column.1 := by
  intro all
  have clean := all ⟨clMins, List.mem_cons_self⟩ [53, 120] (by rw [parseField_five])
  rw [parseField_five] at clean
  exact clean 5 (by decide) (by decide) List.mem_cons_self

end Busybox.Crond
