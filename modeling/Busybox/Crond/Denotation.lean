import Busybox.Crond.Fields

/-!
# What a field sets

A field sets what it denotes unless a number comes out of range: one that is negative as an `int`
is stored before the array or passes for none, and one that is too large is let off where only the
other end of its range is looked at.
-/

namespace Busybox.Crond

open Libbb.Strtol (Digits LONG_MAX)

variable {column : Column}

/-! ## One member -/

/-- The first index that is set for a member is before the array. -/
def Member.Outside (member : Member column) : Prop :=
  member.base.ends.1 < 0 ∧ ¬(column.modvalue : Int) ∣ member.base.ends.1

/-- What a range holds with a step that is an `int`. -/
def reaches (modvalue : Nat) (bounds : Int × Int) (skip position : Int) : Prop :=
  ∃ j : Nat, j ≤ (bounds.2 - bounds.1) % modvalue ∧ Hit skip j ∧
    (bounds.1 + j) % modvalue = position

theorem reaches_inside {modvalue : Nat} {bounds : Int × Int} {skip position : Int}
    (positive : (0 : Int) < modvalue) (reached : reaches modvalue bounds skip position) :
    0 ≤ position ∧ position < modvalue := by
  obtain ⟨j, -, -, rfl⟩ := reached
  exact ⟨Int.emod_nonneg _ positive.ne', Int.emod_lt_of_pos _ positive⟩

theorem Member.mem_filled (fits : column.Fits) {member : Member column}
    (ends : ¬member.Endless) (inside : ¬member.Outside) (position : Int) :
    position ∈ member.filled.1 ↔
      reaches column.modvalue member.base.ends member.skip position := by
  rw [Endless, not_or, Int.not_le, Int.not_le] at ends
  rcases member.base.ends_cases fits with ⟨first, last⟩ | ⟨same, negative⟩
  · exact (fillRange_within first last ends.1 (fits.small.trans (by decide))).2 position
  · refine absurd ⟨negative, fun divides => ?_⟩ inside
    have small := Int.eq_zero_of_abs_lt_dvd divides (by rw [abs_of_neg negative]; omega)
    omega

theorem tmod_neg {n m : Int} (positive : 0 < m) : n.tmod m < 0 ↔ n < 0 ∧ ¬m ∣ n := by
  constructor
  · intro negative
    refine ⟨Int.not_le.mp fun nonneg => ?_, fun divides => ?_⟩
    · exact absurd (Int.tmod_nonneg m nonneg) (Int.not_le.mpr negative)
    · rw [Int.tmod_eq_zero_of_dvd divides] at negative
      exact absurd negative (lt_irrefl 0)
  · rintro ⟨negative, divides⟩
    have negated : n = -(-n) := (Int.neg_neg n).symm
    have rest : (-n) % m ≠ 0 := fun zero =>
      divides ((Int.dvd_neg).mp (Int.dvd_of_emod_eq_zero zero))
    have nonneg := Int.emod_nonneg (-n) positive.ne'
    rw [negated, Int.neg_tmod, Int.tmod_eq_emod_of_nonneg (by omega)]
    omega

/-- All that is set for a member is in the array unless its first index is not. -/
theorem Member.filled_inside (fits : column.Fits) (member : Member column) :
    (∀ x ∈ member.filled.1, 0 ≤ x ∧ x < column.modvalue) ↔ ¬member.Outside := by
  have positive : (0 : Int) < column.modvalue := Int.natCast_pos.mpr fits.positive
  have remainder (x : Int) : 0 ≤ x % column.modvalue ∧ x % column.modvalue < column.modvalue :=
    ⟨Int.emod_nonneg x positive.ne', Int.emod_lt_of_pos x positive⟩
  by_cases endless : member.Endless
  · have filled (x : Int) : x ∈ member.filled.1 ↔ _ :=
      (fillRange_endless fits.positive endless).2 x
    have first : member.base.ends.1.tmod column.modvalue < 0 ↔ member.Outside :=
      tmod_neg positive
    constructor
    · intro inside outside
      have start := inside _ ((filled _).mpr ⟨0, by decide, .inl rfl, rfl⟩)
      exact absurd start.1 (Int.not_le.mpr (first.mpr outside))
    · intro inside x mem
      obtain ⟨j, -, -, rfl⟩ := (filled x).mp mem
      rw [iterate_next (Int.not_lt.mp fun negative => inside (first.mp negative))
        (Int.tmod_lt_of_pos _ positive)]
      exact remainder _
  · have range := endless
    rw [Endless, not_or, Int.not_le, Int.not_le] at range
    rcases member.base.ends_cases fits with ⟨nonneg, last⟩ | ⟨same, negative⟩
    · have inside : ¬member.Outside := fun outside => absurd nonneg (Int.not_le.mpr outside.1)
      refine iff_of_true (fun x mem => ?_) inside
      obtain ⟨j, -, -, rfl⟩ := (member.mem_filled fits endless inside x).mp mem
      exact remainder _
    · have alone : member.filled = ([member.base.ends.1], false) := by
        rw [filled, ← same, fillRange_before negative (same ▸ range.2)]
      have outside : member.Outside := by
        refine ⟨negative, fun divides => ?_⟩
        have small := Int.eq_zero_of_abs_lt_dvd divides (by rw [abs_of_neg negative]; omega)
        omega
      refine iff_of_false (fun inside => ?_) (not_not_intro outside)
      have start := inside member.base.ends.1 (by rw [alone]; exact List.mem_singleton_self _)
      exact absurd start.1 (Int.not_le.mpr negative)

/-! ## Values in range -/

theorem int_small {n : Int} (low : -1 ≤ n) (high : n < 1024) : int n = n :=
  Int.bmod_eq_of_le (by omega) (by omega)

theorem Value.read_eq (fits : column.Fits) {value : Value column} (low : 0 ≤ value.index)
    (high : value.index < column.modvalue) : value.read = value.index := by
  have small := fits.small
  have off := fits.off
  cases value with
  | number digits =>
    simp only [index] at low high
    have exact_ : min (digits.value : Int) LONG_MAX = digits.value :=
      min_eq_left (by rw [LONG_MAX]; omega)
    simp only [read, index, exact_]
    exact int_small (by omega) (by omega)
  | name => rfl

/-- Values in range are read as what they are. -/
theorem Member.ends_eq (fits : column.Fits) {member : Member column} (inRange : member.InRange) :
    member.base.ends = member.base.bounds := by
  unfold InRange at inRange
  cases isBase : member.base with
  | all => rfl
  | single value =>
    rw [isBase] at inRange
    have here := inRange value List.mem_cons_self
    rw [Base.ends, Base.bounds, value.read_eq fits here.1 here.2]
  | range first last =>
    rw [isBase] at inRange
    have isFirst := inRange first List.mem_cons_self
    have isLast := inRange last (List.mem_cons_of_mem _ List.mem_cons_self)
    rw [Base.ends, Base.bounds, first.read_eq fits isFirst.1 isFirst.2,
      last.read_eq fits isLast.1 isLast.2, if_neg (Int.not_lt.mpr isFirst.1),
      if_neg (Int.not_lt.mpr isLast.1)]

/-- What is denoted is also there with the step as an `int`. -/
theorem Member.Denotes.reaches (fits : column.Fits) {member : Member column} {position : Int}
    (denotes : member.Denotes position) :
    reaches column.modvalue member.base.bounds member.skip position := by
  obtain ⟨j, inLength, divides, same⟩ := denotes
  refine ⟨j, inLength, ?_, same⟩
  have positive : (0 : Int) < column.modvalue := Int.natCast_pos.mpr fits.positive
  have short := Int.emod_lt_of_pos (member.base.bounds.2 - member.base.bounds.1) positive
  have small := fits.small
  cases isStep : member.step with
  | none =>
    rw [skip, isStep]
    exact .inr ⟨by decide, Int.one_dvd _⟩
  | some digits =>
    rw [isStep] at divides
    by_cases zero : j = 0
    · exact .inl zero
    · have few := Nat.le_of_dvd (Nat.pos_of_ne_zero zero) divides
      have some_ := Nat.pos_of_dvd_of_pos divides (Nat.pos_of_ne_zero zero)
      simp only [Option.elim_some] at few some_ divides
      have exact_ : min (digits.value : Int) LONG_MAX = digits.value :=
        min_eq_left (by rw [LONG_MAX]; omega)
      rw [skip, isStep, Option.elim_some, exact_, int_small (by omega) (by omega)]
      exact .inr ⟨by omega, Int.natCast_dvd_natCast.mpr divides⟩

/-! ## The field -/

/-- Nothing is stored outside the array, and without a parse error what is denoted is set. -/
structure Field.Exact (field : Field column) : Prop where
  inside : ∀ i ∈ (parseField column field.text).set, 0 ≤ i ∧ i < column.modvalue
  denoted : (parseField column field.text).err = false →
    ∀ position : Int, 0 ≤ position → position < column.modvalue →
      (position ∈ (parseField column field.text).set ↔ field.Denotes position)

/-- The members up to the first one without an end begin in the array. If all of them end, their
values are in range, and a step that comes out as another `int` holds nothing else. -/
structure Field.Honoured (field : Field column) : Prop where
  inside : ∀ member ∈ reached field.1, ¬member.Outside
  values : (∀ member ∈ field.1, ¬member.Endless) → ∀ member ∈ field.1, member.InRange
  steps : (∀ member ∈ field.1, ¬member.Endless) → ∀ member ∈ field.1, ∀ position,
    reaches column.modvalue member.base.bounds member.skip position →
      ∃ other ∈ field.1, other.Denotes position

theorem reached_of_ends {members : List (Member column)}
    (ends : ∀ member ∈ members, ¬member.Endless) : reached members = members := by
  induction members with
  | nil => rfl
  | cons member members ih =>
    rw [reached, if_neg (ends member List.mem_cons_self),
      ih fun other mem => ends other (List.mem_cons_of_mem _ mem)]

theorem reached_head (member : Member column) (members : List (Member column)) :
    member ∈ reached (member :: members) := by
  rw [reached]
  split <;> exact List.mem_cons_self

theorem Field.set_inside (fits : column.Fits) (field : Field column) :
    (∀ i ∈ (parseField column field.text).set, 0 ≤ i ∧ i < column.modvalue) ↔
      ∀ member ∈ reached field.1, ¬member.Outside := by
  rw [parseField_text fits]
  constructor
  · intro inside member mem
    exact (member.filled_inside fits).mp fun x isFilled =>
      inside x (List.mem_flatMap.mpr ⟨member, mem, isFilled⟩)
  · intro inside x mem
    obtain ⟨member, isReached, isFilled⟩ := List.mem_flatMap.mp mem
    exact (member.filled_inside fits).mpr (inside member isReached) x isFilled

/-- Where all members end, the field sets what they reach. -/
theorem Field.mem_set (fits : column.Fits) {field : Field column}
    (ends : ∀ member ∈ field.1, ¬member.Endless) (inside : ∀ member ∈ field.1, ¬member.Outside)
    (position : Int) :
    position ∈ (parseField column field.text).set ↔
      ∃ member ∈ field.1, reaches column.modvalue member.base.ends member.skip position := by
  rw [parseField_text fits, reached_of_ends ends, List.mem_flatMap]
  refine exists_congr fun member => and_congr_right fun mem => ?_
  exact member.mem_filled fits (ends member mem) (inside member mem) position

/-- A field is read as it is meant exactly if its numbers come out as they are. -/
theorem parseField_exact_iff (column : CrontabColumn) (field : Field column.1) :
    field.Exact ↔ field.Honoured := by
  have fits := Column.fits column.2
  have noErr : (parseField column.1 field.text).err = false ↔
      ∀ member ∈ field.1, ¬member.Endless := by
    rw [parseField_text fits]
    simp
  have positive : (0 : Int) < column.1.modvalue := Int.natCast_pos.mpr fits.positive
  constructor
  · intro exact_
    have inside := (field.set_inside fits).mp exact_.inside
    have set (ends : ∀ member ∈ field.1, ¬member.Endless) (position : Int) :
        (∃ member ∈ field.1, reaches column.1.modvalue member.base.ends member.skip position) ↔
          field.Denotes position := by
      have here := exact_.denoted (noErr.mpr ends) position
      rw [field.mem_set fits ends (reached_of_ends ends ▸ inside)] at here
      constructor
      · rintro ⟨member, mem, reached⟩
        have bounds := reaches_inside positive reached
        exact (here bounds.1 bounds.2).mp ⟨member, mem, reached⟩
      · rintro ⟨values, member, mem, denotes⟩
        have bounds := reaches_inside positive (denotes.reaches fits)
        exact (here bounds.1 bounds.2).mpr ⟨values, member, mem, denotes⟩
    have values (ends : ∀ member ∈ field.1, ¬member.Endless) :
        ∀ member ∈ field.1, member.InRange := by
      obtain ⟨member, mem⟩ := List.exists_mem_of_ne_nil _ field.2
      have start : reaches column.1.modvalue member.base.ends member.skip
          ((member.base.ends.1 + (0 : Nat)) % column.1.modvalue) :=
        ⟨0, Int.emod_nonneg _ positive.ne', .inl rfl, rfl⟩
      exact ((set ends _).mp ⟨member, mem, start⟩).1
    refine ⟨inside, values, fun ends member mem position reached => ?_⟩
    have same := Member.ends_eq fits (values ends member mem)
    exact ((set ends position).mp ⟨member, mem, same ▸ reached⟩).2
  · intro honoured
    refine ⟨(field.set_inside fits).mpr honoured.inside, fun noError position _ _ => ?_⟩
    have ends := noErr.mp noError
    have values := honoured.values ends
    have inside : ∀ member ∈ field.1, ¬member.Outside := reached_of_ends ends ▸ honoured.inside
    rw [field.mem_set fits ends inside]
    constructor
    · rintro ⟨member, mem, reached⟩
      rw [Member.ends_eq fits (values member mem)] at reached
      exact ⟨values, honoured.steps ends member mem position reached⟩
    · rintro ⟨-, member, mem, denotes⟩
      refine ⟨member, mem, ?_⟩
      rw [Member.ends_eq fits (values member mem)]
      exact denotes.reaches fits

/-- Month 0 is stored before the array. -/
theorem parseField_month_zero :
    ¬∀ (column : CrontabColumn) (field : Field column.1), field.Exact := by
  intro all
  let digit : Digits := ⟨[48], List.cons_ne_nil _ _, List.forall_mem_singleton.mpr rfl⟩
  let zero : Member clMons := ⟨.single (.number digit), none⟩
  have exact_ := all ⟨clMons, by decide⟩ ⟨[zero], List.cons_ne_nil _ _⟩
  have outside := (Field.set_inside (Column.fits (by decide)) _).mp exact_.inside zero
    (reached_head zero [])
  have below : zero.base.ends.1 = -1 := rfl
  exact outside ⟨by rw [below]; decide, by rw [below]; decide⟩

end Busybox.Crond
