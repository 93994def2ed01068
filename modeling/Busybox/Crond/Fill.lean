import Mathlib.Data.Int.ModEq
import Mathlib.Data.List.Iterate
import Busybox.Libbb.Xatonum

/-!
# The fields of a crontab line

`ParseField` reads a field and sets the elements of the array for it on the way. What it stores is
kept here as the list of the indices, which need not be in the array.
-/

namespace Busybox.Crond

open Libbb.Xatonum (Text)
open Libbb.Strtol (isdigit strtol strtol_length strtol_length_le)

/-- The array of a field, and how its values are written. -/
structure Column where
  modvalue : Nat
  off : Int
  names : List Text
  deriving DecidableEq

def DowAry : List Text :=
  [ascii "sun", ascii "mon", ascii "tue", ascii "wed", ascii "thu", ascii "fri", ascii "sat"]

def MonAry : List Text :=
  [ascii "jan", ascii "feb", ascii "mar", ascii "apr", ascii "may", ascii "jun", ascii "jul",
    ascii "aug", ascii "sep", ascii "oct", ascii "nov", ascii "dec"]

/-- The calls of `ParseField`. -/
def clMins : Column := ⟨60, 0, []⟩
def clHrs : Column := ⟨24, 0, []⟩
def clDays : Column := ⟨32, 0, []⟩
def clMons : Column := ⟨12, -1, MonAry⟩
def clDow : Column := ⟨7, 0, DowAry⟩

/-- An `int`: the low 32 bits, signed. -/
def int (value : Int) : Int := value.bmod (2 ^ 32)

/-! ## The array is filled -/

/-- The loop, with the rounds that `failsafe` leaves: the indices, and whether it goes to `err`. -/
def fill (modvalue : Nat) (n2 skip : Int) : Nat → Int → Int → List Int × Bool
  | 0, _, _ => ([], true)
  | failsafe + 1, n1, s0 =>
    let n1 := (n1 + 1).tmod modvalue
    let s0 := s0 - 1
    let set := if s0 = 0 then [n1.tmod modvalue] else []
    let s0 := if s0 = 0 then skip else s0
    if failsafe = 0 then (set, true)
    else if n1 ≠ n2 then
      let (more, err) := fill modvalue n2 skip failsafe n1 s0
      (set ++ more, err)
    else (set, false)

def fillRange (modvalue : Nat) (n1 n2 skip : Int) : List Int × Bool :=
  fill modvalue n2 skip 1024 (n1 - 1) 1

/-! ## The field is read -/

def tolower (c : UInt8) : UInt8 := if 65 ≤ c ∧ c ≤ 90 then c + 32 else c

/-- `strncasecmp(ptr, name, 3) == 0` -/
def sameName (ptr name : Text) : Bool := (ptr.take 3).map tolower == name

/-- "Handle numeric digit or symbol or '*'"; none if there is no such thing. -/
def readValue (column : Column) (n1 n2 : Int) (ptr : Text) : Option (Int × Int × Text) :=
  match ptr with
  | [] => none
  | c :: rest =>
    if c = 42 then some (0, column.modvalue - 1, rest)
    else if isdigit c then
      let n := int ((strtol ptr).1 + column.off)
      if n1 < 0 then some (n, n2, (strtol ptr).2) else some (n1, n, (strtol ptr).2)
    else
      (column.names.findIdx? (sameName ptr)).map fun (i : Nat) =>
        if n1 < 0 then ((i : Int), n2, ptr.drop 3) else (n1, (i : Int), ptr.drop 3)

/-- "handle skipmark" -/
def readSkip : Text → Int × Text
  | 47 :: ptr => (int (strtol ptr).1, (strtol ptr).2)
  | ptr => (1, ptr)

/-- The indices that were set, and whether there was a parse error. -/
structure Run where
  set : List Int
  err : Bool
  deriving DecidableEq

theorem readValue_length {column : Column} {n1 n2 m1 m2 : Int} {ptr rest : Text}
    (read : readValue column n1 n2 ptr = some (m1, m2, rest)) : rest.length < ptr.length := by
  unfold readValue at read
  split at read
  case h_1 => cases read
  case h_2 c ptr =>
    split at read
    · cases read
      exact Nat.lt_succ_self _
    · split at read
      case isTrue digit =>
        have behind := strtol_length digit ptr
        split at read <;> cases read <;> exact behind
      case isFalse =>
        obtain ⟨i, -, isRest⟩ := Option.map_eq_some_iff.mp read
        split at isRest <;> cases isRest <;>
          rw [List.length_drop, List.length_cons] <;> omega

theorem readSkip_length (ptr : Text) : (readSkip ptr).2.length ≤ ptr.length := by
  unfold readSkip
  split
  · exact (strtol_length_le _).trans (Nat.le_succ _)
  · exact Nat.le_refl _

/-- The loop over the field, with what has been set until now. -/
def parseLoop (column : Column) (n1 n2 : Int) (set : List Int) (ptr : Text) : Run :=
  match _read : readValue column n1 n2 ptr with
  | none => ⟨set, true⟩
  | some (n1, n2, rest) =>
    -- "handle optional range '-'"
    if rest.head? = some 45 ∧ n2 < 0 then parseLoop column n1 n2 set rest.tail
    else
      -- "collapse single-value ranges"
      let n2 := if n2 < 0 then n1 else n2
      let filled := fillRange column.modvalue n1 n2 (readSkip rest).1
      if filled.2 then ⟨set ++ filled.1, true⟩
      else if (readSkip rest).2.head? = some 44 then
        parseLoop column (-1) (-1) (set ++ filled.1) (readSkip rest).2.tail
      else ⟨set ++ filled.1, (readSkip rest).2 ≠ []⟩
termination_by ptr.length
decreasing_by
  · have shorter := readValue_length _read
    rw [List.length_tail]
    omega
  · have shorter := readValue_length _read
    have behind := readSkip_length rest
    rw [List.length_tail]
    omega

def parseField (column : Column) (ptr : Text) : Run := parseLoop column (-1) (-1) [] ptr

/-!
## What the fill loop sets

The loop goes round from one index to the next, whatever is set. The counter picks every so many-th
of them, beginning with the first.
-/

/-! ## Every so many-th -/

/-- The items at which the counter comes to 0. -/
def marks {α : Type*} (skip : Int) : Int → List α → List α
  | _, [] => []
  | s0, item :: items =>
    if s0 - 1 = 0 then item :: marks skip skip items else marks skip (s0 - 1) items

/-- The counter comes to 0 again after `skip` items, or never. -/
def Hit (skip : Int) (j : Nat) : Prop := j = 0 ∨ 0 < skip ∧ skip ∣ j

theorem mem_marks_from {α : Type*} {skip s0 : Int} {items : List α} {x : α} :
    x ∈ marks skip s0 items ↔ ∃ j : Nat, items[j]? = some x ∧
      (s0 = j + 1 ∨ 1 ≤ s0 ∧ s0 < j + 1 ∧ 0 < skip ∧ skip ∣ j + 1 - s0) := by
  induction items generalizing s0 with
  | nil => simp [marks]
  | cons item items ih =>
    have split (p : Nat → Prop) : (∃ j, (item :: items)[j]? = some x ∧ p j) ↔
        item = x ∧ p 0 ∨ ∃ j, items[j]? = some x ∧ p (j + 1) := by
      constructor
      · rintro ⟨_ | j, at_, holds⟩
        · exact .inl ⟨Option.some.inj at_, holds⟩
        · exact .inr ⟨j, at_, holds⟩
      · rintro (⟨rfl, holds⟩ | ⟨j, at_, holds⟩)
        · exact ⟨0, rfl, holds⟩
        · exact ⟨j + 1, at_, holds⟩
    rw [split, marks]
    by_cases now : s0 - 1 = 0
    · obtain rfl : s0 = 1 := by omega
      rw [if_pos now, List.mem_cons, ih]
      refine or_congr ?_ (exists_congr fun j => and_congr_right fun _ => ?_)
      · exact ⟨fun same => ⟨same.symm, .inl rfl⟩, fun both => both.1.symm⟩
      · have shift : ((j + 1 : Nat) : Int) + 1 - 1 = j + 1 := by omega
        rw [shift]
        constructor
        · rintro (first | ⟨positive, -, -, divides⟩)
          · exact .inr ⟨le_refl _, by omega, by omega, first ▸ Int.dvd_refl _⟩
          · refine .inr ⟨le_refl _, by omega, by omega, ?_⟩
            simpa using Int.dvd_add divides (Int.dvd_refl skip)
        · rintro (first | ⟨-, -, positive, divides⟩)
          · omega
          · have large := Int.le_of_dvd (by omega) divides
            rcases eq_or_lt_of_le large with same | less
            · exact .inl same
            · exact .inr ⟨by omega, less, positive, Int.dvd_sub divides (Int.dvd_refl skip)⟩
    · rw [if_neg now, ih]
      have first : ¬(item = x ∧ (s0 = ((0 : Nat) : Int) + 1 ∨ 1 ≤ s0 ∧ s0 < ((0 : Nat) : Int) + 1 ∧
          0 < skip ∧ skip ∣ ((0 : Nat) : Int) + 1 - s0)) := by
        rintro ⟨-, here⟩
        omega
      rw [or_iff_right first]
      refine exists_congr fun j => and_congr_right fun _ => ?_
      have shift : ((j + 1 : Nat) : Int) + 1 - s0 = (j : Int) + 1 - (s0 - 1) := by omega
      rw [shift]
      refine or_congr (by omega) ?_
      constructor
      · rintro ⟨low, high, rest⟩
        exact ⟨by omega, by omega, rest⟩
      · rintro ⟨low, high, rest⟩
        exact ⟨by omega, by omega, rest⟩

theorem mem_marks {α : Type*} {skip : Int} {items : List α} {x : α} :
    x ∈ marks skip 1 items ↔ ∃ j : Nat, items[j]? = some x ∧ Hit skip j := by
  rw [mem_marks_from]
  refine exists_congr fun j => and_congr_right fun _ => ?_
  have shift : (j : Int) + 1 - 1 = j := by omega
  rw [shift, Hit]
  constructor
  · rintro (first | ⟨-, -, rest⟩)
    · exact .inl (by omega)
    · exact .inr rest
  · rintro (first | ⟨positive, divides⟩)
    · exact .inl (by omega)
    · by_cases zero : j = 0
      · exact .inl (by omega)
      · exact .inr ⟨le_refl _, by omega, positive, divides⟩

/-! ## The indices one after another -/

/-- `n1 = (n1 + 1) % modvalue` -/
def next (modvalue : Nat) (n1 : Int) : Int := (n1 + 1).tmod modvalue

/-- The indices that the loop comes by, and whether it goes to `err`. -/
def visited (modvalue : Nat) (n2 : Int) : Nat → Int → List Int × Bool
  | 0, _ => ([], true)
  | failsafe + 1, n1 =>
    if failsafe = 0 then ([next modvalue n1], true)
    else if next modvalue n1 ≠ n2 then
      (next modvalue n1 :: (visited modvalue n2 failsafe (next modvalue n1)).1,
        (visited modvalue n2 failsafe (next modvalue n1)).2)
    else ([next modvalue n1], false)

theorem fill_eq (modvalue : Nat) (n2 skip : Int) (failsafe : Nat) (n1 s0 : Int) :
    fill modvalue n2 skip failsafe n1 s0 =
      (marks skip s0 (visited modvalue n2 failsafe n1).1,
        (visited modvalue n2 failsafe n1).2) := by
  induction failsafe generalizing n1 s0 with
  | zero => rfl
  | succ failsafe ih =>
    have same : ((n1 + 1).tmod modvalue).tmod modvalue = next modvalue n1 := Int.tmod_tmod _ _
    have again := ih (next modvalue n1) (if s0 - 1 = 0 then skip else s0 - 1)
    rw [fill, visited]
    simp only [same]
    rw [← next, again]
    by_cases last : failsafe = 0
    · by_cases now : s0 - 1 = 0 <;> simp [last, marks, now]
    · by_cases more : next modvalue n1 ≠ n2
      · by_cases now : s0 - 1 = 0 <;> simp [last, more, marks, now]
      · by_cases now : s0 - 1 = 0 <;> simp [last, more, marks, now]

/-- The loop ends where it meets `n2`. -/
theorem visited_meets {modvalue : Nat} {n2 : Int} (len : Nat) {failsafe : Nat} {n1 : Int}
    (before : ∀ j < len, (next modvalue)^[j] (next modvalue n1) ≠ n2)
    (meets : (next modvalue)^[len] (next modvalue n1) = n2) (enough : len + 1 < failsafe) :
    visited modvalue n2 failsafe n1 =
      (List.iterate (next modvalue) (next modvalue n1) (len + 1), false) := by
  induction len generalizing failsafe n1 with
  | zero =>
    obtain ⟨failsafe, rfl⟩ := Nat.exists_eq_add_of_lt enough
    have meets : next modvalue n1 = n2 := meets
    rw [visited, if_neg (by omega), if_neg (not_not_intro meets)]
    rfl
  | succ len ih =>
    obtain ⟨failsafe, rfl⟩ := Nat.exists_eq_succ_of_ne_zero (Nat.ne_zero_of_lt enough)
    have notYet : next modvalue n1 ≠ n2 := before 0 (Nat.succ_pos len)
    have rest : visited modvalue n2 failsafe (next modvalue n1) = _ :=
      ih (fun j less => before (j + 1) (Nat.succ_lt_succ less)) meets (by omega)
    rw [visited, if_neg (by omega), if_pos notYet, rest]
    rfl

/-- Where it does not, the failsafe ends it. -/
theorem visited_endless {modvalue : Nat} {n2 : Int} (failsafe : Nat) {n1 : Int}
    (never : ∀ j, (next modvalue)^[j] (next modvalue n1) ≠ n2) :
    visited modvalue n2 failsafe n1 =
      (List.iterate (next modvalue) (next modvalue n1) failsafe, true) := by
  induction failsafe generalizing n1 with
  | zero => rfl
  | succ failsafe ih =>
    have notYet : next modvalue n1 ≠ n2 := never 0
    have rest : visited modvalue n2 failsafe (next modvalue n1) = _ := ih fun j => never (j + 1)
    rw [visited, if_pos notYet, rest]
    cases failsafe with
    | zero => rfl
    | succ failsafe => rfl

/-! ## Where the indices are -/

variable {modvalue : Nat}

theorem iterate_next {r : Int} (nonneg : 0 ≤ r) (small : r < modvalue) (j : Nat) :
    (next modvalue)^[j] r = (r + j) % modvalue := by
  induction j with
  | zero =>
    rw [Function.iterate_zero_apply, Nat.cast_zero, Int.add_zero]
    exact (Int.emod_eq_of_lt nonneg small).symm
  | succ j ih =>
    have positive : (0 : Int) < modvalue := by omega
    rw [Function.iterate_succ_apply', ih, next,
      Int.tmod_eq_emod_of_nonneg (Int.add_nonneg (Int.emod_nonneg _ positive.ne') (by decide)),
      Int.emod_add_emod]
    congr 1
    omega

/-- Below 0 the indices go up to 0 first. -/
theorem iterate_next_below {r : Int} (negative : r < 0) (large : -modvalue < r) (j : Nat) :
    (next modvalue)^[j] r = if r + j < 0 then r + j else (r + j) % modvalue := by
  induction j with
  | zero => simp [negative]
  | succ j ih =>
    have positive : (0 : Int) < modvalue := by omega
    rw [Function.iterate_succ_apply', ih, next]
    by_cases below : r + j < 0
    · rw [if_pos below]
      by_cases still : r + (j + 1 : Nat) < 0
      · have negated : r + j + 1 = -(-(r + j + 1)) := by omega
        rw [if_pos still, negated, Int.neg_tmod, Int.tmod_eq_of_lt (by omega) (by omega)]
        omega
      · have zero : r + j + 1 = 0 := by omega
        have zero' : r + (j + 1 : Nat) = 0 := by omega
        rw [if_neg still, zero, zero', Int.zero_tmod, Int.zero_emod]
    · rw [if_neg below, if_neg (by omega),
        Int.tmod_eq_emod_of_nonneg (Int.add_nonneg (Int.emod_nonneg _ positive.ne') (by decide)),
        Int.emod_add_emod]
      congr 1
      omega

/-! ## A range -/

theorem fillRange_eq (modvalue : Nat) (n1 n2 skip : Int) :
    fillRange modvalue n1 n2 skip =
      (marks skip 1 (visited modvalue n2 1024 (n1 - 1)).1,
        (visited modvalue n2 1024 (n1 - 1)).2) :=
  fill_eq modvalue n2 skip 1024 (n1 - 1) 1

theorem next_pred (modvalue : Nat) (n1 : Int) : next modvalue (n1 - 1) = n1.tmod modvalue := by
  rw [next, Int.sub_add_cancel]

theorem mem_marks_iterate {skip : Int} {f : Int → Int} {r x : Int} {count : Nat} :
    x ∈ marks skip 1 (List.iterate f r count) ↔ ∃ j < count, Hit skip j ∧ f^[j] r = x := by
  rw [mem_marks]
  refine exists_congr fun j => ?_
  constructor
  · rintro ⟨at_, hit⟩
    obtain ⟨inside, same⟩ := List.getElem?_eq_some_iff.mp at_
    rw [List.getElem_iterate] at same
    rw [List.length_iterate] at inside
    exact ⟨inside, hit, same⟩
  · rintro ⟨inside, hit, same⟩
    exact ⟨(List.getElem?_iterate f r count j inside).trans (congrArg some same), hit⟩

/-- Between two indices every so many-th is set, round the end of the array. -/
theorem fillRange_within {n1 n2 skip : Int} (first : 0 ≤ n1) (last : 0 ≤ n2) (small : n2 < modvalue)
    (few : modvalue < 1024) :
    (fillRange modvalue n1 n2 skip).2 = false ∧
      ∀ x, x ∈ (fillRange modvalue n1 n2 skip).1 ↔
        ∃ j : Nat, j ≤ (n2 - n1) % modvalue ∧ Hit skip j ∧ (n1 + j) % modvalue = x := by
  have positive : (0 : Int) < modvalue := by omega
  have start : next modvalue (n1 - 1) = n1 % modvalue := by
    rw [next_pred, Int.tmod_eq_emod_of_nonneg first]
  have step (j : Nat) : (next modvalue)^[j] (n1 % modvalue) = (n1 + j) % modvalue := by
    rw [iterate_next (Int.emod_nonneg _ positive.ne') (Int.emod_lt_of_pos _ positive),
      Int.emod_add_emod]
  obtain ⟨len, isLen⟩ := Int.eq_ofNat_of_zero_le (Int.emod_nonneg (n2 - n1) positive.ne')
  have short : (len : Int) < modvalue := isLen ▸ Int.emod_lt_of_pos _ positive
  have meets : (next modvalue)^[len] (n1 % modvalue) = n2 := by
    have there : n1 + (n2 - n1) = n2 := by omega
    rw [step, ← isLen, Int.add_emod_emod, there, Int.emod_eq_of_lt last small]
  have before : ∀ j < len, (next modvalue)^[j] (n1 % modvalue) ≠ n2 := by
    intro j less same
    have apart : ((j : Int) - len) % modvalue = 0 := by
      have both : (n1 + j) % modvalue = (n1 + len) % modvalue :=
        (step j).symm.trans (same.trans (meets.symm.trans (step len)))
      have difference : (n1 + j) - (n1 + len) = (j : Int) - len := by omega
      rw [← difference]
      exact Int.emod_eq_emod_iff_emod_sub_eq_zero.mp both
    obtain ⟨k, isMultiple⟩ := Int.dvd_of_emod_eq_zero apart
    have below : k < 0 := by
      by_contra nonneg
      have := Int.mul_nonneg positive.le (Int.not_lt.mp nonneg)
      omega
    have large : modvalue * k ≤ modvalue * (-1) :=
      Int.mul_le_mul_of_nonneg_left (by omega) positive.le
    omega
  rw [fillRange_eq, visited_meets len (start ▸ before) (start ▸ meets) (by omega), start]
  refine ⟨rfl, fun x => ?_⟩
  rw [mem_marks_iterate]
  refine exists_congr fun j => and_congr (by omega) (and_congr_right fun _ => ?_)
  rw [step]

/-- Beyond the array there is no end. -/
theorem fillRange_endless {n1 n2 skip : Int} (positive : 0 < modvalue)
    (beyond : modvalue ≤ n2 ∨ n2 ≤ -modvalue) :
    (fillRange modvalue n1 n2 skip).2 = true ∧
      ∀ x, x ∈ (fillRange modvalue n1 n2 skip).1 ↔
        ∃ j < 1024, Hit skip j ∧ (next modvalue)^[j] (n1.tmod modvalue) = x := by
  have within (n : Int) : n.tmod modvalue < modvalue ∧ -modvalue < n.tmod modvalue := by
    have positive : (0 : Int) < modvalue := Int.natCast_pos.mpr positive
    have negated := Int.tmod_lt_of_pos (-n) positive
    rw [Int.neg_tmod] at negated
    exact ⟨Int.tmod_lt_of_pos n positive, by omega⟩
  have never : ∀ j, (next modvalue)^[j] (next modvalue (n1 - 1)) ≠ n2 := by
    intro j same
    cases j with
    | zero =>
      have inside := within (n1 - 1 + 1)
      rw [Function.iterate_zero_apply, next] at same
      omega
    | succ j =>
      have inside := within ((next modvalue)^[j] (next modvalue (n1 - 1)) + 1)
      rw [Function.iterate_succ_apply'] at same
      change (_ + 1 : Int).tmod _ = _ at same
      omega
  rw [fillRange_eq, visited_endless 1024 never, next_pred]
  exact ⟨rfl, fun x => mem_marks_iterate⟩

/-- An index before the array is set right away. -/
theorem fillRange_before {n skip : Int} (negative : n < 0) (large : -modvalue < n) :
    fillRange modvalue n n skip = ([n], false) := by
  have start : next modvalue (n - 1) = n := by
    have negated : n = -(-n) := by omega
    rw [next_pred, negated, Int.neg_tmod, Int.tmod_eq_of_lt (by omega) (by omega)]
  rw [fillRange_eq, visited_meets 0 (fun j less => absurd less (Nat.not_lt_zero j)) start
    (by decide), start]
  rfl

end Busybox.Crond
