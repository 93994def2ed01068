import Mathlib.Data.List.Destutter
import Mathlib.Data.Int.Order.Basic

/-!
# Comparators and sorting with them

A comparator answers with an `Ordering`; a C comparison function answers with the
sign of an integer, or not at all. Comparators are mirrored and chained, and a
list sorted by one keeps exactly one value of each class when its repeats are
dropped. `Sorts` says what a sorting routine owes to a comparison function that
is consistent with some comparator on the values it is given.
-/

namespace Busybox.Comparators

variable {α β : Type*} {order : α → α → Ordering}

/-- The comparator, or its mirror image. -/
def directed (reversed : Bool) (order : α → α → Ordering) (x y : α) : Ordering :=
  if reversed then order y x else order x y

theorem directed_transCmp (reversed : Bool) [Std.TransCmp order] :
    Std.TransCmp (directed reversed order) := by
  cases reversed
  · exact (inferInstance : Std.TransCmp order)
  · exact (inferInstance : Std.TransCmp fun x y => order y x)

/-- The answer, or its opposite. -/
def turned (reversed : Bool) (answer : Ordering) : Ordering :=
  if reversed then answer.swap else answer

@[simp] theorem turned_eq_iff {reversed : Bool} {answer : Ordering} :
    turned reversed answer = .eq ↔ answer = .eq := by
  cases reversed <;> cases answer <;> decide

theorem directed_eq_turned (reversed : Bool) [Std.OrientedCmp order] (x y : α) :
    directed reversed order x y = turned reversed (order x y) := by
  cases reversed
  · rfl
  · exact @Std.OrientedCmp.eq_swap _ order _ y x

theorem compareLex_of_eq {first second : α → α → Ordering} {x y : α} (ties : first x y = .eq) :
    compareLex first second x y = second x y := by
  rw [compareLex, ties]
  rfl

theorem compareLex_of_ne {first second : α → α → Ordering} {x y : α} (differ : first x y ≠ .eq) :
    compareLex first second x y = first x y := by
  rw [compareLex]
  cases answer : first x y
  · rfl
  · exact absurd answer differ
  · rfl

/-- The first comparator that tells two values apart decides. -/
def lexAll : List (α → α → Ordering) → α → α → Ordering
  | [] => fun _ _ => .eq
  | order :: rest => compareLex order (lexAll rest)

theorem lexAll_transCmp {orders : List (α → α → Ordering)}
    (each : ∀ order ∈ orders, Std.TransCmp order) : Std.TransCmp (lexAll orders) := by
  induction orders with
  | nil => exact { eq_swap := rfl, isLE_trans := fun _ _ => rfl }
  | cons order rest ih =>
    have first := each order List.mem_cons_self
    have others := ih fun other member => each other (List.mem_cons_of_mem _ member)
    exact (inferInstance : Std.TransCmp (compareLex order (lexAll rest)))

/-- A chain of comparators ties exactly what every one of them ties. -/
theorem lexAll_eq_iff {orders : List (α → α → Ordering)} {x y : α} :
    lexAll orders x y = .eq ↔ ∀ order ∈ orders, order x y = .eq := by
  induction orders with
  | nil => simp [lexAll]
  | cons order rest ih => simp [lexAll, compareLex_eq_eq, ih]

/-- The sign of a C comparison function's answer. -/
def ofSign (answer : Int) : Ordering := compare answer 0

@[simp] theorem ofSign_eq_iff {answer : Int} : ofSign answer = .eq ↔ answer = 0 :=
  Std.LawfulEqOrd.compare_eq_iff_eq

theorem ofSign_neg (answer : Int) : ofSign (-answer) = (ofSign answer).swap := by
  unfold ofSign
  rcases lt_trichotomy answer 0 with negative | rfl | positive
  · rw [compare_lt_iff_lt.2 negative, compare_gt_iff_gt.2 (Int.neg_pos_of_neg negative)]
    rfl
  · rfl
  · rw [compare_gt_iff_gt.2 positive, compare_lt_iff_lt.2 (Int.neg_neg_of_pos positive)]
    rfl

theorem ofSign_turned (reversed : Bool) (answer : Int) :
    ofSign (if reversed then -answer else answer) = turned reversed (ofSign answer) := by
  cases reversed
  · rfl
  · exact ofSign_neg answer

/-- A comparison function's answers on the different values of a list have the signs of
a comparator. -/
def Matches (cmp : α → α → Option Int) (order : α → α → Ordering) (values : List α) : Prop :=
  ∀ x ∈ values, ∀ y ∈ values, x ≠ y → ∃ answer, cmp x y = some answer ∧ ofSign answer = order x y

/-- What a sorting routine owes: on different values, compared by a function that has the
signs of a comparator there, it answers with the same values in that comparator's order.
No order is promised among values that compare equal. -/
def Sorts (qsort : (α → α → Option Int) → List α → Option (List α)) : Prop :=
  ∀ ⦃cmp : α → α → Option Int⦄ ⦃order : α → α → Ordering⦄ ⦃values : List α⦄,
    Std.TransCmp order → values.Nodup → Matches cmp order values →
    ∃ sorted, qsort cmp values = some sorted ∧ sorted.Perm values ∧
      sorted.Pairwise fun x y => order x y ≠ .gt

/-! ## Insertion sort -/

def insertBy (cmp : α → α → Option Int) (value : α) : List α → Option (List α)
  | [] => some [value]
  | next :: rest =>
      (cmp value next).bind fun answer =>
        if answer ≤ 0 then some (value :: next :: rest)
        else (insertBy cmp value rest).map (next :: ·)

def insertionSort (cmp : α → α → Option Int) : List α → Option (List α)
  | [] => some []
  | value :: rest => (insertionSort cmp rest).bind (insertBy cmp value)

theorem ofSign_ne_gt_iff {answer : Int} : ofSign answer ≠ .gt ↔ answer ≤ 0 := by
  rw [ofSign, ne_eq, compare_gt_iff_gt, not_lt]

theorem insertBy_spec {cmp : α → α → Option Int} [Std.TransCmp order] {value : α} {values : List α}
    (different : value ∉ values) (matching : Matches cmp order (value :: values))
    (sorted : values.Pairwise fun x y => order x y ≠ .gt) :
    ∃ result, insertBy cmp value values = some result ∧ result.Perm (value :: values) ∧
      result.Pairwise fun x y => order x y ≠ .gt := by
  induction values with
  | nil => exact ⟨[value], rfl, List.Perm.refl _, List.pairwise_singleton _ _⟩
  | cons next rest ih =>
    obtain ⟨below, sortedRest⟩ := List.pairwise_cons.1 sorted
    obtain ⟨answer, given, sign⟩ := matching value List.mem_cons_self next (by simp)
      (List.ne_of_not_mem_cons different)
    rw [insertBy, given, Option.bind_some]
    by_cases least : answer ≤ 0
    · refine ⟨_, if_pos least, List.Perm.refl _, List.pairwise_cons.2 ⟨fun other member => ?_, sorted⟩⟩
      have first : order value next ≠ .gt := sign ▸ ofSign_ne_gt_iff.2 least
      rcases List.mem_cons.1 member with rfl | inRest
      · exact first
      · exact Ordering.isLE_iff_ne_gt.1 (Std.TransCmp.isLE_trans
          (Ordering.isLE_iff_ne_gt.2 first) (Ordering.isLE_iff_ne_gt.2 (below other inRest)))
    · obtain ⟨result, inserted, perm, ordered⟩ := ih (List.not_mem_of_not_mem_cons different)
        (fun x inX y inY => matching x (by grind) y (by grind)) sortedRest
      rw [if_neg least, inserted]
      refine ⟨next :: result, rfl, (perm.cons next).trans (List.Perm.swap _ _ _),
        List.pairwise_cons.2 ⟨fun other member => ?_, ordered⟩⟩
      rcases List.mem_cons.1 (perm.subset member) with rfl | inRest
      · have above : order other next = .gt := by
          rw [← sign]
          exact not_not.1 fun notAbove => least (ofSign_ne_gt_iff.1 notAbove)
        rw [Std.OrientedCmp.lt_of_gt above]
        nofun
      · exact below other inRest

/-- Insertion sort meets the contract. -/
theorem insertionSort_sorts : Sorts (@insertionSort α) := by
  intro cmp order values transitive different matching
  induction values with
  | nil => exact ⟨[], rfl, List.Perm.refl _, List.Pairwise.nil⟩
  | cons value rest ih =>
    obtain ⟨absent, differentRest⟩ := List.nodup_cons.1 different
    obtain ⟨sorted, isSorted, perm, ordered⟩ :=
      ih differentRest fun x inX y inY => matching x (by grind) y (by grind)
    rw [insertionSort, isSorted, Option.bind_some]
    obtain ⟨result, inserted, permInserted, orderedInserted⟩ :=
      insertBy_spec (fun member => absent (perm.subset member))
        (fun x inX y inY => matching x (by grind [perm.mem_iff]) y (by grind [perm.mem_iff])) ordered
    exact ⟨result, inserted, permInserted.trans (perm.cons value), orderedInserted⟩

/-! ## Dropping repeats -/

/-- The comparator tells the two values apart. -/
abbrev Differ (order : α → α → Ordering) (x y : α) : Prop := order x y ≠ .eq

theorem ne_gt_of_lt {x y : α} (less : order x y = .lt) : order x y ≠ .gt := by
  rw [less]
  nofun

/-- What is kept of a sorted list, from a first value on, rises strictly. -/
theorem destutter'_pairwise [Std.TransCmp order] {first : α} {values : List α}
    (sorted : (first :: values).Pairwise fun x y => order x y ≠ .gt) :
    (values.destutter' (Differ order) first).Pairwise fun x y => order x y = .lt := by
  induction values generalizing first with
  | nil => exact List.pairwise_singleton _ _
  | cons next rest ih =>
    obtain ⟨below, sortedRest⟩ := List.pairwise_cons.1 sorted
    by_cases differs : Differ order first next
    · rw [List.destutter'_cons_pos _ differs]
      have less : order first next = .lt := by
        have := below next List.mem_cons_self
        cases compared : order first next <;> simp_all
      refine List.pairwise_cons.2 ⟨fun kept member => ?_, ih sortedRest⟩
      rcases List.mem_cons.1 ((List.destutter'_sublist _ _ _).subset member) with rfl | inRest
      · exact less
      · have := (List.pairwise_cons.1 sortedRest).1 kept inRest
        exact Std.TransCmp.lt_of_lt_of_isLE less (Ordering.isLE_iff_ne_gt.2 this)
    · rw [List.destutter'_cons_neg _ differs]
      exact ih (sorted.sublist (by simp))

/-- A value that ties with the first one ties with one that is kept: the first is kept. -/
theorem exists_tied_of_first {first value : α} {values : List α}
    (ties : order value first = .eq) :
    ∃ kept ∈ values.destutter' (Differ order) first, order value kept = .eq :=
  ⟨first, List.mem_destutter' _ _ first, ties⟩

/-- Every value ties with one that is kept. -/
theorem exists_mem_destutter' [Std.TransCmp order] {first value : α} {values : List α}
    (member : value ∈ first :: values) :
    ∃ kept ∈ values.destutter' (Differ order) first, order value kept = .eq := by
  induction values generalizing first with
  | nil =>
    obtain rfl := List.mem_singleton.1 member
    exact exists_tied_of_first Std.ReflCmp.compare_self
  | cons next rest ih =>
    by_cases differs : Differ order first next
    · rw [List.destutter'_cons_pos _ differs]
      rcases List.mem_cons.1 member with rfl | later
      · exact ⟨value, List.mem_cons_self, Std.ReflCmp.compare_self⟩
      · obtain ⟨kept, isKept, ties⟩ := ih later
        exact ⟨kept, List.mem_cons_of_mem _ isKept, ties⟩
    · rw [List.destutter'_cons_neg _ differs]
      rcases List.mem_cons.1 member with rfl | later
      · exact exists_tied_of_first Std.ReflCmp.compare_self
      · rcases List.mem_cons.1 later with rfl | inRest
        · exact exists_tied_of_first (Std.OrientedCmp.eq_symm (not_not.1 differs))
        · exact ih (List.mem_cons_of_mem _ inRest)

/-- Among strictly rising values the one that ties with a given value is the only one. -/
theorem filter_eq_singleton [Std.TransCmp order] {values : List α} {value kept : α}
    {tied : α → Bool} (tells : ∀ other, tied other = true ↔ order value other = .eq)
    (rising : values.Pairwise fun x y => order x y = .lt) (isKept : kept ∈ values)
    (ties : order value kept = .eq) : values.filter tied = [kept] := by
  obtain ⟨before, behind, rfl⟩ := List.append_of_mem isKept
  obtain ⟨-, risingRest, below⟩ := List.pairwise_append.1 rising
  have above := (List.pairwise_cons.1 risingRest).1
  have noneBefore : before.filter tied = [] := by
    rw [List.filter_eq_nil_iff]
    intro other member same
    have less := below other member kept List.mem_cons_self
    rw [Std.TransCmp.congr_right (Std.OrientedCmp.eq_symm ties)] at less
    rw [Std.OrientedCmp.eq_symm ((tells other).1 same)] at less
    cases less
  have noneBehind : behind.filter tied = [] := by
    rw [List.filter_eq_nil_iff]
    intro other member same
    have less := above other member
    rw [← Std.TransCmp.congr_left ties, (tells other).1 same] at less
    cases less
  rw [List.filter_append, List.filter_cons_of_pos ((tells kept).2 ties), noneBefore, noneBehind]
  rfl

end Busybox.Comparators
