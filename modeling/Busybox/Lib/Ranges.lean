import Mathlib.Data.List.Basic
import Mathlib.Data.List.Nodup
import Mathlib.Tactic.Common

/-!
# Choosing ranges of a sequence

A sequence is scanned from left to right. Where a range begins, everything is
chosen from there through the first later element that ends the range, or to the
end of the sequence; a range can also consist of its first element alone. The
scan is a relation between a sequence and what is chosen of it.

`Simulates` is the rule for showing that a machine that looks at one element
after the other chooses the ranges of a scan: it names an invariant for the
states between ranges and one for the states inside a range.
-/

namespace Busybox.Ranges

variable {α σ : Type*}

/-- Where ranges begin, given the elements before; which of them are over at once; and
which later elements end a range that began with a given one. -/
structure Rule (α : Type*) where
  begins : List α → α → Prop
  single : α → Prop
  ends : α → α → Prop

/-- What is chosen of a sequence, the elements before it known. -/
inductive Scan (rule : Rule α) : List α → List α → List Bool → Prop
  | done {earlier} : Scan rule earlier [] []
  | skip {earlier v rest chosen} : ¬ rule.begins earlier v →
      Scan rule (earlier ++ [v]) rest chosen → Scan rule earlier (v :: rest) (false :: chosen)
  | one {earlier v rest chosen} : rule.begins earlier v → rule.single v →
      Scan rule (earlier ++ [v]) rest chosen → Scan rule earlier (v :: rest) (true :: chosen)
  | range {earlier first inside last rest chosen} : rule.begins earlier first →
      ¬ rule.single first → (∀ v ∈ inside, ¬ rule.ends first v) → rule.ends first last →
      Scan rule (earlier ++ first :: inside ++ [last]) rest chosen →
      Scan rule earlier (first :: inside ++ last :: rest)
        (true :: List.replicate inside.length true ++ true :: chosen)
  | unended {earlier first inside} : rule.begins earlier first → ¬ rule.single first →
      (∀ v ∈ inside, ¬ rule.ends first v) →
      Scan rule earlier (first :: inside) (true :: List.replicate inside.length true)

/-- Where no range begins the element is left out. -/
theorem Scan.of_not_begins {rule : Rule α} {earlier rest : List α} {v : α} {chosen : List Bool}
    (scan : Scan rule earlier (v :: rest) chosen) (not : ¬ rule.begins earlier v) :
    ∃ later, chosen = false :: later ∧ Scan rule (earlier ++ [v]) rest later := by
  generalize same : v :: rest = visits at scan
  cases scan with
  | done => cases same
  | skip _ later =>
    obtain ⟨rfl, rfl⟩ := List.cons.inj same
    exact ⟨_, rfl, later⟩
  | one begins =>
    obtain ⟨rfl, rfl⟩ := List.cons.inj same
    exact absurd begins not
  | range begins =>
    obtain ⟨rfl, -⟩ := List.cons.inj same
    exact absurd begins not
  | unended begins =>
    obtain ⟨rfl, -⟩ := List.cons.inj same
    exact absurd begins not

/-- What a machine answers to each element of a sequence. -/
def run (step : σ → α → σ × Bool) : σ → List α → List Bool
  | _, [] => []
  | s, v :: rest => (step s v).2 :: run step (step s v).1 rest

/-- Every element of the sequence is admitted after those before it. -/
def AllAdmitted (admitted : List α → α → Prop) (earlier visits : List α) : Prop :=
  ∀ ⦃before v after⦄, visits = before ++ v :: after → admitted (earlier ++ before) v

/-- A machine that follows a rule: what each of its steps does between and inside ranges. -/
structure Simulates (rule : Rule α) (admitted : List α → α → Prop) (step : σ → α → σ × Bool)
    (Idle : List α → σ → Prop) (Inside : List α → α → σ → Prop) : Prop where
  skip : ∀ ⦃earlier s v⦄, admitted earlier v → Idle earlier s → ¬ rule.begins earlier v →
    (step s v).2 = false ∧ Idle (earlier ++ [v]) (step s v).1
  one : ∀ ⦃earlier s v⦄, admitted earlier v → Idle earlier s → rule.begins earlier v →
    rule.single v → (step s v).2 = true ∧ Idle (earlier ++ [v]) (step s v).1
  enter : ∀ ⦃earlier s v⦄, admitted earlier v → Idle earlier s → rule.begins earlier v →
    ¬ rule.single v → (step s v).2 = true ∧ Inside (earlier ++ [v]) v (step s v).1
  stay : ∀ ⦃earlier first s v⦄, admitted earlier v → Inside earlier first s →
    ¬ rule.ends first v → (step s v).2 = true ∧ Inside (earlier ++ [v]) first (step s v).1
  leave : ∀ ⦃earlier first s v⦄, admitted earlier v → Inside earlier first s →
    rule.ends first v → (step s v).2 = true ∧ Idle (earlier ++ [v]) (step s v).1

variable {rule : Rule α} {admitted : List α → α → Prop} {step : σ → α → σ × Bool}
  {Idle : List α → σ → Prop} {Inside : List α → α → σ → Prop}

theorem AllAdmitted.head {earlier rest : List α} {v : α}
    (all : AllAdmitted admitted earlier (v :: rest)) : admitted earlier v := by
  have here := @all [] v rest rfl
  rwa [List.append_nil] at here

theorem AllAdmitted.tail {earlier rest : List α} {v : α}
    (all : AllAdmitted admitted earlier (v :: rest)) :
    AllAdmitted admitted (earlier ++ [v]) rest := by
  intro before w after split
  rw [List.append_assoc]
  exact @all (v :: before) w after (by rw [split]; rfl)

/-- A run that starts inside a range chooses everything, up to the end of the range if it
comes, from where the machine is between ranges. -/
theorem Simulates.inside (follows : Simulates rule admitted step Idle Inside)
    {earlier visits : List α} {first : α} {s : σ} (within : Inside earlier first s)
    (all : AllAdmitted admitted earlier visits) :
    ((∀ v ∈ visits, ¬ rule.ends first v) ∧
      run step s visits = List.replicate visits.length true) ∨
    ∃ inside last rest s', visits = inside ++ last :: rest ∧
      (∀ v ∈ inside, ¬ rule.ends first v) ∧ rule.ends first last ∧
      Idle (earlier ++ inside ++ [last]) s' ∧
      AllAdmitted admitted (earlier ++ inside ++ [last]) rest ∧
      run step s visits = List.replicate inside.length true ++ true :: run step s' rest := by
  induction visits generalizing earlier s with
  | nil => exact .inl ⟨by simp, rfl⟩
  | cons v rest ih =>
    by_cases closes : rule.ends first v
    · obtain ⟨chosen, idle⟩ := follows.leave all.head within closes
      refine .inr ⟨[], v, rest, (step s v).1, rfl, by simp, closes, ?_, ?_, ?_⟩
      · simpa using idle
      · simpa using all.tail
      · rw [run, chosen]
        rfl
    · obtain ⟨chosen, still⟩ := follows.stay all.head within closes
      rcases ih still all.tail with ⟨none, same⟩ | ⟨inside, last, later, s', split, none, ends, idle,
        allLater, same⟩
      · refine .inl ⟨List.forall_mem_cons.2 ⟨closes, none⟩, ?_⟩
        rw [run, chosen, same]
        rfl
      · refine .inr ⟨v :: inside, last, later, s', by rw [split]; rfl,
          List.forall_mem_cons.2 ⟨closes, none⟩, ends, ?_, ?_, ?_⟩
        · simpa using idle
        · simpa using allLater
        · rw [run, chosen, same]
          rfl

/-- A machine that follows a rule chooses the ranges of the rule. -/
theorem Simulates.scan (follows : Simulates rule admitted step Idle Inside)
    {earlier visits : List α} {s : σ} (idle : Idle earlier s)
    (all : AllAdmitted admitted earlier visits) : Scan rule earlier visits (run step s visits) := by
  generalize size : visits.length = bound
  induction bound using Nat.strongRecOn generalizing earlier visits s with
  | _ bound ih =>
    subst size
    cases visits with
    | nil => exact .done
    | cons v rest =>
      by_cases begins : rule.begins earlier v
      · by_cases single : rule.single v
        · obtain ⟨chosen, idle'⟩ := follows.one all.head idle begins single
          rw [run, chosen]
          exact .one begins single (ih _ (Nat.lt_succ_self _) idle' all.tail rfl)
        · obtain ⟨chosen, within⟩ := follows.enter all.head idle begins single
          rw [run, chosen]
          rcases follows.inside within all.tail with ⟨none, same⟩ | ⟨inside, last, later, s', split,
            none, ends, idle', allLater, same⟩
          · rw [same]
            exact .unended begins single none
          · rw [same, split]
            rw [List.append_assoc earlier] at idle' allLater
            refine .range begins single none ends (ih later.length ?_ idle' allLater rfl)
            rw [split, List.length_cons, List.length_append, List.length_cons]
            omega
      · obtain ⟨chosen, idle'⟩ := follows.skip all.head idle begins
        rw [run, chosen]
        exact .skip begins (ih _ (Nat.lt_succ_self _) idle' all.tail rfl)

/-- A machine follows another rule that says the same wherever its invariants hold. -/
theorem Simulates.congr (follows : Simulates rule admitted step Idle Inside) {other : Rule α}
    {narrower : List α → α → Prop} (admits : ∀ ⦃earlier v⦄, narrower earlier v → admitted earlier v)
    (begins : ∀ ⦃earlier s v⦄, narrower earlier v → Idle earlier s →
      (other.begins earlier v ↔ rule.begins earlier v))
    (single : ∀ v, other.single v ↔ rule.single v)
    (ends : ∀ ⦃earlier first s v⦄, narrower earlier v → Inside earlier first s →
      (other.ends first v ↔ rule.ends first v)) :
    Simulates other narrower step Idle Inside where
  skip := by
    intro earlier s v ok idle not
    exact follows.skip (admits ok) idle fun yes => not ((begins ok idle).2 yes)
  one := by
    intro earlier s v ok idle yes alone
    exact follows.one (admits ok) idle ((begins ok idle).1 yes) ((single v).1 alone)
  enter := by
    intro earlier s v ok idle yes long
    exact follows.enter (admits ok) idle ((begins ok idle).1 yes) fun alone => long ((single v).2 alone)
  stay := by
    intro earlier first s v ok within not
    exact follows.stay (admits ok) within fun yes => not ((ends ok within).2 yes)
  leave := by
    intro earlier first s v ok within yes
    exact follows.leave (admits ok) within ((ends ok within).1 yes)

end Busybox.Ranges

/-!
## Intervals in order of their starts

Who visits intervals in the order of their starts and leaves out what an earlier one had gets every
position of their union once, in increasing order.
-/

namespace Busybox.Intervals

/-- The positions from a start to a stop, both among them; the start is always one. -/
structure Interval where
  start : Nat
  stop : Nat
  ordered : start ≤ stop

def Interval.covers (interval : Interval) (position : Nat) : Bool :=
  interval.start ≤ position && position ≤ interval.stop

theorem Interval.covers_iff {interval : Interval} {position : Nat} :
    interval.covers position = true ↔ interval.start ≤ position ∧ position ≤ interval.stop := by
  rw [covers, Bool.and_eq_true, decide_eq_true_eq, decide_eq_true_eq]

/-- What comes first of a sorted list stands in front. -/
theorem filter_or_of_before {items : List Nat} (sorted : items.Pairwise (· < ·))
    {first second : Nat → Bool}
    (before : ∀ p q, first p = true → second q = true → first q = false → p < q) :
    items.filter (fun item => first item || second item) =
      items.filter first ++ items.filter fun item => second item && !first item := by
  induction items with
  | nil => rfl
  | cons item items ih =>
    obtain ⟨least, rest⟩ := List.pairwise_cons.mp sorted
    by_cases isFirst : first item = true
    · rw [List.filter_cons_of_pos (by simp [isFirst]), List.filter_cons_of_pos isFirst,
        List.filter_cons_of_neg (by simp [isFirst]), ih rest, List.cons_append]
    · rw [Bool.not_eq_true] at isFirst
      by_cases isSecond : second item = true
      · -- nothing behind it comes first
        have none : items.filter first = [] := by
          rw [List.filter_eq_nil_iff]
          intro later mem isFirst'
          have less := before later item isFirst' isSecond isFirst
          have greater := least later mem
          omega
        have same := ih rest
        rw [none, List.nil_append] at same
        rw [List.filter_cons_of_pos (by simp [isSecond]),
          List.filter_cons_of_neg (by simp [isFirst]),
          List.filter_cons_of_pos (by simp [isFirst, isSecond]), none, List.nil_append, same]
      · rw [List.filter_cons_of_neg (by simp [isFirst, isSecond]),
          List.filter_cons_of_neg (by simp [isFirst]), List.filter_cons_of_neg (by simp [isSecond]),
          ih rest]

/-- The positions of an interval that are not seen yet. -/
def fresh (bound : Nat) (seen : Nat → Bool) (interval : Interval) : List Nat :=
  (List.range bound).filter fun position => interval.covers position && !seen position

theorem fresh_seen {bound : Nat} {interval : Interval} {seen : Nat → Bool}
    (all : ∀ position < bound, interval.start ≤ position → seen position = true) :
    fresh bound seen interval = [] := by
  refine List.filter_eq_nil_iff.mpr fun p mem isFresh => ?_
  rw [Bool.and_eq_true, Interval.covers_iff] at isFresh
  rw [all p (List.mem_range.mp mem) isFresh.1.1] at isFresh
  exact Bool.noConfusion isFresh.2

theorem fresh_behind {bound : Nat} {interval : Interval} (seen : Nat → Bool)
    (behind : bound ≤ interval.start) : fresh bound seen interval = [] :=
  fresh_seen fun _ inBound start => absurd (Nat.le_trans behind start) (Nat.not_le_of_lt inBound)

/-- One position is fresh or not. -/
theorem filter_position {bound start : Nat} (seen : Nat → Bool) (inBound : start < bound) :
    ((List.range bound).filter fun position => position == start && !seen position) =
      if seen start then [] else [start] := by
  have same : (fun position => position == start && !seen position) =
      fun position => position == start && !seen start := by
    funext position
    cases here : position == start with
    | true => rw [beq_iff_eq.mp here]
    | false => rw [Bool.false_and, Bool.false_and]
  rw [same]
  by_cases isSeen : seen start = true
  · simp [isSeen]
  · have once : (List.range bound).count start = 1 :=
      List.count_eq_one_of_mem List.nodup_range (List.mem_range.mpr inBound)
    simp only [isSeen, Bool.not_false, Bool.and_true, Bool.false_eq_true, if_false]
    rw [List.filter_beq, once]
    rfl

theorem covers_single (start position : Nat) :
    (Interval.mk start start (Nat.le_refl _)).covers position = (position == start) := by
  rw [Bool.eq_iff_iff, Interval.covers_iff, beq_iff_eq]
  simp only
  omega

theorem fresh_single {bound start : Nat} (seen : Nat → Bool) (inBound : start < bound) :
    fresh bound seen ⟨start, start, Nat.le_refl _⟩ = if seen start then [] else [start] := by
  rw [← filter_position seen inBound, fresh]
  refine List.filter_congr fun position _ => ?_
  rw [covers_single]

theorem covers_next {start stop : Nat} (ordered : start + 1 ≤ stop) (position : Nat) :
    (Interval.mk start stop (Nat.le_of_lt ordered)).covers position =
      (position == start || (Interval.mk (start + 1) stop ordered).covers position) := by
  rw [Bool.eq_iff_iff, Bool.or_eq_true, Interval.covers_iff, Interval.covers_iff, beq_iff_eq]
  simp only
  omega

/-- One position, and the rest of an interval behind it. -/
theorem fresh_next {bound start stop : Nat} (ordered : start + 1 ≤ stop) (seen : Nat → Bool)
    (inBound : start < bound) :
    fresh bound seen ⟨start, stop, Nat.le_of_lt ordered⟩ =
      (if seen start then [] else [start]) ++
        fresh bound (fun position => position == start || seen position)
          ⟨start + 1, stop, ordered⟩ := by
  have whole : (fun position => (Interval.mk start stop (Nat.le_of_lt ordered)).covers position &&
        !seen position) =
      fun position => (position == start && !seen position) ||
        ((Interval.mk (start + 1) stop ordered).covers position && !seen position) := by
    funext position
    rw [covers_next, Bool.and_or_distrib_right]
  have behind : (fun position => (Interval.mk (start + 1) stop ordered).covers position &&
        !(position == start || seen position)) =
      fun position => ((Interval.mk (start + 1) stop ordered).covers position && !seen position) &&
        !(position == start && !seen position) := by
    funext position
    cases position == start <;> cases seen position <;> simp
  rw [fresh, whole, fresh, behind, ← filter_position seen inBound]
  refine filter_or_of_before List.pairwise_lt_range fun p q first second _ => ?_
  rw [Bool.and_eq_true, beq_iff_eq] at first
  rw [Bool.and_eq_true, Interval.covers_iff] at second
  have start := second.1.1
  simp only at start
  omega

/-- One interval after another. -/
def visit (bound : Nat) (seen : Nat → Bool) : List Interval → List Nat
  | [] => []
  | interval :: rest =>
    fresh bound seen interval ++
      visit bound (fun position => seen position || interval.covers position) rest

/-- Where everything from the first start on is seen nothing is fresh. -/
theorem visit_seen {bound : Nat} {seen : Nat → Bool} {intervals : List Interval}
    (all : ∀ interval ∈ intervals, ∀ position < bound, interval.start ≤ position →
      seen position = true) : visit bound seen intervals = [] := by
  induction intervals generalizing seen with
  | nil => rfl
  | cons interval rest ih =>
    rw [visit, fresh_seen (all interval List.mem_cons_self), List.nil_append]
    refine ih fun other mem position inBound start => ?_
    rw [all other (List.mem_cons_of_mem _ mem) position inBound start, Bool.true_or]

theorem mem_fresh {bound position : Nat} {seen : Nat → Bool} {interval : Interval} :
    position ∈ fresh bound seen interval ↔
      position < bound ∧ interval.covers position = true ∧ seen position = false := by
  rw [fresh, List.mem_filter, List.mem_range, Bool.and_eq_true, Bool.not_eq_true']

/-- Only what is seen of the positions in range matters. -/
theorem visit_congr {bound : Nat} {seen seen' : Nat → Bool}
    (same : ∀ position < bound, seen position = seen' position) (intervals : List Interval) :
    visit bound seen intervals = visit bound seen' intervals := by
  induction intervals generalizing seen seen' with
  | nil => rfl
  | cons interval rest ih =>
    have first : fresh bound seen interval = fresh bound seen' interval :=
      List.filter_congr fun position mem => by rw [same position (List.mem_range.mp mem)]
    rw [visit, visit, first, ih fun position inBound => by rw [same position inBound]]

/-- The visit of sorted intervals gives their union in order. -/
theorem visit_eq {intervals : List Interval}
    (sorted : intervals.Pairwise fun a b => a.start ≤ b.start) (bound : Nat) (seen : Nat → Bool) :
    visit bound seen intervals = (List.range bound).filter fun position =>
      intervals.any (·.covers position) && !seen position := by
  induction intervals generalizing seen with
  | nil => simp [visit]
  | cons interval rest ih =>
    obtain ⟨first, later⟩ := List.pairwise_cons.mp sorted
    have before : ∀ p q, (interval.covers p && !seen p) = true →
        (rest.any (·.covers q) && !seen q) = true → (interval.covers q && !seen q) = false →
          p < q := by
      intro p q inFirst inRest notFirst
      simp only [Bool.and_eq_true, Bool.not_eq_true', List.any_eq_true] at inFirst inRest
      obtain ⟨⟨other, mem, inOther⟩, unseen⟩ := inRest
      rw [unseen, Bool.not_false, Bool.and_true] at notFirst
      have starts := first other mem
      have inInterval := Interval.covers_iff.mp inFirst.1
      have inOther := Interval.covers_iff.mp inOther
      have outside : ¬(interval.start ≤ q ∧ q ≤ interval.stop) := by
        rw [← Interval.covers_iff, notFirst]
        exact Bool.false_ne_true
      omega
    have whole : (fun position => (interval :: rest).any (·.covers position) && !seen position) =
        fun position => (interval.covers position && !seen position) ||
          (rest.any (·.covers position) && !seen position) := by
      funext position
      rw [List.any_cons, Bool.and_or_distrib_right]
    have behind : (fun position => rest.any (·.covers position) &&
          !(seen position || interval.covers position)) =
        fun position => (rest.any (·.covers position) && !seen position) &&
          !(interval.covers position && !seen position) := by
      funext position
      cases seen position <;> cases interval.covers position <;> simp
    rw [visit, fresh, ih later, whole, behind]
    exact (filter_or_of_before List.pairwise_lt_range before).symm

end Busybox.Intervals
