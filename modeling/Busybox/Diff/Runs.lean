import Busybox.Diff.Levels
import Busybox.Lib.CommonSubsequence

/-!
# Runs over all lines

What `stone` records is a chain of its last level. When the table has the members of each class in
order, the levels are the lengths of the common subsequences so far, each with the least line of
the new file where such a subsequence ends.
-/

namespace Busybox.Diff

open Lists CommonSubsequence

/-- The members that the loop of a line of class `j` comes to. -/
def membersOf (b : List Int) (j : Nat) : List Int :=
  match b.drop (j - 1) with
  | [] => []
  | y :: rest => reached (-y) rest

section Line

variable {ok : Nat → Int → Prop} {x j bound : Nat} {s : Lists} {b : List Int}

theorem Level.next {l : Nat} {ps : List (Nat × Int)} (chain : Level ok x s l ps) :
    Level ok (x + 1) s l ps :=
  ⟨chain.chain, chain.length, chain.backward.mono (Nat.le_succ x)⟩

/-- A line that leaves the lists as they are. -/
theorem Sound.stays (sound : Sound ok x s) : Grown ok (x + 1) s s where
  increasing := sound.increasing
  levels l level := let ⟨ps, chain⟩ := sound.levels l level; ⟨ps, chain.next⟩
  size := rfl
  more := Nat.le_refl _
  most := Nat.le_succ _
  lower _ _ := le_rfl
  origin _ level := .inl ⟨level, rfl⟩

/-- The loop over the members starts from the lists before the line. -/
theorem Sound.tries (sound : Sound ok x s) : Trying ok (x + 1) s ⟨s, s.last 0, 0, 0⟩ 0 where
  toGrown := sound.stays
  same := rfl
  longer := List.prefix_rfl
  untouched _ _ := rfl
  oldest := Nat.le_refl _
  level := Nat.zero_le _
  pending := rfl

theorem stoneLine_grown (sound : Sound ok x s) (room : s.k + 1 < s.klist.length)
    (good : j ≠ 0 → ∀ y ∈ membersOf b j, ok (x + 1) y) :
    Grown ok (x + 1) s (stoneLine bound b (x + 1) j s) := by
  rw [stoneLine]
  split
  · exact sound.stays
  next real =>
  rw [membersOf] at good
  split
  · exact sound.stays
  · next found =>
    rw [found] at good
    exact tryMembers_grown sound.tries sound room (good real)

theorem Sound.threshold_zero (sound : Sound ok x s) : s.threshold 0 = 0 := by
  obtain ⟨ps, chain⟩ := sound.levels 0 (Nat.zero_le _)
  rw [List.length_eq_zero_iff.mp chain.length] at chain
  have walk := chain.chain
  rw [threshold]
  generalize s.last 0 = i at walk
  cases walk with
  | start first => rw [yOf, List.getD_eq_getElem?_getD, first]; rfl

/-- With all members in order and no limit that they come to, each of them is covered. -/
theorem stoneLine_covers (sound : Sound ok x s) (room : s.k + 1 < s.klist.length) (real : j ≠ 0)
    (good : ∀ y ∈ membersOf b j, ok (x + 1) y) (ascending : (membersOf b j).Pairwise (· < ·))
    (positive : ∀ y ∈ membersOf b j, 0 < y) (few : (membersOf b j).length ≤ bound) :
    ∀ y ∈ membersOf b j, Covered s (stoneLine bound b (x + 1) j s) y := by
  rw [stoneLine, if_neg real]
  rw [membersOf] at good ascending positive few ⊢
  generalize b.drop (j - 1) = members at good ascending positive few ⊢
  rcases members with _ | ⟨first, rest⟩
  · nofun
  · dsimp only at good ascending positive few ⊢
    have low : s.threshold 0 < -first :=
      sound.threshold_zero.trans_lt (positive _ (List.mem_cons_self ..))
    refine (tryMembers_covers sound.tries sound room good low ascending ?_).2
    exact Nat.le_trans (Nat.le_of_eq (Nat.zero_add _)) few

end Line

/-! ## What the levels are -/

/-- Line `x` of the one sequence and line `y` of the other, from 1 on, are of one class. -/
def Matched (A B : List Nat) (x : Nat) (y : Int) : Prop :=
  ∃ i j c, x = i + 1 ∧ y = ((j + 1 : Nat) : Int) ∧ A[i]? = some c ∧ B[j]? = some c

/-- The table has the lines of each class of `A` in the order of `B`; class 0 is of no line. -/
structure Tabulates (A B : List Nat) (b : List Int) : Prop where
  absent : 0 ∉ B
  ascending : ∀ j ∈ A, j ≠ 0 → (membersOf b j).Pairwise (· < ·)
  members : ∀ j ∈ A, j ≠ 0 → ∀ y, y ∈ membersOf b j ↔ ∃ i : Nat, y = ((i + 1 : Nat) : Int) ∧ B[i]? = some j

/-- A level is reached within so many lines of the new file if a common subsequence is. -/
def Exact (A B : List Nat) (x : Nat) (s : Lists) : Prop :=
  ∀ r y, HasCommon (A.take x) (B.take y) r ↔ r ≤ s.k ∧ s.threshold r ≤ y

section Exact

variable {A B : List Nat} {x j bound : Nat} {s : Lists} {b : List Int}

theorem Tabulates.good (table : Tabulates A B b) (line : A[x]? = some j) (real : j ≠ 0) :
    ∀ y ∈ membersOf b j, Matched A B (x + 1) y := by
  intro y member
  obtain ⟨i, rfl, found⟩ := (table.members j (List.mem_of_getElem? line) real y).mp member
  exact ⟨x, i, j, rfl, rfl, line, found⟩

/-- Numbers in ascending order are no more than the range has. -/
theorem length_le_of_ascending {ys : List Int} {l : Int} {m : Nat}
    (ascending : ys.Pairwise (· < ·)) (inside : ∀ y ∈ ys, l < y ∧ y ≤ l + m) : ys.length ≤ m := by
  induction ys generalizing l m with
  | nil => exact Nat.zero_le _
  | cons y ys ih =>
    have ⟨first, rest⟩ := List.pairwise_cons.mp ascending
    have here := inside y (List.mem_cons_self ..)
    have := ih (l := y) (m := (l + m - y).toNat) rest fun z member =>
      ⟨first z member, by have := inside z (List.mem_cons_of_mem _ member); omega⟩
    rw [List.length_cons]
    omega

theorem Tabulates.few (table : Tabulates A B b) (line : A[x]? = some j) (real : j ≠ 0) :
    (membersOf b j).length ≤ B.length := by
  have known := List.mem_of_getElem? line
  refine length_le_of_ascending (l := 0) (table.ascending j known real) fun y member => ?_
  obtain ⟨i, rfl, found⟩ := (table.members j known real y).mp member
  have := (List.getElem?_eq_some_iff.mp found).1
  omega

theorem Exact.line (exact : Exact A B x s) (table : Tabulates A B b)
    (sound : Sound (Matched A B) x s) (room : s.k + 1 < s.klist.length) (line : A[x]? = some j)
    (limit : B.length ≤ bound) : Exact A B (x + 1) (stoneLine bound b (x + 1) j s) := by
  rw [Exact, List.take_add_one, line, Option.toList_some]
  by_cases real : j = 0
  · intro r y
    rw [real, hasCommon_concat_absent table.absent, stoneLine, if_pos rfl]
    exact exact r y
  have grown : Grown (Matched A B) (x + 1) s (stoneLine bound b (x + 1) j s) :=
    stoneLine_grown sound room fun real => table.good line real
  have positive : ∀ y ∈ membersOf b j, 0 < y := fun y member => by
    obtain ⟨i, rfl, -⟩ := (table.members j (List.mem_of_getElem? line) real y).mp member
    omega
  have covers := stoneLine_covers sound room real (table.good line real)
    (table.ascending j (List.mem_of_getElem? line) real) positive
    (Nat.le_trans (table.few line real) limit)
  refine hasCommon_step exact (fun y => ?_) fun r y => ?_
  · exact ⟨Nat.zero_le _, grown.threshold_zero ▸ Int.natCast_nonneg y⟩
  constructor
  · rintro ⟨level, reaches⟩
    rcases grown.origin r level with ⟨old, same⟩ | ⟨matched, below⟩
    · exact .inl ⟨old, same ▸ reaches⟩
    · obtain ⟨i, y', c, here, there, first, second⟩ := matched
      obtain rfl : i = x := by omega
      obtain rfl : c = j := Option.some.inj (first.symm.trans line)
      have := grown.most
      exact .inr ⟨y', by omega, second, by omega, by omega⟩
  · rintro (⟨old, reaches⟩ | ⟨y', before, found, level, below⟩)
    · exact ⟨Nat.le_trans old grown.more, (grown.lower _ old).trans reaches⟩
    · have member := (table.members j (List.mem_of_getElem? line) real (y' + 1 : Nat)).mpr
        ⟨y', rfl, found⟩
      have := (covers _ member).next sound.increasing grown.increasing level (by omega)
      exact ⟨this.1, by omega⟩

end Exact

/-! ## The run -/

section Run

variable {ok : Nat → Int → Prop} {A B : List Nat} {b : List Int} {bound : Nat}

/-- What each line keeps, the run keeps. -/
theorem stoneLines_invariant {P : Nat → Lists → Prop}
    (step : ∀ x j s, A[x]? = some j → P x s → P (x + 1) (stoneLine bound b (x + 1) j s))
    {x : Nat} {a : List Nat} {s : Lists} (rest : A.drop x = a) (upTo : x ≤ A.length)
    (start : P x s) : P A.length (stoneLines bound b (x + 1) a s) := by
  induction a generalizing x s with
  | nil =>
    obtain rfl : x = A.length := Nat.le_antisymm upTo (List.drop_eq_nil_iff.mp rest)
    exact start
  | cons j a ih =>
    have line : A[x]? = some j := by
      rw [← Nat.add_zero x, ← List.getElem?_drop, rest]
      rfl
    have inside := (List.getElem?_eq_some_iff.mp line).1
    refine ih ?_ inside (step x j s line start)
    rw [← List.drop_drop, rest]
    rfl

/-- What holds of the lists between two lines, with the room that `klist` has for `n` lines. -/
structure Between (ok : Nat → Int → Prop) (n x : Nat) (s : Lists) : Prop extends Sound ok x s where
  size : s.klist.length = n + 2
  few : s.k ≤ x

theorem Between.line {n x j : Nat} {s : Lists} (between : Between ok n x s) (inside : x < n)
    (good : j ≠ 0 → ∀ y ∈ membersOf b j, ok (x + 1) y) :
    Between ok n (x + 1) (stoneLine bound b (x + 1) j s) := by
  have size := between.size
  have few := between.few
  have grown : Grown ok (x + 1) s (stoneLine bound b (x + 1) j s) :=
    stoneLine_grown between.toSound (by omega) good
  have most := grown.most
  exact ⟨grown.toSound, grown.size.trans size, by omega⟩

theorem emptyLists_between (n : Nat) : Between ok n 0 (emptyLists n) where
  increasing l l' order level := by
    have : (emptyLists n).k = 0 := rfl
    omega
  levels l level := by
    obtain rfl : l = 0 := Nat.le_zero.mp level
    exact ⟨[], .start rfl, rfl, .nil, nofun, nofun⟩
  size := List.length_replicate
  few := Nat.le_refl _

theorem emptyLists_exact {n : Nat} : Exact A B 0 (emptyLists n) := by
  intro r y
  rw [List.take_zero, hasCommon_nil]
  constructor
  · rintro rfl
    exact ⟨Nat.le_refl _, Int.natCast_nonneg y⟩
  · exact fun level => Nat.le_zero.mp level.1

/-- The lists behind the last line. -/
def finalLists (bound : Nat) (b : List Int) (A : List Nat) : Lists :=
  stoneLines bound b 1 A (emptyLists A.length)

theorem finalLists_sound (good : ∀ x j, A[x]? = some j → j ≠ 0 → ∀ y ∈ membersOf b j, ok (x + 1) y) :
    Sound ok A.length (finalLists bound b A) := by
  refine (stoneLines_invariant (P := Between ok A.length) (fun x j s line between => ?_) rfl
    (Nat.zero_le _) (emptyLists_between _)).toSound
  exact between.line (List.getElem?_eq_some_iff.mp line).1 (good x j line)

theorem finalLists_exact (table : Tabulates A B b) (limit : B.length ≤ bound) :
    Exact A B A.length (finalLists bound b A) := by
  refine (stoneLines_invariant (P := fun x s => Between (Matched A B) A.length x s ∧ Exact A B x s)
    (fun x j s line ⟨between, exact⟩ => ?_) rfl (Nat.zero_le _)
    ⟨emptyLists_between _, emptyLists_exact⟩).2
  have inside := (List.getElem?_eq_some_iff.mp line).1
  have size := between.size
  have few := between.few
  exact ⟨between.line inside fun real => table.good line real,
    exact.line table between.toSound (by omega) line limit⟩

/-- With `-d` the last level is the length of a longest common subsequence. -/
theorem Exact.longest {s : Lists} (exact : Exact A B A.length s) : Longest A B s.k := by
  have whole : ∀ r y, B.length ≤ y → (HasCommon A B r ↔ r ≤ s.k ∧ s.threshold r ≤ y) := by
    intro r y enough
    rw [← exact r y, List.take_length, List.take_of_length_le enough]
  constructor
  · refine (whole s.k (max B.length (s.threshold s.k).toNat) (by omega)).mpr ⟨Nat.le_refl _, ?_⟩
    omega
  · intro r common
    exact ((whole r B.length (Nat.le_refl _)).mp common).1

end Run

end Busybox.Diff

/-!
## What is recorded

The chain of the last level as it is found in `J`, between the lines of the common prefix and those
of the common suffix.
-/

namespace Busybox.Diff

open Lists CommonSubsequence

/-- The match of a line in `J`, both lines counted from the end of the prefix. -/
def recordedLine (J : List Int) (pref x : Nat) : Option (Nat × Int) :=
  if J.getD (x + pref) 0 = 0 then none else some (x, J.getD (x + pref) 0 - pref)

/-- The matches of the `n` lines behind the prefix. -/
def recorded (J : List Int) (pref n : Nat) : List (Nat × Int) :=
  (List.range' 1 n).filterMap (recordedLine J pref)

/-- Matches written into `J`. -/
def record (pref : Nat) (J : List Int) (ps : List (Nat × Int)) : List Int :=
  ps.foldl (fun J p => J.set (p.1 + pref) (p.2 + pref)) J

section Recorded

variable {clist : List Cand} {ps : List (Nat × Int)} {pref n : Nat} {J : List Int}

theorem unravel_record {fuel i : Nat} (chain : Chain clist i ps) (enough : ps.length < fuel) :
    unravel clist pref fuel i J = record pref J ps := by
  induction chain generalizing fuel J with
  | start first =>
    obtain _ | fuel := fuel
    · exact absurd enough (Nat.not_lt_zero _)
    rw [unravel, List.getD_eq_getElem?_getD, first]
    rfl
  | link found real _ _ ih =>
    obtain _ | fuel := fuel
    · exact absurd enough (Nat.not_lt_zero _)
    rw [unravel, List.getD_eq_getElem?_getD, found]
    dsimp only [Option.getD_some]
    rw [if_neg real.ne', ih (Nat.lt_of_succ_lt_succ enough)]
    rfl

/-- A line that no match is recorded for. -/
theorem record_other {x : Nat} (other : ∀ p ∈ ps, p.1 ≠ x) :
    (record pref J ps).getD (x + pref) 0 = J.getD (x + pref) 0 := by
  induction ps generalizing J with
  | nil => rfl
  | cons p ps ih =>
    have here : p.1 + pref ≠ x + pref := by have := other p (List.mem_cons_self ..); omega
    rw [record, List.foldl_cons, ← record, ih fun q member => other q (List.mem_cons_of_mem _ member),
      List.getD_eq_getElem?_getD, List.getElem?_set_ne here, ← List.getD_eq_getElem?_getD]

theorem record_match (decreasing : ps.Pairwise fun p q => q.1 < p.1)
    (inside : ∀ p ∈ ps, p.1 + pref < J.length) {p : Nat × Int} (member : p ∈ ps) :
    (record pref J ps).getD (p.1 + pref) 0 = p.2 + pref := by
  induction ps generalizing J with
  | nil => nomatch member
  | cons q ps ih =>
    have ⟨first, rest⟩ := List.pairwise_cons.mp decreasing
    rw [record, List.foldl_cons, ← record]
    rcases List.mem_cons.mp member with rfl | member
    · rw [record_other fun q member => (first q member).ne, List.getD_eq_getElem?_getD,
        List.getElem?_set_self (inside p (List.mem_cons_self ..))]
      rfl
    · refine ih rest (fun q member => ?_) member
      rw [List.length_set]
      exact inside q (List.mem_cons_of_mem _ member)

theorem recordedLine_eq_some {x : Nat} {p : Nat × Int} : recordedLine J pref x = some p ↔
    p.1 = x ∧ J.getD (x + pref) 0 ≠ 0 ∧ J.getD (x + pref) 0 = p.2 + pref := by
  rw [recordedLine]
  split
  · next none => exact ⟨nofun, fun some => absurd none some.2.1⟩
  · next some =>
    constructor
    · rintro ⟨rfl⟩
      exact ⟨rfl, some, by omega⟩
    · rintro ⟨rfl, -, value⟩
      rw [value, Int.add_sub_cancel]

theorem mem_recorded {p : Nat × Int} : p ∈ recorded J pref n ↔
    (1 ≤ p.1 ∧ p.1 ≤ n) ∧ J.getD (p.1 + pref) 0 ≠ 0 ∧ J.getD (p.1 + pref) 0 = p.2 + pref := by
  simp only [recorded, List.mem_filterMap, List.mem_range'_1, recordedLine_eq_some]
  constructor
  · rintro ⟨x, inside, rfl, found⟩
    exact ⟨by omega, found⟩
  · rintro ⟨inside, found⟩
    exact ⟨p.1, by omega, rfl, found⟩

theorem recorded_increasing : (recorded J pref n).Pairwise fun p q => p.1 < q.1 := by
  refine List.pairwise_filterMap.mpr ((List.pairwise_lt_range' 1).imp ?_)
  intro x x' order p first q second
  rw [(recordedLine_eq_some.mp first).1, (recordedLine_eq_some.mp second).1]
  exact order

/-- A chain that is written into lines without a match is what is recorded. -/
theorem recorded_record (decreasing : ps.Pairwise fun p q => q.1 < p.1)
    (bounded : ∀ p ∈ ps, 1 ≤ p.1 ∧ p.1 ≤ n ∧ 0 < p.2) (room : n + pref < J.length)
    (blank : ∀ x, 1 ≤ x → x ≤ n → J.getD (x + pref) 0 = 0) :
    recorded (record pref J ps) pref n = ps.reverse := by
  have same : ∀ p, p ∈ recorded (record pref J ps) pref n ↔ p ∈ ps.reverse := by
    rintro ⟨x, y⟩
    have value : ∀ p ∈ ps, (record pref J ps).getD (p.1 + pref) 0 = p.2 + pref := fun p member =>
      record_match decreasing (fun q known => by have := bounded q known; omega) member
    rw [mem_recorded, List.mem_reverse]
    dsimp only
    constructor
    · rintro ⟨⟨from1, upTo⟩, some, there⟩
      by_cases other : ∀ p ∈ ps, p.1 ≠ x
      · rw [record_other other, blank x from1 upTo] at some
        exact absurd rfl some
      · push Not at other
        obtain ⟨p, member, rfl⟩ := other
        have := value p member
        obtain rfl : y = p.2 := by omega
        exact member
    · intro member
      have ⟨from1, upTo, positive⟩ := bounded _ member
      have there : (record pref J ps).getD (x + pref) 0 = y + pref := value _ member
      exact ⟨⟨from1, upTo⟩, by omega, there⟩
  have sorted : ps.reverse.Pairwise fun p q => p.1 < q.1 := List.pairwise_reverse.mpr decreasing
  have distinct : ∀ {l : List (Nat × Int)}, l.Pairwise (fun p q => p.1 < q.1) → l.Nodup := by
    intro l sorted
    refine sorted.imp ?_
    rintro p q order rfl
    exact Nat.lt_irrefl _ order
  have perm := (List.perm_ext_iff_of_nodup (distinct recorded_increasing) (distinct sorted)).mpr same
  refine perm.eq_of_pairwise (fun p q _ _ first second => ?_) recorded_increasing sorted
  exact absurd first (Nat.lt_asymm second)

end Recorded

/-- What `stone` is for: the matches increase in both files and are of equal classes, and with `-d`
there are as many as can be. -/
structure Right (d : Bool) (A B : List Nat) (pairs : List (Nat × Int)) : Prop where
  increasing : pairs.Pairwise fun p q => p.1 < q.1 ∧ p.2 < q.2
  same : ∀ p ∈ pairs, Matched A B p.1 p.2
  longest : d = true → Longest A B pairs.length

section Stone

variable {ok : Nat → Int → Prop} {d : Bool} {A B : List Nat} {b J : List Int} {pref : Nat}

/-- Between prefix and suffix there is room for a match of each line and none yet. -/
structure Blank (J : List Int) (pref n : Nat) : Prop where
  room : n + pref < J.length
  blank : ∀ x, 1 ≤ x → x ≤ n → J.getD (x + pref) 0 = 0

/-- What is recorded is the chain of the last level. -/
theorem stone_records (empty : Blank J pref A.length)
    (sound : Sound ok A.length (finalLists (boundOf d A.length) b A)) :
    ∃ ps, recorded (stone d A b J pref) pref A.length = ps.reverse ∧
      Level ok A.length (finalLists (boundOf d A.length) b A)
        (finalLists (boundOf d A.length) b A).k ps := by
  obtain ⟨ps, chain⟩ := sound.levels _ (Nat.le_refl _)
  refine ⟨ps, ?_, chain⟩
  have enough := Nat.lt_of_le_of_lt chain.chain.length_le chain.chain.found
  rw [stone, ← finalLists, unravel_record chain.chain enough]
  refine recorded_record (chain.backward.decreasing.imp And.left) (fun p member => ?_) empty.room
    empty.blank
  have := chain.backward.bounded p member
  exact ⟨this.1, this.2.1, this.2.2.1⟩

theorem stone_right (empty : Blank J pref A.length)
    (sound : Sound (Matched A B) A.length (finalLists (boundOf d A.length) b A))
    (exact : d = true → Exact A B A.length (finalLists (boundOf d A.length) b A)) :
    Right d A B (recorded (stone d A b J pref) pref A.length) := by
  obtain ⟨ps, records, chain⟩ := stone_records empty sound
  rw [records]
  refine ⟨?_, fun p member => ?_, fun most => ?_⟩
  · exact List.pairwise_reverse.mpr chain.backward.decreasing
  · exact chain.backward.matched p (List.mem_reverse.mp member)
  · rw [List.length_reverse, chain.length]
    exact (exact most).longest

/-- More levels than the new file has lines are not right. -/
theorem stone_wrong (empty : Blank J pref A.length)
    (sound : Sound ok A.length (finalLists (boundOf d A.length) b A))
    (more : B.length < (finalLists (boundOf d A.length) b A).k) :
    ¬ Right d A B (recorded (stone d A b J pref) pref A.length) := by
  intro right
  obtain ⟨ps, records, chain⟩ := stone_records empty sound
  have few : ((recorded (stone d A b J pref) pref A.length).map Prod.snd).length ≤ B.length := by
    refine length_le_of_ascending (l := 0)
      (List.pairwise_map.mpr (right.increasing.imp And.right)) fun y member => ?_
    obtain ⟨p, known, rfl⟩ := List.mem_map.mp member
    obtain ⟨_, j, _, _, there, _, found⟩ := right.same p known
    have := (List.getElem?_eq_some_iff.mp found).1
    omega
  rw [List.length_map, records, List.length_reverse, chain.length] at few
  omega

/-- A table of the classes and a limit that is not reached: `stone` does what it is for. -/
theorem stone_right_of_table (empty : Blank J pref A.length) (table : Tabulates A B b)
    (fits : B.length ≤ UINT_MAX) : Right d A B (recorded (stone d A b J pref) pref A.length) := by
  refine stone_right empty (finalLists_sound fun x j line real => table.good line real) ?_
  rintro rfl
  exact finalLists_exact table fits

end Stone

end Busybox.Diff
