import Mathlib
import Busybox.Diff.Tables

/-!
# A new file of lines with the hash 0

Each line of that hash in the old file adds a level, until there are as many as the new file has
lines. The next one goes through all members and comes to what is stored behind them.
-/

namespace Busybox.Diff

open Lists CommonSubsequence

/-- Each level ends with the line of its number. -/
def Filled (s : Lists) : Prop := ∀ l ≤ s.k, s.threshold l = l

section Filled

variable {ok : Nat → Int → Prop} {x q bound : Nat} {s : Lists} {a : Attempt} {y : Int}

/-- A level for the first member behind the last level. -/
def withMember (x : Nat) (s : Lists) (ys : List Int) : Lists :=
  match ys.find? fun y => (s.k : Int) < y with
  | none => s
  | some y => s.written (s.k + 1) ⟨x, y, s.last s.k⟩ (s.k + 1)

theorem withMember_neg {ys : List Int} (old : y ≤ s.k) :
    withMember x s (y :: ys) = withMember x s ys := by
  rw [withMember, withMember, List.find?_cons_of_neg]
  exact fun new => absurd (of_decide_eq_true new) (not_lt.mpr old)

theorem withMember_pos {ys : List Int} (new : s.k < y) :
    withMember x s (y :: ys) = s.written (s.k + 1) ⟨x, y, s.last s.k⟩ (s.k + 1) := by
  rw [withMember, List.find?_cons_of_pos]
  exact decide_eq_true new

theorem filled_pass (filled : Filled s) (lists : a.lists = s) {q' : Nat}
    {result : Attempt × Bool} (level : q ≤ s.k) (pass : Pass s x y a q q' result) :
    y ≤ s.k ∧ result.2 = true ∧ result.1.lists = s ∧ result.1.numtries = a.numtries ∨
      s.k < y ∧ result.2 = false ∧
        result.1.lists = s.written (s.k + 1) ⟨x, y, s.last s.k⟩ (s.k + 1) := by
  cases pass with
  | skip notBehind =>
    rw [filled q level] at notBehind
    exact .inl ⟨by omega, rfl, lists, rfl⟩
  | equal order level there below =>
    rw [lists, filled _ level] at there
    exact .inl ⟨by omega, rfl, lists, rfl⟩
  | replace order level below above =>
    rw [lists, filled _ level] at above
    rw [filled _ (Nat.le_of_lt level)] at below
    omega
  | grow below =>
    rw [filled _ (Nat.le_refl _)] at below
    exact .inr ⟨below, rfl, by rw [lists]⟩

/-- Every line and member may match. -/
def Any (_ : Nat) (_ : Int) : Prop := True

theorem filled_tries {rest : List Int} (filled : Filled s) (sound : Sound Any x s)
    (room : s.k + 1 < s.klist.length) (limit : 0 < bound) (trying : Trying Any (x + 1) s a q)
    (lists : a.lists = s) (tries : a.numtries = 0) :
    tryMembers bound (x + 1) y rest a = withMember (x + 1) s (reached y rest) := by
  induction rest generalizing y a q with
  | nil =>
    obtain ⟨q', pass⟩ := tryMember_passes (y := y) trying sound
    have cases := filled_pass filled lists trying.level pass
    rw [tryMembers, reached, List.takeWhile_nil]
    generalize tryMember (x + 1) y a = result at cases
    obtain ⟨a', more⟩ := result
    rcases cases with ⟨old, rfl, same, -⟩ | ⟨new, rfl, grown⟩
    · rw [withMember_neg old]
      exact same
    · rw [withMember_pos new]
      exact grown
  | cons y' rest ih =>
    obtain ⟨q', pass⟩ := tryMember_passes (y := y) trying sound
    have cases := filled_pass filled lists trying.level pass
    rw [tryMembers]
    generalize tryMember (x + 1) y a = result at pass cases
    obtain ⟨a', more⟩ := result
    rcases cases with ⟨old, rfl, same, count⟩ | ⟨new, rfl, grown⟩
    · have next := trying.pass sound room pass trivial
      dsimp only at same count ⊢
      by_cases positive : 0 < y'
      · rw [if_pos ⟨positive, by omega⟩, reached_cons positive, withMember_neg old]
        exact ih next same (by omega)
      · rw [if_neg fun both => positive both.1, reached_stop positive, withMember_neg old]
        exact same
    · rw [reached, withMember_pos new]
      exact grown

theorem Sound.any (sound : Sound ok x s) : Sound Any x s where
  increasing := sound.increasing
  levels l level :=
    let ⟨ps, chain⟩ := sound.levels l level
    ⟨ps, chain.chain, chain.length, chain.backward.decreasing, chain.backward.bounded,
      fun _ _ => trivial⟩

/-- A line of the only class. -/
theorem stoneLine_filled {b : List Int} (filled : Filled s) (sound : Sound ok x s)
    (room : s.k + 1 < s.klist.length) (limit : 0 < bound) :
    stoneLine bound b (x + 1) 1 s = withMember (x + 1) s (membersOf b 1) := by
  rw [stoneLine, if_neg Nat.one_ne_zero, membersOf]
  generalize b.drop (1 - 1) = members
  obtain _ | ⟨y, rest⟩ := members
  · rfl
  · exact filled_tries filled sound.any room limit sound.any.tries rfl rfl

end Filled

/-! ## Members and strays -/

section Strays

variable {x : Nat} {s : Lists} {new : List Line} {extra : List Int}

theorem numbered_serials :
    (numbered new).map Line.serial = (List.range new.length).map fun i : Nat => (i : Int) + 1 := by
  apply List.ext_getElem
  · rw [numbered, List.length_map, List.length_mapIdx, List.length_map, List.length_range]
  · intro i _ _
    rw [List.getElem_map, List.getElem_map, List.getElem_range]
    simp only [numbered, List.getElem_mapIdx]

theorem find_serial (m k : Nat) : ((List.range m).map fun i : Nat => (i : Int) + 1).find?
    (fun y => (k : Int) < y) = if k < m then some ((k : Int) + 1) else none := by
  induction m with
  | zero => rfl
  | succ m ih =>
    rw [List.range_succ, List.map_append, List.find?_append, ih, List.map_singleton]
    by_cases before : k < m
    · rw [if_pos before, if_pos (Nat.lt_succ_of_lt before)]
      rfl
    rw [if_neg before, Option.none_or]
    by_cases here : k = m
    · rw [here, if_pos (Nat.lt_succ_self m), List.find?_cons_of_pos]
      exact decide_eq_true (Int.lt_succ _)
    · rw [if_neg (by omega), List.find?_cons_of_neg, List.find?_nil]
      intro less
      have := of_decide_eq_true less
      omega

/-- As long as there are fewer levels than lines, the next line makes one. -/
theorem withMember_line (few : s.k < new.length) :
    withMember x s ((numbered new).map Line.serial ++ extra) =
      s.written (s.k + 1) ⟨x, (s.k : Int) + 1, s.last s.k⟩ (s.k + 1) := by
  rw [withMember, List.find?_append, numbered_serials, find_serial, if_pos few]
  rfl

theorem withMember_stray (many : new.length ≤ s.k) :
    withMember x s ((numbered new).map Line.serial ++ extra) = withMember x s extra := by
  rw [withMember, withMember, List.find?_append, numbered_serials, find_serial,
    if_neg (Nat.not_lt.mpr many), Option.none_or]

theorem withMember_none (low : ∀ y ∈ extra, y ≤ s.k) : withMember x s extra = s := by
  rw [withMember, List.find?_eq_none.mpr]
  exact fun y member new => absurd (of_decide_eq_true new) (not_lt.mpr (low y member))

theorem withMember_more (high : ∃ y ∈ extra, (s.k : Int) < y) :
    (withMember x s extra).k = s.k + 1 := by
  obtain ⟨y, member, new⟩ := high
  have found : (extra.find? fun y => (s.k : Int) < y).isSome :=
    List.find?_isSome.mpr ⟨y, member, decide_eq_true new⟩
  obtain ⟨y, found⟩ := Option.isSome_iff_exists.mp found
  rw [withMember, found]
  rfl

theorem Filled.next {ok : Nat → Int → Prop} {w : Nat} (filled : Filled s) (sound : Sound ok x s)
    (room : s.k + 1 < s.klist.length) :
    Filled (s.written (s.k + 1) ⟨w, (s.k : Int) + 1, s.last s.k⟩ (s.k + 1)) := by
  intro l level
  by_cases last : l = s.k + 1
  · rw [last, threshold_written room]
    rfl
  · have before : l ≤ s.k := by
      rw [written_k] at level
      omega
    rw [threshold_written_ne last (sound.found before), filled l before]

end Strays

/-! ## The run -/

section Run

variable {old new behind : List Line} {beyond : List Int} {bound : Nat}

theorem classOf_of_zero (zero : ∀ l ∈ new, l.value = 0) (nonempty : new ≠ []) (v : Nat) :
    classOf (new.map Line.value) v = if v = 0 then 1 else 0 := by
  have mem : v ∈ new.map Line.value ↔ v = 0 := by
    rw [List.mem_map]
    constructor
    · rintro ⟨l, member, rfl⟩
      exact zero l member
    · rintro rfl
      obtain ⟨l, member⟩ := List.exists_mem_of_ne_nil new nonempty
      exact ⟨l, member, zero l member⟩
  rw [classOf]
  by_cases here : v = 0
  · have none : (new.map Line.value).countP (· < v) = 0 :=
      List.countP_eq_zero.mpr fun w _ less => absurd (of_decide_eq_true less) (here ▸ Nat.not_lt_zero w)
    rw [if_pos (mem.mpr here), if_pos here, none]
  · rw [if_neg (here ∘ mem.mp), if_neg here]

theorem count_take_succ {A : List Nat} {x j : Nat} (line : A[x]? = some j) :
    (A.take (x + 1)).count 1 = (A.take x).count 1 + if j = 1 then 1 else 0 := by
  rw [List.take_add_one, line, Option.toList_some, List.count_append, List.count_singleton]
  simp only [beq_iff_eq]

/-- The lists while all members of a line are lines of the file. -/
structure Inside (old new : List Line) (x : Nat) (s : Lists) : Prop extends
    Between (Matched (classesOf old new) (classesOf new new)) (classesOf old new).length x s where
  filled : Filled s
  upTo : s.k ≤ ((classesOf old new).take x).count 1
  most : s.k ≤ new.length

theorem Inside.empty : Inside old new 0 (emptyLists (classesOf old new).length) where
  toBetween := emptyLists_between _
  filled l level := by
    obtain rfl : l = 0 := Nat.le_zero.mp level
    rfl
  upTo := Nat.le_refl _
  most := Nat.zero_le _

section Zero

variable (zero : ∀ l ∈ new, l.value = 0) (nonempty : new ≠ [])

include zero nonempty

theorem class_of_zero {x j : Nat} (line : (classesOf old new)[x]? = some j) : j = 0 ∨ j = 1 := by
  obtain ⟨v, -, rfl⟩ := List.mem_map.mp (List.mem_of_getElem? line)
  rw [classOf_of_zero zero nonempty]
  split
  · exact .inr rfl
  · exact .inl rfl

theorem members_clean : membersOf (tableOf new [] []) 1 = (numbered new).map Line.serial ++ [] :=
  members_of_zero zero nonempty

/-- Behind the sentinel of a table that is not run over is the end. -/
theorem tabulates_clean :
    Tabulates (classesOf old new) (classesOf new new) (tableOf new [] []) := by
  refine .of_members fun v known => ⟨numbered new, numbered_ascending, fun l => ?_, ?_⟩
  · refine (and_iff_left_of_imp fun member => ?_).symm
    obtain ⟨r, found, rfl⟩ := List.mem_map.mp known
    obtain ⟨i, w, there, rfl⟩ := mem_numbered.mp member
    exact (zero w (List.mem_of_getElem? there)).trans (zero r found).symm
  · obtain ⟨r, found, rfl⟩ := List.mem_map.mp known
    rw [classOf_of_zero zero nonempty, if_pos (zero r found), members_clean zero nonempty,
      List.append_nil]

theorem Inside.line {x j : Nat} {s : Lists} (inside : Inside old new x s) (limit : 0 < bound)
    (line : (classesOf old new)[x]? = some j)
    (few : (classesOf old new).count 1 ≤ new.length ∨ ∀ y ∈ strays behind beyond, y ≤ new.length) :
    stoneLine bound (tableOf new behind beyond) (x + 1) j s =
        stoneLine bound (tableOf new [] []) (x + 1) j s ∧
      Inside old new (x + 1) (stoneLine bound (tableOf new [] []) (x + 1) j s) := by
  have before : x < (classesOf old new).length := (List.getElem?_eq_some_iff.mp line).1
  have size := inside.size
  have levels := inside.few
  have upTo := inside.upTo
  have room : s.k + 1 < s.klist.length := by omega
  have count := count_take_succ line
  have between : Between _ _ (x + 1) (stoneLine bound (tableOf new [] []) (x + 1) j s) :=
    inside.toBetween.line before fun real => (tabulates_clean zero nonempty).good line real
  rcases class_of_zero zero nonempty line with rfl | rfl
  · have same : ∀ b, stoneLine bound b (x + 1) 0 s = s := fun _ => if_pos rfl
    rw [same] at between
    rw [same, same]
    exact ⟨rfl, between, inside.filled, by rw [count]; exact upTo, inside.most⟩
  rw [if_pos rfl] at count
  have line0 := stoneLine_filled (b := tableOf new [] []) inside.filled inside.toSound room limit
  have line1 := stoneLine_filled (b := tableOf new behind beyond) inside.filled inside.toSound room
    limit
  rw [members_clean zero nonempty] at line0
  rw [members_of_zero zero nonempty] at line1
  by_cases more : s.k < new.length
  · rw [withMember_line more] at line0 line1
    rw [line0] at between
    rw [line0, line1]
    exact ⟨rfl, between, inside.filled.next inside.toSound room, by rw [written_k]; omega, more⟩
  · have full : s.k = new.length := Nat.le_antisymm inside.most (Nat.le_of_not_lt more)
    have low : ∀ y ∈ strays behind beyond, y ≤ s.k := by
      rw [full]
      refine few.resolve_left fun few => ?_
      have : ((classesOf old new).take (x + 1)).count 1 ≤ (classesOf old new).count 1 :=
        (List.take_sublist _ _).count_le 1
      omega
    rw [withMember_stray full.ge, withMember_none (List.forall_mem_nil _)] at line0
    rw [withMember_stray full.ge, withMember_none low] at line1
    rw [line0] at between
    rw [line0, line1]
    exact ⟨rfl, between, inside.filled, by omega, inside.most⟩

/-- As long as only lines of the file are reached, it is as with a clean table. -/
theorem finalLists_inside (limit : 0 < bound)
    (few : (classesOf old new).count 1 ≤ new.length ∨ ∀ y ∈ strays behind beyond, y ≤ new.length) :
    Inside old new (classesOf old new).length
        (finalLists bound (tableOf new behind beyond) (classesOf old new)) ∧
      ((classesOf new new).length ≤ bound → Exact (classesOf old new) (classesOf new new)
        (classesOf old new).length
        (finalLists bound (tableOf new behind beyond) (classesOf old new))) := by
  refine stoneLines_invariant (P := fun x s => Inside old new x s ∧
    ((classesOf new new).length ≤ bound → Exact (classesOf old new) (classesOf new new) x s))
    (fun x j s line ⟨inside, exact⟩ => ?_) rfl (Nat.zero_le _) ⟨.empty, fun _ => emptyLists_exact⟩
  obtain ⟨same, next⟩ := inside.line zero nonempty limit line few
  rw [same]
  refine ⟨next, fun fits => (exact fits).line (tabulates_clean zero nonempty) inside.toSound ?_
    line fits⟩
  have := inside.size
  have := inside.few
  have := (List.getElem?_eq_some_iff.mp line).1
  omega

/-- The lists once there are as many levels as lines, or more. -/
def Outside (old new : List Line) (x : Nat) (s : Lists) : Prop :=
  (Filled s ∧ s.k = ((classesOf old new).take x).count 1 ∧ s.k ≤ new.length) ∨ new.length < s.k

theorem finalLists_outside (limit : 0 < bound)
    (many : new.length < (classesOf old new).count 1)
    (stray : ∃ y ∈ strays behind beyond, (new.length : Int) < y) :
    Sound Any (classesOf old new).length
        (finalLists bound (tableOf new behind beyond) (classesOf old new)) ∧
      new.length < (finalLists bound (tableOf new behind beyond) (classesOf old new)).k := by
  have run : Between Any (classesOf old new).length (classesOf old new).length
        (finalLists bound (tableOf new behind beyond) (classesOf old new)) ∧
      Outside old new (classesOf old new).length
        (finalLists bound (tableOf new behind beyond) (classesOf old new)) := by
    refine stoneLines_invariant
      (P := fun x s => Between Any (classesOf old new).length x s ∧ Outside old new x s)
      (fun x j s line kept => ?_) rfl (Nat.zero_le _)
      ⟨emptyLists_between _, .inl ⟨Inside.empty.filled, rfl, Nat.zero_le _⟩⟩
    obtain ⟨between, outside⟩ := kept
    have before : x < (classesOf old new).length := (List.getElem?_eq_some_iff.mp line).1
    have size := between.size
    have levels := between.few
    have room : s.k + 1 < s.klist.length := by omega
    have count := count_take_succ line
    have grown : Grown Any (x + 1) s
        (stoneLine bound (tableOf new behind beyond) (x + 1) j s) :=
      stoneLine_grown between.toSound room fun _ _ _ => trivial
    refine ⟨between.line before fun _ _ _ => trivial, ?_⟩
    rcases outside with ⟨filled, same, most⟩ | more
    · rcases class_of_zero zero nonempty line with rfl | rfl
      · rw [stoneLine, if_pos rfl]
        exact .inl ⟨filled, by rw [count]; exact same, most⟩
      rw [if_pos rfl] at count
      rw [stoneLine_filled filled between.toSound room limit, members_of_zero zero nonempty]
      by_cases few : s.k < new.length
      · rw [withMember_line few]
        exact .inl ⟨filled.next between.toSound room, by rw [written_k]; omega, few⟩
      · have full : s.k = new.length := Nat.le_antisymm most (Nat.le_of_not_lt few)
        rw [withMember_stray full.ge]
        refine .inr ?_
        rw [withMember_more (full ▸ stray)]
        omega
    · exact .inr (Nat.lt_of_lt_of_le more grown.more)
  refine ⟨run.1.toSound, run.2.resolve_left ?_⟩
  rintro ⟨_, same, most⟩
  rw [List.take_length] at same
  omega

end Zero

end Run

end Busybox.Diff
