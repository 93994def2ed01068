import Busybox.Diff.Stone
import Mathlib.Data.Int.Order.Basic
import Mathlib.Data.List.GetD
import Mathlib.Order.Basic

/-!
# What a line does to the levels

A level is a length up to `k`, with the last candidate of a chain of that length; its threshold is
the line of the new file where that chain ends. A line moves thresholds down, each below the one it
follows, and may add a level.
-/

namespace Busybox.Diff

namespace Lists

variable {s : Lists} {l l' i : Nat} {cand : Cand}

/-- `put`, and what `k` is behind it. -/
def written (s : Lists) (l : Nat) (cand : Cand) (k : Nat) : Lists := { s.put l cand with k := k }

@[simp] theorem written_k {k : Nat} : (s.written l cand k).k = k := rfl

@[simp] theorem written_size {k : Nat} :
    (s.written l cand k).klist.length = s.klist.length := List.length_set

theorem last_written {k : Nat} (room : l < s.klist.length) :
    (s.written l cand k).last l = s.clist.length := by
  rw [last, written, put, List.getD_eq_getElem?_getD, List.getElem?_set_self room]
  rfl

theorem last_written_ne {k : Nat} (other : l' ≠ l) : (s.written l cand k).last l' = s.last l' := by
  rw [last, last, written, put, List.getD_eq_getElem?_getD, List.getElem?_set_ne other.symm,
    ← List.getD_eq_getElem?_getD]

theorem longer_written {k : Nat} : s.clist <+: (s.written l cand k).clist := List.prefix_append _ _

theorem yOf_longer {t : Lists} (longer : s.clist <+: t.clist) (found : i < s.clist.length) :
    t.yOf i = s.yOf i := by
  obtain ⟨more, longer⟩ := longer
  rw [yOf, yOf, ← longer, List.getD_append _ _ _ _ found]

theorem threshold_written {k : Nat} (room : l < s.klist.length) :
    (s.written l cand k).threshold l = cand.y := by
  rw [threshold, last_written room, yOf, written, put, List.getD_eq_getElem?_getD,
    List.getElem?_concat_length]
  rfl

theorem threshold_written_ne {k : Nat} (other : l' ≠ l) (found : s.last l' < s.clist.length) :
    (s.written l cand k).threshold l' = s.threshold l' := by
  rw [threshold, last_written_ne other]
  exact yOf_longer longer_written found

end Lists

open Lists

/-- Up to level `k` each threshold is behind the one before. -/
def Increasing (s : Lists) : Prop :=
  ∀ l l', l < l' → l' ≤ s.k → s.threshold l < s.threshold l'

theorem Increasing.le {s : Lists} (increasing : Increasing s) {l l' : Nat} (order : l ≤ l')
    (level : l' ≤ s.k) : s.threshold l ≤ s.threshold l' := by
  rcases Nat.lt_or_eq_of_le order with less | rfl
  · exact (increasing l l' less level).le
  · exact le_rfl

/-- Levels with lower thresholds come first. -/
theorem Increasing.lt_of {s : Lists} (increasing : Increasing s) {l l' : Nat} (level : l ≤ s.k)
    (below : s.threshold l < s.threshold l') : l < l' := by
  by_contra order
  exact absurd (increasing.le (Nat.le_of_not_lt order) level) (not_le_of_gt below)

/-- A threshold that is moved between its neighbours, or one more behind the others. -/
theorem Increasing.moved {s t : Lists} (increasing : Increasing s) {l : Nat} {y : Int}
    (moved : t.threshold (l + 1) = y)
    (others : ∀ l' ≤ s.k, l' ≠ l + 1 → t.threshold l' = s.threshold l')
    (levels : ∀ l' ≤ t.k, l' ≤ s.k ∨ l' = l + 1) (level : l ≤ s.k) (below : s.threshold l < y)
    (above : l < s.k → y < s.threshold (l + 1)) : Increasing t := by
  intro first second order most
  by_cases here : second = l + 1
  · rw [here, moved, others first (by omega) (by omega)]
    exact (increasing.le (by omega) level).trans_lt below
  have old : second ≤ s.k := (levels second most).resolve_right here
  rw [others second old here]
  by_cases there : first = l + 1
  · rw [there, moved]
    exact (above (by omega)).trans (increasing _ _ (by omega) old)
  · rw [others first (by omega) there]
    exact increasing first second order old

/-! ## The search -/

/-- The level that a line of the new file belongs to. -/
structure LevelOf (s : Lists) (y : Int) (l : Nat) : Prop where
  positive : 1 ≤ l
  most : l ≤ s.k + 1
  below : s.threshold (l - 1) < y
  above : l ≤ s.k → y ≤ s.threshold l

theorem searchLoop_finds {s : Lists} (increasing : Increasing s) {y : Int} {i j : Nat}
    (order : i < j) (most : j ≤ s.k + 1) (below : s.threshold i < y)
    (above : j ≤ s.k → y ≤ s.threshold j) : LevelOf s y (searchLoop s y i j) := by
  fun_induction searchLoop s y i j with
  | case1 i j l inner less ih => exact ih inner (by omega) below fun _ => less.le
  | case2 i j l inner notLess more ih => exact ih (by omega) most more above
  | case3 i j l inner notLess notMore =>
    have before := increasing (l - 1) l (by omega) (by omega)
    exact ⟨by omega, by omega, by omega, fun _ => by omega⟩
  | case4 i j l last =>
    have same : l = i := by omega
    have next : j = l + 1 := by omega
    rw [next] at most above
    exact ⟨Nat.le_add_left 1 l, most, by rwa [Nat.add_sub_cancel, same], above⟩

theorem search_finds {s : Lists} (increasing : Increasing s) {y : Int} (first : s.threshold 0 < y) :
    LevelOf s y (search s y) := by
  unfold search
  split
  · next quick => exact ⟨Nat.le_add_left 1 s.k, Nat.le_refl _, quick, fun more => by omega⟩
  · exact searchLoop_finds increasing (Nat.succ_pos s.k) (Nat.le_refl _) first fun more => by omega

/-! ## Chains -/

/-- The matches on the way from a candidate to the first one of its chain. -/
inductive Chain (clist : List Cand) : Nat → List (Nat × Int) → Prop where
  | start (first : clist[0]? = some ⟨0, 0, 0⟩) : Chain clist 0 []
  | link {i q ps} (found : clist[i]? = some q) (real : 0 < q.y) (older : q.pred < i)
      (before : Chain clist q.pred ps) : Chain clist i ((q.x, q.y) :: ps)

theorem found_longer {clist clist' : List Cand} {i : Nat} {q : Cand} (longer : clist <+: clist')
    (found : clist[i]? = some q) : clist'[i]? = some q := by
  obtain ⟨more, rfl⟩ := longer
  rw [List.getElem?_append_left (List.getElem?_eq_some_iff.mp found).1, found]

theorem Chain.longer {clist clist' : List Cand} {i : Nat} {ps : List (Nat × Int)}
    (chain : Chain clist i ps) (longer : clist <+: clist') : Chain clist' i ps := by
  induction chain with
  | start first => exact .start (found_longer longer first)
  | link found real older _ ih => exact .link (found_longer longer found) real older ih

/-- The walk along a chain goes down, so it is not longer than the list. -/
theorem Chain.length_le {clist : List Cand} {i : Nat} {ps : List (Nat × Int)}
    (chain : Chain clist i ps) : ps.length ≤ i := by
  induction chain with
  | start => exact Nat.le_refl 0
  | link _ _ older _ ih => exact Nat.lt_of_le_of_lt ih older

theorem Chain.found {clist : List Cand} {i : Nat} {ps : List (Nat × Int)}
    (chain : Chain clist i ps) : i < clist.length := by
  cases chain with
  | start first => exact (List.getElem?_eq_some_iff.mp first).1
  | link found => exact (List.getElem?_eq_some_iff.mp found).1

/-- A chain as it is walked: each match in front of the one before it, in both files. -/
structure Backward (ok : Nat → Int → Prop) (x : Nat) (y : Int) (ps : List (Nat × Int)) : Prop where
  decreasing : ps.Pairwise fun p q => q.1 < p.1 ∧ q.2 < p.2
  bounded : ∀ p ∈ ps, 1 ≤ p.1 ∧ p.1 ≤ x ∧ 0 < p.2 ∧ p.2 ≤ y
  matched : ∀ p ∈ ps, ok p.1 p.2

theorem Backward.cons {ok : Nat → Int → Prop} {x x' : Nat} {y y' : Int} {ps : List (Nat × Int)}
    (back : Backward ok x y ps) (later : x < x') (behind : y < y') (positive : 0 < y')
    (good : ok x' y') : Backward ok x' y' ((x', y') :: ps) := by
  constructor
  · refine List.pairwise_cons.mpr ⟨fun p member => ?_, back.decreasing⟩
    have := back.bounded p member
    exact ⟨by omega, by omega⟩
  · intro p member
    rcases List.mem_cons.mp member with rfl | member
    · exact ⟨by omega, Nat.le_refl _, positive, le_rfl⟩
    · have := back.bounded p member
      exact ⟨by omega, by omega, by omega, by omega⟩
  · intro p member
    rcases List.mem_cons.mp member with rfl | member
    · exact good
    · exact back.matched p member

theorem Backward.mono {ok : Nat → Int → Prop} {x x' : Nat} {y : Int} {ps : List (Nat × Int)}
    (back : Backward ok x y ps) (later : x ≤ x') : Backward ok x' y ps :=
  ⟨back.decreasing, fun p member => by have := back.bounded p member; omega, back.matched⟩

/-- A chain of matches up to line `x` that has the length of its level. -/
structure Level (ok : Nat → Int → Prop) (x : Nat) (s : Lists) (l : Nat) (ps : List (Nat × Int)) :
    Prop where
  chain : Chain s.clist (s.last l) ps
  length : ps.length = l
  backward : Backward ok x (s.threshold l) ps

theorem Chain.yOf_nonneg {s : Lists} {i : Nat} {ps : List (Nat × Int)} (chain : Chain s.clist i ps) :
    0 ≤ s.yOf i := by
  cases chain with
  | start first => rw [yOf, List.getD_eq_getElem?_getD, first]; exact le_rfl
  | link found real => rw [yOf, List.getD_eq_getElem?_getD, found]; exact real.le

/-- What holds of the lists between two lines, when the lines up to `x` are done. -/
structure Sound (ok : Nat → Int → Prop) (x : Nat) (s : Lists) : Prop where
  increasing : Increasing s
  levels : ∀ l ≤ s.k, ∃ ps, Level ok x s l ps

theorem Sound.found {ok : Nat → Int → Prop} {x : Nat} {s : Lists} (sound : Sound ok x s) {l : Nat}
    (level : l ≤ s.k) : s.last l < s.clist.length :=
  let ⟨_, chain⟩ := sound.levels l level
  chain.chain.found

theorem Sound.nonneg {ok : Nat → Int → Prop} {x : Nat} {s : Lists} (sound : Sound ok x s) {l : Nat}
    (level : l ≤ s.k) : 0 ≤ s.threshold l :=
  let ⟨_, chain⟩ := sound.levels l level
  chain.chain.yOf_nonneg

/-- What a line makes of the lists `s`: a threshold stays, or it is a match of the line behind the
threshold before. -/
structure Grown (ok : Nat → Int → Prop) (x : Nat) (s t : Lists) : Prop extends Sound ok x t where
  size : t.klist.length = s.klist.length
  more : s.k ≤ t.k
  most : t.k ≤ s.k + 1
  lower : ∀ l ≤ s.k, t.threshold l ≤ s.threshold l
  origin : ∀ l < t.k, l < s.k ∧ t.threshold (l + 1) = s.threshold (l + 1) ∨
    ok x (t.threshold (l + 1)) ∧ s.threshold l < t.threshold (l + 1)

/-- The loop over the members in between: the levels above `oldl` are those before the line, and
the pending predecessor is the candidate of a level `q` before the line. -/
structure Trying (ok : Nat → Int → Prop) (x : Nat) (s : Lists) (a : Attempt) (q : Nat) : Prop
    extends Grown ok x s a.lists where
  same : a.lists.k = s.k
  longer : s.clist <+: a.lists.clist
  untouched : ∀ l, a.oldl < l → a.lists.last l = s.last l
  oldest : a.oldl ≤ q
  level : q ≤ s.k
  pending : a.pred = s.last q

/-- One pass of the loop, from a pending predecessor of level `q`. -/
inductive Pass (s : Lists) (x : Nat) (y : Int) (a : Attempt) (q : Nat) :
    Nat → Attempt × Bool → Prop where
  | skip (notBehind : y ≤ s.threshold q) : Pass s x y a q q (a, true)
  | equal {l} (order : q ≤ l) (level : l < s.k) (there : a.lists.threshold (l + 1) = y)
      (below : s.threshold l < y) : Pass s x y a q l ({ a with pred := s.last l }, true)
  | replace {l} (order : q ≤ l) (level : l < s.k) (below : s.threshold l < y)
      (above : y < a.lists.threshold (l + 1)) :
      Pass s x y a q (l + 1)
        ({ lists := a.lists.written (l + 1) ⟨x, y, s.last l⟩ s.k, pred := s.last (l + 1),
           oldl := l + 1, numtries := a.numtries + 1 }, true)
  | grow (below : s.threshold s.k < y) :
      Pass s x y a q s.k
        ({ a with lists := a.lists.written (s.k + 1) ⟨x, y, s.last s.k⟩ (s.k + 1),
                  pred := s.last s.k }, false)

section Line

variable {ok : Nat → Int → Prop} {x : Nat} {s : Lists} {a : Attempt} {q : Nat} {y : Int}

theorem Trying.threshold (trying : Trying ok (x + 1) s a q) (sound : Sound ok x s) {l : Nat}
    (level : l ≤ s.k) (new : a.oldl < l) : a.lists.threshold l = s.threshold l := by
  rw [Lists.threshold, trying.untouched l new]
  exact yOf_longer trying.longer (sound.found level)

theorem tryMember_passes (trying : Trying ok (x + 1) s a q) (sound : Sound ok x s) :
    ∃ q', Pass s (x + 1) y a q q' (tryMember (x + 1) y a) := by
  have pending : a.lists.yOf a.pred = s.threshold q := by
    rw [trying.pending]
    exact yOf_longer trying.longer (sound.found trying.level)
  unfold tryMember
  rw [pending]
  split
  · next notBehind => exact ⟨q, .skip notBehind⟩
  next behind =>
  have lowest : a.lists.threshold q < y :=
    (trying.lower q trying.level).trans_lt (not_le.mp behind)
  have first : a.lists.threshold 0 < y :=
    (trying.increasing.le (Nat.zero_le q) (trying.same ▸ trying.level)).trans_lt lowest
  have found := search_finds trying.increasing first
  generalize search a.lists y = l' at found
  obtain ⟨l, rfl⟩ : ∃ l, l' = l + 1 := ⟨l' - 1, by have := found.positive; omega⟩
  have most : l ≤ s.k := by have := found.most; have := trying.same; omega
  have order : q ≤ l := by
    by_contra late
    have above := found.above (by have := trying.same; have := trying.level; omega)
    have : a.lists.threshold (l + 1) ≤ a.lists.threshold q :=
      trying.increasing.le (by omega) (by have := trying.same; have := trying.level; omega)
    omega
  have pred : (if l + 1 ≠ a.oldl + 1 then a.lists.last (l + 1 - 1) else a.pred) = s.last l := by
    have := trying.oldest
    split
    · next other => exact trying.untouched l (by omega)
    · next other =>
      obtain rfl : l = q := by omega
      exact trying.pending
  have below : s.threshold l < y := by
    rcases Nat.lt_or_eq_of_le order with new | rfl
    · rw [← trying.threshold sound most (Nat.lt_of_le_of_lt trying.oldest new)]
      exact found.below
    · exact not_le.mp behind
  dsimp only
  rw [pred, trying.same]
  split
  · next there =>
    have equal := found.above (trying.same ▸ there.1)
    exact ⟨l, .equal order there.1 (le_antisymm there.2 equal) below⟩
  next notThere =>
  split
  · next level =>
    have above : y < a.lists.threshold (l + 1) := not_le.mp fun le => notThere ⟨level, le⟩
    have written : a.lists.put (l + 1) ⟨x + 1, y, s.last l⟩ =
        a.lists.written (l + 1) ⟨x + 1, y, s.last l⟩ s.k := by
      rw [← trying.same]
      rfl
    rw [trying.untouched (l + 1) (by have := trying.oldest; omega), written]
    exact ⟨l + 1, .replace order level below above⟩
  · next new =>
    obtain rfl : l = s.k := by omega
    exact ⟨s.k, .grow below⟩

/-- The levels other than the one that is written. -/
theorem Level.written_ne {t : Lists} {l l' k : Nat} {cand : Cand} {ps : List (Nat × Int)}
    (chain : Level ok x t l' ps) (other : l' ≠ l) : Level ok x (t.written l cand k) l' ps := by
  constructor
  · rw [last_written_ne other]
    exact chain.chain.longer longer_written
  · exact chain.length
  · rw [threshold_written_ne other chain.chain.found]
    exact chain.backward

/-- The match of a line with `y` behind the chain of level `l` before the line. -/
theorem Trying.level_written (trying : Trying ok (x + 1) s a q) (sound : Sound ok x s) {l k : Nat}
    (room : l + 1 < a.lists.klist.length) (level : l ≤ s.k) (below : s.threshold l < y)
    (good : ok (x + 1) y) :
    ∃ ps, Level ok (x + 1) (a.lists.written (l + 1) ⟨x + 1, y, s.last l⟩ k) (l + 1) ps := by
  obtain ⟨ps, chain⟩ := sound.levels l level
  have positive : 0 < y := (sound.nonneg level).trans_lt below
  refine ⟨(x + 1, y) :: ps, ?_, ?_, ?_⟩
  · rw [last_written room]
    refine .link (q := ⟨x + 1, y, s.last l⟩) List.getElem?_concat_length positive ?_ ?_
    · exact Nat.lt_of_lt_of_le (sound.found level) trying.longer.length_le
    · exact (chain.chain.longer trying.longer).longer longer_written
  · rw [List.length_cons, chain.length]
  · rw [threshold_written room]
    exact chain.backward.cons (Nat.lt_succ_self x) below positive good

theorem Trying.grown (trying : Trying ok (x + 1) s a q) (sound : Sound ok x s)
    (room : s.k + 1 < s.klist.length) {l k : Nat} (level : l ≤ s.k) (upTo : l < k)
    (most : k = s.k ∨ k = s.k + 1 ∧ l = s.k) (below : s.threshold l < y)
    (above : l < s.k → y < a.lists.threshold (l + 1)) (good : ok (x + 1) y) :
    Grown ok (x + 1) s (a.lists.written (l + 1) ⟨x + 1, y, s.last l⟩ k) := by
  have inside : l + 1 < a.lists.klist.length := by have := trying.size; omega
  have moved : (a.lists.written (l + 1) ⟨x + 1, y, s.last l⟩ k).threshold (l + 1) = y :=
    threshold_written inside
  have others : ∀ l' ≤ s.k, l' ≠ l + 1 →
      (a.lists.written (l + 1) ⟨x + 1, y, s.last l⟩ k).threshold l' = a.lists.threshold l' :=
    fun l' known other => threshold_written_ne other (trying.found (trying.same ▸ known))
  have levels : ∀ l' ≤ k, l' ≤ s.k ∨ l' = l + 1 := by omega
  constructor
  case toSound =>
    constructor
    · refine trying.increasing.moved moved (fun l' known => others l' (trying.same ▸ known)) ?_
        (trying.same ▸ level) ((trying.lower l level).trans_lt below) (trying.same ▸ above)
      exact trying.same ▸ levels
    · intro l' known
      by_cases here : l' = l + 1
      · rw [here]
        exact trying.level_written sound inside level below good
      · obtain ⟨ps, chain⟩ := trying.levels l' (trying.same ▸ (levels l' known).resolve_right here)
        exact ⟨ps, chain.written_ne here⟩
  · exact written_size.trans trying.size
  · rw [written_k]
    omega
  · rw [written_k]
    omega
  · intro l' known
    by_cases here : l' = l + 1
    · rw [here, moved]
      exact (above (by omega)).le.trans (trying.lower _ (by omega))
    · rw [others l' known here]
      exact trying.lower l' known
  · intro l' known
    by_cases here : l' = l
    · rw [here, moved]
      exact .inr ⟨good, below⟩
    · rw [written_k] at known
      rw [others (l' + 1) (by omega) (by omega)]
      exact trying.origin l' (by have := trying.same; omega)

/-- A pass after which the loop goes on. -/
theorem Trying.pass (trying : Trying ok (x + 1) s a q) (sound : Sound ok x s)
    (room : s.k + 1 < s.klist.length) {q' : Nat} {a' : Attempt}
    (pass : Pass s (x + 1) y a q q' (a', true)) (good : ok (x + 1) y) :
    Trying ok (x + 1) s a' q' := by
  cases pass with
  | skip => exact trying
  | equal order level =>
    exact { trying with
      oldest := Nat.le_trans trying.oldest order
      level := Nat.le_of_lt level
      pending := rfl }
  | @replace l order level below above =>
    have oldest := trying.oldest
    refine { trying.grown sound room (Nat.le_of_lt level) level (.inl rfl) below (fun _ => above)
      good with
      same := rfl
      longer := trying.longer.trans longer_written
      untouched := fun l' new => ?_
      oldest := Nat.le_refl _
      level := level
      pending := rfl }
    dsimp only at new
    rw [last_written_ne (by omega), trying.untouched l' (by omega)]

/-- The pass that ends the loop. -/
theorem Trying.ends (trying : Trying ok (x + 1) s a q) (sound : Sound ok x s)
    (room : s.k + 1 < s.klist.length) {q' : Nat} {a' : Attempt}
    (pass : Pass s (x + 1) y a q q' (a', false)) (good : ok (x + 1) y) :
    Grown ok (x + 1) s a'.lists := by
  cases pass with
  | grow below =>
    exact trying.grown sound room (Nat.le_refl _) (Nat.lt_succ_self _) (.inr ⟨rfl, rfl⟩) below
      (fun more => absurd more (Nat.lt_irrefl _)) good

/-- The members that a loop over them comes to. -/
def reached (y : Int) (rest : List Int) : List Int := y :: rest.takeWhile fun y => 0 < y

theorem reached_cons {y' : Int} {rest : List Int} (positive : 0 < y') :
    reached y (y' :: rest) = y :: reached y' rest := by
  rw [reached, reached, List.takeWhile_cons_of_pos]
  exact decide_eq_true positive

/-- What the loop makes of the lists, from any pass on. -/
theorem tryMembers_grown {bound : Nat} {rest : List Int} (trying : Trying ok (x + 1) s a q)
    (sound : Sound ok x s) (room : s.k + 1 < s.klist.length)
    (good : ∀ y' ∈ reached y rest, ok (x + 1) y') :
    Grown ok (x + 1) s (tryMembers bound (x + 1) y rest a) := by
  induction rest generalizing y a q with
  | nil =>
    obtain ⟨q', pass⟩ := tryMember_passes (y := y) trying sound
    have here := good y (List.mem_cons_self ..)
    rw [tryMembers]
    generalize tryMember (x + 1) y a = result at pass ⊢
    obtain ⟨a', _ | _⟩ := result
    · exact trying.ends sound room pass here
    · exact (trying.pass sound room pass here).toGrown
  | cons y' rest ih =>
    obtain ⟨q', pass⟩ := tryMember_passes (y := y) trying sound
    have here := good y (List.mem_cons_self ..)
    rw [tryMembers]
    generalize tryMember (x + 1) y a = result at pass ⊢
    obtain ⟨a', _ | _⟩ := result
    · exact trying.ends sound room pass here
    · have next := trying.pass sound room pass here
      dsimp only
      split
      · next more =>
        rw [reached_cons more.1] at good
        exact ih next fun y' member => good y' (List.mem_cons_of_mem _ member)
      · exact next.toGrown

/-! ## Which members are covered -/

/-- A chain of one more than each level before the line that `y` follows ends up to `y`. -/
def Covered (s t : Lists) (y : Int) : Prop :=
  ∃ l ≤ t.k, t.threshold l ≤ y ∧ (l ≤ s.k → y ≤ s.threshold l)

/-- No threshold gets higher. -/
structure Lowered (s t : Lists) : Prop where
  more : s.k ≤ t.k
  lower : ∀ l ≤ s.k, t.threshold l ≤ s.threshold l

theorem Lowered.trans {r t : Lists} (first : Lowered r s) (second : Lowered s t) : Lowered r t :=
  ⟨Nat.le_trans first.more second.more, fun l level =>
    (second.lower l (Nat.le_trans level first.more)).trans (first.lower l level)⟩

theorem Covered.lowered {t u : Lists} (covered : Covered s t y) (lowered : Lowered t u) :
    Covered s u y := by
  obtain ⟨l, level, below, above⟩ := covered
  exact ⟨l, Nat.le_trans level lowered.more, (lowered.lower l level).trans below, above⟩

theorem Covered.next {t : Lists} (covered : Covered s t y) (before : Increasing s)
    (after : Increasing t) {l : Nat} (level : l ≤ s.k) (below : s.threshold l < y) :
    l + 1 ≤ t.k ∧ t.threshold (l + 1) ≤ y := by
  obtain ⟨cover, known, reaches, above⟩ := covered
  have order : l < cover := by
    by_cases old : cover ≤ s.k
    · exact before.lt_of level (below.trans_le (above old))
    · omega
  exact ⟨Nat.le_trans order known, (after.le order known).trans reaches⟩

/-- What a pass does when its member is behind the pending level. -/
structure Covers (s : Lists) (y : Int) (a a' : Attempt) : Prop where
  covered : Covered s a'.lists y
  lowered : Lowered a.lists a'.lists
  tries : a'.numtries ≤ a.numtries + 1

theorem Trying.lowered_written (trying : Trying ok (x + 1) s a q)
    (room : s.k + 1 < s.klist.length) {l k : Nat} {cand : Cand} (level : l ≤ s.k) (most : s.k ≤ k)
    (above : l < s.k → cand.y < a.lists.threshold (l + 1)) :
    Lowered a.lists (a.lists.written (l + 1) cand k) := by
  refine ⟨trying.same ▸ most, fun l' known => ?_⟩
  by_cases here : l' = l + 1
  · rw [here, threshold_written (by have := trying.size; omega)]
    exact (above (by have := trying.same; omega)).le
  · exact (threshold_written_ne here (trying.found known)).le

theorem Trying.covers (trying : Trying ok (x + 1) s a q) (room : s.k + 1 < s.klist.length)
    (last : a.lists.threshold q < y) {q' : Nat} {result : Attempt × Bool}
    (pass : Pass s (x + 1) y a q q' result) :
    Covers s y a result.1 ∧ (result.2 = true → result.1.lists.threshold q' ≤ y) := by
  have size := trying.size
  have same := trying.same
  cases pass with
  | skip notBehind =>
    exact ⟨⟨⟨q, same ▸ trying.level, last.le, fun _ => notBehind⟩, ⟨Nat.le_refl _, fun _ _ => le_rfl⟩,
      Nat.le_succ _⟩, fun _ => last.le⟩
  | equal order level there below =>
    refine ⟨⟨⟨q' + 1, same ▸ level, there.le, fun old => ?_⟩, ⟨Nat.le_refl _, fun _ _ => le_rfl⟩,
      Nat.le_succ _⟩, fun _ => ?_⟩
    · exact there ▸ trying.lower _ old
    · exact (trying.lower q' (Nat.le_of_lt level)).trans below.le
  | @replace l order level below above =>
    have here : (a.lists.written (l + 1) ⟨x + 1, y, s.last l⟩ s.k).threshold (l + 1) = y :=
      threshold_written (by omega)
    refine ⟨⟨⟨l + 1, level, here.le, fun old => ?_⟩, ?_, Nat.le_refl _⟩, fun _ => here.le⟩
    · exact above.le.trans (trying.lower _ old)
    · exact trying.lowered_written room (Nat.le_of_lt level) (Nat.le_refl _) fun _ => above
  | grow below =>
    have here : (a.lists.written (s.k + 1) ⟨x + 1, y, s.last s.k⟩ (s.k + 1)).threshold (s.k + 1) = y :=
      threshold_written (by omega)
    refine ⟨⟨⟨s.k + 1, Nat.le_refl _, here.le, fun old => by omega⟩, ?_, Nat.le_succ _⟩, nofun⟩
    exact trying.lowered_written room (Nat.le_refl _) (Nat.le_succ _) fun old => by omega

/-- A new level covers all members from the one that it ends with. -/
theorem Trying.covers_rest (trying : Trying ok (x + 1) s a q) (room : s.k + 1 < s.klist.length)
    {q' : Nat} {a' : Attempt} (pass : Pass s (x + 1) y a q q' (a', false)) {y' : Int}
    (order : y ≤ y') : Covered s a'.lists y' := by
  have size := trying.size
  cases pass with
  | grow below =>
    refine ⟨s.k + 1, Nat.le_refl _, ?_, fun old => by omega⟩
    rw [threshold_written (by omega)]
    exact order

theorem reached_stop {y' : Int} {rest : List Int} (stop : ¬ 0 < y') :
    reached y (y' :: rest) = [y] := by
  rw [reached, List.takeWhile_cons_of_neg]
  exact fun more => stop (of_decide_eq_true more)

theorem tryMembers_covers {bound : Nat} {rest : List Int} (trying : Trying ok (x + 1) s a q)
    (sound : Sound ok x s) (room : s.k + 1 < s.klist.length)
    (good : ∀ y' ∈ reached y rest, ok (x + 1) y') (last : a.lists.threshold q < y)
    (ascending : (reached y rest).Pairwise (· < ·))
    (few : a.numtries + (reached y rest).length ≤ bound) :
    Lowered a.lists (tryMembers bound (x + 1) y rest a) ∧
      ∀ y' ∈ reached y rest, Covered s (tryMembers bound (x + 1) y rest a) y' := by
  induction rest generalizing y a q with
  | nil =>
    obtain ⟨q', pass⟩ := tryMember_passes (y := y) trying sound
    have ⟨covers, _⟩ := trying.covers room last pass
    have only : ∀ y' ∈ reached y [], y' = y := fun y' member => List.mem_singleton.mp member
    rw [tryMembers]
    generalize tryMember (x + 1) y a = result at pass covers ⊢
    obtain ⟨a', _ | _⟩ := result <;>
      exact ⟨covers.lowered, fun y' member => only y' member ▸ covers.covered⟩
  | cons y' rest ih =>
    obtain ⟨q', pass⟩ := tryMember_passes (y := y) trying sound
    have ⟨covers, pending⟩ := trying.covers room last pass
    have here := good y (List.mem_cons_self ..)
    rw [tryMembers]
    generalize tryMember (x + 1) y a = result at pass covers pending ⊢
    obtain ⟨a', _ | _⟩ := result
    · refine ⟨covers.lowered, fun z member => trying.covers_rest room pass ?_⟩
      rcases List.mem_cons.mp member with rfl | member
      · exact le_rfl
      · exact ((List.pairwise_cons.mp ascending).1 z member).le
    have next := trying.pass sound room pass here
    have tries := covers.tries
    dsimp only at covers pending tries ⊢
    by_cases positive : 0 < y'
    · rw [reached_cons positive] at good ascending few ⊢
      rw [List.length_cons] at few
      have more : a'.numtries < bound := by
        have : 0 < (reached y' rest).length := Nat.succ_pos _
        omega
      have ascends := List.pairwise_cons.mp ascending
      rw [if_pos ⟨positive, more⟩]
      obtain ⟨lowered, covered⟩ := ih next
        (fun z member => good z (List.mem_cons_of_mem _ member))
        ((pending rfl).trans_lt (ascends.1 y' (List.mem_cons_self ..))) ascends.2 (by omega)
      refine ⟨covers.lowered.trans lowered, fun z member => ?_⟩
      rcases List.mem_cons.mp member with rfl | member
      · exact covers.covered.lowered lowered
      · exact covered z member
    · rw [reached_stop positive, if_neg fun both => positive both.1]
      exact ⟨covers.lowered, fun z member => List.mem_singleton.mp member ▸ covers.covered⟩

end Line

end Busybox.Diff
