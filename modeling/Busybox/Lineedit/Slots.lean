import Busybox.Lineedit.History

/-!
# The slots of the history

Each operation on the slots, as what it does to the pointers and to the strings they own.
-/

namespace Busybox.Lineedit

open LinkedHeap (Heap Owned)
open Fallible

/-- `history[0..cnt_history)` are strings, and no two slots share one. -/
structure LineInput.Inv (n : LineInput) : Prop where
  full : n.history.length = MAX_HISTORY + 1
  positive : 1 ≤ n.maxHistory
  most : n.maxHistory ≤ MAX_HISTORY
  cnt : n.cntHistory ≤ n.maxHistory
  cur : n.curHistory ≤ n.maxHistory
  owned : Owned n.history n.heap
  filled : ∀ i < n.cntHistory, ∃ id : ℕ, n.history[i]? = some (some id)

/-- The string in a slot. -/
def LineInput.entry (n : LineInput) (i : ℕ) : Option Text :=
  n.history[i]?.join.bind (LinkedHeap.get n.heap)

theorem newLineInput_inv (doHistory : Bool) {maxHistory : ℕ} (positive : 1 ≤ maxHistory)
    (most : maxHistory ≤ MAX_HISTORY) (heap : Heap Text) :
    (newLineInput doHistory maxHistory heap).Inv :=
  ⟨List.length_replicate, positive, most, Nat.zero_le _, Nat.zero_le _,
    LinkedHeap.owned_empty _ heap, fun _ less => absurd less (Nat.not_lt_zero _)⟩

variable {n : LineInput} {i : ℕ}

theorem pointer_eq {cells : List (Option ℕ)} {p : Option ℕ} (held : cells[i]? = some p) :
    pointer cells i = .ok p := by
  unfold pointer
  rw [held]

theorem store_eq {cells : List (Option ℕ)} (inside : i < cells.length) (p : Option ℕ) :
    store cells i p = .ok (cells.set i p) := if_pos inside

theorem string_eq {heap : Heap Text} {id : ℕ} {text : Text}
    (found : LinkedHeap.get heap id = some text) : string heap (some id) = .ok text := by
  unfold string
  dsimp only
  rw [found]

/-- `free` of a slot leaves the other slots as they are. -/
theorem freeAt_spec (owned : Owned n.history n.heap) (inside : i < n.history.length) :
    ∃ heap, n.freeAt i = .ok { n with heap := heap } ∧ Owned (n.history.set i none) heap ∧
      heap.length = n.heap.length ∧
      ∀ id, n.history[i]? ≠ some (some id) → LinkedHeap.get heap id = LinkedHeap.get n.heap id := by
  have held : n.history[i]? = some (n.history[i]) := List.getElem?_eq_getElem inside
  unfold LineInput.freeAt
  rw [pointer_eq held, ok_bind]
  generalize n.history[i] = p at held
  cases p with
  | none => exact ⟨n.heap, rfl, owned.clear i, rfl, fun _ _ => rfl⟩
  | some id =>
    obtain ⟨text, found⟩ := owned.live held
    refine ⟨LinkedHeap.free n.heap id, ?_, owned.release held, LinkedHeap.free_length _ _, ?_⟩
    · unfold release
      dsimp only
      rw [found, if_pos (by rfl)]
      rfl
    · intro id' other
      refine LinkedHeap.get_free_other ?_
      rintro rfl
      exact other held

theorem clearAt_eq (inside : i < n.history.length) :
    n.clearAt i = .ok { n with history := n.history.set i none } := by
  unfold LineInput.clearAt
  rw [store_eq inside]
  rfl

theorem strdupAt_eq (inside : i < n.history.length) (str : Text) :
    n.strdupAt i str = .ok { n with
      history := n.history.set i (some n.heap.length), heap := LinkedHeap.alloc n.heap str } := by
  unfold LineInput.strdupAt
  rw [store_eq inside]
  rfl

/-! ## Looking at older lines -/

/-- The line that is edited is kept in the current slot. -/
theorem saveCommandPsAtCurHistory_spec (inv : n.Inv) (commandPs : Text) :
    ∃ n', saveCommandPsAtCurHistory commandPs n = .ok n' ∧ n'.Inv ∧
      n'.cntHistory = n.cntHistory ∧ n'.curHistory = n.curHistory ∧
      n'.doHistory = n.doHistory ∧ n'.maxHistory = n.maxHistory := by
  unfold saveCommandPsAtCurHistory
  by_cases none : commandPs = []
  · rw [if_pos none]
    exact ⟨n, rfl, inv, rfl, rfl, rfl, rfl⟩
  have inside : n.curHistory < n.history.length := by
    have := inv.full
    have := inv.cur
    have := inv.most
    omega
  obtain ⟨heap, freed, owned, length, -⟩ := freeAt_spec inv.owned inside
  rw [if_neg none, freed, ok_bind,
    strdupAt_eq (n := { n with heap := heap }) inside commandPs]
  refine ⟨_, rfl, ⟨?_, inv.positive, inv.most, inv.cnt, inv.cur, owned.alloc commandPs, ?_⟩,
    rfl, rfl, rfl, rfl⟩
  · rw [List.length_set]
    exact inv.full
  · intro i less
    obtain ⟨id, held⟩ := inv.filled i less
    dsimp only
    rcases eq_or_ne n.curHistory i with rfl | other
    · exact ⟨_, List.getElem?_set_self inside⟩
    · exact ⟨id, by rw [List.getElem?_set_ne other, held]⟩

theorem getPreviousHistory_spec (inv : n.Inv) (commandPs : Text) :
    ∃ n' ret, getPreviousHistory commandPs n = .ok (n', ret) ∧ n'.Inv ∧
      n'.maxHistory = n.maxHistory ∧ n'.cntHistory = n.cntHistory ∧
      n'.curHistory ≤ n.curHistory := by
  unfold getPreviousHistory
  split_ifs with goes
  · obtain ⟨n', saved, inv', cnt, cur, -, same⟩ := saveCommandPsAtCurHistory_spec inv commandPs
    rw [saved, ok_bind]
    refine ⟨_, _, rfl, ?_, same, cnt, ?_⟩
    · exact { inv' with cur := (Nat.sub_le _ _).trans inv'.cur }
    · exact (Nat.sub_le _ _).trans_eq cur
  · exact ⟨n, 0, rfl, inv, rfl, rfl, le_rfl⟩

theorem getNextHistory_spec (inv : n.Inv) (commandPs : Text) :
    ∃ n' ret, getNextHistory commandPs n = .ok (n', ret) ∧ n'.Inv ∧
      n'.maxHistory = n.maxHistory ∧ n'.cntHistory = n.cntHistory ∧
      n'.curHistory ≤ max n.curHistory n.cntHistory := by
  unfold getNextHistory
  split_ifs with goes
  · obtain ⟨n', saved, inv', cnt, cur, -, same⟩ := saveCommandPsAtCurHistory_spec inv commandPs
    have less : n'.curHistory + 1 ≤ n'.cntHistory := by
      rw [cur, cnt]
      exact goes.2
    rw [saved, ok_bind]
    refine ⟨_, _, rfl, ?_, same, cnt, ?_⟩
    · exact { inv' with cur := less.trans inv'.cnt }
    · exact less.trans (cnt ▸ le_max_right _ _)
  · exact ⟨n, 0, rfl, inv, rfl, rfl, le_max_left _ _⟩

/-- The search looks at strings only, and finds one at an earlier slot. -/
theorem searchLoop_spec (owned : Owned n.history n.heap) (matchBuf : Text) {h : ℕ}
    (inside : h ≤ n.history.length) :
    ∃ found, searchLoop matchBuf n h = .ok found ∧ ∀ i, found = some i → i < h := by
  induction h with
  | zero => exact ⟨none, rfl, fun i absurdity => nomatch absurdity⟩
  | succ h ih =>
    obtain ⟨found, searched, earlier⟩ := ih (by omega)
    have rest : ∃ found, searchLoop matchBuf n h = .ok found ∧ ∀ i, found = some i → i < h + 1 :=
      ⟨found, searched, fun i here => Nat.lt_succ_of_lt (earlier i here)⟩
    have held : n.history[h]? = some (n.history[h]) := List.getElem?_eq_getElem (by omega)
    rw [searchLoop, pointer_eq held, ok_bind]
    generalize n.history[h] = p at held
    cases p with
    | none => exact rest
    | some id =>
      obtain ⟨text, isText⟩ := owned.live held
      rw [if_neg (by simp), string_eq isText, ok_bind]
      split
      · exact ⟨some h, rfl, fun i here => Option.some.inj here ▸ Nat.lt_succ_self h⟩
      · exact rest

theorem reverseISearch_spec (inv : n.Inv) (matchBuf : Text) (again : Bool) :
    ∃ n', reverseISearch matchBuf again n = .ok n' ∧ n'.Inv ∧
      n'.maxHistory = n.maxHistory ∧ n'.cntHistory = n.cntHistory ∧
      n'.curHistory ≤ n.curHistory := by
  have bound : (if again then n.curHistory else n.curHistory + 1) ≤ n.curHistory + 1 := by
    split
    · exact Nat.le_succ _
    · exact le_rfl
  have inside : n.curHistory + 1 ≤ n.history.length := by
    have := inv.full
    have := inv.cur
    have := inv.most
    omega
  obtain ⟨found, searched, earlier⟩ :=
    searchLoop_spec inv.owned matchBuf (bound.trans inside)
  have smaller : found.getD n.curHistory ≤ n.curHistory := by
    cases found with
    | none => exact le_rfl
    | some i => exact Nat.le_of_lt_succ ((earlier i rfl).trans_le bound)
  unfold reverseISearch
  rw [searched, ok_bind]
  exact ⟨_, rfl, { inv with cur := smaller.trans inv.cur }, rfl, rfl, smaller⟩

/-! ## New lines -/

/-- The pointers in front of the cell are moved down, and the last of them stands twice. -/
theorem shiftLoop_spec (left i : ℕ) (n : LineInput) (inside : i + left < n.history.length) :
    ∃ history, shiftLoop left i n = .ok { n with history := history } ∧
      history.length = n.history.length ∧
      ∀ j, history[j]? = if i ≤ j ∧ j < i + left then n.history[j + 1]? else n.history[j]? := by
  induction left generalizing i n with
  | zero =>
    refine ⟨n.history, rfl, rfl, fun j => ?_⟩
    rw [if_neg (by omega)]
  | succ left ih =>
    have held : n.history[i + 1]? = some (n.history[i + 1]) :=
      List.getElem?_eq_getElem (by omega)
    rw [shiftLoop, pointer_eq held, ok_bind, store_eq (by omega), ok_bind]
    generalize n.history[i + 1] = p at held
    obtain ⟨history, shifted, length, cells⟩ := ih (i + 1) { n with history := n.history.set i p }
      (by rw [List.length_set]; omega)
    refine ⟨history, shifted, by rw [length, List.length_set], fun j => ?_⟩
    rw [cells]
    dsimp only
    by_cases here : j = i
    · rw [here, if_neg (by omega), List.getElem?_set_self (by omega),
        if_pos ⟨le_rfl, by omega⟩, held]
    · by_cases between : i + 1 ≤ j ∧ j < i + 1 + left
      · rw [if_pos between, if_pos (by omega), List.getElem?_set_ne (by omega)]
      · rw [if_neg between, if_neg (by omega), List.getElem?_set_ne (Ne.symm here)]

/-- The oldest line goes where the history is full, and the last slot is free for a new one. -/
theorem makeRoom_spec (inv : n.Inv) :
    ∃ n' i, (if n.cntHistory ≥ n.maxHistory then do
        let state ← n.freeAt 0
        let state ← shiftLoop (state.maxHistory - 1) 0 state
        return (state, state.maxHistory - 1)
      else .ok (n, n.cntHistory)) = .ok (n', i) ∧
      i < n.maxHistory ∧ n'.history.length = n.history.length ∧ n'.maxHistory = n.maxHistory ∧
      Owned (n'.history.set i none) n'.heap ∧
      ∀ j < i, ∃ id : ℕ, n'.history[j]? = some (some id) := by
  have positive := inv.positive
  have inside : n.maxHistory < n.history.length := by
    have := inv.full
    have := inv.most
    omega
  split_ifs with isFull
  · obtain ⟨heap, freed, owned, -, -⟩ := freeAt_spec inv.owned (i := 0) (by omega)
    obtain ⟨history, shifted, length, cells⟩ := shiftLoop_spec (n.maxHistory - 1) 0
      { n with heap := heap } (by dsimp only; omega)
    rw [freed, ok_bind, shifted, ok_bind]
    refine ⟨_, _, rfl, by dsimp only; omega, length, rfl, ?_, ?_⟩
    · dsimp only
      -- what is below the vacant slot comes from the next slot, what is above it from its own
      refine owned.remap (fun j => if j < n.maxHistory - 1 then j + 1 else j) ?_ ?_
      · intro j id held
        rcases LinkedHeap.getElem?_set_cases held with ⟨-, absurdity⟩ | ⟨other, held⟩
        · cases absurdity
        rw [cells] at held
        dsimp only at held ⊢
        by_cases below : j < n.maxHistory - 1
        · rw [if_pos (by omega)] at held
          rwa [if_pos below, List.getElem?_set_ne (by omega)]
        · rw [if_neg (by omega)] at held
          rwa [if_neg below, List.getElem?_set_ne (by omega)]
      · intro j k id held held' same
        rcases LinkedHeap.getElem?_set_cases held with ⟨-, absurdity⟩ | ⟨other, -⟩
        · cases absurdity
        rcases LinkedHeap.getElem?_set_cases held' with ⟨-, absurdity⟩ | ⟨other', -⟩
        · cases absurdity
        split_ifs at same with below below' below'
        · omega
        · omega
        · omega
        · exact same
    · intro j less
      dsimp only at less ⊢
      rw [cells, if_pos (by omega)]
      exact inv.filled (j + 1) (by omega)
  · exact ⟨n, n.cntHistory, rfl, by omega, rfl, rfl, inv.owned.clear _, inv.filled⟩

/-- A line that is remembered becomes the last one. -/
theorem rememberInHistory_spec (inv : n.Inv) (str : Text) :
    ∃ n', rememberInHistory str n = .ok n' ∧ n'.Inv ∧ n'.maxHistory = n.maxHistory ∧
      (n' = n ∨ n'.curHistory = n'.cntHistory) := by
  have stays : ∃ n', (.ok n : Except Fault LineInput) = .ok n' ∧ n'.Inv ∧
      n'.maxHistory = n.maxHistory ∧ (n' = n ∨ n'.curHistory = n'.cntHistory) :=
    ⟨n, rfl, inv, rfl, .inl rfl⟩
  have inside : n.maxHistory < n.history.length := by
    have := inv.full
    have := inv.most
    omega
  unfold rememberInHistory
  by_cases on : n.doHistory = true
  case neg => rwa [if_pos on]
  rw [if_neg (not_not.mpr on)]
  by_cases empty : str = []
  case pos => rwa [if_pos empty]
  rw [if_neg empty]
  dsimp only
  obtain ⟨dupe, compared⟩ : ∃ dupe, (if n.cntHistory = 0 then .ok false else do
      let p ← pointer n.history (n.cntHistory - 1)
      let last ← string n.heap p
      return last = str : Except Fault Bool) = .ok dupe := by
    split_ifs with zero
    · exact ⟨false, rfl⟩
    · obtain ⟨id, held⟩ := inv.filled (n.cntHistory - 1) (by omega)
      obtain ⟨text, isText⟩ := inv.owned.live held
      rw [pointer_eq held, ok_bind, string_eq isText]
      exact ⟨_, rfl⟩
  rw [compared, ok_bind]
  cases dupe with
  | true => exact stays
  | false =>
    rw [if_neg Bool.false_ne_true]
    obtain ⟨heap, freed, owned, -, -⟩ := freeAt_spec inv.owned inside
    rw [freed, ok_bind, clearAt_eq (n := { n with heap := heap }) inside, ok_bind]
    have inv' : LineInput.Inv
        { n with heap := heap, history := n.history.set n.maxHistory none } := by
      refine ⟨?_, inv.positive, inv.most, inv.cnt, inv.cur, owned, fun i less => ?_⟩
      · rw [List.length_set]
        exact inv.full
      · have cnt := inv.cnt
        dsimp only at less ⊢
        rw [List.getElem?_set_ne (by omega)]
        exact inv.filled i less
    obtain ⟨n', i, room, less, length, same, owned', filled⟩ :=
      makeRoom_spec inv'
    dsimp only at room less length same
    rw [List.length_set] at length
    dsimp only
    rw [room, ok_bind]
    dsimp only
    rw [strdupAt_eq (by omega), ok_bind]
    refine ⟨_, rfl, ⟨?_, ?_, ?_, ?_, ?_, owned'.alloc str, fun j below => ?_⟩, same, .inr rfl⟩
    · dsimp only
      rw [List.length_set, length]
      exact inv.full
    · exact same.symm ▸ inv.positive
    · exact same.symm ▸ inv.most
    · exact same.symm ▸ less
    · exact same.symm ▸ less
    · dsimp only at below ⊢
      rcases eq_or_ne i j with rfl | other
      · exact ⟨_, List.getElem?_set_self (by omega)⟩
      · rw [List.getElem?_set_ne other]
        exact filled j (by omega)

end Busybox.Lineedit
