import Busybox.Lib.RingBuffer
import Busybox.Lineedit.Slots

/-!
# Loading the history file

The lines go through a ring of `max_history` pointers, which is then copied from its oldest line
on.
-/

namespace Busybox.Lineedit

open LinkedHeap (Heap Owned)
open RingBuffer (Holds window)
open Libbb (fgetlines)
open Fallible

/-- The last lines of a file that are not empty, as far as they fit. -/
def historyLines (maxHistory : ℕ) (text : Text) : List Text :=
  (((fgetlines [] text).filter (· ≠ [])).rtake maxHistory).map (List.take (MAX_LINELEN - 1))

variable {n : LineInput}

/-! ## Cleaning up -/

theorem cleanLoop_spec (idx : ℕ) (n : LineInput) (owned : Owned n.history n.heap)
    (inside : idx ≤ n.history.length) :
    ∃ history heap, cleanLoop idx n = .ok { n with history := history, heap := heap } ∧
      history.length = n.history.length ∧ Owned history heap := by
  induction idx generalizing n with
  | zero => exact ⟨n.history, n.heap, rfl, rfl, owned⟩
  | succ idx ih =>
    obtain ⟨heap, freed, owned', -, -⟩ := freeAt_spec owned (i := idx) (by omega)
    obtain ⟨history, heap', cleaned, length, owned''⟩ :=
      ih { n with history := n.history.set idx none, heap := heap } owned'
        (by rw [List.length_set]; omega)
    rw [cleanLoop, freed, ok_bind, clearAt_eq (n := { n with heap := heap }) inside, ok_bind]
    exact ⟨history, heap', cleaned, by rw [length, List.length_set], owned''⟩

/-! ## The ring -/

/-- The ring holds the last of the pointers `ids`, which are those allocated for the lines
`done`. -/
structure Filled (old : Heap Text) (maxHistory : ℕ) (done : List Text) (ids : List ℕ)
    (ring : Ring) : Prop where
  length : ids.length = done.length
  count : ring.cntHistoryInFile = done.length
  cells : ring.tempH.length = MAX_HISTORY
  holds : Holds maxHistory ring.idx (ring.tempH.take maxHistory)
    (window maxHistory none (ids.map some))
  new : ∀ id ∈ ids, old.length ≤ id ∧ id < ring.heap.length
  once : ids.Nodup
  texts : ∀ ⦃k id⦄, done.length ≤ k + maxHistory → ids[k]? = some id →
    LinkedHeap.get ring.heap id = done[k]?
  size : old.length ≤ ring.heap.length
  frame : ∀ id < old.length, LinkedHeap.get ring.heap id = LinkedHeap.get old id

/-- What the window keeps of pointers: nothing before there are enough of them. -/
theorem window_some {maxHistory o : ℕ} {ids : List ℕ} (inside : o < maxHistory) :
    (window maxHistory none (ids.map some))[o]? =
      some (if ids.length + o < maxHistory then none else ids[ids.length + o - maxHistory]?) := by
  unfold window
  rw [List.getElem?_drop, List.length_map]
  split_ifs with early
  · rw [List.getElem?_append_left (by rw [List.length_replicate]; exact early),
      List.getElem?_replicate, if_pos early]
  · rw [List.getElem?_append_right (by rw [List.length_replicate]; omega), List.length_replicate,
      List.getElem?_map, List.getElem?_eq_getElem (by omega)]
    rfl

namespace Filled

variable {old : Heap Text} {maxHistory : ℕ} {done : List Text} {ids : List ℕ} {ring : Ring}

theorem idx_lt (filled : Filled old maxHistory done ids ring) : ring.idx < maxHistory :=
  filled.holds.inside

theorem le_cells (filled : Filled old maxHistory done ids ring) : maxHistory ≤ MAX_HISTORY := by
  have full := filled.holds.full
  rw [List.length_take, filled.cells] at full
  omega

/-- The cells in the order of their lines. -/
theorem cell (filled : Filled old maxHistory done ids ring) {o : ℕ} (inside : o < maxHistory) :
    ring.tempH[(ring.idx + o) % maxHistory]? =
      some (if done.length + o < maxHistory then none
        else ids[done.length + o - maxHistory]?) := by
  have less : (ring.idx + o) % maxHistory < maxHistory := Nat.mod_lt _ (by omega)
  rw [← filled.length, ← window_some inside, ← filled.holds.cell inside,
    List.getElem?_take_of_lt less]

/-- An empty line is forgotten at once. -/
theorem skip (filled : Filled old maxHistory done ids ring) :
    ∃ heap, release (LinkedHeap.alloc ring.heap []) (some ring.heap.length) = .ok heap ∧
      Filled old maxHistory done ids { ring with heap := heap } := by
  have found : LinkedHeap.get (LinkedHeap.alloc ring.heap []) ring.heap.length = some [] := by
    rw [LinkedHeap.get_alloc, if_pos rfl]
  have kept {id : ℕ} (less : id < ring.heap.length) :
      LinkedHeap.get (LinkedHeap.free (LinkedHeap.alloc ring.heap []) ring.heap.length) id =
        LinkedHeap.get ring.heap id := by
    rw [LinkedHeap.get_free_other less.ne, LinkedHeap.get_alloc, if_neg less.ne]
  refine ⟨_, by unfold release; dsimp only; rw [found, if_pos (by rfl)], ?_⟩
  have grows : ring.heap.length ≤ (LinkedHeap.free (LinkedHeap.alloc ring.heap [])
      ring.heap.length).length := by
    rw [LinkedHeap.free_length, LinkedHeap.alloc_length]
    exact Nat.le_succ _
  refine { filled with
    new := fun id mem => ⟨(filled.new id mem).1, (filled.new id mem).2.trans_le grows⟩
    texts := fun k id late here => ?_
    size := filled.size.trans grows
    frame := fun id less => (kept (less.trans_le filled.size)).trans (filled.frame id less) }
  exact (kept (filled.new id (List.mem_of_getElem? here)).2).trans (filled.texts late here)

/-- A line takes the place of the oldest one. -/
theorem line (filled : Filled old maxHistory done ids ring) (line : Text) :
    ∃ p heap tempH, pointer ring.tempH ring.idx = .ok p ∧
      release (LinkedHeap.alloc ring.heap line) p = .ok heap ∧
      store ring.tempH ring.idx (some ring.heap.length) = .ok tempH ∧
      Filled old maxHistory (done ++ [line]) (ids ++ [ring.heap.length])
        ⟨heap, tempH, wrap maxHistory ring.idx, ring.cntHistoryInFile + 1⟩ := by
  have inside := filled.idx_lt
  have most := filled.le_cells
  have cells := filled.cells
  have length := filled.length
  have oldest := filled.cell (o := 0) (by omega)
  rw [Nat.add_zero, Nat.mod_eq_of_lt inside, Nat.add_zero] at oldest
  -- the oldest pointer is freed; the lines that are kept have other ones
  obtain ⟨heap, freed, size, kept⟩ : ∃ heap, release (LinkedHeap.alloc ring.heap line)
      (if done.length < maxHistory then none else ids[done.length - maxHistory]?) = .ok heap ∧
      heap.length = ring.heap.length + 1 ∧
      ∀ id, (∀ k, ids[k]? = some id → done.length < k + maxHistory) →
        LinkedHeap.get heap id = LinkedHeap.get (LinkedHeap.alloc ring.heap line) id := by
    split_ifs with early
    · exact ⟨_, rfl, LinkedHeap.alloc_length _ _, fun _ _ => rfl⟩
    · have here : ids[done.length - maxHistory]? = some ids[done.length - maxHistory] :=
        List.getElem?_eq_getElem (by omega)
      generalize ids[done.length - maxHistory] = id at here
      have used := (filled.new id (List.mem_of_getElem? here)).2
      have text := filled.texts (by omega) here
      rw [List.getElem?_eq_getElem (by omega)] at text
      refine ⟨LinkedHeap.free (LinkedHeap.alloc ring.heap line) id, ?_, ?_, fun id' late => ?_⟩
      · unfold release
        rw [here]
        dsimp only
        rw [LinkedHeap.get_alloc, if_neg used.ne, text, if_pos (by rfl)]
      · rw [LinkedHeap.free_length, LinkedHeap.alloc_length]
      · refine LinkedHeap.get_free_other ?_
        rintro rfl
        have := late _ here
        omega
  have unused : ring.heap.length ∉ ids := fun mem => lt_irrefl _ (filled.new _ mem).2
  refine ⟨_, heap, _, pointer_eq oldest, freed, store_eq (by omega) _, ?_⟩
  constructor
  · rw [List.length_append, List.length_append, length]
    rfl
  · rw [List.length_append, filled.count]
    rfl
  · rw [List.length_set, cells]
  · have room : ring.idx + [some ring.heap.length].length ≤ maxHistory := inside
    have written := filled.holds.write room
    have fits : [some ring.heap.length].length ≤ maxHistory := Nat.one_le_of_lt inside
    rw [← RingBuffer.window_append fits] at written
    rw [List.map_append, List.map_singleton]
    have same : (ring.tempH.set ring.idx (some ring.heap.length)).take maxHistory =
        (ring.tempH.take maxHistory).take ring.idx ++ [some ring.heap.length] ++
          (ring.tempH.take maxHistory).drop (ring.idx + 1) := by
      have shorter : ring.idx < (ring.tempH.take maxHistory).length := by
        rw [filled.holds.full]
        exact inside
      rw [List.take_set, List.set_eq_take_append_cons_drop, if_pos shorter, List.append_assoc]
      rfl
    dsimp only
    rw [same]
    exact written
  · intro id mem
    dsimp only
    rw [size]
    rcases List.mem_append.mp mem with before | here
    · have := filled.new id before
      omega
    · rw [List.mem_singleton.mp here]
      have := filled.size
      omega
  · rw [List.nodup_append]
    refine ⟨filled.once, List.nodup_singleton _, fun a mem b mem' => ?_⟩
    rw [List.mem_singleton.mp mem']
    exact fun same => unused (same ▸ mem)
  · intro k id late here
    rw [List.length_append, List.length_singleton] at late
    dsimp only
    by_cases before : k < ids.length
    · rw [List.getElem?_append_left before] at here
      have used := (filled.new id (List.mem_of_getElem? here)).2
      have single (k' : ℕ) (there : ids[k']? = some id) : done.length < k' + maxHistory := by
        have : k' = k := (List.getElem?_inj (List.getElem?_eq_some_iff.mp there).1
          filled.once).mp (there.trans here.symm)
        omega
      rw [kept id single, LinkedHeap.get_alloc, if_neg used.ne,
        List.getElem?_append_left (by omega)]
      exact filled.texts (by omega) here
    · have last : k = ids.length := by
        have := (List.getElem?_eq_some_iff.mp here).1
        rw [List.length_append, List.length_singleton] at this
        omega
      subst last
      rw [List.getElem?_concat_length] at here
      cases here
      have single (k' : ℕ) (there : ids[k']? = some ring.heap.length) :
          done.length < k' + maxHistory := absurd (List.mem_of_getElem? there) unused
      rw [kept _ single, LinkedHeap.get_alloc, if_pos rfl, length, List.getElem?_concat_length]
  · have := filled.size
    dsimp only
    omega
  · intro id less
    have used : id < ring.heap.length := less.trans_le filled.size
    have single (k' : ℕ) (there : ids[k']? = some id) : done.length < k' + maxHistory :=
      absurd less (filled.new id (List.mem_of_getElem? there)).1.not_gt
    dsimp only
    rw [kept id single, LinkedHeap.get_alloc, if_neg used.ne, filled.frame id less]

end Filled

theorem fillLoop_spec {old : Heap Text} {maxHistory : ℕ} (lines : List Text) {done : List Text}
    {ids : List ℕ} {ring : Ring} (filled : Filled old maxHistory done ids ring) :
    ∃ ids' ring', fillLoop maxHistory lines ring = .ok ring' ∧
      Filled old maxHistory (done ++ lines.filter (· ≠ [])) ids' ring' := by
  induction lines generalizing done ids ring with
  | nil => exact ⟨ids, ring, rfl, by simpa using filled⟩
  | cons line lines ih =>
    rw [fillLoop]
    by_cases empty : line = []
    · subst empty
      obtain ⟨heap, freed, filled⟩ := filled.skip
      rw [if_pos rfl, freed, ok_bind, List.filter_cons_of_neg (by simp)]
      exact ih filled
    · obtain ⟨p, heap, tempH, read, freed, written, filled⟩ := filled.line line
      rw [if_neg empty, read, ok_bind, freed, ok_bind, written, ok_bind,
        List.filter_cons_of_pos (by simpa using empty), ← List.singleton_append,
        ← List.append_assoc]
      exact ih filled

/-! ## Unrolling the ring -/

theorem wrap_eq {maxHistory idx : ℕ} (inside : idx < maxHistory) :
    wrap maxHistory idx = (idx + 1) % maxHistory := by
  unfold wrap
  split_ifs with last
  · rw [last, Nat.mod_self]
  · rw [Nat.mod_eq_of_lt (by omega)]

/-- One cell further on. -/
theorem wrap_add {maxHistory idx : ℕ} (inside : idx < maxHistory) (o : ℕ) :
    (wrap maxHistory idx + o) % maxHistory = (idx + (o + 1)) % maxHistory := by
  rw [wrap_eq inside, Nat.mod_add_mod]
  congr 1
  omega

theorem wrap_lt {maxHistory idx : ℕ} (inside : idx < maxHistory) :
    wrap maxHistory idx < maxHistory := by
  rw [wrap_eq inside]
  exact Nat.mod_lt _ (by omega)

/-- The first pointer is behind the cells that are empty. -/
theorem findLoop_spec {maxHistory : ℕ} {tempH : List (Option ℕ)} {id : ℕ} (o : ℕ) {fuel idx : ℕ}
    (enough : o ≤ fuel) (inside : idx < maxHistory)
    (empty : ∀ j < o, tempH[(idx + j) % maxHistory]? = some none)
    (found : tempH[(idx + o) % maxHistory]? = some (some id)) :
    findLoop maxHistory tempH fuel idx = .ok ((idx + o) % maxHistory) := by
  induction o generalizing fuel idx with
  | zero =>
    rw [Nat.add_zero, Nat.mod_eq_of_lt inside] at found ⊢
    rw [findLoop.eq_def, pointer_eq found, ok_bind, if_pos (by simp)]
    rfl
  | succ o ih =>
    obtain ⟨fuel, rfl⟩ := Nat.exists_eq_add_of_le' (show 1 ≤ fuel by omega)
    have here := empty 0 (Nat.succ_pos o)
    rw [Nat.add_zero, Nat.mod_eq_of_lt inside] at here
    rw [findLoop.eq_def, pointer_eq here, ok_bind, if_neg (by simp)]
    dsimp only
    have later (j : ℕ) (less : j < o) :
        tempH[(wrap maxHistory idx + j) % maxHistory]? = some none := by
      rw [wrap_add inside]
      exact empty (j + 1) (by omega)
    rw [← wrap_add inside] at found ⊢
    exact ih (by omega) (wrap_lt inside) later found

/-- A line that is too long is cut. -/
theorem cutLine_spec {heap : Heap Text} {id : ℕ} {text : Text}
    (found : LinkedHeap.get heap id = some text) :
    ∃ heap', cutLine heap id = .ok heap' ∧ heap'.length = heap.length ∧
      ∀ id', LinkedHeap.get heap' id' =
        if id = id' then some (text.take (MAX_LINELEN - 1)) else LinkedHeap.get heap id' := by
  unfold cutLine
  rw [string_eq found, ok_bind]
  split_ifs with long
  · refine ⟨_, rfl, LinkedHeap.modify_length _ _ _, fun id' => ?_⟩
    rw [LinkedHeap.get_modify]
    split_ifs with same
    · rw [← same, found]
      rfl
    · rfl
  · refine ⟨_, rfl, rfl, fun id' => ?_⟩
    split_ifs with same
    · rw [← same, found, List.take_of_length_le (by omega)]
    · rfl

/-- The pointers from one cell on are copied, and the lines behind them cut. -/
theorem copyLoop_spec {tempH : List (Option ℕ)} (left i idx : ℕ) (n : LineInput) (ids : List ℕ)
    (inside : idx < n.maxHistory) (room : i + left ≤ n.history.length) (fits : ids.length ≤ left)
    (once : ids.Nodup)
    (cells : ∀ j < ids.length, tempH[(idx + j) % n.maxHistory]? = some ids[j]?)
    (ends : ids.length < left → tempH[(idx + ids.length) % n.maxHistory]? = some none)
    (live : ∀ id ∈ ids, ∃ text, LinkedHeap.get n.heap id = some text) :
    ∃ history heap, copyLoop tempH left i idx n =
        .ok ({ n with history := history, heap := heap }, i + ids.length) ∧
      history.length = n.history.length ∧
      (∀ j, history[j]? = if i ≤ j ∧ j < i + ids.length then some ids[j - i]? else n.history[j]?) ∧
      ∀ id, LinkedHeap.get heap id = if id ∈ ids then
        (LinkedHeap.get n.heap id).map (List.take (MAX_LINELEN - 1)) else
          LinkedHeap.get n.heap id := by
  induction left generalizing i idx n ids with
  | zero =>
    obtain rfl := List.length_eq_zero_iff.mp (Nat.le_zero.mp fits)
    refine ⟨n.history, n.heap, rfl, rfl, fun j => ?_, fun id => ?_⟩
    · rw [if_neg (by simp)]
    · rw [if_neg List.not_mem_nil]
  | succ left ih =>
    cases ids with
    | nil =>
      have last := ends (Nat.succ_pos left)
      rw [List.length_nil, Nat.add_zero, Nat.mod_eq_of_lt inside] at last
      rw [copyLoop, pointer_eq last, ok_bind]
      refine ⟨n.history, n.heap, rfl, rfl, fun j => ?_, fun id => ?_⟩
      · rw [if_neg (by simp)]
      · rw [if_neg List.not_mem_nil]
    | cons id ids =>
      have here := cells 0 (Nat.succ_pos _)
      rw [Nat.add_zero, Nat.mod_eq_of_lt inside, List.getElem?_cons_zero] at here
      obtain ⟨text, isText⟩ := live id List.mem_cons_self
      obtain ⟨heap, cut, size, gets⟩ := cutLine_spec isText
      obtain ⟨notLater, once⟩ := List.nodup_cons.mp once
      rw [List.length_cons] at fits
      have other {id' : ℕ} (later : id' ∈ ids) : id ≠ id' := fun same => notLater (same ▸ later)
      obtain ⟨history, heap', copied, length, slots, gets'⟩ := ih (i + 1) (wrap n.maxHistory idx)
        { n with history := n.history.set i (some id), heap := heap } ids (wrap_lt inside)
        (by rw [List.length_set]; omega) (by omega) once
        (fun j less => by
          rw [wrap_add inside, cells (j + 1) (Nat.succ_lt_succ less), List.getElem?_cons_succ])
        (fun less => by
          rw [wrap_add inside]
          exact ends (Nat.succ_lt_succ less))
        (fun id' later => by
          obtain ⟨text', isText'⟩ := live id' (List.mem_cons_of_mem id later)
          exact ⟨text', by rw [gets, if_neg (other later), isText']⟩)
      rw [copyLoop, pointer_eq here, ok_bind]
      dsimp only at copied ⊢
      rw [cut, ok_bind, store_eq (by omega), ok_bind, copied]
      refine ⟨history, heap', ?_, by rw [length, List.length_set], fun j => ?_, fun id' => ?_⟩
      · rw [List.length_cons]
        congr 2
        omega
      · rw [slots, List.length_cons]
        by_cases first : j = i
        · rw [first, if_neg (by omega), if_pos ⟨le_rfl, by omega⟩,
            List.getElem?_set_self (by omega), Nat.sub_self, List.getElem?_cons_zero]
        · by_cases later : i + 1 ≤ j ∧ j < i + 1 + ids.length
          · have next : j - i = j - (i + 1) + 1 := by omega
            rw [if_pos later, if_pos (by omega), next, List.getElem?_cons_succ]
          · rw [if_neg later, if_neg (by omega), List.getElem?_set_ne (Ne.symm first)]
      · rw [gets', gets]
        by_cases later : id' ∈ ids
        · rw [if_pos later, if_neg (other later), if_pos (List.mem_cons_of_mem id later)]
        · rw [if_neg later]
          split_ifs with same mem mem
          · rw [← same, isText]
            rfl
          · exact absurd (same ▸ List.mem_cons_self) mem
          · rcases List.mem_cons.mp mem with same' | later'
            · exact absurd same'.symm same
            · exact absurd later' later
          · rfl

/-! ## The whole -/

theorem rtake_length {α : Type*} (l : List α) (m : ℕ) : (l.rtake m).length = min m l.length := by
  unfold List.rtake
  rw [List.length_drop]
  omega

namespace Filled

variable {old : Heap Text} {maxHistory : ℕ} {done : List Text} {ids : List ℕ} {ring : Ring}

theorem start (positive : 1 ≤ maxHistory) (most : maxHistory ≤ MAX_HISTORY) (old : Heap Text) :
    Filled old maxHistory [] [] ⟨old, List.replicate MAX_HISTORY none, 0, 0⟩ := by
  have cells : (List.replicate MAX_HISTORY (none : Option ℕ)).take maxHistory =
      List.replicate maxHistory none := by
    rw [List.take_replicate, Nat.min_eq_left most]
  constructor
  · rfl
  · rfl
  · exact List.length_replicate
  · dsimp only
    rw [cells]
    refine ⟨positive, List.length_replicate, ?_⟩
    rw [List.drop_zero, List.take_zero]
    rfl
  · exact fun id mem => absurd mem List.not_mem_nil
  · exact List.nodup_nil
  · intro k id _ absurdity
    rw [List.getElem?_nil] at absurdity
    cases absurdity
  · exact le_rfl
  · exact fun _ _ => rfl

/-- The pointers that are kept point to the last lines. -/
theorem kept_text (filled : Filled old maxHistory done ids ring) {j id : ℕ}
    (here : (ids.rtake maxHistory)[j]? = some id) :
    LinkedHeap.get ring.heap id = (done.rtake maxHistory)[j]? := by
  unfold List.rtake at here ⊢
  rw [List.getElem?_drop] at here ⊢
  rw [← filled.length]
  refine filled.texts ?_ here
  rw [filled.length]
  omega

/-- The first pointer that is found is the oldest one, and the others are behind it. -/
theorem find (filled : Filled old maxHistory done ids ring) :
    ∃ idx, (if ring.cntHistoryInFile ≠ 0 then
        findLoop maxHistory ring.tempH maxHistory ring.idx else .ok ring.idx) = .ok idx ∧
      idx < maxHistory ∧
      (∀ j < (ids.rtake maxHistory).length,
        ring.tempH[(idx + j) % maxHistory]? = some (ids.rtake maxHistory)[j]?) ∧
      ((ids.rtake maxHistory).length < maxHistory →
        ring.tempH[(idx + (ids.rtake maxHistory).length) % maxHistory]? = some none) := by
  have inside := filled.idx_lt
  have same := filled.length
  have kept := rtake_length ids maxHistory
  refine ⟨(ring.idx + (maxHistory - done.length)) % maxHistory, ?_, Nat.mod_lt _ (by omega),
    fun j less => ?_, fun short => ?_⟩
  · rw [filled.count]
    by_cases none : done.length = 0
    · rw [if_neg (by simpa using none), none, Nat.sub_zero, Nat.add_mod_right,
        Nat.mod_eq_of_lt inside]
    · obtain ⟨id, first⟩ : ∃ id, ids[done.length + (maxHistory - done.length) - maxHistory]? =
          some id := ⟨_, List.getElem?_eq_getElem (by omega)⟩
      rw [if_pos none]
      have reached : ring.tempH[(ring.idx + (maxHistory - done.length)) % maxHistory]? =
          some (some id) := by
        rw [filled.cell (by omega), if_neg (by omega), first]
      refine findLoop_spec (maxHistory - done.length) (Nat.sub_le _ _) inside (fun j less => ?_)
        reached
      rw [filled.cell (by omega), if_pos (by omega)]
  · rw [Nat.mod_add_mod, Nat.add_assoc, filled.cell (by omega), if_neg (by omega)]
    unfold List.rtake
    rw [List.getElem?_drop]
    congr 2
    omega
  · have around : maxHistory - done.length + (ids.rtake maxHistory).length = maxHistory := by
      omega
    have oldest := filled.cell (o := 0) (by omega)
    rw [Nat.mod_add_mod, Nat.add_assoc, around, Nat.add_mod_right]
    rwa [Nat.add_zero, if_pos (by omega)] at oldest

end Filled

/-- New strings in front of the slots that are left. -/
theorem owned_behind {history history' : List (Option ℕ)} {old heap : Heap Text} {ids : List ℕ}
    (owned : Owned history old) (once : ids.Nodup) (new : ∀ id ∈ ids, old.length ≤ id)
    (live : ∀ id ∈ ids, ∃ text, LinkedHeap.get heap id = some text)
    (frame : ∀ id < old.length, LinkedHeap.get heap id = LinkedHeap.get old id)
    (slots : ∀ j, history'[j]? = if 0 ≤ j ∧ j < 0 + ids.length then some ids[j - 0]?
      else history[j]?) : Owned history' heap := by
  have cases {j id : ℕ} (held : history'[j]? = some (some id)) :
      ids[j]? = some id ∨ (history[j]? = some (some id) ∧ id < old.length) := by
    rw [slots] at held
    split_ifs at held
    · exact .inl (Option.some.inj held)
    · obtain ⟨text, found⟩ := owned.live held
      exact .inr ⟨held, LinkedHeap.get_lt found⟩
  constructor
  · intro j id held
    rcases cases held with here | ⟨here, less⟩
    · exact live id (List.mem_of_getElem? here)
    · obtain ⟨text, found⟩ := owned.live here
      exact ⟨text, (frame id less).trans found⟩
  · intro j k id held held'
    rcases cases held with here | ⟨here, less⟩
    · rcases cases held' with here' | ⟨-, less'⟩
      · exact (List.getElem?_inj (List.getElem?_eq_some_iff.mp here).1 once).mp
          (here.trans here'.symm)
      · exact absurd less' (new id (List.mem_of_getElem? here)).not_gt
    · rcases cases held' with here' | ⟨here', -⟩
      · exact absurd less (new id (List.mem_of_getElem? here')).not_gt
      · exact owned.unique here here'

/-- `load_history` leaves the last lines of the file that are not empty. -/
theorem loadHistory_spec (inv : n.Inv) (text : Text) :
    ∃ n', loadHistory (some text) n = .ok n' ∧ n'.Inv ∧ n'.doHistory = n.doHistory ∧
      n'.maxHistory = n.maxHistory ∧ n'.curHistory = n.curHistory ∧
      n'.cntHistory = (historyLines n.maxHistory text).length ∧
      ∀ i < n'.cntHistory, n'.entry i = (historyLines n.maxHistory text)[i]? := by
  have positive := inv.positive
  have most := inv.most
  have full := inv.full
  have cnt := inv.cnt
  obtain ⟨history, old, cleaned, length, owned⟩ :=
    cleanLoop_spec n.cntHistory n inv.owned (by omega)
  obtain ⟨ids, ring, filledUp, filled⟩ :=
    fillLoop_spec (fgetlines [] text) (Filled.start positive most old)
  obtain ⟨idx, found, inside, cells, ends⟩ := filled.find
  have kept := rtake_length ids n.maxHistory
  have once : (ids.rtake n.maxHistory).Nodup := (List.drop_sublist _ _).nodup filled.once
  have among {id : ℕ} (mem : id ∈ ids.rtake n.maxHistory) : id ∈ ids := List.mem_of_mem_drop mem
  have live (id : ℕ) (mem : id ∈ ids.rtake n.maxHistory) :
      ∃ text, LinkedHeap.get ring.heap id = some text := by
    obtain ⟨j, here⟩ := List.mem_iff_getElem?.mp mem
    have less := (List.getElem?_eq_some_iff.mp here).1
    refine ⟨_, (filled.kept_text here).trans (List.getElem?_eq_getElem ?_)⟩
    rw [rtake_length, ← filled.length, ← rtake_length]
    exact less
  obtain ⟨history', heap, copied, length', slots, gets⟩ := copyLoop_spec n.maxHistory 0 idx
    { n with history := history, heap := ring.heap, cntHistoryInFile := ring.cntHistoryInFile }
    (ids.rtake n.maxHistory) inside (by dsimp only; omega) (by omega) once cells ends live
  dsimp only at length' slots gets
  have lines : historyLines n.maxHistory text =
      ((([] ++ (fgetlines [] text).filter (· ≠ [])).rtake n.maxHistory).map
        (List.take (MAX_LINELEN - 1))) := rfl
  have count : (ids.rtake n.maxHistory).length = (historyLines n.maxHistory text).length := by
    rw [lines, List.length_map, rtake_length, rtake_length, filled.length]
  have entry {i : ℕ} (less : i < (ids.rtake n.maxHistory).length) :
      history'[i]? = some (some (ids.rtake n.maxHistory)[i]) := by
    rw [slots, if_pos ⟨Nat.zero_le i, by omega⟩, Nat.sub_zero, List.getElem?_eq_getElem less]
  unfold loadHistory
  dsimp only
  rw [cleaned, ok_bind]
  dsimp only
  rw [filledUp, ok_bind, found, ok_bind, copied, ok_bind]
  refine ⟨_, rfl, ⟨?_, positive, most, ?_, inv.cur, ?_, fun i less => ?_⟩, rfl, rfl, rfl, ?_,
    fun i less => ?_⟩
  · dsimp only
    omega
  · dsimp only
    omega
  · refine owned_behind owned once (fun id mem => (filled.new id (among mem)).1) (fun id mem => ?_)
      (fun id less => ?_) slots
    · obtain ⟨text, isText⟩ := live id mem
      exact ⟨_, by rw [gets, if_pos mem, isText]; rfl⟩
    · rw [gets, if_neg fun mem => absurd less (filled.new id (among mem)).1.not_gt,
        filled.frame id less]
  · dsimp only at less ⊢
    exact ⟨_, entry (by omega)⟩
  · dsimp only
    omega
  · dsimp only at less
    have less : i < (ids.rtake n.maxHistory).length := by omega
    have here := filled.kept_text (List.getElem?_eq_getElem less)
    unfold LineInput.entry
    dsimp only
    rw [entry less]
    show LinkedHeap.get heap (ids.rtake n.maxHistory)[i] = _
    rw [gets, if_pos (List.getElem_mem less), here, lines, List.getElem?_map]

end Busybox.Lineedit

/-!
## The history over whole runs

Every step keeps the slots, and only `load_history` on its own can leave `cur_history` behind the
last line.
-/

namespace Busybox.Lineedit

open LinkedHeap (Heap)
open Fallible

/-- What changes the history: the file that is loaded, if it can be opened, the line to remember,
or the line that is being edited. -/
inductive Step
  | load (file : Option Text)
  | readLine (file : Option Text)
  | remember (str : Text)
  | previous (commandPs : Text)
  | next (commandPs : Text)
  | search (matchBuf : Text) (again : Bool)

def Step.make : Step → LineInput → Except Fault LineInput
  | load file, n => loadHistory file n
  | readLine file, n => readLineInput file n
  | remember str, n => rememberInHistory str n
  | previous commandPs, n => Prod.fst <$> getPreviousHistory commandPs n
  | next commandPs, n => Prod.fst <$> getNextHistory commandPs n
  | search matchBuf again, n => reverseISearch matchBuf again n

def run : List Step → LineInput → Except Fault LineInput
  | [], n => .ok n
  | step :: steps, n => do
    let n ← step.make n
    run steps n

variable {n : LineInput}

theorem loadHistory_inv (inv : n.Inv) (file : Option Text) :
    ∃ n', loadHistory file n = .ok n' ∧ n'.Inv ∧ n'.maxHistory = n.maxHistory ∧
      n'.curHistory = n.curHistory := by
  cases file with
  | none => exact ⟨n, rfl, inv, rfl, rfl⟩
  | some text =>
    obtain ⟨n', loaded, inv', -, same, cur, -⟩ := loadHistory_spec inv text
    exact ⟨n', loaded, inv', same, cur⟩

theorem readLineInput_spec (inv : n.Inv) (file : Option Text) :
    ∃ n', readLineInput file n = .ok n' ∧ n'.Inv ∧ n'.maxHistory = n.maxHistory ∧
      (n.curHistory ≤ n.cntHistory → n'.curHistory ≤ n'.cntHistory) := by
  unfold readLineInput
  by_cases on : n.doHistory = true
  case neg => exact ⟨n, if_neg on, inv, rfl, id⟩
  rw [if_pos on]
  have reset {n' : LineInput} (inv' : n'.Inv) :
      LineInput.Inv { n' with curHistory := n'.cntHistory } := { inv' with cur := inv'.cnt }
  by_cases zero : n.cntHistory = 0
  · obtain ⟨n', loaded, inv', same, -⟩ := loadHistory_inv inv file
    rw [if_pos zero, loaded, ok_bind]
    exact ⟨_, rfl, reset inv', same, fun _ => le_rfl⟩
  · rw [if_neg zero, ok_bind]
    exact ⟨_, rfl, reset inv, rfl, fun _ => le_rfl⟩

/-- What one step keeps. -/
theorem Step.make_spec (inv : n.Inv) (step : Step) :
    ∃ n', step.make n = .ok n' ∧ n'.Inv ∧ n'.maxHistory = n.maxHistory ∧
      ((∀ file, step ≠ .load file) → n.curHistory ≤ n.cntHistory →
        n'.curHistory ≤ n'.cntHistory) := by
  cases step with
  | load file =>
    obtain ⟨n', loaded, inv', same, -⟩ := loadHistory_inv inv file
    exact ⟨n', loaded, inv', same, fun other => absurd rfl (other file)⟩
  | readLine file =>
    obtain ⟨n', started, inv', same, below⟩ := readLineInput_spec inv file
    exact ⟨n', started, inv', same, fun _ => below⟩
  | remember str =>
    obtain ⟨n', remembered, inv', same, after⟩ := rememberInHistory_spec inv str
    refine ⟨n', remembered, inv', same, fun _ below => ?_⟩
    rcases after with rfl | last
    · exact below
    · exact last.le
  | previous commandPs =>
    obtain ⟨n', ret, gone, inv', same, cnt, cur⟩ := getPreviousHistory_spec inv commandPs
    refine ⟨n', by rw [make, gone]; rfl, inv', same, fun _ below => ?_⟩
    rw [cnt]
    exact cur.trans below
  | next commandPs =>
    obtain ⟨n', ret, gone, inv', same, cnt, cur⟩ := getNextHistory_spec inv commandPs
    refine ⟨n', by rw [make, gone]; rfl, inv', same, fun _ below => ?_⟩
    rw [cnt]
    exact cur.trans (max_le below le_rfl)
  | search matchBuf again =>
    obtain ⟨n', found, inv', same, cnt, cur⟩ := reverseISearch_spec inv matchBuf again
    refine ⟨n', found, inv', same, fun _ below => ?_⟩
    rw [cnt]
    exact cur.trans below

/-- What a run keeps. -/
theorem run_spec (inv : n.Inv) (steps : List Step) :
    ∃ n', run steps n = .ok n' ∧ n'.Inv ∧ n'.maxHistory = n.maxHistory ∧
      ((∀ file, Step.load file ∉ steps) → n.curHistory ≤ n.cntHistory →
        n'.curHistory ≤ n'.cntHistory) := by
  induction steps generalizing n with
  | nil => exact ⟨n, rfl, inv, rfl, fun _ => id⟩
  | cons step steps ih =>
    obtain ⟨n', made, inv', same, below⟩ := step.make_spec inv
    obtain ⟨n'', ran, inv'', same', below'⟩ := ih inv'
    rw [run, made, ok_bind]
    refine ⟨n'', ran, inv'', same'.trans same, fun without before => ?_⟩
    refine below' (fun file later => without file (List.mem_cons_of_mem _ later)) (below ?_ before)
    rintro file rfl
    exact without file List.mem_cons_self

/-- In every run the slots up to `cnt_history` are strings, no two slots share one, and
`cur_history` stays at most behind the last line where `load_history` is called as by
`read_line_input`. `load_history` leaves the last lines of the file, cut to `MAX_LINELEN - 1`. -/
theorem history_slots (doHistory : Bool) {maxHistory : ℕ} (positive : 1 ≤ maxHistory)
    (most : maxHistory ≤ MAX_HISTORY) (heap : Heap Text) (steps : List Step) :
    ∃ n, run steps (newLineInput doHistory maxHistory heap) = .ok n ∧
      n.cntHistory ≤ maxHistory ∧ n.curHistory ≤ maxHistory ∧
      (∀ i < n.cntHistory, ∃ text, n.entry i = some text) ∧
      (∀ i j id : ℕ, n.history[i]? = some (some id) → n.history[j]? = some (some id) → i = j) ∧
      ((∀ file, Step.load file ∉ steps) → n.curHistory ≤ n.cntHistory) ∧
      ∀ text, ∃ n', loadHistory (some text) n = .ok n' ∧
        n'.cntHistory = (historyLines maxHistory text).length ∧
        ∀ i < n'.cntHistory, n'.entry i = (historyLines maxHistory text)[i]? := by
  obtain ⟨n, ran, inv, same, below⟩ :=
    run_spec (newLineInput_inv doHistory positive most heap) steps
  have same : n.maxHistory = maxHistory := same
  refine ⟨n, ran, same ▸ inv.cnt, same ▸ inv.cur, fun i less => ?_, ?_, ?_, fun text => ?_⟩
  · obtain ⟨id, held⟩ := inv.filled i less
    obtain ⟨text, isText⟩ := inv.owned.live held
    refine ⟨text, ?_⟩
    unfold LineInput.entry
    rw [held]
    exact isText
  · exact fun i j id held held' => inv.owned.unique held held'
  · exact fun without => below without (Nat.zero_le 0)
  · obtain ⟨n', loaded, -, -, -, -, cnt, entries⟩ := loadHistory_spec inv text
    rw [same] at cnt entries
    exact ⟨n', loaded, cnt, entries⟩

/-- Two lines are loaded, one of them is looked at again, and a third one is remembered. -/
theorem history_slots_three :
    ∃ n, run [.readLine (some [97, 10, 98, 10]), .previous [99], .remember [100]]
        (newLineInput true 2 []) = .ok n ∧
      n.cntHistory ≤ 2 ∧ n.curHistory ≤ n.cntHistory := by
  obtain ⟨n, ran, cnt, -, -, -, below, -⟩ := history_slots true (by decide : 1 ≤ 2)
    (by decide) [] [.readLine (some [97, 10, 98, 10]), .previous [99], .remember [100]]
  exact ⟨n, ran, cnt, below (by simp)⟩

/-- A line of `MAX_LINELEN` bytes is cut when it is loaded; and with two lines looked at,
`load_history` of a file with one line leaves `cur_history` behind it. -/
theorem history_slots_exceptions :
    (∃ n, loadHistory (some (List.replicate MAX_LINELEN 97 ++ [10])) (newLineInput true 1 []) =
        .ok n ∧ n.entry 0 = some (List.replicate (MAX_LINELEN - 1) 97) ∧
        n.entry 0 ≠ some (List.replicate MAX_LINELEN 97)) ∧
      ∃ n, run [.load (some [97, 10, 98, 10]), .readLine none, .load (some [97, 10])]
        (newLineInput true 2 []) = .ok n ∧ n.cntHistory < n.curHistory := by
  constructor
  · have unbroken : Libbb.Unbroken (List.replicate MAX_LINELEN 97) := by
      intro ch mem
      rw [(List.mem_replicate.mp mem).2]
      decide
    have nonempty : decide (List.replicate MAX_LINELEN (97 : UInt8) ≠ []) = true := by
      rw [decide_eq_true_iff]
      intro none
      have length := congrArg List.length none
      rw [List.length_replicate] at length
      exact absurd length (by decide)
    have lines : historyLines 1 (List.replicate MAX_LINELEN 97 ++ [10]) =
        [List.replicate (MAX_LINELEN - 1) 97] := by
      unfold historyLines
      rw [Libbb.fgetlines_line unbroken, Libbb.fgetlines,
        List.filter_cons_of_pos (p := fun x => decide (x ≠ [])) nonempty]
      show [(List.replicate MAX_LINELEN 97).take (MAX_LINELEN - 1)] = _
      rw [List.take_replicate, Nat.min_eq_left (Nat.sub_le _ _)]
    obtain ⟨n, loaded, -, -, -, -, cnt, entries⟩ := loadHistory_spec
      (newLineInput_inv true le_rfl (by decide) []) (List.replicate MAX_LINELEN 97 ++ [10])
    have lines' : historyLines (newLineInput true 1 []).maxHistory
      (List.replicate MAX_LINELEN 97 ++ [10]) = _ := lines
    rw [lines'] at cnt entries
    have entry : n.entry 0 = some (List.replicate (MAX_LINELEN - 1) 97) :=
      entries 0 (cnt ▸ Nat.zero_lt_one)
    refine ⟨n, loaded, entry, fun whole => ?_⟩
    have length := congrArg (Option.map List.length) (entry.symm.trans whole)
    rw [Option.map_some, Option.map_some, List.length_replicate, List.length_replicate] at length
    exact absurd length (by decide)
  · obtain ⟨n, loaded, inv, on, same, -, cnt, -⟩ := loadHistory_spec
      (newLineInput_inv true (by decide : 1 ≤ 2) (by decide) []) [97, 10, 98, 10]
    have two : n.cntHistory = 2 := cnt.trans rfl
    have on : n.doHistory = true := on
    obtain ⟨n', loaded', -, -, -, cur, cnt', -⟩ := loadHistory_spec
      (n := { n with curHistory := n.cntHistory }) { inv with cur := inv.cnt } [97, 10]
    dsimp only at cur cnt'
    rw [same] at cnt'
    refine ⟨n', ?_, ?_⟩
    · rw [run, Step.make, loaded, ok_bind, run, Step.make, readLineInput, if_pos on,
        if_neg (by rw [two]; decide), ok_bind]
      refine Eq.trans (Fallible.ok_bind _ _) ?_
      rw [run, Step.make, loaded']
      rfl
    · rw [cur, cnt', two]
      decide

end Busybox.Lineedit
