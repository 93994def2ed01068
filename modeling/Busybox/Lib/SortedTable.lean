import Mathlib

/-!
# Tables in the order of their keys

A linked list whose entries stand in the order of their keys is searched up to the
first key that is not smaller, and a new entry is put in front of that one. While
the keys ascend strictly, `position` finds an entry exactly where there is one.
-/

namespace Busybox.SortedTable

variable {α κ : Type*} [LinearOrder κ] (key : α → κ)

/-- The place of the entry with a key, as the walk over the list finds it. -/
def position (code : κ) : List α → Option Nat
  | [] => none
  | entry :: rest =>
    if key entry < code then (position code rest).map (· + 1)
    else if key entry = code then some 0
    else none

/-- The new entry in front of the first one whose key is not smaller. -/
def place (new : α) (code : κ) : List α → List α
  | [] => [new]
  | entry :: rest =>
    if key entry < code then entry :: place new code rest else new :: entry :: rest

/-- The keys ascend strictly. -/
def Ascending (table : List α) : Prop := table.Pairwise fun a b => key a < key b

variable {key} {code : κ} {table : List α} {new : α} {i : Nat}

/-- What is found has the key. -/
theorem key_of_position (found : position key code table = some i) :
    ∃ entry, table[i]? = some entry ∧ key entry = code := by
  induction table generalizing i with
  | nil => cases found
  | cons entry rest ih =>
    rw [position] at found
    split at found
    · obtain ⟨j, later, rfl⟩ := Option.map_eq_some_iff.mp found
      obtain ⟨other, there, same⟩ := ih later
      exact ⟨other, there, same⟩
    · split at found
      case isTrue same =>
        cases found
        exact ⟨entry, rfl, same⟩
      case isFalse => cases found

/-- Nothing is found exactly where no entry has the key. -/
theorem position_eq_none (ascending : Ascending key table) :
    position key code table = none ↔ ∀ entry ∈ table, key entry ≠ code := by
  constructor
  · intro missed
    induction table with
    | nil => exact nofun
    | cons entry rest ih =>
      obtain ⟨above, later⟩ := List.pairwise_cons.mp ascending
      rw [position] at missed
      rw [List.forall_mem_cons]
      split at missed
      case isTrue smaller => exact ⟨smaller.ne, ih later (Option.map_eq_none_iff.mp missed)⟩
      case isFalse notSmaller =>
        split at missed
        case isTrue => cases missed
        case isFalse different =>
          refine ⟨different, fun other mem same => notSmaller ?_⟩
          rw [← same]
          exact above other mem
  · intro absent
    cases found : position key code table with
    | none => rfl
    | some i =>
      obtain ⟨entry, there, same⟩ := key_of_position found
      exact absurd same (absent entry (List.mem_of_getElem? there))

/-- What was put into the table is found. -/
theorem position_place (isKey : key new = code) :
    ∃ i, position key code (place key new code table) = some i ∧
      (place key new code table)[i]? = some new := by
  induction table with
  | nil => exact ⟨0, by simp [place, position, isKey], rfl⟩
  | cons entry rest ih =>
    rw [place]
    split
    case isTrue smaller =>
      obtain ⟨i, found, there⟩ := ih
      exact ⟨i + 1, by rw [position, if_pos smaller, found]; rfl, there⟩
    case isFalse =>
      refine ⟨0, ?_, rfl⟩
      rw [position, if_neg (by rw [isKey]; exact lt_irrefl code), if_pos isKey]

/-- A change that keeps the keys keeps the places. -/
theorem position_modify (i : Nat) {change : α → α} (keeps : ∀ entry, key (change entry) = key entry) :
    position key code (table.modify i change) = position key code table := by
  induction table generalizing i with
  | nil => rw [List.modify_nil]
  | cons entry rest ih =>
    cases i with
    | zero => rw [List.modify_zero_cons, position, position, keeps]
    | succ i => rw [List.modify_succ_cons, position, position, ih]

theorem mem_place {entry : α} : entry ∈ place key new code table ↔ entry = new ∨ entry ∈ table := by
  induction table with
  | nil => simp [place]
  | cons first rest ih =>
    rw [place]
    split
    · rw [List.mem_cons, ih, List.mem_cons]
      exact or_left_comm
    · rw [List.mem_cons]

/-- A new key keeps the order. -/
theorem Ascending.place (ascending : Ascending key table) (isKey : key new = code)
    (absent : ∀ entry ∈ table, key entry ≠ code) : Ascending key (place key new code table) := by
  induction table with
  | nil => exact List.pairwise_singleton _ _
  | cons first rest ih =>
    obtain ⟨above, later⟩ := List.pairwise_cons.mp ascending
    obtain ⟨different, absent⟩ := List.forall_mem_cons.mp absent
    rw [SortedTable.place]
    split
    case isTrue smaller =>
      refine List.pairwise_cons.mpr ⟨fun entry mem => ?_, ih later absent⟩
      rcases mem_place.mp mem with rfl | old
      · rwa [isKey]
      · exact above entry old
    case isFalse notSmaller =>
      have greater : code < key first := lt_of_le_of_ne (not_lt.mp notSmaller) different.symm
      refine List.pairwise_cons.mpr ⟨fun entry mem => ?_, ascending⟩
      rw [isKey]
      rcases List.mem_cons.mp mem with rfl | old
      · exact greater
      · exact greater.trans (above entry old)

omit [LinearOrder κ] in
/-- An entry that is not changed stays, and so does the key of the one that is. -/
theorem exists_mem_modify (i : Nat) {change : α → α} (keeps : ∀ entry, key (change entry) = key entry)
    {entry : α} (mem : entry ∈ table) : ∃ other ∈ table.modify i change, key other = key entry := by
  obtain ⟨j, there⟩ := List.mem_iff_getElem?.mp mem
  have still : (table.modify i change)[j]? = some (if i = j then change entry else entry) := by
    rw [List.getElem?_modify, there]
    rfl
  refine ⟨_, List.mem_of_getElem? still, ?_⟩
  split
  · exact keeps entry
  · rfl

/-- A change of an entry that keeps its key keeps the order. -/
theorem Ascending.modify (ascending : Ascending key table) (i : Nat) {change : α → α}
    (keeps : ∀ entry, key (change entry) = key entry) :
    Ascending key (table.modify i change) := by
  have asKeys (table : List α) : Ascending key table ↔ (table.map key).Pairwise (· < ·) :=
    List.pairwise_map.symm
  have same : (table.modify i change).map key = table.map key := by
    apply List.ext_getElem?
    intro j
    rw [List.getElem?_map, List.getElem?_map, List.getElem?_modify]
    cases table[j]? with
    | none => simp
    | some entry => by_cases here : i = j <;> simp [here, keeps]
  rwa [asKeys, same, ← asKeys]

/-- No key stands in two places. -/
theorem Ascending.index_eq (ascending : Ascending key table) {j : Nat} {entry other : α}
    (here : table[i]? = some entry) (there : table[j]? = some other)
    (same : key entry = key other) : i = j := by
  obtain ⟨inside, rfl⟩ := List.getElem?_eq_some_iff.mp here
  obtain ⟨inside', rfl⟩ := List.getElem?_eq_some_iff.mp there
  have apart := List.pairwise_iff_getElem.mp ascending
  rcases Nat.lt_trichotomy i j with before | equal | behind
  · exact absurd same (apart i j inside inside' before).ne
  · exact equal
  · exact absurd same (apart j i inside' inside behind).ne'

/-- An entry of a table in which one was changed. -/
theorem mem_modify {change : α → α} {entry : α} (mem : entry ∈ table.modify i change) :
    (∃ old, table[i]? = some old ∧ entry = change old) ∨ ∃ j ≠ i, table[j]? = some entry := by
  obtain ⟨j, there⟩ := List.mem_iff_getElem?.mp mem
  rw [List.getElem?_modify] at there
  obtain ⟨old, was, rfl⟩ := Option.map_eq_some_iff.mp there
  by_cases here : i = j
  · exact .inl ⟨old, by rw [here]; exact was, if_pos here⟩
  · exact .inr ⟨j, Ne.symm here, by rw [if_neg here]; exact was⟩

end Busybox.SortedTable
