import Mathlib.Data.List.Perm.Basic
import Mathlib.Data.List.Nodup
import Mathlib.Tactic.Common

/-!
# Tables of chains

A table is a list of chains, and an entry is on the chain that its key hashes to. What matters of
it is which entries there are, so that an operation is described by a permutation of all entries.
-/

namespace Busybox.Chains

variable {κ α : Type}

abbrev Entries (κ α : Type) := List (κ × α)

abbrev Table (κ α : Type) := List (Entries κ α)

theorem perm_set (table : Table κ α) {i : Nat} (inside : i < table.length) (chain : Entries κ α) :
    (table.set i chain).flatten.Perm (chain ++ (table.eraseIdx i).flatten) := by
  induction table generalizing i with
  | nil => exact absurd inside (Nat.not_lt_zero i)
  | cons first table ih =>
    cases i with
    | zero => exact .refl _
    | succ i =>
      rw [List.set_cons_succ, List.eraseIdx_cons_succ, List.flatten_cons, List.flatten_cons]
      have rest := ih (Nat.lt_of_succ_lt_succ inside)
      refine (rest.append_left first).trans ?_
      rw [← List.append_assoc, ← List.append_assoc]
      exact List.perm_append_comm.append_right _

theorem getD_chain (table : Table κ α) {i : Nat} (inside : i < table.length) :
    table.getD i [] = table[i] := by
  rw [List.getD_eq_getElem?_getD, List.getElem?_eq_getElem inside, Option.getD_some]

theorem perm_chain (table : Table κ α) {i : Nat} (inside : i < table.length) :
    table.flatten.Perm (table.getD i [] ++ (table.eraseIdx i).flatten) := by
  have same := perm_set table inside table[i]
  rwa [List.set_getElem_self, ← getD_chain table inside] at same

/-! ## Entries with distinct keys -/

/-- The entries without the one that is found. -/
def drop [BEq κ] (entries : Entries κ α) (k : κ) : Entries κ α := entries.eraseP (·.1 == k)

def keys (entries : Entries κ α) : List κ := entries.map Prod.fst

section entries
variable {entries entries' : Entries κ α} {k : κ} {a : α}

theorem mem_keys (mem : (k, a) ∈ entries) : k ∈ keys entries :=
  List.mem_map.mpr ⟨(k, a), mem, rfl⟩

theorem keys_perm (perm : entries.Perm entries') : (keys entries).Perm (keys entries') :=
  perm.map Prod.fst

variable [BEq κ] [LawfulBEq κ]

theorem lookup_eq_some_iff (distinct : (keys entries).Nodup) :
    entries.lookup k = some a ↔ (k, a) ∈ entries := by
  induction entries with
  | nil => exact ⟨nofun, nofun⟩
  | cons entry entries ih =>
    obtain ⟨k', a'⟩ := entry
    obtain ⟨apart, distinct⟩ := List.nodup_cons.mp distinct
    by_cases here : k = k'
    · subst here
      rw [List.lookup_cons_self, List.mem_cons, Option.some.injEq, Prod.mk.injEq]
      constructor
      · rintro rfl
        exact .inl ⟨rfl, rfl⟩
      · rintro (⟨-, rfl⟩ | later)
        · rfl
        · exact absurd (mem_keys later) apart
    · rw [List.lookup_cons, beq_false_of_ne here, ih distinct, List.mem_cons, Prod.mk.injEq]
      exact ⟨.inr, fun mem => mem.resolve_left fun same => here same.1⟩

theorem lookup_perm (perm : entries.Perm entries') (distinct : (keys entries).Nodup) :
    entries.lookup k = entries'.lookup k := by
  have distinct' := (keys_perm perm).nodup_iff.mp distinct
  ext a
  rw [lookup_eq_some_iff distinct, lookup_eq_some_iff distinct', perm.mem_iff]

theorem lookup_eq_none_iff : entries.lookup k = none ↔ k ∉ keys entries := by
  induction entries with
  | nil => exact ⟨fun _ => List.not_mem_nil, fun _ => rfl⟩
  | cons entry entries ih =>
    obtain ⟨k', a'⟩ := entry
    by_cases here : k = k'
    · subst here
      rw [List.lookup_cons_self]
      exact ⟨nofun, fun apart => absurd List.mem_cons_self apart⟩
    · rw [List.lookup_cons, beq_false_of_ne here, ih]
      exact not_congr ⟨List.mem_cons_of_mem _, fun mem => (List.mem_cons.mp mem).resolve_left here⟩

theorem drop_none (absent : entries.lookup k = none) : drop entries k = entries := by
  refine List.eraseP_of_forall_not fun entry mem found => ?_
  have same : entry.1 = k := eq_of_beq found
  exact lookup_eq_none_iff.mp absent (same ▸ mem_keys mem)

theorem drop_some (found : entries.lookup k = some a) :
    entries.Perm ((k, a) :: drop entries k) := by
  induction entries with
  | nil => exact nomatch found
  | cons entry entries ih =>
    obtain ⟨k', a'⟩ := entry
    by_cases here : k = k'
    · subst here
      rw [List.lookup_cons_self] at found
      obtain rfl := Option.some.inj found
      rw [drop, List.eraseP_cons_of_pos (by simp)]
    · rw [List.lookup_cons, beq_false_of_ne here] at found
      rw [drop, List.eraseP_cons_of_neg (by simpa using Ne.symm here)]
      exact ((ih found).cons _).trans (.swap _ _ _)

end entries

/-! ## The operations -/

section operations
variable (hash : κ → Nat) (table : Table κ α)

def chain (k : κ) : Entries κ α := table.getD (hash k % table.length) []

def lookup [BEq κ] (k : κ) : Option α := (chain hash table k).lookup k

/-- A new entry is put at the front of its chain. -/
def push (entry : κ × α) : Table κ α :=
  table.set (hash entry.1 % table.length) (entry :: chain hash table entry.1)

def remove [BEq κ] (k : κ) : Table κ α :=
  table.set (hash k % table.length) (drop (chain hash table k) k)

/-- The entries are pushed one after the other to a table of another size. -/
def rebuild (newsize : Nat) : Table κ α :=
  table.foldl (fun new chain => chain.foldl (push hash) new) (List.replicate newsize [])

/-- Every entry is on the chain of its key, and no key is there twice. -/
structure Placed : Prop where
  pos : 0 < table.length
  home : ∀ i, ∀ entry ∈ table.getD i [], hash entry.1 % table.length = i
  distinct : (keys table.flatten).Nodup

end operations

variable {hash : κ → Nat} {table : Table κ α} {k : κ} {a : α} {entry : κ × α}

theorem Placed.slot (placed : Placed hash table) (k : κ) : hash k % table.length < table.length :=
  Nat.mod_lt _ placed.pos

theorem mem_flatten_iff : entry ∈ table.flatten ↔ ∃ i, entry ∈ table.getD i [] := by
  constructor
  · intro mem
    obtain ⟨chain, isChain, mem⟩ := List.mem_flatten.mp mem
    obtain ⟨i, inside, rfl⟩ := List.mem_iff_getElem.mp isChain
    exact ⟨i, (getD_chain table inside).symm ▸ mem⟩
  · rintro ⟨i, mem⟩
    by_cases inside : i < table.length
    · rw [getD_chain table inside] at mem
      exact List.mem_flatten.mpr ⟨_, List.getElem_mem inside, mem⟩
    · rw [List.getD_eq_getElem?_getD, List.getElem?_eq_none (Nat.not_lt.mp inside)] at mem
      exact nomatch mem

/-- The chain of a key has all entries of the key. -/
theorem Placed.mem_chain (placed : Placed hash table) :
    (k, a) ∈ chain hash table k ↔ (k, a) ∈ table.flatten := by
  constructor
  · exact fun mem => mem_flatten_iff.mpr ⟨_, mem⟩
  · intro mem
    obtain ⟨i, mem⟩ := mem_flatten_iff.mp mem
    obtain rfl := placed.home i _ mem
    exact mem

theorem Placed.chain_distinct (placed : Placed hash table) (k : κ) :
    (keys (chain hash table k)).Nodup := by
  have all := (keys_perm (perm_chain table (placed.slot k))).nodup_iff.mp placed.distinct
  rw [keys, List.map_append] at all
  exact all.of_append_left

theorem Placed.lookup_eq [BEq κ] [LawfulBEq κ] (placed : Placed hash table) (k : κ) :
    lookup hash table k = table.flatten.lookup k := by
  ext a
  rw [lookup, lookup_eq_some_iff (placed.chain_distinct k), lookup_eq_some_iff placed.distinct,
    placed.mem_chain]

theorem Placed.perm_push (placed : Placed hash table) (entry : κ × α) :
    (push hash table entry).flatten.Perm (entry :: table.flatten) :=
  (perm_set table (placed.slot entry.1) _).trans
    ((perm_chain table (placed.slot entry.1)).symm.cons entry)

theorem getD_set (i j : Nat) (inside : j < table.length) (chain : Entries κ α) :
    (table.set j chain).getD i [] = if j = i then chain else table.getD i [] := by
  simp only [List.getD_eq_getElem?_getD, List.getElem?_set]
  by_cases here : j = i
  · rw [if_pos here, if_pos here, if_pos (here ▸ inside), Option.getD_some]
  · rw [if_neg here, if_neg here]

/-- A chain whose entries belong there may take the place of the one of a key. -/
theorem Placed.set (placed : Placed hash table) {chain : Entries κ α}
    (home : ∀ entry ∈ chain, hash entry.1 % table.length = hash k % table.length)
    (distinct : (keys (table.set (hash k % table.length) chain).flatten).Nodup) :
    Placed hash (table.set (hash k % table.length) chain) := by
  refine ⟨(List.length_set ..).symm ▸ placed.pos, fun i entry mem => ?_, distinct⟩
  rw [List.length_set]
  rw [getD_set i _ (placed.slot k)] at mem
  split at mem
  case isTrue here => exact (home entry mem).trans here
  case isFalse => exact placed.home i entry mem

theorem Placed.push (placed : Placed hash table) (absent : entry.1 ∉ keys table.flatten) :
    Placed hash (push hash table entry) := by
  refine placed.set (fun other mem => ?_) ?_
  · rcases List.mem_cons.mp mem with rfl | old
    · rfl
    · exact placed.home _ other old
  · exact (keys_perm (placed.perm_push entry)).nodup_iff.mpr
      (List.nodup_cons.mpr ⟨absent, placed.distinct⟩)

section remove
variable [BEq κ] [LawfulBEq κ]

theorem Placed.remove_none (placed : Placed hash table) (absent : lookup hash table k = none) :
    remove hash table k = table := by
  rw [remove, drop_none absent, chain, getD_chain table (placed.slot k), List.set_getElem_self]

theorem Placed.perm_remove (placed : Placed hash table) (found : lookup hash table k = some a) :
    table.flatten.Perm ((k, a) :: (remove hash table k).flatten) := by
  have first := (perm_chain table (placed.slot k)).trans ((drop_some found).append_right _)
  exact first.trans ((perm_set table (placed.slot k) _).symm.cons (k, a))

theorem Placed.remove (placed : Placed hash table) (k : κ) : Placed hash (remove hash table k) := by
  cases found : lookup hash table k with
  | none => exact (placed.remove_none found).symm ▸ placed
  | some a =>
    refine placed.set (fun other mem => ?_) ?_
    · exact placed.home _ other (List.mem_of_mem_eraseP mem)
    · have all := (keys_perm (placed.perm_remove found)).nodup_iff.mp placed.distinct
      exact (List.nodup_cons.mp all).2

end remove

theorem placed_empty {size : Nat} (pos : 0 < size) :
    Placed hash (List.replicate size ([] : Entries κ α)) := by
  refine ⟨List.length_replicate.symm ▸ pos, fun i entry mem => ?_, ?_⟩
  · have all := mem_flatten_iff.mpr ⟨i, mem⟩
    rw [List.flatten_replicate_nil] at all
    exact nomatch all
  · rw [List.flatten_replicate_nil]
    exact List.nodup_nil

/-- What is pushed entry by entry is all there, once. -/
theorem Placed.pushAll (entries : Entries κ α) (placed : Placed hash table)
    (distinct : (keys (entries ++ table.flatten)).Nodup) :
    Placed hash (entries.foldl (Chains.push hash) table) ∧
      (entries.foldl (Chains.push hash) table).flatten.Perm (entries ++ table.flatten) := by
  induction entries generalizing table with
  | nil => exact ⟨placed, .refl _⟩
  | cons entry entries ih =>
    obtain ⟨apart, rest⟩ := List.nodup_cons.mp distinct
    have absent : entry.1 ∉ keys table.flatten := fun mem =>
      apart (List.map_append ▸ List.mem_append_right _ mem)
    have next : (entries ++ (Chains.push hash table entry).flatten).Perm
        (entry :: entries ++ table.flatten) :=
      ((placed.perm_push entry).append_left entries).trans List.perm_middle
    obtain ⟨placed', all⟩ := ih (placed.push absent) ((keys_perm next).nodup_iff.mpr distinct)
    exact ⟨placed', all.trans next⟩

/-- A rebuilt table has the same entries. -/
theorem Placed.rebuild (placed : Placed hash table) {newsize : Nat} (pos : 0 < newsize) :
    Placed hash (rebuild hash table newsize) ∧
      (rebuild hash table newsize).flatten.Perm table.flatten := by
  have none : (List.replicate newsize ([] : Entries κ α)).flatten = [] :=
    List.flatten_replicate_nil
  have all := Placed.pushAll table.flatten (@placed_empty κ α hash _ pos)
    (by rw [none, List.append_nil]; exact placed.distinct)
  rw [none, List.append_nil, List.foldl_flatten] at all
  exact all

end Busybox.Chains
