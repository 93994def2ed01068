import Mathlib
import Busybox.Lib.Chains

/-!
# The hash of `awk`

`hash_find`, `hash_remove` and what they use, of `editors/awk.c`. `csize` is the length of `items`;
the counts are `unsigned`, and the length of a new name is an `int`.
-/

namespace Busybox.Awk

open Chains

/-- A string without its NUL. -/
abbrev Name := {bytes : List UInt8 // 0 ∉ bytes}

variable {α : Type}

def hashidx (name : Name) : Nat :=
  let idx : UInt32 :=
    name.1.foldl (fun idx c => c.toInt8.toInt32.toUInt32 + (idx <<< 6) - idx) 0
  idx.toNat

def FIRST_PRIME : Nat := 61

def PRIMES : List Nat := [251, 1021, 4093, 16381, 65521]

/-- `xhash`; an item is its name and its data. -/
structure XHash (α : Type) where
  nel : UInt32
  nprime : Nat
  glen : UInt32
  items : Table Name α

def hashInit : XHash α := ⟨0, 0, 0, List.replicate FIRST_PRIME []⟩

def hashSearch (hash : XHash α) (name : Name) : Option α := lookup hashidx hash.items name

def hashRebuild (hash : XHash α) : XHash α :=
  match PRIMES[hash.nprime]? with
  | none => hash
  | some newsize =>
    { hash with nprime := hash.nprime + 1, items := rebuild hashidx hash.items newsize }

/-- `if (++hash->nel / hash->csize > 10)` -/
def count (hash : XHash α) : XHash α :=
  let hash := { hash with nel := hash.nel + 1 }
  if hash.nel.toNat / hash.items.length > 10 then hashRebuild hash else hash

/-- `hash_find`. An `l` that is not the length has no room for the name, or `xzalloc` dies. -/
def hashFind (hash : XHash α) (name : Name) (data : α) : Option (α × XHash α) :=
  match hashSearch hash name with
  | some found => some (found, hash)
  | none =>
    let hash := count hash
    let l := name.1.length + 1
    if l < 2 ^ 31 then
      let hash := { hash with
        items := push hashidx hash.items (name, data), glen := hash.glen + .ofNat l }
      some (data, hash)
    else none

def hashRemove (hash : XHash α) (name : Name) : XHash α :=
  match hashSearch hash name with
  | none => hash
  | some _ =>
    { hash with
      glen := hash.glen - .ofNat (name.1.length + 1), nel := hash.nel - 1,
      items := remove hashidx hash.items name }

def clearArray (hash : XHash α) : XHash α :=
  { hash with nel := 0, glen := 0, items := List.replicate hash.items.length [] }

/-! ## Runs -/

inductive Op (α : Type)
  | find (name : Name) (data : α)
  | search (name : Name)
  | remove (name : Name)
  | clear
  | rebuild

def step (hash : XHash α) : Op α → Option (XHash α)
  | .find name data => (hashFind hash name data).map Prod.snd
  | .search _ => some hash
  | .remove name => some (hashRemove hash name)
  | .clear => some (clearArray hash)
  | .rebuild => some (hashRebuild hash)

/-- What an operation does to a map of names. -/
def effect (map : Entries Name α) : Op α → Entries Name α
  | .find name data => if (map.lookup name).isSome then map else (name, data) :: map
  | .search _ => map
  | .remove name => drop map name
  | .clear => []
  | .rebuild => map

/-- `glen`, as it should be. -/
def total (map : Entries Name α) : Nat := (map.map fun item => item.1.1.length + 1).sum

/-- The items are those of a map. -/
structure Holds (hash : XHash α) (map : Entries Name α) : Prop where
  placed : Placed hashidx hash.items
  items : hash.items.flatten.Perm map

/-- The items are counted modulo 2^32. -/
structure Represents (hash : XHash α) (map : Entries Name α) : Prop extends Holds hash map where
  nel : hash.nel = .ofNat map.length
  glen : hash.glen = .ofNat (total map)
  short : ∀ item ∈ map, item.1.1.length + 1 < 2 ^ 31

variable {hash hash' : XHash α} {map : Entries Name α} {name : Name} {data : α}

theorem Holds.search (held : Holds hash map) (name : Name) :
    hashSearch hash name = map.lookup name :=
  (held.placed.lookup_eq name).trans (lookup_perm held.items held.placed.distinct)

theorem represents_init : Represents (hashInit : XHash α) [] where
  placed := placed_empty (by decide)
  items := .of_eq List.flatten_replicate_nil
  nel := rfl
  glen := rfl
  short := nofun

/-- A hash that grows holds the same items. -/
theorem Holds.rebuild (held : Holds hash map) : Holds (hashRebuild hash) map := by
  rw [hashRebuild]
  split
  · exact held
  case h_2 newsize isNewsize =>
    have pos : ∀ prime ∈ PRIMES, 0 < prime := by decide
    obtain ⟨placed, same⟩ := held.placed.rebuild (pos newsize (List.mem_of_getElem? isNewsize))
    exact ⟨placed, same.trans held.items⟩

theorem hashRebuild_counts (hash : XHash α) :
    (hashRebuild hash).nel = hash.nel ∧ (hashRebuild hash).glen = hash.glen := by
  rw [hashRebuild]
  split
  · exact ⟨rfl, rfl⟩
  · exact ⟨rfl, rfl⟩

theorem Holds.count (held : Holds hash map) : Holds (count hash) map ∧
    (count hash).nel = hash.nel + 1 ∧ (count hash).glen = hash.glen := by
  have counted : Holds { hash with nel := hash.nel + 1 } map := ⟨held.placed, held.items⟩
  rw [Awk.count]
  dsimp only
  split
  · exact ⟨counted.rebuild, hashRebuild_counts _⟩
  · exact ⟨counted, rfl, rfl⟩

/-! ## A step -/

theorem total_cons (item : Name × α) : total (item :: map) = item.1.1.length + 1 + total map :=
  List.sum_cons

theorem total_perm {map' : Entries Name α} (perm : map.Perm map') : total map = total map' :=
  (perm.map _).sum_nat

/-- A name that is not found gets an item of its own, if it is short enough. -/
theorem Represents.find (held : Represents hash map) (short : name.1.length + 1 < 2 ^ 31) :
    ∃ hash', step hash (.find name data) = some hash' ∧
      Represents hash' (effect map (.find name data)) := by
  have searched := held.search name
  cases found : map.lookup name with
  | some old =>
    refine ⟨hash, ?_, ?_⟩
    · rw [step, hashFind, searched, found]
      rfl
    · rw [effect, found]
      exact held
  | none =>
    obtain ⟨counted, nel, glen⟩ := held.toHolds.count
    have apart : name ∉ keys (count hash).items.flatten := fun mem =>
      lookup_eq_none_iff.mp found ((keys_perm counted.items).mem_iff.mp mem)
    refine ⟨{ count hash with
        items := push hashidx (count hash).items (name, data)
        glen := (count hash).glen + .ofNat (name.1.length + 1) }, ?_,
      ⟨⟨@Placed.push _ _ _ _ (name, data) counted.placed apart, ?_⟩, ?_, ?_, ?_⟩⟩
    · rw [step, hashFind, searched, found]
      simp only [if_pos short, Option.map_some]
    · rw [effect, found]
      exact (counted.placed.perm_push (name, data)).trans (counted.items.cons _)
    · rw [effect, found]
      simp only [nel, held.nel]
      exact (UInt32.ofNat_add _ 1).symm
    · rw [effect, found]
      simp only [glen, held.glen]
      exact (UInt32.ofNat_add _ _).symm.trans (congrArg _ (Nat.add_comm _ _))
    · rw [effect, found]
      intro item mem
      rcases List.mem_cons.mp mem with rfl | old
      · exact short
      · exact held.short item old

theorem Represents.find_long (held : Represents hash map) (long : ¬name.1.length + 1 < 2 ^ 31) :
    step hash (.find name data) = none := by
  have absent : map.lookup name = none := by
    rw [lookup_eq_none_iff]
    intro mem
    obtain ⟨item, inside, rfl⟩ := List.mem_map.mp mem
    exact long (held.short item inside)
  rw [step, hashFind, held.search name, absent]
  simp only [if_neg long, Option.map_none]

theorem Represents.remove (held : Represents hash map) (name : Name) :
    Represents (hashRemove hash name) (effect map (.remove name)) := by
  have searched := held.search name
  have distinct := (keys_perm held.items).nodup_iff.mp held.placed.distinct
  cases found : map.lookup name with
  | none =>
    rw [hashRemove, searched, found, effect, drop_none found]
    exact held
  | some old =>
    have first := drop_some found
    have counts := total_perm first
    have lengths := first.length_eq
    rw [total_cons] at counts
    rw [List.length_cons] at lengths
    rw [hashRemove, searched, found, effect]
    refine ⟨⟨held.placed.remove name, ?_⟩, ?_, ?_, fun item mem => ?_⟩
    · have rest := (held.placed.perm_remove (searched.trans found)).symm.trans
        (held.items.trans first)
      exact rest.cons_inv
    · rw [held.nel, lengths, UInt32.ofNat_add]
      exact UInt32.add_sub_cancel _ _
    · rw [held.glen, counts, Nat.add_comm, UInt32.ofNat_add]
      exact UInt32.add_sub_cancel _ _
    · exact held.short item (List.mem_of_mem_eraseP mem)

theorem Represents.clear (held : Represents hash map) : Represents (clearArray hash) [] where
  placed := placed_empty held.placed.pos
  items := .of_eq List.flatten_replicate_nil
  nel := rfl
  glen := rfl
  short := nofun

theorem Represents.step (held : Represents hash map) (op : Op α)
    (short : ∀ name data, op = .find name data → name.1.length + 1 < 2 ^ 31) :
    ∃ hash', step hash op = some hash' ∧ Represents hash' (effect map op) := by
  cases op with
  | find name data => exact held.find (short name data rfl)
  | search name => exact ⟨hash, rfl, held⟩
  | remove name => exact ⟨hashRemove hash name, rfl, held.remove name⟩
  | clear => exact ⟨clearArray hash, rfl, held.clear⟩
  | rebuild =>
    obtain ⟨nel, glen⟩ := hashRebuild_counts hash
    exact ⟨hashRebuild hash, rfl, held.toHolds.rebuild, nel.trans held.nel, glen.trans held.glen,
      held.short⟩

/-- Whatever is done to a hash, it holds the items of the map and counts them modulo 2^32. -/
theorem Represents.run (held : Represents hash map) (ops : List (Op α))
    (short : ∀ name data, .find name data ∈ ops → name.1.length + 1 < 2 ^ 31) :
    ∃ hash', ops.foldlM Awk.step hash = some hash' ∧ Represents hash' (ops.foldl effect map) := by
  induction ops generalizing hash map with
  | nil => exact ⟨hash, rfl, held⟩
  | cons op ops ih =>
    obtain ⟨hash₁, first, held₁⟩ := held.step op fun name data same =>
      short name data (same ▸ List.mem_cons_self)
    obtain ⟨hash₂, rest, held₂⟩ := ih held₁ fun name data mem =>
      short name data (List.mem_cons_of_mem _ mem)
    refine ⟨hash₂, ?_, held₂⟩
    rw [List.foldlM_cons, first]
    exact rest

/-- A name that is too long stops the run. -/
theorem Represents.run_long (held : Represents hash map) {ops : List (Op α)}
    (mem : .find name data ∈ ops) (long : ¬name.1.length + 1 < 2 ^ 31) :
    ops.foldlM Awk.step hash = none := by
  induction ops generalizing hash map with
  | nil => exact nomatch mem
  | cons op ops ih =>
    rw [List.foldlM_cons]
    by_cases short : ∀ name data, op = .find name data → name.1.length + 1 < 2 ^ 31
    · obtain ⟨hash₁, first, held₁⟩ := held.step op short
      rw [first]
      refine ih held₁ ((List.mem_cons.mp mem).resolve_left fun same => ?_)
      exact long (short name data same.symm)
    · obtain ⟨name₁, data₁, same, long₁⟩ : ∃ name data, op = .find name data ∧
          ¬name.1.length + 1 < 2 ^ 31 := by
        by_contra none
        exact short fun name data same => by_contra fun long => none ⟨name, data, same, long⟩
      rw [same, held.find_long long₁]
      rfl

end Busybox.Awk
