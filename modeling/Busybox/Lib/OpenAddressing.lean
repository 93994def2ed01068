import Mathlib.Data.Finset.Card
import Mathlib.Data.List.Basic
import Mathlib.Data.ZMod.Basic

/-!
# Tables of keyed slots

A slot table is a list whose entries carry a key, with one key value standing
for "no key". `KeyUnique` says that no two slots share a real key. The lemmas
follow the two ways a table is edited: a slot is replaced by an entry whose key
occurs nowhere else, or every slot meeting a test is vacated.
-/

namespace Busybox.Slots

variable {α κ : Type*}

/-- No two slots hold the same key, the vacant key apart. -/
def KeyUnique (key : α → κ) (vacant : κ) (table : List α) : Prop :=
  ∀ ⦃i j : Nat⦄ ⦃a b : α⦄, table[i]? = some a → table[j]? = some b →
    key a = key b → key a ≠ vacant → i = j

/-- A table of vacant slots holds no key twice. -/
theorem keyUnique_replicate {key : α → κ} {vacant : κ} {count : Nat} {blank : α}
    (isVacant : key blank = vacant) : KeyUnique key vacant (List.replicate count blank) := by
  intro i j a b atI _ _ real
  have aBlank : a = blank := by
    rw [List.getElem?_replicate] at atI
    split at atI <;> simp_all
  exact absurd (aBlank ▸ isVacant) real

/-- What stands in an overwritten slot is the entry written there. -/
theorem eq_of_getElem?_set {table : List α} {slot : Nat} {entry a : α}
    (atSlot : (table.set slot entry)[slot]? = some a) : a = entry := by
  rw [List.getElem?_set_self'] at atSlot
  cases old : table[slot]? <;> simp_all

/-- Overwriting one slot keeps keys unique when the new key is vacant or is held
by no other slot. -/
theorem KeyUnique.set {key : α → κ} {vacant : κ} {table : List α}
    (unique : KeyUnique key vacant table) {slot : Nat} {entry : α}
    (fresh : ∀ i a, i ≠ slot → table[i]? = some a → key entry ≠ vacant → key a ≠ key entry) :
    KeyUnique key vacant (table.set slot entry) := by
  intro i j a b atI atJ same real
  rcases eq_or_ne slot i with rfl | hi <;> rcases eq_or_ne slot j with rfl | hj
  · rfl
  · have written : a = entry := eq_of_getElem?_set atI
    subst written
    rw [List.getElem?_set_ne hj] at atJ
    exact absurd same.symm (fresh j b hj.symm atJ real)
  · have written : b = entry := eq_of_getElem?_set atJ
    subst written
    rw [List.getElem?_set_ne hi] at atI
    exact absurd same (fresh i a hi.symm atI (same ▸ real))
  · rw [List.getElem?_set_ne hi] at atI
    rw [List.getElem?_set_ne hj] at atJ
    exact unique atI atJ same real

/-- Vacating slots, or editing them without touching a real key, keeps keys
unique. -/
theorem KeyUnique.map {key : α → κ} {vacant : κ} {table : List α}
    (unique : KeyUnique key vacant table) {edit : α → α}
    (keeps : ∀ a, key (edit a) = key a ∨ key (edit a) = vacant) :
    KeyUnique key vacant (table.map edit) := by
  intro i j a b atI atJ same real
  rw [List.getElem?_map, Option.map_eq_some_iff] at atI atJ
  obtain ⟨a', atI, rfl⟩ := atI
  obtain ⟨b', atJ, rfl⟩ := atJ
  rcases keeps a' with keptA | gone
  · rcases keeps b' with keptB | gone
    · exact unique atI atJ (keptA ▸ keptB ▸ same) (keptA ▸ real)
    · exact absurd (same.trans gone) real
  · exact absurd gone real

end Busybox.Slots

/-!
## Open addressing

A key has a path of slots. A search follows it past the slots of other keys, and ends at the slot
that holds the key or at the first free one, which then holds it. Nothing is ever taken out.
-/

namespace Busybox.OpenAddressing

variable {ι κ : Type*}

section Tables

variable (path : κ → ℕ → ι)

/-- On the path of a key the first `n` slots hold other keys. -/
def Passes (table : ι → Option κ) (key : κ) (n : ℕ) : Prop :=
  ∀ m < n, ∃ other, table (path key m) = some other ∧ other ≠ key

def Placed (table : ι → Option κ) (key : κ) (slot : ι) : Prop :=
  table slot = some key ∧ ∃ n, path key n = slot ∧ Passes path table key n

/-- A key in the table is where a search for it ends. -/
def Sound (table : ι → Option κ) : Prop :=
  ∀ slot key, table slot = some key → Placed path table key slot

/-- What is held stays where it is. -/
def Extends (table table' : ι → Option κ) : Prop :=
  ∀ slot key, table slot = some key → table' slot = some key

variable {path} {table table' : ι → Option κ} {key : κ} {slot slot' : ι}

theorem Passes.le_of_holds {n n' : ℕ} (passes : Passes path table key n)
    (holds : table (path key n') = some key) : n ≤ n' := by
  refine Nat.le_of_not_lt fun before => ?_
  obtain ⟨other, held, differs⟩ := passes n' before
  rw [holds] at held
  exact differs (Option.some.inj held).symm

theorem Placed.unique (first : Placed path table key slot)
    (second : Placed path table key slot') : slot = slot' := by
  obtain ⟨holds, n, rfl, passes⟩ := first
  obtain ⟨holds', n', rfl, passes'⟩ := second
  rw [Nat.le_antisymm (passes.le_of_holds holds') (passes'.le_of_holds holds)]

theorem Passes.extend {n : ℕ} (passes : Passes path table key n) (extend : Extends table table') :
    Passes path table' key n := by
  intro m before
  obtain ⟨other, held, differs⟩ := passes m before
  exact ⟨other, extend _ _ held, differs⟩

theorem Placed.extend (placed : Placed path table key slot) (extend : Extends table table') :
    Placed path table' key slot := by
  obtain ⟨holds, n, at_, passes⟩ := placed
  exact ⟨extend _ _ holds, n, at_, passes.extend extend⟩

theorem Sound.injective (sound : Sound path table) (first : table slot = some key)
    (second : table slot' = some key) : slot = slot' :=
  (sound _ _ first).unique (sound _ _ second)

/-! ## A search -/

/-- What a search leaves behind, and where it ends. -/
structure Searched (path : κ → ℕ → ι) (table table' : ι → Option κ) (key : κ) (slot : ι) :
    Prop where
  on_path : ∃ n, path key n = slot ∧ Passes path table key n
  ended : table slot = none ∨ table slot = some key
  holds : table' slot = some key
  others : ∀ other, other ≠ slot → table' other = table other

theorem Searched.extend (searched : Searched path table table' key slot) :
    Extends table table' := by
  intro other held holds
  by_cases same : other = slot
  · subst same
    rcases searched.ended with free | found
    · rw [free] at holds
      cases holds
    · rw [found] at holds
      rw [searched.holds, holds]
  · rw [searched.others other same, holds]

theorem Searched.placed (searched : Searched path table table' key slot) :
    Placed path table' key slot := by
  obtain ⟨n, at_, passes⟩ := searched.on_path
  exact ⟨searched.holds, n, at_, passes.extend searched.extend⟩

theorem Searched.sound (searched : Searched path table table' key slot)
    (sound : Sound path table) : Sound path table' := by
  intro other held holds
  by_cases same : other = slot
  · subst same
    rw [searched.holds] at holds
    cases holds
    exact searched.placed
  · rw [searched.others other same] at holds
    exact (sound other held holds).extend searched.extend

/-- A path with a free slot has a place where a search ends. -/
theorem exists_end (free : ∃ n, table (path key n) = none) :
    ∃ n, Passes path table key n ∧
      (table (path key n) = none ∨ table (path key n) = some key) ∧
      ∀ n', table (path key n') = none → n ≤ n' := by
  classical
  have ends : ∃ n, table (path key n) = none ∨ table (path key n) = some key :=
    free.imp fun _ => .inl
  refine ⟨Nat.find ends, ?_, Nat.find_spec ends, fun n' free => Nat.find_min' ends (.inl free)⟩
  intro m before
  have goesOn := Nat.find_min ends before
  rw [not_or] at goesOn
  obtain ⟨other, held⟩ := Option.ne_none_iff_exists'.mp goesOn.1
  exact ⟨other, held, fun same => goesOn.2 (same ▸ held)⟩

/-! ## A history of searches -/

/-- The keys that were searched for, with the slots that were answered, and the table after it. -/
structure History (path : κ → ℕ → ι) (history : List (κ × ι)) (table : ι → Option κ) : Prop where
  sound : Sound path table
  placed : ∀ entry ∈ history, Placed path table entry.1 entry.2
  searched : ∀ slot key, table slot = some key → (key, slot) ∈ history

theorem History.start : History path [] fun _ => none where
  sound := fun _ _ held => nomatch held
  placed := fun _ mem => nomatch mem
  searched := fun _ _ held => nomatch held

variable {history : List (κ × ι)}

theorem History.search (past : History path history table)
    (searched : Searched path table table' key slot) :
    History path ((key, slot) :: history) table' where
  sound := searched.sound past.sound
  placed := by
    rintro entry (- | ⟨-, mem⟩)
    · exact searched.placed
    · exact (past.placed entry mem).extend searched.extend
  searched := by
    intro other held holds
    by_cases same : other = slot
    · subst same
      rw [searched.holds] at holds
      cases holds
      exact List.mem_cons_self
    · rw [searched.others other same] at holds
      exact List.mem_cons_of_mem _ (past.searched other held holds)

/-- Comparing slots is comparing keys. -/
theorem History.slot_eq_iff (past : History path history table) {entry entry' : κ × ι}
    (mem : entry ∈ history) (mem' : entry' ∈ history) :
    entry.2 = entry'.2 ↔ entry.1 = entry'.1 := by
  have placed := past.placed entry mem
  have placed' := past.placed entry' mem'
  constructor
  · intro same
    have holds := placed.1
    rw [same, placed'.1] at holds
    exact (Option.some.inj holds).symm
  · intro same
    rw [same] at placed
    exact placed.unique placed'

/-- Fewer keys than slots leave a slot free. -/
theorem History.exists_free [DecidableEq κ] (past : History path history table) (slots : Finset ι)
    (few : (history.map Prod.fst).dedup.length < slots.card) :
    ∃ slot ∈ slots, table slot = none := by
  by_contra full
  have occupied : ∀ slot ∈ slots, ∃ key, table slot = some key := fun slot mem =>
    Option.ne_none_iff_exists'.mp fun free => full ⟨slot, mem, free⟩
  have into : ∀ slot ∈ slots, table slot ∈ (history.map Prod.fst).toFinset.image some := by
    intro slot mem
    obtain ⟨key, holds⟩ := occupied slot mem
    rw [holds]
    exact Finset.mem_image_of_mem some
      (List.mem_toFinset.mpr (List.mem_map.mpr ⟨_, past.searched _ _ holds, rfl⟩))
  have distinct : Set.InjOn table slots := by
    intro slot mem slot' mem' same
    obtain ⟨key, holds⟩ := occupied slot mem
    exact past.sound.injective holds (same ▸ holds)
  have counted := (Finset.card_le_card_of_injOn table into distinct).trans Finset.card_image_le
  rw [List.card_toFinset] at counted
  exact absurd few (Nat.not_lt_of_le counted)

end Tables

/-- Steps of a length that is coprime to the number of slots come to every slot. -/
theorem exists_step {p : ℕ} (positive : 0 < p) {length : ℕ} (coprime : length.Coprime p)
    (start : ℕ) {slot : ℕ} (below : slot < p) : ∃ n < p, (start + n * length) % p = slot := by
  have : NeZero p := ⟨positive.ne'⟩
  obtain ⟨inverse, spec⟩ := (ZMod.unitOfCoprime length coprime).isUnit.exists_left_inv
  rw [ZMod.coe_unitOfCoprime] at spec
  refine ⟨(((slot : ZMod p) - start) * inverse).val, ZMod.val_lt _, ?_⟩
  have reached : ((start + (((slot : ZMod p) - start) * inverse).val * length : ℕ) : ZMod p) =
      slot := by
    rw [Nat.cast_add, Nat.cast_mul, ZMod.natCast_zmod_val, mul_assoc, spec, mul_one,
      add_sub_cancel]
  rw [(ZMod.natCast_eq_natCast_iff' _ _ _).mp reached, Nat.mod_eq_of_lt below]

end Busybox.OpenAddressing
