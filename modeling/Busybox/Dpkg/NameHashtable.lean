import Busybox.Dpkg.VersionParts
import Busybox.Lib.OpenAddressing
import Mathlib.Tactic.NormNum.Prime

/-!
# The table of names

Names and versions are stored once, and are compared by their index from then on.
-/

namespace Busybox.Dpkg

open Libbb.Xatonum (Text)
open OpenAddressing (Passes Searched History)

def NAME_HASH_PRIME : Nat := 16381

/-- A `char`, which is signed. -/
def char (x : UInt8) : Int := x.toInt8.toInt

/-- What an `int` can hold of a number. -/
def int (n : Int) : Int := n.bmod (2 ^ 32)

section

-- What the machine makes of a shift by a negative amount, which the language leaves open.
variable (negativeShift : Int → Int → BitVec 32)

def shiftLeft (n amount : Int) : BitVec 32 :=
  if 0 ≤ amount then BitVec.ofInt 32 n <<< amount.toNat else negativeShift n amount

/-- The `i`th round adds to `hash_num`. -/
def hashRound (key : Text) (hashNum : BitVec 64) (i : Nat) : BitVec 64 :=
  let c := char (key.getD i 0)
  let before := char (key.getD (i - 1) 0)
  hashNum + (shiftLeft negativeShift (c + before) ((int (c * i)).tmod 24)).signExtend 64

def hashNum (key : Text) : BitVec 64 :=
  let len := int key.length
  (List.range' 1 (len.toNat - 1)).foldl (hashRound negativeShift key)
    (BitVec.ofInt 64 (char (key.getD 0 0)))

/-- `*start` and `*decrement` -/
def makeHash (key : Text) (hashPrime : Nat) : UInt32 × UInt32 :=
  let hash := (hashNum negativeShift key).toNat
  (.ofNat (hash % 2 ^ 32 % hashPrime), .ofNat (1 + hash % (hashPrime - 1)))

/-- `char *name_hashtable[NAME_HASH_PRIME + 1]` -/
abbrev NameHashtable := Vector (Option CString) (NAME_HASH_PRIME + 1)

def nextAddress (probeDecrement probeAddress : UInt32) : UInt32 :=
  let probeAddress := probeAddress - probeDecrement
  if probeAddress.toInt32 < 0 then probeAddress + .ofNat NAME_HASH_PRIME else probeAddress

/-- The loop, with the rounds it has left. It has no result when these run out, or when it reads
beyond the table. -/
def searchLoop (nameHashtable : NameHashtable) (key : CString) (probeDecrement : UInt32) :
    Nat → UInt32 → Option (UInt32 × NameHashtable)
  | 0, _ => none
  | rounds + 1, probeAddress =>
    match nameHashtable[probeAddress.toNat]? with
    | none => none
    | some (some name) =>
      if name = key then some (probeAddress, nameHashtable)
      else searchLoop nameHashtable key probeDecrement rounds
        (nextAddress probeDecrement probeAddress)
    | some none =>
      some (probeAddress, nameHashtable.setIfInBounds probeAddress.toNat (some key))

def searchNameHashtable (rounds : Nat) (nameHashtable : NameHashtable) (key : CString) :
    Option (UInt32 × NameHashtable) :=
  let (probeAddress, probeDecrement) := makeHash negativeShift key.1 NAME_HASH_PRIME
  searchLoop nameHashtable key probeDecrement rounds probeAddress

/-- A sequence of calls, the last first: their keys with the indices they returned, and the table
behind them. -/
inductive Calls : List (CString × UInt32) → NameHashtable → Prop
  | start : Calls [] (Vector.replicate _ none)
  | call {history : List (CString × UInt32)} {before after : NameHashtable} {key : CString}
      {index : UInt32} {rounds : Nat} (earlier : Calls history before)
      (returned : searchNameHashtable negativeShift rounds before key = some (index, after)) :
      Calls ((key, index) :: history) after

end

/-! ## The path of a key -/

theorem toInt32_neg_iff (x : UInt32) : x.toInt32 < 0 ↔ 2 ^ 31 ≤ x.toNat := by
  have negative : x.toInt32 < 0 ↔ x.toBitVec.toInt < 0 := Int32.lt_iff_toInt_lt
  rw [negative, BitVec.toInt_neg_iff, UInt32.toNat_toBitVec]
  omega

/-- The start and the decrement of a key. -/
structure InTable (hash : UInt32 × UInt32) : Prop where
  start : hash.1.toNat < NAME_HASH_PRIME
  decrement : 0 < hash.2.toNat ∧ hash.2.toNat < NAME_HASH_PRIME

theorem makeHash_inTable (negativeShift : Int → Int → BitVec 32) (key : Text) :
    InTable (makeHash negativeShift key NAME_HASH_PRIME) := by
  have start := Nat.mod_lt ((hashNum negativeShift key).toNat % 2 ^ 32)
    (show 0 < NAME_HASH_PRIME by decide)
  have decrement := Nat.mod_lt (hashNum negativeShift key).toNat
    (show 0 < NAME_HASH_PRIME - 1 by decide)
  rw [NAME_HASH_PRIME] at start decrement
  constructor
  · rw [makeHash, UInt32.toNat_ofNat_of_lt' (by rw [NAME_HASH_PRIME, UInt32.size]; omega)]
    exact start
  · rw [makeHash, UInt32.toNat_ofNat_of_lt' (by rw [NAME_HASH_PRIME, UInt32.size]; omega)]
    exact ⟨by omega, by rw [NAME_HASH_PRIME]; omega⟩

/-- The address after `n` rounds. -/
def addressAt (hash : UInt32 × UInt32) (n : Nat) : Nat :=
  (hash.1.toNat + n * (NAME_HASH_PRIME - hash.2.toNat)) % NAME_HASH_PRIME

theorem addressAt_lt (hash : UInt32 × UInt32) (n : Nat) : addressAt hash n < NAME_HASH_PRIME :=
  Nat.mod_lt _ (by decide)

theorem addressAt_zero {hash : UInt32 × UInt32} (inTable : InTable hash) :
    addressAt hash 0 = hash.1.toNat := by
  rw [addressAt, Nat.zero_mul, Nat.add_zero, Nat.mod_eq_of_lt inTable.start]

/-- Where the unsigned address wraps around, the prime is added to bring it back. -/
theorem nextAddress_eq {hash : UInt32 × UInt32} (inTable : InTable hash) {n : Nat}
    {probeAddress : UInt32} (here : probeAddress.toNat = addressAt hash n) :
    (nextAddress hash.2 probeAddress).toNat = addressAt hash (n + 1) := by
  have below := addressAt_lt hash n
  have ⟨positive, small⟩ := inTable.decrement
  have next : addressAt hash (n + 1) =
      (probeAddress.toNat + (NAME_HASH_PRIME - hash.2.toNat)) % NAME_HASH_PRIME := by
    rw [here, addressAt, addressAt, Nat.mod_add_mod, Nat.succ_mul, Nat.add_assoc]
  rw [← here] at below
  rw [next, nextAddress]
  simp only [toInt32_neg_iff]
  have subtracted : (probeAddress - hash.2).toNat =
      (2 ^ 32 - hash.2.toNat + probeAddress.toNat) % 2 ^ 32 := UInt32.toNat_sub ..
  rw [NAME_HASH_PRIME] at below small ⊢
  split
  · rw [UInt32.toNat_add, subtracted]
    have prime : (UInt32.ofNat 16381).toNat = 16381 := rfl
    rw [prime]
    omega
  · rw [subtracted]
    omega

/-- The path of a key comes to every address. -/
theorem exists_addressAt {hash : UInt32 × UInt32} (inTable : InTable hash) {address : Nat}
    (below : address < NAME_HASH_PRIME) : ∃ n < NAME_HASH_PRIME, addressAt hash n = address := by
  have prime : Nat.Prime NAME_HASH_PRIME := by norm_num [NAME_HASH_PRIME]
  have ⟨positive, small⟩ := inTable.decrement
  have coprime : (NAME_HASH_PRIME - hash.2.toNat).Coprime NAME_HASH_PRIME :=
    (Nat.coprime_of_lt_prime (Nat.sub_ne_zero_of_lt small)
      (Nat.sub_lt (by decide) positive) prime).symm
  exact OpenAddressing.exists_step (by decide) coprime _ below

/-! ## A call -/

variable {negativeShift : Int → Int → BitVec 32}

def pathOf (negativeShift : Int → Int → BitVec 32) (key : CString) : Nat → Nat :=
  addressAt (makeHash negativeShift key.1 NAME_HASH_PRIME)

/-- What the table holds at an address. -/
def nameAt (nameHashtable : NameHashtable) (address : Nat) : Option CString :=
  nameHashtable[address]?.join

theorem nameAt_of_lt {nameHashtable : NameHashtable} {address : Nat} {name : Option CString}
    (read : nameHashtable[address]? = some name) : nameAt nameHashtable address = name := by
  rw [nameAt, read]
  rfl

theorem nameAt_set {nameHashtable : NameHashtable} {address : Nat} {name : Option CString}
    (read : nameHashtable[address]? = some name) (key : CString) (other : Nat) :
    nameAt (nameHashtable.setIfInBounds address (some key)) other =
      if other = address then some key else nameAt nameHashtable other := by
  have within : address < NAME_HASH_PRIME + 1 := by
    refine Nat.lt_of_not_le fun beyond => ?_
    rw [Vector.getElem?_eq_none beyond] at read
    cases read
  rw [nameAt, nameAt, Vector.getElem?_setIfInBounds]
  by_cases same : other = address
  · rw [if_pos same.symm, if_pos same, if_pos within]
    rfl
  · rw [if_neg (Ne.symm same), if_neg same]

/-- The loop ends at the key or at the first free address, and changes nothing else. -/
theorem searchLoop_searched {nameHashtable after : NameHashtable} {key : CString} {rounds n : Nat}
    {probeAddress index : UInt32}
    (here : probeAddress.toNat = pathOf negativeShift key n)
    (passes : Passes (pathOf negativeShift) (nameAt nameHashtable) key n)
    (returned : searchLoop nameHashtable key (makeHash negativeShift key.1 NAME_HASH_PRIME).2 rounds
      probeAddress = some (index, after)) :
    Searched (pathOf negativeShift) (nameAt nameHashtable) (nameAt after) key index.toNat := by
  induction rounds generalizing n probeAddress with
  | zero => cases returned
  | succ rounds ih =>
    rw [searchLoop] at returned
    split at returned
    · cases returned
    · rename_i name read
      have held := nameAt_of_lt read
      split at returned
      · rename_i same
        cases returned
        subst same
        exact ⟨⟨n, here.symm, passes⟩, .inr held, held, fun _ _ => rfl⟩
      · rename_i differs
        refine ih (nextAddress_eq (makeHash_inTable _ _) here) ?_ returned
        intro m before
        rcases Nat.lt_succ_iff_lt_or_eq.mp before with before | rfl
        · exact passes m before
        · exact ⟨name, here ▸ held, differs⟩
    · rename_i read
      cases returned
      refine ⟨⟨n, here.symm, passes⟩, .inl (nameAt_of_lt read), ?_, fun other differs => ?_⟩
      · rw [nameAt_set read, if_pos rfl]
      · rw [nameAt_set read, if_neg differs]

theorem searchNameHashtable_searched {nameHashtable after : NameHashtable} {key : CString}
    {rounds : Nat} {index : UInt32}
    (returned : searchNameHashtable negativeShift rounds nameHashtable key = some (index, after)) :
    Searched (pathOf negativeShift) (nameAt nameHashtable) (nameAt after) key index.toNat :=
  searchLoop_searched (n := 0) (addressAt_zero (makeHash_inTable _ _)).symm
    (fun _ before => absurd before (Nat.not_lt_zero _)) returned

/-- Where the path ends the loop does, if it has the rounds to come there. -/
theorem searchLoop_returns {nameHashtable : NameHashtable} {key : CString} {rounds n last : Nat}
    {probeAddress : UInt32} (here : probeAddress.toNat = pathOf negativeShift key n)
    (ended : nameAt nameHashtable (pathOf negativeShift key last) = none ∨
      nameAt nameHashtable (pathOf negativeShift key last) = some key)
    (ahead : n ≤ last) (enough : last < n + rounds) :
    (searchLoop nameHashtable key (makeHash negativeShift key.1 NAME_HASH_PRIME).2 rounds
      probeAddress).isSome = true := by
  induction rounds generalizing n probeAddress with
  | zero => omega
  | succ rounds ih =>
    have within : probeAddress.toNat < NAME_HASH_PRIME + 1 :=
      here ▸ Nat.lt_succ_of_lt (addressAt_lt _ _)
    have read : nameHashtable[probeAddress.toNat]? = some nameHashtable[probeAddress.toNat] :=
      Vector.getElem?_eq_getElem within
    rw [searchLoop, read]
    split
    · rename_i none_
      cases none_
    · rename_i name some_
      split
      · rfl
      · rename_i differs
        refine ih (nextAddress_eq (makeHash_inTable _ _) here) ?_ (by omega)
        refine Nat.lt_of_le_of_ne ahead fun last_ => ?_
        have held := nameAt_of_lt (read.trans some_)
        rw [here, last_] at held
        rcases ended with free | found
        · rw [held] at free
          cases free
        · rw [held] at found
          exact differs (Option.some.inj found)
    · rfl

/-! ## All calls -/

theorem Calls.past {history : List (CString × UInt32)} {nameHashtable : NameHashtable}
    (calls : Calls negativeShift history nameHashtable) :
    History (pathOf negativeShift) (history.map fun entry => (entry.1, entry.2.toNat))
      (nameAt nameHashtable) := by
  induction calls with
  | start =>
    have empty : nameAt (Vector.replicate _ none) = fun _ => none := by
      funext address
      rw [nameAt, Vector.getElem?_replicate]
      split <;> rfl
    rw [empty]
    exact .start
  | call _ returned past => exact past.search (searchNameHashtable_searched returned)

theorem nameAt_eq_some {nameHashtable : NameHashtable} {address : Nat} {name : CString}
    (held : nameAt nameHashtable address = some name) :
    nameHashtable[address]? = some (some name) :=
  Option.join_eq_some_iff.mp held

/-- As long as there are fewer keys than addresses there is a free one on every path. -/
theorem Calls.returns {history : List (CString × UInt32)} {nameHashtable : NameHashtable}
    (calls : Calls negativeShift history nameHashtable) {key : CString}
    (few : (key :: history.map Prod.fst).dedup.length < NAME_HASH_PRIME) :
    ∃ index after, searchNameHashtable negativeShift NAME_HASH_PRIME nameHashtable key =
      some (index, after) := by
  have names : (history.map fun entry => (entry.1, entry.2.toNat)).map Prod.fst =
      history.map Prod.fst := List.map_map
  have fewer : (history.map Prod.fst).dedup.length < (Finset.range NAME_HASH_PRIME).card := by
    rw [Finset.card_range]
    refine Nat.lt_of_le_of_lt ?_ few
    by_cases again : key ∈ history.map Prod.fst
    · rw [List.dedup_cons_of_mem again]
    · rw [List.dedup_cons_of_notMem again]
      exact Nat.le_succ _
  obtain ⟨address, below, free⟩ := calls.past.exists_free _ (names ▸ fewer)
  obtain ⟨n, rounds, rfl⟩ := exists_addressAt (makeHash_inTable negativeShift key.1)
    (Finset.mem_range.mp below)
  have ends : ∃ n, nameAt nameHashtable (pathOf negativeShift key n) = none := ⟨n, free⟩
  obtain ⟨last, -, ended, first⟩ := OpenAddressing.exists_end ends
  have enough : last < 0 + NAME_HASH_PRIME := by
    have := first n free
    omega
  have returned := searchLoop_returns
    (addressAt_zero (makeHash_inTable negativeShift key.1)).symm ended (Nat.zero_le _) enough
  obtain ⟨result, returned⟩ := Option.isSome_iff_exists.mp returned
  exact ⟨result.1, result.2, returned⟩

/-- A call for one of fewer different keys than there are addresses returns, and every key that was
ever searched for is held at the index that was returned for it, which is its own. -/
theorem searchNameHashtable_calls (negativeShift : Int → Int → BitVec 32)
    {history : List (CString × UInt32)} {nameHashtable : NameHashtable}
    (calls : Calls negativeShift history nameHashtable) :
    (∀ key, (key :: history.map Prod.fst).dedup.length < NAME_HASH_PRIME →
      ∃ index after, searchNameHashtable negativeShift NAME_HASH_PRIME nameHashtable key =
        some (index, after)) ∧
      (∀ entry ∈ history, ∀ entry' ∈ history, entry.2 = entry'.2 ↔ entry.1 = entry'.1) ∧
      ∀ entry ∈ history, nameHashtable[entry.2.toNat]? = some (some entry.1) := by
  have past := calls.past
  have mem {entry : CString × UInt32} (called : entry ∈ history) :
      (entry.1, entry.2.toNat) ∈ history.map fun entry => (entry.1, entry.2.toNat) :=
    List.mem_map.mpr ⟨entry, called, rfl⟩
  refine ⟨fun key few => calls.returns few, ?_, fun entry called => ?_⟩
  · intro entry called entry' called'
    rw [← UInt32.toNat_inj]
    exact past.slot_eq_iff (mem called) (mem called')
  · exact nameAt_eq_some (past.placed _ (mem called)).1

def installed : CString := ⟨ascii "installed", by decide⟩

/-- A call with "installed" returns, and finds it again. -/
theorem searchNameHashtable_calls_installed :
    ∃ index after, searchNameHashtable (fun n _ => BitVec.ofInt 32 n) NAME_HASH_PRIME
      (Vector.replicate _ none) installed = some (index, after) ∧
        after[index.toNat]? = some (some installed) := by
  obtain ⟨index, after, returned⟩ :=
    (searchNameHashtable_calls (fun n _ => BitVec.ofInt 32 n) .start).1 installed (by decide)
  have calls := Calls.call .start returned
  exact ⟨index, after, returned,
    (searchNameHashtable_calls _ calls).2.2 (installed, index) List.mem_cons_self⟩

end Busybox.Dpkg
