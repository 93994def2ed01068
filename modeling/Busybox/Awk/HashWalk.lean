import Busybox.Awk.Hash
import Busybox.Lib.Records

/-!
# A `for`-`in` loop of `awk`

`hashwalk_init` copies the names of an array into a buffer that `glen` sizes, and `hashwalk_next`
takes them from there, so that the array may change while the loop runs.
-/

namespace Busybox.Awk

open Chains

variable {α : Type}

/-- What `wbuf` holds up to `end`, and where `cur` is. The walkers of a variable are a stack. -/
structure Walker where
  wbuf : List UInt8
  cur : Nat

/-- `strcpy(w->end, hi->name)`, where there is room for it. -/
def strcpyWord (room : Nat) (wbuf : List UInt8) (name : Name) : Option (List UInt8) :=
  if wbuf.length + name.1.length + 1 ≤ room then some (wbuf ++ name.1 ++ [0]) else none

/-- `hashwalk_init`. There is a byte in front of what `glen + 1` sizes. -/
def hashwalkInit (array : XHash α) (walkers : List Walker) : Option (List Walker) := do
  let room := 1 + array.glen.toNat + 1
  let wbuf ← array.items.foldlM
    (fun wbuf chain => chain.foldlM (fun wbuf hi => strcpyWord room wbuf hi.1) wbuf) []
  return ⟨wbuf, 0⟩ :: walkers

/-- `nextword`, and how far it goes. -/
def nextword (wbuf : List UInt8) (cur : Nat) : List UInt8 × Nat :=
  let word := (wbuf.drop cur).takeWhile (· ≠ 0)
  (word, cur + word.length + 1)

/-- What `hashwalk_next` gives until it is false: the body is run with every word. -/
def walk (body : XHash α → List UInt8 → XHash α) (array : XHash α) (w : Walker) :
    List (List UInt8) × XHash α :=
  if w.cur ≥ w.wbuf.length then ([], array)
  else
    let next := nextword w.wbuf w.cur
    let rest := walk body (body array next.1) ⟨w.wbuf, next.2⟩
    (next.1 :: rest.1, rest.2)
termination_by w.wbuf.length - w.cur
decreasing_by
  simp only [nextword]
  omega

/-- The loop: the names it visits, and the array and the walkers behind it. -/
def forIn (body : XHash α → List UInt8 → XHash α) (array : XHash α) (walkers : List Walker) :
    Option (List (List UInt8) × XHash α × List Walker) := do
  match ← hashwalkInit array walkers with
  | [] => none
  | w :: prev =>
    let (words, array) := walk body array w
    return (words, array, prev)

/-! ## The copy -/

/-- The names with their NULs. -/
def words (names : List Name) : List UInt8 := names.flatMap fun name => name.1 ++ [0]

theorem length_words (names : List Name) :
    (words names).length = (names.map fun name => name.1.length + 1).sum := by
  induction names with
  | nil => rfl
  | cons name names ih =>
    rw [words, List.flatMap_cons, List.length_append, List.map_cons, List.sum_cons, ← ih,
      List.length_append]
    rfl

/-- All names are copied where there is room for all of them, and only there. -/
theorem copy_eq (room : Nat) (wbuf : List UInt8) (names : List Name) (fits : wbuf.length ≤ room) :
    names.foldlM (strcpyWord room) wbuf =
      if wbuf.length + (words names).length ≤ room then some (wbuf ++ words names) else none := by
  induction names generalizing wbuf with
  | nil =>
    simp only [words, List.flatMap_nil, List.append_nil, List.length_nil, Nat.add_zero]
    exact (if_pos fits).symm
  | cons name names ih =>
    have length : (words (name :: names)).length = name.1.length + 1 + (words names).length := by
      rw [length_words, length_words, List.map_cons, List.sum_cons]
    have whole : wbuf ++ words (name :: names) = wbuf ++ name.1 ++ [0] ++ words names := by
      simp only [words, List.flatMap_cons, List.append_assoc]
    rw [List.foldlM_cons, strcpyWord, length, whole]
    split
    case isTrue short =>
      have here : (wbuf ++ name.1 ++ [0]).length = wbuf.length + name.1.length + 1 := by
        rw [List.length_append, List.length_append]
        rfl
      have rest := ih (wbuf ++ name.1 ++ [0]) (here ▸ short)
      rw [here] at rest
      refine rest.trans (if_congr ?_ rfl rfl)
      omega
    case isFalse long =>
      rw [if_neg (by omega)]
      rfl

/-- The names of the items, as they lie on the chains. -/
def names (array : XHash α) : List Name := keys array.items.flatten

theorem foldlM_names (room : Nat) (array : XHash α) (wbuf : List UInt8) :
    array.items.foldlM
      (fun wbuf chain => chain.foldlM (fun wbuf hi => strcpyWord room wbuf hi.1) wbuf) wbuf =
      (names array).foldlM (strcpyWord room) wbuf := by
  rw [names, keys, List.foldlM_map]
  induction array.items generalizing wbuf with
  | nil => rfl
  | cons chain chains ih =>
    rw [List.foldlM_cons, List.flatten_cons, List.foldlM_append]
    exact congrArg _ (funext ih)

theorem hashwalkInit_eq (array : XHash α) (walkers : List Walker) :
    hashwalkInit array walkers =
      if (words (names array)).length ≤ array.glen.toNat + 2 then
        some (⟨words (names array), 0⟩ :: walkers)
      else none := by
  have room : 1 + array.glen.toNat + 1 = array.glen.toNat + 2 := by omega
  rw [hashwalkInit, foldlM_names, copy_eq _ _ _ (Nat.zero_le _), List.length_nil, Nat.zero_add,
    room, List.nil_append]
  split
  · rfl
  · rfl

/-! ## The walk -/

theorem nextword_words (front : List UInt8) (name : Name) (rest : List UInt8) :
    nextword (front ++ (name.1 ++ [0] ++ rest)) front.length =
      (name.1, front.length + name.1.length + 1) := by
  have word : (name.1 ++ [0] ++ rest).takeWhile (· ≠ 0) = name.1 := by
    rw [List.append_assoc]
    exact Records.takeWhile_record name.2 rest
  simp only [nextword, List.drop_left, word]

/-- The names are visited one after the other, whatever the body does to the array. -/
theorem walk_words (body : XHash α → List UInt8 → XHash α) (array : XHash α) (front : List UInt8)
    (rest : List Name) :
    (walk body array ⟨front ++ words rest, front.length⟩).1 = rest.map Subtype.val := by
  induction rest generalizing array front with
  | nil =>
    rw [walk, if_pos (by simp [words])]
    rfl
  | cons name rest ih =>
    have ahead : ¬front.length ≥ (front ++ words (name :: rest)).length := by
      rw [List.length_append, length_words, List.map_cons, List.sum_cons]
      omega
    have next : nextword (front ++ words (name :: rest)) front.length =
        (name.1, front.length + name.1.length + 1) := nextword_words front name (words rest)
    have split : front ++ words (name :: rest) = front ++ name.1 ++ [0] ++ words rest := by
      simp only [words, List.flatMap_cons, List.append_assoc]
    have length : (front ++ name.1 ++ [0]).length = front.length + name.1.length + 1 := by
      rw [List.length_append, List.length_append]
      rfl
    have later := ih (body array name.1) (front ++ name.1 ++ [0])
    rw [length] at later
    rw [walk, if_neg ahead, next, split, List.map_cons]
    exact congrArg (name.1 :: ·) later

/-- A loop that starts visits the names that are there then, and leaves the outer walkers. -/
theorem forIn_eq (body : XHash α → List UInt8 → XHash α) {array : XHash α}
    (walkers : List Walker) (fits : (words (names array)).length ≤ array.glen.toNat + 2) :
    ∃ array', forIn body array walkers =
      some ((names array).map Subtype.val, array', walkers) := by
  refine ⟨(walk body array ⟨words (names array), 0⟩).2, ?_⟩
  rw [forIn, hashwalkInit_eq, if_pos fits]
  have visits := walk_words body array [] (names array)
  simp only [Option.bind_eq_bind, Option.bind_some]
  exact congrArg (fun words => some (words, _, walkers)) visits

/-! ## Every run -/

/-- A hash is the map, its counts are right, the copy of its names is as long as `glen` says, and a
loop visits each name once. -/
structure Sound (hash : XHash α) (map : Entries Name α) : Prop where
  finds : ∀ name, hashSearch hash name = map.lookup name
  nel : hash.nel.toNat = map.length
  glen : hash.glen.toNat = total map
  copied : ∀ walkers, ∃ w, hashwalkInit hash walkers = some (w :: walkers) ∧
    w.wbuf.length = hash.glen.toNat
  visits : ∀ body walkers, ∃ visited hash',
    forIn body hash walkers = some (visited, hash', walkers) ∧
      visited.Perm (map.map fun item => item.1.1) ∧ visited.Nodup

variable {hash : XHash α} {map : Entries Name α}

theorem Represents.length_words (held : Represents hash map) :
    (words (names hash)).length = total map := by
  rw [Awk.length_words, names, keys, List.map_map]
  exact total_perm held.items

theorem length_le_total (map : Entries Name α) : map.length ≤ total map := by
  induction map with
  | nil => exact Nat.zero_le _
  | cons item map ih =>
    rw [total_cons, List.length_cons]
    omega

theorem Represents.sound_iff (held : Represents hash map) :
    Sound hash map ↔ total map < 2 ^ 32 := by
  constructor
  · exact fun sound => sound.glen ▸ hash.glen.toNat_lt
  · intro fits
    have count := length_le_total map
    have glen : hash.glen.toNat = total map := by
      rw [held.glen, UInt32.toNat_ofNat']
      exact Nat.mod_eq_of_lt fits
    have copied : (words (names hash)).length = hash.glen.toNat := held.length_words.trans glen.symm
    have room : (words (names hash)).length ≤ hash.glen.toNat + 2 := by omega
    refine ⟨held.search, ?_, glen, fun walkers => ?_, fun body walkers => ?_⟩
    · rw [held.nel, UInt32.toNat_ofNat']
      exact Nat.mod_eq_of_lt (Nat.lt_of_le_of_lt count fits)
    · refine ⟨⟨words (names hash), 0⟩, ?_, copied⟩
      rw [hashwalkInit_eq, if_pos room]
    · obtain ⟨hash', loop⟩ := forIn_eq body walkers room
      refine ⟨_, hash', loop, ?_, ?_⟩
      · rw [names, keys, List.map_map]
        exact held.items.map _
      · exact held.placed.distinct.map Subtype.val_injective

/-- A run succeeds and its hash is sound, if no name is too long for an `int` and all names
together, with their NULs, are not too long for an `unsigned`. -/
theorem run_sound_iff (ops : List (Op α)) :
    (∃ hash, ops.foldlM step hashInit = some hash ∧ Sound hash (ops.foldl effect [])) ↔
      (∀ name data, .find name data ∈ ops → name.1.length + 1 < 2 ^ 31) ∧
        total (ops.foldl effect []) < 2 ^ 32 := by
  constructor
  · rintro ⟨hash, ran, sound⟩
    refine ⟨fun name data mem => ?_, sound.glen ▸ hash.glen.toNat_lt⟩
    by_contra long
    exact nomatch ran.symm.trans (represents_init.run_long mem long)
  · rintro ⟨short, fits⟩
    obtain ⟨hash, ran, held⟩ := represents_init.run ops short
    exact ⟨hash, ran, held.sound_iff.mpr fits⟩

/-- A letter, and a number of letters behind it. -/
def longName (c : UInt8) (letter : c ≠ 0) (n : Nat) : Name :=
  ⟨c :: List.replicate n 97, fun mem => (List.mem_cons.mp mem).elim (letter ·.symm) fun later =>
    absurd (List.eq_of_mem_replicate later) (by decide)⟩

theorem longName_ne {c c' : UInt8} (letter : c ≠ 0) (letter' : c' ≠ 0) (apart : c ≠ c') (n : Nat) :
    longName c letter n ≠ longName c' letter' n :=
  fun same => apart (List.cons.inj (congrArg Subtype.val same)).1

/-- Three names of 2^31 - 2 bytes are more than an `unsigned` counts. -/
theorem run_not_sound : ∃ (ops : List (Op Unit)) (hash : XHash Unit),
    ops.foldlM step hashInit = some hash ∧ hashwalkInit hash [] = none ∧
      ¬Sound hash (ops.foldl effect []) := by
  obtain ⟨n, isN⟩ : ∃ n, n = 2 ^ 31 - 3 := ⟨_, rfl⟩
  have a : (97 : UInt8) ≠ 0 := by decide
  have b : (98 : UInt8) ≠ 0 := by decide
  have c : (99 : UInt8) ≠ 0 := by decide
  obtain ⟨ops, isOps⟩ : ∃ ops : List (Op Unit), ops =
    [.find (longName 97 a n) (), .find (longName 98 b n) (), .find (longName 99 c n) ()] := ⟨_, rfl⟩
  have ab := longName_ne b a (by decide) n
  have bc := longName_ne c b (by decide) n
  have ac := longName_ne c a (by decide) n
  have length : ∀ (c : UInt8) (letter : c ≠ 0), (longName c letter n).1.length = n + 1 := by
    intro c letter
    rw [longName, List.length_cons, List.length_replicate]
  have map : ops.foldl effect [] =
      [(longName 99 c n, ()), (longName 98 b n, ()), (longName 97 a n, ())] := by
    subst isOps
    simp [effect, List.lookup_cons, beq_false_of_ne ab, beq_false_of_ne bc, beq_false_of_ne ac]
  have bytes : total (ops.foldl effect []) = 3 * (n + 2) := by
    rw [map, total_cons, total_cons, total_cons, length, length, length]
    simp only [total, List.map_nil, List.sum_nil]
    omega
  obtain ⟨hash, ran, held⟩ := represents_init.run ops fun name data mem => by
    have long : name.1.length = n + 1 := by
      simp only [isOps, List.mem_cons, Op.find.injEq, List.not_mem_nil, or_false] at mem
      rcases mem with ⟨rfl, -⟩ | ⟨rfl, -⟩ | ⟨rfl, -⟩
      · exact length 97 a
      · exact length 98 b
      · exact length 99 c
    omega
  refine ⟨ops, hash, ran, ?_, fun sound => ?_⟩
  · have glen : hash.glen.toNat = 3 * (n + 2) % 2 ^ 32 := by
      rw [held.glen, bytes, UInt32.toNat_ofNat']
    rw [hashwalkInit_eq, held.length_words, bytes, if_neg (by omega)]
  · have fits := held.sound_iff.mp sound
    omega

end Busybox.Awk
