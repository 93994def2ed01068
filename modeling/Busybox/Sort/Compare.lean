import Busybox.Lib.Comparators
import Busybox.Sort.Keys

/-!
# Comparing two lines

`compare_keys` walks the key list until one key tells the lines apart. Where none
does, `-s` falls back on the number hidden behind the line and everything else on
the bytes of the two lines, unless the tie break is switched off. The answer is
turned round at the end by the flags that were looked at last.

Each key is a comparator of its own, mirrored by its own `r` flag, so the key
walk is their chain. The byte comparison is mirrored by the global `r`. The
hidden number is mirrored too, by whatever flags the last key has.
-/

namespace Busybox.Sort

open Comparators

/-- An entry of the `lines` array: the line, and its number in the input. -/
structure Entry where
  line : Line
  number : Nat
  deriving DecidableEq

/-- The options of a call and the comparisons that rest on code outside the repository:
`strtod`, `strptime` and `strverscmp`. -/
structure Options where
  flags : Flags := {}
  keySeparator : Option UInt8 := none
  special : Flags → Line → Line → Int

/-- C's `strcmp` on the bytes before the NULs. -/
def strcmp : List UInt8 → List UInt8 → Int
  | [], [] => 0
  | [], y :: _ => -(y.toNat : Int)
  | x :: _, [] => x.toNat
  | x :: xs, y :: ys => if x = y then strcmp xs ys else (x.toNat : Int) - y.toNat

/-- No sort type: the comparison is `strcmp`. -/
def Flags.isPlain (flags : Flags) : Bool := !(flags.n || flags.g || flags.M || flags.V)

/-- The `switch` over the sort type; two types at once are "unknown sort type". -/
def compareTexts (options : Options) (flags : Flags) (x y : Line) : Option Int :=
  match flags.n, flags.g, flags.M, flags.V with
  | false, false, false, false => some (strcmp x.bytes y.bytes)
  | true, false, false, false | false, true, false, false
  | false, false, true, false | false, false, false, true => some (options.special flags x y)
  | _, _, _, _ => none

/-- `key->flags ? key->flags : option_mask32` -/
def keyFlags (options : Options) (key : SortKey) : Flags :=
  if key.flags ≠ {} then key.flags else options.flags

/-- The loop over the keys: the flags looked at last and what they said. -/
def compareByKeys (options : Options) : List SortKey → Flags → Line → Line → Option (Flags × Int)
  | [], flags, _, _ => some (flags, 0)
  | key :: rest, _, x, y => do
      let flags := keyFlags options key
      let xKey ← getKey options.keySeparator x key flags
      let yKey ← getKey options.keySeparator y key flags
      let retval ← compareTexts options flags xKey yKey
      if retval = 0 then compareByKeys options rest flags x y else some (flags, retval)

/-- What decides between lines that no key tells apart, and the flags it leaves behind. -/
def breakTie (options : Options) (flags : Flags) (x y : Entry) : Flags × Int :=
  if options.flags.s then (flags, if x.number > y.number then 1 else -1)
  else if options.flags.noTieBreak then (flags, 0)
  else (options.flags, strcmp x.line.bytes y.line.bytes)

def compareKeys (options : Options) (keyList : List SortKey) (x y : Entry) : Option Int := do
  let (flags, retval) ← compareByKeys options keyList options.flags x.line y.line
  let (flags, retval) := if retval = 0 then breakTie options flags x y else (flags, retval)
  some (if flags.r then -retval else retval)

/-! ## What the comparison means -/

/-- The text a key selects, as bytes. -/
def keyText (options : Options) (key : SortKey) (line : Line) : List UInt8 :=
  (getKey options.keySeparator line key (keyFlags options key)).elim [] Line.bytes

/-- The order of one key: its text, mirrored by its own `r`. -/
def keyOrder (options : Options) (key : SortKey) : Entry → Entry → Ordering :=
  directed (keyFlags options key).r fun x y =>
    compare (keyText options key x.line) (keyText options key y.line)

/-- The chain of the keys. -/
def keysOrder (options : Options) (keyList : List SortKey) : Entry → Entry → Ordering :=
  lexAll (keyList.map (keyOrder options))

/-- No key tells the two entries apart. -/
def SameKeys (options : Options) (keyList : List SortKey) (x y : Entry) : Prop :=
  ∀ key ∈ keyList, keyText options key x.line = keyText options key y.line

/-- The flags a walk through all the keys ends with. -/
def lastFlags (options : Options) (keyList : List SortKey) : Flags :=
  (keyList.getLast?.map (keyFlags options)).getD options.flags

/-- The order of entries that no key tells apart. -/
def tieOrder (options : Options) (keyList : List SortKey) : Entry → Entry → Ordering :=
  if options.flags.s then directed (lastFlags options keyList).r fun x y => compare x.number y.number
  else if options.flags.noTieBreak then fun _ _ => .eq
  else directed options.flags.r fun x y => compare x.line.bytes y.line.bytes

/-- The order `compare_keys` computes. -/
def entryOrder (options : Options) (keyList : List SortKey) : Entry → Entry → Ordering :=
  compareLex (keysOrder options keyList) (tieOrder options keyList)

/-- Nothing but byte comparisons: no key in use asks for a number, a month or a version. -/
def Plain (options : Options) (keyList : List SortKey) : Prop :=
  ∀ key ∈ keyList, (keyFlags options key).isPlain

/-- The start of every key of the line stays an `int` when the start character is added. -/
def Fits (options : Options) (keyList : List SortKey) (line : Line) : Prop :=
  ∀ key ∈ keyList, key.startChar ≠ 0 →
    keyStart options.keySeparator line.bytes key (keyFlags options key) + (key.startChar - 1) < 2 ^ 31

variable {options : Options} {keyList : List SortKey}

theorem compare_bytes (x y : UInt8) : compare x y = compare x.toNat y.toNat := by
  rcases lt_trichotomy x.toNat y.toNat with less | same | greater
  · rw [compare_lt_iff_lt.2 less]
    exact if_pos (UInt8.lt_iff_toNat_lt.2 less)
  · rw [compare_eq_iff_eq.2 same]
    exact Std.LawfulEqOrd.compare_eq_iff_eq.2 (UInt8.toNat_inj.1 same)
  · rw [compare_gt_iff_gt.2 greater, Std.OrientedOrd.eq_swap]
    exact congrArg Ordering.swap (if_pos (UInt8.lt_iff_toNat_lt.2 greater))

theorem compare_sub (x y : Nat) : ofSign ((x : Int) - y) = compare x y := by
  unfold ofSign
  rcases lt_trichotomy x y with less | rfl | greater
  · rw [compare_lt_iff_lt.2 less]
    exact compare_lt_iff_lt.2 (Int.sub_neg_of_lt (Int.ofNat_lt.2 less))
  · rw [Int.sub_self, compare_eq_iff_eq.2 rfl, compare_eq_iff_eq.2 rfl]
  · rw [compare_gt_iff_gt.2 greater]
    exact compare_gt_iff_gt.2 (Int.sub_pos_of_lt (Int.ofNat_lt.2 greater))

/-- On C strings the sign of `strcmp` is the order of the byte lists. -/
theorem ofSign_strcmp {xs ys : List UInt8} (xNoNul : 0 ∉ xs) (yNoNul : 0 ∉ ys) :
    ofSign (strcmp xs ys) = compare xs ys := by
  have real : ∀ {ch : UInt8}, ch ≠ 0 → 0 < (ch.toNat : Int) := by
    intro ch nonzero
    have : ch.toNat ≠ 0 := fun zero => nonzero (UInt8.toNat_inj.1 zero)
    omega
  induction xs generalizing ys with
  | nil =>
    cases ys with
    | nil => rfl
    | cons y ys =>
      have positive := real (List.ne_of_not_mem_cons yNoNul).symm
      exact compare_lt_iff_lt.2 (Int.neg_neg_of_pos positive)
  | cons x xs ih =>
    cases ys with
    | nil => exact compare_gt_iff_gt.2 (real (List.ne_of_not_mem_cons xNoNul).symm)
    | cons y ys =>
      rw [List.compare_cons_cons, strcmp]
      by_cases same : x = y
      · have ties : compare x y = .eq := Std.LawfulEqOrd.compare_eq_iff_eq.2 same
        rw [if_pos same, ties, ih (List.not_mem_of_not_mem_cons xNoNul)
          (List.not_mem_of_not_mem_cons yNoNul)]
        rfl
      · rw [if_neg same, compare_bytes, compare_sub]
        have differ : compare x.toNat y.toNat ≠ .eq := fun ties =>
          same (UInt8.toNat_inj.1 (Std.LawfulEqOrd.compare_eq_iff_eq.1 ties))
        cases answer : compare x.toNat y.toNat
        · rfl
        · exact absurd answer differ
        · rfl

theorem Fits.getKey {line : Line} (fits : Fits options keyList line) {key : SortKey}
    (member : key ∈ keyList) :
    ∃ text, getKey options.keySeparator line key (keyFlags options key) = some text ∧
      text.bytes = keyText options key line := by
  have start := fits key member
  have found : (Sort.getKey options.keySeparator line key (keyFlags options key)).isSome := by
    simp only [Sort.getKey, keyRange]
    split
    · rfl
    · split
      · rfl
      · rw [if_pos (start ‹_›)]
        rfl
  obtain ⟨text, isText⟩ := Option.isSome_iff_exists.1 found
  exact ⟨text, isText, by rw [keyText, isText]; rfl⟩

theorem compareTexts_plain {flags : Flags} (plain : flags.isPlain) (x y : Line) :
    compareTexts options flags x y = some (strcmp x.bytes y.bytes) := by
  simp only [Flags.isPlain, Bool.not_eq_true', Bool.or_eq_false_iff] at plain
  simp only [compareTexts, plain]

theorem keyOrder_transCmp (key : SortKey) : Std.TransCmp (keyOrder options key) := by
  have texts : Std.TransCmp fun x y : Entry =>
      compare (keyText options key x.line) (keyText options key y.line) :=
    (inferInstance : Std.TransCmp (compareOn fun x : Entry => keyText options key x.line))
  exact directed_transCmp _

theorem keysOrder_transCmp : Std.TransCmp (keysOrder options keyList) := by
  apply lexAll_transCmp
  intro order member
  obtain ⟨key, _, rfl⟩ := List.mem_map.1 member
  exact keyOrder_transCmp key

theorem tieOrder_transCmp : Std.TransCmp (tieOrder options keyList) := by
  have numbers : Std.TransCmp fun x y : Entry => compare x.number y.number :=
    (inferInstance : Std.TransCmp (compareOn Entry.number))
  have lines : Std.TransCmp fun x y : Entry => compare x.line.bytes y.line.bytes :=
    (inferInstance : Std.TransCmp (compareOn fun x : Entry => x.line.bytes))
  unfold tieOrder
  split
  · exact directed_transCmp _
  · split
    · exact lexAll_transCmp (fun _ member => absurd member List.not_mem_nil)
    · exact directed_transCmp _

/-- The order is a total preorder, whatever the options. -/
theorem entryOrder_transCmp : Std.TransCmp (entryOrder options keyList) := by
  have keys : Std.TransCmp (keysOrder options keyList) := keysOrder_transCmp
  have ties : Std.TransCmp (tieOrder options keyList) := tieOrder_transCmp
  exact (inferInstance :
    Std.TransCmp (compareLex (keysOrder options keyList) (tieOrder options keyList)))

theorem keyOrder_eq_iff {key : SortKey} {x y : Entry} :
    keyOrder options key x y = .eq ↔ keyText options key x.line = keyText options key y.line := by
  have texts : Std.OrientedCmp fun x y : Entry =>
      compare (keyText options key x.line) (keyText options key y.line) :=
    (inferInstance : Std.OrientedCmp (compareOn fun x : Entry => keyText options key x.line))
  rw [keyOrder, directed_eq_turned, turned_eq_iff]
  exact Std.LawfulEqOrd.compare_eq_iff_eq

theorem keysOrder_eq_iff {x y : Entry} :
    keysOrder options keyList x y = .eq ↔ SameKeys options keyList x y := by
  unfold keysOrder SameKeys
  rw [lexAll_eq_iff]
  simp only [List.forall_mem_map, keyOrder_eq_iff]

/-- One key: its comparison, with the sign its flags give it, is its order. -/
theorem turned_key {key : SortKey} {x y : Entry} {xKey yKey : Line}
    (xText : xKey.bytes = keyText options key x.line)
    (yText : yKey.bytes = keyText options key y.line) :
    turned (keyFlags options key).r (ofSign (strcmp xKey.bytes yKey.bytes)) =
      keyOrder options key x y := by
  have texts : Std.OrientedCmp fun x y : Entry =>
      compare (keyText options key x.line) (keyText options key y.line) :=
    (inferInstance : Std.OrientedCmp (compareOn fun x : Entry => keyText options key x.line))
  rw [keyOrder, directed_eq_turned, ofSign_strcmp xKey.noNul yKey.noNul, xText, yText]

/-- The key walk: what it says, turned round by the flags it ends with, is the chain of the
keys; where it says nothing it has looked at the last key. -/
theorem compareByKeys_spec {x y : Entry} (flags : Flags) (plain : Plain options keyList)
    (xFits : Fits options keyList x.line) (yFits : Fits options keyList y.line) :
    ∃ last retval, compareByKeys options keyList flags x.line y.line = some (last, retval) ∧
      turned last.r (ofSign retval) = keysOrder options keyList x y ∧
      (retval = 0 → last = (keyList.getLast?.map (keyFlags options)).getD flags) := by
  induction keyList generalizing flags with
  | nil => exact ⟨flags, 0, rfl, turned_eq_iff.2 rfl, fun _ => rfl⟩
  | cons key rest ih =>
    obtain ⟨xKey, xFound, xText⟩ := xFits.getKey List.mem_cons_self
    obtain ⟨yKey, yFound, yText⟩ := yFits.getKey List.mem_cons_self
    have signed := turned_key xText yText
    rw [compareByKeys, xFound, yFound]
    simp only [Option.bind_eq_bind, Option.bind_some,
      compareTexts_plain (plain key List.mem_cons_self)]
    rw [keysOrder, List.map_cons, lexAll]
    by_cases tied : strcmp xKey.bytes yKey.bytes = 0
    · obtain ⟨last, retval, result, order, ended⟩ := ih (keyFlags options key)
        (fun other member => plain other (List.mem_cons_of_mem _ member))
        (fun other member => xFits other (List.mem_cons_of_mem _ member))
        (fun other member => yFits other (List.mem_cons_of_mem _ member))
      refine ⟨last, retval, by rw [if_pos tied, result], ?_, ?_⟩
      · have same : keyOrder options key x y = .eq := by
          rw [← signed, turned_eq_iff, ofSign_eq_iff]
          exact tied
        rw [compareLex_of_eq same, order, keysOrder]
      · intro zero
        rw [ended zero]
        cases rest with
        | nil => rfl
        | cons next later => simp [List.getLast?_eq_some_getLast]
    · refine ⟨keyFlags options key, _, if_neg tied, ?_, fun zero => absurd zero tied⟩
      rw [compareLex_of_ne, signed]
      rw [← signed, ne_eq, turned_eq_iff, ofSign_eq_iff]
      exact tied

/-- The tie break, turned round by the flags it leaves behind, is the order of ties. -/
theorem turned_breakTie {x y : Entry} (different : x.number ≠ y.number) :
    turned (breakTie options (lastFlags options keyList) x y).1.r
        (ofSign (breakTie options (lastFlags options keyList) x y).2) =
      tieOrder options keyList x y := by
  have numbers : Std.OrientedCmp fun x y : Entry => compare x.number y.number :=
    (inferInstance : Std.OrientedCmp (compareOn Entry.number))
  have lines : Std.OrientedCmp fun x y : Entry => compare x.line.bytes y.line.bytes :=
    (inferInstance : Std.OrientedCmp (compareOn fun x : Entry => x.line.bytes))
  unfold breakTie tieOrder
  by_cases stable : options.flags.s
  · rw [if_pos stable, if_pos stable, directed_eq_turned]
    rcases lt_or_gt_of_ne different with less | greater
    · rw [if_neg (not_lt.2 less.le), compare_lt_iff_lt.2 less]
      rfl
    · rw [if_pos greater, compare_gt_iff_gt.2 greater]
      rfl
  · rw [if_neg stable, if_neg stable]
    by_cases unbroken : options.flags.noTieBreak
    · rw [if_pos unbroken, if_pos unbroken]
      exact turned_eq_iff.2 rfl
    · rw [if_neg unbroken, if_neg unbroken, directed_eq_turned,
        ← ofSign_strcmp x.line.noNul y.line.noNul]

/-- `compare_keys` answers on any two entries, with the sign of `entryOrder`. -/
theorem compareKeys_spec {x y : Entry} (plain : Plain options keyList)
    (xFits : Fits options keyList x.line) (yFits : Fits options keyList y.line)
    (different : x.number ≠ y.number) :
    ∃ answer, compareKeys options keyList x y = some answer ∧
      ofSign answer = entryOrder options keyList x y := by
  obtain ⟨last, retval, result, order, ended⟩ :=
    compareByKeys_spec options.flags plain xFits yFits
  rw [compareKeys, result]
  simp only [Option.bind_eq_bind, Option.bind_some]
  refine ⟨_, rfl, ?_⟩
  rw [ofSign_turned, entryOrder]
  by_cases tied : retval = 0
  · rw [if_pos tied, ended tied, compareLex_of_eq]
    · exact turned_breakTie different
    · rw [← order, turned_eq_iff, ofSign_eq_iff]
      exact tied
  · rw [if_neg tied, compareLex_of_ne, order]
    rw [← order, ne_eq, turned_eq_iff, ofSign_eq_iff]
    exact tied

end Busybox.Sort
