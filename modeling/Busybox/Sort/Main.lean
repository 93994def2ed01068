import Busybox.Sort.Compare

/-!
# Sorting the lines

The end of `sort_main`: the lines are numbered, handed to `qsort` with
`compare_keys`, and with `-u` every line that compares equal to the last one kept
is dropped. That comparison is the one used for sorting, the tie break switched
off. With `-s` it never finds two lines equal, since the hidden number tells all
of them apart; and the number, like everything else, is turned round by the `r`
of the key that was looked at last.
-/

namespace Busybox.Sort

open Comparators

/-- The global `b` strips leading and trailing spaces. -/
def setUp (options : Options) : Options :=
  if options.flags.b then { options with flags := { options.flags with bb := true } } else options

/-- Without a key the whole line is one. -/
def orWholeLine (keyList : List SortKey) : List SortKey :=
  if keyList = [] then [{ startWord := 1 }] else keyList

/-- The lines, each with its number. -/
def numbered (lines : List Line) : List Entry :=
  lines.zipIdx.map fun (line, number) => ⟨line, number⟩

/-- The loop of `-u` over the sorted lines: `kept` is `lines[j]`. -/
def dropRepeats (cmp : Entry → Entry → Option Int) (kept : Entry) :
    List Entry → Option (List Entry)
  | [] => some [kept]
  | line :: rest => do
      let answer ← cmp kept line
      if answer = 0 then dropRepeats cmp kept rest
      else (dropRepeats cmp line rest).map (kept :: ·)

/-- `option_mask32 |= FLAG_no_tie_break` -/
def unbroken (options : Options) : Options :=
  { options with flags := { options.flags with noTieBreak := true } }

section

variable (qsort : (Entry → Entry → Option Int) → List Entry → Option (List Entry))

/-- The numbered lines, sorted and freed of repeats. -/
def sortLines (options : Options) (keyList : List SortKey) (lines : List Line) :
    Option (List Entry) := do
  let sorted ← qsort (compareKeys options keyList) (numbered lines)
  if options.flags.u then
    match sorted with
    | [] => some []
    | first :: rest => dropRepeats (compareKeys (unbroken options) keyList) first rest
  else some sorted

/-- The lines `sort` prints, each with the number it had in the input. -/
def sortMain (options : Options) (keyList : List SortKey) (lines : List Line) :
    Option (List Entry) :=
  sortLines qsort (setUp options) (orWholeLine keyList) lines

end

/-! ## What is asked of the output -/

instance (options : Options) (keyList : List SortKey) (x y : Entry) :
    Decidable (SameKeys options keyList x y) :=
  inferInstanceAs (Decidable (∀ key ∈ keyList,
    keyText options key x.line = keyText options key y.line))

/-- The order of the output: the keys, and then the bytes of the lines, mirrored by the
global `r`, unless `-s` or `-u` is given. -/
def outputOrder (options : Options) (keyList : List SortKey) : Entry → Entry → Ordering :=
  if options.flags.s || options.flags.u || options.flags.noTieBreak then keysOrder options keyList
  else compareLex (keysOrder options keyList)
    (directed options.flags.r fun x y => compare x.line.bytes y.line.bytes)

/-- What `sort` is to print. -/
structure Meets (options : Options) (keyList : List SortKey) (lines : List Line)
    (out : List Entry) : Prop where
  ordered : out.Pairwise fun x y => outputOrder options keyList x y ≠ .gt
  permutation : options.flags.u = false → out.Perm (numbered lines)
  stable : options.flags.s = true →
    out.Pairwise fun x y => SameKeys options keyList x y → x.number < y.number
  unique : options.flags.u = true → out ⊆ numbered lines ∧
    ∀ x ∈ numbered lines, ∃ kept, (out.filter fun y => SameKeys options keyList x y) = [kept]

/-- No two lines have the same keys. -/
def AllDiffer (options : Options) (keyList : List SortKey) (lines : List Line) : Prop :=
  ∀ x ∈ numbered lines, ∀ y ∈ numbered lines, SameKeys options keyList x y → x = y

/-- The hidden number is not looked at, or does no harm. -/
def NumberHarmless (options : Options) (keyList : List SortKey) (lines : List Line) : Prop :=
  options.flags.s = false ∨ AllDiffer options keyList lines ∨
    options.flags.u = false ∧ (lastFlags options keyList).r = false

variable {options : Options} {keyList : List SortKey} {lines : List Line}

theorem number_injective {x y : Entry} (xIn : x ∈ numbered lines) (yIn : y ∈ numbered lines)
    (same : x.number = y.number) : x = y := by
  obtain ⟨⟨xLine, i⟩, atX, rfl⟩ := List.mem_map.1 xIn
  obtain ⟨⟨yLine, j⟩, atY, rfl⟩ := List.mem_map.1 yIn
  obtain rfl : i = j := same
  have xAt := List.mk_mem_zipIdx_iff_getElem?.1 atX
  have yAt := List.mk_mem_zipIdx_iff_getElem?.1 atY
  obtain rfl : xLine = yLine := Option.some.inj (xAt.symm.trans yAt)
  rfl

theorem numbered_line {x : Entry} (member : x ∈ numbered lines) : x.line ∈ lines := by
  obtain ⟨⟨line, i⟩, atX, rfl⟩ := List.mem_map.1 member
  exact List.fst_mem_of_mem_zipIdx atX

theorem numbered_nodup (lines : List Line) : (numbered lines).Nodup := by
  apply List.Nodup.of_map Entry.number
  have numbers : (numbered lines).map Entry.number = List.range' 0 lines.length := by
    rw [numbered, List.map_map, ← List.zipIdx_map_snd]
    rfl
  rw [numbers]
  exact List.nodup_range'

/-- On the numbered lines `compare_keys` has the signs of `entryOrder`. -/
theorem compareKeys_matches (plain : Plain options keyList)
    (fits : ∀ line ∈ lines, Fits options keyList line) :
    Matches (compareKeys options keyList) (entryOrder options keyList) (numbered lines) := by
  intro x xIn y yIn different
  exact compareKeys_spec plain (fits _ (numbered_line xIn)) (fits _ (numbered_line yIn))
    fun same => different (number_injective xIn yIn same)

/-- On different lines the loop of `-u` keeps what tells apart from the last line kept. -/
theorem dropRepeats_eq {cmp : Entry → Entry → Option Int} {order : Entry → Entry → Ordering}
    {first : Entry} {rest : List Entry} (different : (first :: rest).Nodup)
    (matching : Matches cmp order (first :: rest)) :
    dropRepeats cmp first rest = some (rest.destutter' (Differ order) first) := by
  induction rest generalizing first with
  | nil => rfl
  | cons next rest ih =>
    obtain ⟨absent, differentRest⟩ := List.nodup_cons.1 different
    obtain ⟨answer, given, sign⟩ := matching first List.mem_cons_self next (by simp)
      (List.ne_of_not_mem_cons absent)
    rw [dropRepeats, given, Option.bind_eq_bind, Option.bind_some]
    by_cases equal : answer = 0
    · have ties : ¬ Differ order first next := fun differ =>
        differ (sign ▸ ofSign_eq_iff.2 equal)
      rw [if_pos equal, List.destutter'_cons_neg _ ties]
      refine ih (different.sublist ((List.sublist_cons_self _ _).cons_cons _)) ?_
      exact fun x inX y inY => matching x (by grind) y (by grind)
    · have differ : Differ order first next := fun ties =>
        equal (ofSign_eq_iff.1 (sign.trans ties))
      rw [if_neg equal, List.destutter'_cons_pos _ differ, ih differentRest]
      · rfl
      · exact fun x inX y inY => matching x (List.mem_cons_of_mem _ inX) y (List.mem_cons_of_mem _ inY)

/-- Switching the tie break off changes no key. -/
theorem keyOrder_unbroken (options : Options) (key : SortKey) :
    keyOrder (unbroken options) key = keyOrder options key := by
  have flags : keyFlags (unbroken options) key = keyFlags options key ∨
      key.flags = {} := by
    by_cases none : key.flags = {}
    · exact .inr none
    · exact .inl (by rw [keyFlags, keyFlags, if_pos none, if_pos none])
  rcases flags with same | none
  · unfold keyOrder keyText
    rw [same]
    rfl
  · unfold keyOrder keyText keyFlags
    rw [if_neg (not_not.2 none), if_neg (not_not.2 none)]
    rfl

theorem keysOrder_unbroken (options : Options) (keyList : List SortKey) :
    keysOrder (unbroken options) keyList = keysOrder options keyList := by
  unfold keysOrder
  rw [List.map_congr_left fun key _ => keyOrder_unbroken options key]

theorem Plain.unbroken (plain : Plain options keyList) : Plain (unbroken options) keyList := by
  intro key member
  have isPlain := plain key member
  unfold keyFlags at isPlain ⊢
  split at isPlain
  case isTrue given => rwa [if_pos given]
  case isFalse none =>
    rw [if_neg none]
    exact isPlain

theorem Fits.unbroken {line : Line} (fits : Fits options keyList line) :
    Fits (unbroken options) keyList line := by
  intro key member offset
  have start := fits key member offset
  unfold keyFlags at start ⊢
  split at start
  case isTrue given => rwa [if_pos given]
  case isFalse none =>
    rw [if_neg none]
    exact start

/-- Without `-s` the comparison of `-u` is that of the keys. -/
theorem entryOrder_unbroken (unstable : options.flags.s = false) (x y : Entry) :
    entryOrder (unbroken options) keyList x y = keysOrder options keyList x y := by
  rw [entryOrder, keysOrder_unbroken]
  by_cases ties : keysOrder options keyList x y = .eq
  · rw [compareLex_of_eq ties, ties]
    simp [tieOrder, unbroken, unstable]
  · rw [compareLex_of_ne ties]

/-- With `-s` different entries never compare equal. -/
theorem entryOrder_ne_eq (stable : options.flags.s = true) {x y : Entry}
    (different : x.number ≠ y.number) : entryOrder options keyList x y ≠ .eq := by
  intro ties
  obtain ⟨-, number⟩ := compareLex_eq_eq.1 ties
  have numbers : Std.OrientedCmp fun x y : Entry => compare x.number y.number :=
    (inferInstance : Std.OrientedCmp (compareOn Entry.number))
  rw [tieOrder, if_pos stable, directed_eq_turned, turned_eq_iff, compare_eq_iff_eq] at number
  exact different number

/-- What the output order does not put above is what the sort does not put above. -/
theorem outputOrder_ne_gt {x y : Entry} (sorted : entryOrder options keyList x y ≠ .gt) :
    outputOrder options keyList x y ≠ .gt := by
  by_cases ties : keysOrder options keyList x y = .eq
  · unfold outputOrder
    split
    · rw [ties]
      nofun
    case isFalse plain =>
      simp only [Bool.or_eq_true, not_or, Bool.not_eq_true] at plain
      rw [entryOrder, compareLex_of_eq ties, tieOrder] at sorted
      simp only [plain, Bool.false_eq_true, if_false] at sorted
      rwa [compareLex_of_eq ties]
  · rw [entryOrder, compareLex_of_ne ties] at sorted
    unfold outputOrder
    split
    · exact sorted
    · rwa [compareLex_of_ne ties]

/-- `sort_main` prints: the sorted lines, with `-u` and no `-s` one of each run of equal keys. -/
theorem sortLines_spec {qsort : (Entry → Entry → Option Int) → List Entry → Option (List Entry)}
    (sorts : Sorts qsort) (plain : Plain options keyList)
    (fits : ∀ line ∈ lines, Fits options keyList line) :
    ∃ sorted : List Entry, sorted.Perm (numbered lines) ∧
      (sorted.Pairwise fun x y => entryOrder options keyList x y ≠ .gt) ∧
      sortLines qsort options keyList lines = some (if options.flags.u ∧ options.flags.s = false
        then sorted.destutter (Differ (keysOrder options keyList)) else sorted) := by
  obtain ⟨sorted, isSorted, perm, ordered⟩ :=
    sorts entryOrder_transCmp (numbered_nodup lines) (compareKeys_matches plain fits)
  refine ⟨sorted, perm, ordered, ?_⟩
  rw [sortLines, isSorted, Option.bind_eq_bind, Option.bind_some]
  by_cases dropping : options.flags.u
  · rw [if_pos dropping]
    cases sorted with
    | nil => simp
    | cons first rest =>
      have different : (first :: rest).Nodup := perm.nodup_iff.2 (numbered_nodup lines)
      have matching : Matches (compareKeys (unbroken options) keyList)
          (entryOrder (unbroken options) keyList) (first :: rest) := by
        intro x inX y inY
        exact compareKeys_matches plain.unbroken (fun line member => (fits line member).unbroken)
          x (perm.subset inX) y (perm.subset inY)
      dsimp only
      rw [dropRepeats_eq different matching]
      cases stable : options.flags.s with
      | false =>
        rw [if_pos ⟨dropping, rfl⟩, List.destutter_cons']
        have same : entryOrder (unbroken options) keyList = keysOrder options keyList := by
          funext x y
          exact entryOrder_unbroken stable x y
        simp only [same]
      | true =>
        rw [if_neg (by simp), ← List.destutter_cons', List.destutter_of_isChain]
        apply List.Pairwise.isChain
        refine different.imp_of_mem fun inX inY differ => ?_
        refine @entryOrder_ne_eq (Sort.unbroken options) _ stable _ _ fun same => differ ?_
        exact number_injective (perm.subset inX) (perm.subset inY) same
  · rw [if_neg dropping, if_neg (by simp [dropping])]

/-- The tied values of a sorted output without repeats. -/
theorem destutter_meets {sorted : List Entry} (perm : sorted.Perm (numbered lines))
    (ordered : sorted.Pairwise fun x y => keysOrder options keyList x y ≠ .gt) :
    let kept := sorted.destutter (Differ (keysOrder options keyList))
    (kept.Pairwise fun x y => keysOrder options keyList x y = .lt) ∧ kept ⊆ numbered lines ∧
      ∀ x ∈ numbered lines, ∃ one, (kept.filter fun y => SameKeys options keyList x y) = [one] := by
  have transitive : Std.TransCmp (keysOrder options keyList) := keysOrder_transCmp
  cases sorted with
  | nil =>
    have empty : numbered lines = [] := perm.symm.eq_nil
    simp [empty]
  | cons first rest =>
    dsimp only
    rw [List.destutter_cons']
    refine ⟨destutter'_pairwise ordered, fun kept member => ?_, fun x member => ?_⟩
    · exact perm.subset ((List.destutter'_sublist _ _ _).subset member)
    · obtain ⟨kept, isKept, ties⟩ :=
        @exists_mem_destutter' _ (keysOrder options keyList) _ _ _ _ (perm.mem_iff.2 member)
      refine ⟨kept, filter_eq_singleton (fun other => ?_) (destutter'_pairwise ordered) isKept ties⟩
      rw [decide_eq_true_iff, keysOrder_eq_iff]

/-- Where the number does no harm the output is what it is to be. -/
theorem NumberHarmless.meets {qsort : (Entry → Entry → Option Int) → List Entry → Option (List Entry)}
    (sorts : Sorts qsort) (plain : Plain options keyList)
    (fits : ∀ line ∈ lines, Fits options keyList line)
    (harmless : NumberHarmless options keyList lines) :
    ∃ out, sortLines qsort options keyList lines = some out ∧ Meets options keyList lines out := by
  obtain ⟨sorted, perm, ordered, result⟩ := sortLines_spec sorts plain fits
  have outOrdered := ordered.imp fun {x y} => outputOrder_ne_gt
  have different : sorted.Nodup := perm.nodup_iff.2 (numbered_nodup lines)
  refine ⟨_, result, ?_⟩
  cases stable : options.flags.s with
  | false =>
    cases dropping : options.flags.u with
    | false =>
      rw [if_neg (by simp)]
      exact ⟨outOrdered, fun _ => perm, fun set => absurd set (by simp [stable]),
        fun set => absurd set (by simp [dropping])⟩
    | true =>
      rw [if_pos ⟨rfl, rfl⟩]
      have keysOrdered : sorted.Pairwise fun x y => keysOrder options keyList x y ≠ .gt := by
        simpa only [outputOrder, dropping, Bool.or_true, Bool.true_or, if_true] using outOrdered
      obtain ⟨rising, inside, one⟩ := destutter_meets perm keysOrdered
      refine ⟨?_, fun set => absurd set (by simp [dropping]), fun set => absurd set (by simp [stable]),
        fun _ => ⟨inside, one⟩⟩
      simp only [outputOrder, dropping, Bool.or_true, Bool.true_or, if_true]
      exact rising.imp ne_gt_of_lt
  | true =>
    rw [if_neg (by simp)]
    rcases harmless with unstable | allDiffer | ⟨all, forward⟩
    · exact absurd unstable (by simp [stable])
    · refine ⟨outOrdered, fun _ => perm, fun _ => ?_, fun _ => ⟨perm.subset, fun x member => ?_⟩⟩
      · refine different.imp_of_mem fun inX inY differ same => absurd ?_ differ
        exact allDiffer _ (perm.subset inX) _ (perm.subset inY) same
      · refine ⟨x, ?_⟩
        have only : ∀ y ∈ sorted, decide (SameKeys options keyList x y) = (y == x) := by
          intro y inY
          by_cases same : x = y
          · subst same
            simp [SameKeys]
          · have apart : ¬ SameKeys options keyList x y := fun sameKeys =>
              same (allDiffer x member y (perm.subset inY) sameKeys)
            simp [apart, Ne.symm same]
        rw [List.filter_congr only, List.filter_beq, List.count_eq_one_of_mem different
          (perm.mem_iff.2 member)]
        rfl
    · refine ⟨outOrdered, fun _ => perm, fun _ => ?_, fun set => absurd set (by simp [all])⟩
      have numbers := (different.imp_of_mem fun {x y} inX inY differ =>
        (fun same => differ (number_injective (perm.subset inX) (perm.subset inY) same) :
          x.number ≠ y.number)).and ordered
      refine numbers.imp fun {x y} both sameKeys => ?_
      obtain ⟨differ, notAbove⟩ := both
      rw [entryOrder, compareLex_of_eq (keysOrder_eq_iff.2 sameKeys), tieOrder, if_pos stable,
        forward] at notAbove
      exact lt_of_le_of_ne (not_lt.1 fun greater => notAbove (compare_gt_iff_gt.2 greater)) differ

/-- What is printed is what it is to be only where the number does no harm. -/
theorem NumberHarmless.of_meets
    {qsort : (Entry → Entry → Option Int) → List Entry → Option (List Entry)}
    (sorts : Sorts qsort) (plain : Plain options keyList)
    (fits : ∀ line ∈ lines, Fits options keyList line) {out : List Entry}
    (printed : sortLines qsort options keyList lines = some out)
    (meets : Meets options keyList lines out) : NumberHarmless options keyList lines := by
  obtain ⟨sorted, perm, ordered, result⟩ := sortLines_spec sorts plain fits
  cases stable : options.flags.s with
  | false => exact .inl stable
  | true =>
    right
    rw [stable, if_neg (by simp)] at result
    obtain rfl : out = sorted := Option.some.inj (printed.symm.trans result)
    cases dropping : options.flags.u with
    | true =>
      left
      intro x xIn y yIn same
      obtain ⟨-, one⟩ := meets.unique dropping
      obtain ⟨kept, only⟩ := one x xIn
      have mem : ∀ z ∈ numbered lines, SameKeys options keyList x z → z = kept := by
        intro z zIn sameKeys
        rw [← List.mem_singleton, ← only, List.mem_filter]
        exact ⟨perm.mem_iff.2 zIn, by simpa using sameKeys⟩
      rw [mem x xIn fun _ _ => rfl, mem y yIn same]
    | false =>
      cases forward : (lastFlags options keyList).r with
      | false => exact .inr ⟨rfl, rfl⟩
      | true =>
        left
        -- Two lines with the same keys would stand in input order and in the reverse of it.
        have apart : out.Pairwise fun x y => ¬ SameKeys options keyList x y := by
          refine ((meets.stable stable).and ordered).imp fun {x y} both sameKeys => ?_
          obtain ⟨rises, notAbove⟩ := both
          rw [entryOrder, compareLex_of_eq (keysOrder_eq_iff.2 sameKeys), tieOrder, if_pos stable,
            forward] at notAbove
          exact notAbove (compare_gt_iff_gt.2 (rises sameKeys))
        have symmetric : Std.Symm fun x y => ¬ SameKeys options keyList x y :=
          ⟨fun x y differ same => differ fun key member => (same key member).symm⟩
        intro x xIn y yIn same
        by_contra differ
        exact apart.forall (perm.mem_iff.2 xIn) (perm.mem_iff.2 yIn) differ same

/-- `compare_keys` is consistent on the lines, and `sort` prints what it is to print exactly
where the hidden number does no harm. -/
theorem sortMain_meets_iff (qsort : (Entry → Entry → Option Int) → List Entry → Option (List Entry))
    (sorts : Sorts qsort) (options : Options) (keyList : List SortKey) (lines : List Line)
    (plain : Plain (setUp options) (orWholeLine keyList))
    (fits : ∀ line ∈ lines, Fits (setUp options) (orWholeLine keyList) line) :
    (∃ order, Std.TransCmp order ∧
      Matches (compareKeys (setUp options) (orWholeLine keyList)) order (numbered lines)) ∧
    ((∃ out, sortMain qsort options keyList lines = some out ∧
        Meets (setUp options) (orWholeLine keyList) lines out) ↔
      NumberHarmless (setUp options) (orWholeLine keyList) lines) := by
  refine ⟨⟨_, entryOrder_transCmp, compareKeys_matches plain fits⟩, ?_, ?_⟩
  · rintro ⟨out, printed, meets⟩
    exact NumberHarmless.of_meets sorts plain fits printed meets
  · intro harmless
    exact harmless.meets sorts plain fits

/-- `-s` with the given `-u` and `-r`. -/
def stableOptions (u r : Bool) : Options :=
  { flags := { s := true, u := u, r := r }, special := fun _ _ _ => 0 }

/-- `-k1,1` -/
def firstWord : SortKey := { startWord := 1, endWord := 1 }

/-- The lines "a 1" and "a 2". -/
def twoLines : List Line := [⟨[97, 32, 49], by decide⟩, ⟨[97, 32, 50], by decide⟩]

theorem sortMain_meets_stable :
    (∃ order, Std.TransCmp order ∧
      Matches (compareKeys (setUp (stableOptions false false)) (orWholeLine [firstWord])) order
        (numbered twoLines)) ∧
    ((∃ out, sortMain insertionSort (stableOptions false false) [firstWord] twoLines = some out ∧
        Meets (setUp (stableOptions false false)) (orWholeLine [firstWord]) twoLines out) ↔
      NumberHarmless (setUp (stableOptions false false)) (orWholeLine [firstWord]) twoLines) :=
  sortMain_meets_iff insertionSort insertionSort_sorts (stableOptions false false) [firstWord]
    twoLines (by unfold Plain; decide) (by unfold Fits; decide)

/-- `-s -r -k1,1` turns the two lines round, and `-s -u -k1,1` prints both of them. -/
theorem sortMain_stable_fails :
    (∃ out, sortMain insertionSort (stableOptions false true) [firstWord] twoLines = some out ∧
      out.map Entry.number = [1, 0] ∧
      ¬ Meets (setUp (stableOptions false true)) (orWholeLine [firstWord]) twoLines out) ∧
    ∃ out, sortMain insertionSort (stableOptions true false) [firstWord] twoLines = some out ∧
      out.map Entry.number = [0, 1] ∧
      ¬ Meets (setUp (stableOptions true false)) (orWholeLine [firstWord]) twoLines out := by
  refine ⟨⟨[⟨⟨[97, 32, 50], by decide⟩, 1⟩, ⟨⟨[97, 32, 49], by decide⟩, 0⟩], by decide, by decide, ?_⟩,
    ⟨[⟨⟨[97, 32, 49], by decide⟩, 0⟩, ⟨⟨[97, 32, 50], by decide⟩, 1⟩], by decide, by decide, ?_⟩⟩
  · intro meets
    have inOrder := (List.pairwise_cons.1 (meets.stable rfl)).1 _ List.mem_cons_self
    exact absurd (inOrder (by decide)) (by decide)
  · intro meets
    obtain ⟨kept, only⟩ := (meets.unique rfl).2 ⟨⟨[97, 32, 49], by decide⟩, 0⟩ (by decide)
    have single := congrArg List.length only
    rw [List.length_singleton] at single
    exact absurd single (by decide)

end Busybox.Sort
