import Busybox.Coreutils.CutSelection

/-!
# The fields that cut selects

The loop over the fields never goes back: between the start of a range and the field it has read
last every field is put out. So it takes what is fresh in one range after another.
-/

namespace Busybox.Coreutils.Cut

open Intervals
open Fallible (ok_bind)
open Libbb.Xatonum (Text)

/-! ## Fields of a line -/

theorem splitOn_strsep (delim : UInt8) (line : List UInt8) :
    line.splitOn delim =
      (strsep delim line).1 :: (strsep delim line).2.elim [] (·.splitOn delim) := by
  have apart := List.takeWhile_append_dropWhile (p := (· ≠ delim)) (l := line)
  have noDelim : delim ∉ line.takeWhile (· ≠ delim) := by
    intro mem
    simpa using List.mem_takeWhile_imp mem
  unfold strsep
  cases rest : line.dropWhile (· ≠ delim) with
  | nil =>
    rw [rest, List.append_nil] at apart
    rw [apart] at noDelim ⊢
    exact List.splitOn_eq_singleton noDelim
  | cons c rest =>
    have isDelim : c = delim := by
      have head := List.head?_dropWhile_not (· ≠ delim) line
      rw [rest] at head
      simpa using head
    rw [rest, isDelim] at apart
    conv => lhs; rw [← apart]
    exact List.splitOn_append_cons_self_of_not_mem noDelim _

theorem splitOn_length (delim : UInt8) (line : List UInt8) :
    (line.splitOn delim).length ≤ line.length + 1 := by
  induction line with
  | nil => rw [List.splitOn_nil]; simp
  | cons c line ih =>
    rw [List.splitOn_cons_eq_if_modifyHead]
    split
    · exact Nat.succ_le_succ ih
    · rw [List.length_modifyHead]
      exact Nat.le_succ_of_le ih

/-- Another item is behind a separator unless it is the first one. -/
theorem intercalate_concat (separator : UInt8) (items : List (List UInt8)) (item : List UInt8) :
    [separator].intercalate (items ++ [item]) =
      [separator].intercalate items ++ (if 0 < items.length then [separator] else []) ++ item := by
  induction items with
  | nil => simp [List.intercalate_singleton, List.intercalate_nil]
  | cons first items ih =>
    cases items with
    | nil => simp [List.intercalate_singleton, List.intercalate_cons_cons]
    | cons second items =>
      rw [List.cons_append, List.cons_append, List.intercalate_cons_cons, ← List.cons_append, ih,
        List.intercalate_cons_cons]
      simp

/-! ## One round -/

/-- So many fields are read and some of them are put out. -/
structure At (delim : UInt8) (fields : List (List UInt8)) (read : Nat) (chosen : List Nat)
    (s : Fields) : Prop where
  inside : read ≤ fields.length
  ndelim : s.ndelim = read - 1
  left : s.line.elim [] (·.splitOn delim) = fields.drop read
  field : s.field = if read = 0 then none else some (fields.getD (read - 1) [])
  printed : ∀ p : Nat, s.printed p = chosen.contains p
  count : s.nfieldsPrinted = chosen.length
  out : s.out = [delim].intercalate (chosen.map (fields.getD · []))

variable {delim : UInt8} {fields : List (List UInt8)} {read : Nat} {chosen : List Nat} {s : Fields}

theorem At.isSome (here : At delim fields read chosen s) :
    s.line.isSome = true ↔ read < fields.length := by
  have left := here.left
  cases isLine : s.line with
  | none =>
    rw [isLine, Option.elim_none] at left
    have all := List.drop_eq_nil_iff.mp left.symm
    simp [all]
  | some line =>
    rw [isLine, Option.elim_some] at left
    have more : fields.drop read ≠ [] := left ▸ List.splitOn_ne_nil delim line
    have less := mt List.drop_eq_nil_iff.mpr more
    simp only [Option.isSome_some, true_iff]
    omega

/-- Fields are read up to the one that is looked for, or to the last one. -/
theorem At.seek {spos : Nat} (here : At delim fields read chosen s) :
    At delim fields (max read (min (spos + 1) fields.length)) chosen (seek delim spos s) := by
  induction s using seek.induct delim spos generalizing read with
  | case1 s isLine =>
    have all : ¬read < fields.length := fun less => by
      have some := here.isSome.mpr less
      rw [isLine] at some
      cases some
    have inside := here.inside
    have same : max read (min (spos + 1) fields.length) = read := by omega
    rw [same, Cut.seek, isLine]
    exact here
  | case2 s line isLine before ih =>
    have less : read < fields.length := here.isSome.mp (by rw [isLine]; rfl)
    have left := here.left
    have ndelim := here.ndelim
    rw [isLine, Option.elim_some, splitOn_strsep, List.drop_eq_getElem_cons less] at left
    obtain ⟨first, rest⟩ := List.cons.inj left
    have next := @ih (read + 1) {
      inside := less
      ndelim := by simp only [ndelim]; omega
      left := rest
      field := by simp [first, less]
      printed := here.printed
      count := here.count
      out := here.out }
    have same : max (read + 1) (min (spos + 1) fields.length) =
        max read (min (spos + 1) fields.length) := by omega
    rw [same] at next
    rw [Cut.seek, isLine]
    simp only [if_pos before]
    exact next
  | case3 s line isLine notBefore =>
    have ndelim := here.ndelim
    have same : max read (min (spos + 1) fields.length) = read := by omega
    rw [same, Cut.seek, isLine]
    simp only [if_neg notBefore]
    exact here

theorem printField_other {spos : Nat} (other : s.ndelim ≠ spos ∨ s.printed s.ndelim = true) :
    printField delim spos s = s := by
  unfold printField
  split
  · refine if_neg fun both => ?_
    rcases other with other | printed
    · exact other both.1
    · rw [both.2] at printed
      cases printed
  · rfl

theorem printField_fresh {spos : Nat} {field : List UInt8} (isField : s.field = some field)
    (this : s.ndelim = spos) (fresh : s.printed s.ndelim = false) :
    printField delim spos s = { s with
      out := s.out ++ (if 0 < s.nfieldsPrinted then [delim] else []) ++ field
      printed := fun p => p == s.ndelim || s.printed p
      nfieldsPrinted := s.nfieldsPrinted + 1 } := by
  unfold printField
  simp only [isField, if_pos (And.intro this fresh)]

/-- The field that was read last is put out if it is the one and is not yet. -/
theorem At.printField {spos : Nat} (here : At delim fields read chosen s) :
    At delim fields read
      (if read = spos + 1 ∧ chosen.contains spos = false then chosen ++ [spos] else chosen)
      (printField delim spos s) := by
  have ndelim := here.ndelim
  by_cases this : read = spos + 1
  · subst this
    have atField : s.ndelim = spos := by omega
    have marked := here.printed spos
    by_cases fresh : chosen.contains spos = false
    · have isField : s.field = some (fields.getD spos []) := here.field
      rw [if_pos ⟨rfl, fresh⟩, printField_fresh isField atField (by rw [atField, marked, fresh])]
      refine ⟨here.inside, here.ndelim, here.left, here.field, fun p => ?_, ?_, ?_⟩
      · simp only [atField, here.printed p]
        rw [Bool.eq_iff_iff]
        simp [or_comm]
      · simp only [here.count, List.length_append, List.length_singleton]
      · rw [List.map_append, List.map_singleton, intercalate_concat, List.length_map, ← here.out,
          ← here.count]
    · rw [Bool.not_eq_false] at fresh
      have notFresh : ¬(spos + 1 = spos + 1 ∧ chosen.contains spos = false) := by
        rw [fresh]
        exact fun both => Bool.noConfusion both.2
      rw [if_neg notFresh, printField_other (.inr (by rw [atField, marked, fresh]))]
      exact here
  · rw [if_neg (fun both => this both.1), printField_other (.inl (by omega))]
    exact here

/-- One position of a range. -/
theorem At.position {spos : Nat} (here : At delim fields read chosen s)
    (passed : ∀ p, spos ≤ p → p < read → p ∈ chosen) :
    At delim fields (max read (min (spos + 1) fields.length))
        (chosen ++ if spos < fields.length ∧ spos ∉ chosen then [spos] else [])
        (Cut.printField delim spos (Cut.seek delim spos s)) ∧
      ∀ p, spos ≤ p → p < max read (min (spos + 1) fields.length) →
        p ∈ chosen ++ if spos < fields.length ∧ spos ∉ chosen then [spos] else [] := by
  have inside := here.inside
  have next : At delim fields _ _ (Cut.printField delim spos (Cut.seek delim spos s)) :=
    here.seek.printField
  constructor
  · by_cases fresh : spos < fields.length ∧ spos ∉ chosen
    · have unread : read ≤ spos := by
        by_contra isRead
        exact fresh.2 (passed spos (Nat.le_refl _) (Nat.lt_of_not_le isRead))
      have this : max read (min (spos + 1) fields.length) = spos + 1 := by omega
      have notIn : chosen.contains spos = false := by simpa using fresh.2
      rw [if_pos ⟨this, notIn⟩] at next
      rwa [if_pos fresh]
    · have other : ¬(max read (min (spos + 1) fields.length) = spos + 1 ∧
          chosen.contains spos = false) := by
        rintro ⟨this, notIn⟩
        exact fresh ⟨by omega, by simpa using notIn⟩
      rw [if_neg other] at next
      rwa [if_neg fresh, List.append_nil]
  · intro p least most
    rw [List.mem_append]
    by_cases isRead : p < read
    · exact .inl (passed p least isRead)
    · have same : p = spos := by omega
      rw [same]
      by_cases isIn : spos ∈ chosen
      · exact .inl isIn
      · rw [if_pos ⟨by omega, isIn⟩]
        exact .inr List.mem_cons_self

/-! ## One range -/

theorem if_fresh {spos : Nat} (inFields : spos < fields.length) :
    (if spos < fields.length ∧ spos ∉ chosen then [spos] else []) =
      if chosen.contains spos then [] else [spos] := by
  by_cases isIn : spos ∈ chosen <;> simp [isIn, inFields]

theorem marked_next {spos : Nat} :
    (fun p => (chosen ++ if chosen.contains spos then [] else [spos]).contains p) =
      fun p => p == spos || chosen.contains p := by
  funext p
  rw [Bool.eq_iff_iff]
  by_cases isIn : spos ∈ chosen
  · by_cases this : p = spos
    · simp [this, isIn]
    · simp [this, isIn]
  · simp [isIn, or_comm]

/-- What is fresh in a range is put out. -/
theorem At.fieldLoop {endpos : Int} {spos read : Nat} {chosen : List Nat} {s : Fields}
    (here : At delim fields read chosen s)
    (passed : ∀ p, spos ≤ p → p < read → p ∈ chosen) :
    ∃ read', At delim fields read'
        (chosen ++ fresh fields.length (chosen.contains ·) (interval endpos spos))
        (fieldLoop delim endpos spos s) ∧
      ∀ p, spos ≤ p → p < read' →
        p ∈ chosen ++ fresh fields.length (chosen.contains ·) (interval endpos spos) := by
  obtain ⟨next, passed'⟩ := here.position passed
  rw [Cut.fieldLoop]
  by_cases more : (spos + 1 : Nat) ≤ endpos ∧
      (Cut.printField delim spos (Cut.seek delim spos s)).line.isSome ∧ endpos ≠ NON_RANGE
  · have less := next.isSome.mp more.2.1
    have inFields : spos < fields.length := by omega
    obtain ⟨ordered, isHere, isNext⟩ :=
      @interval_next endpos spos (by omega)
    rw [if_fresh inFields] at next passed'
    obtain ⟨read', later, passed''⟩ :=
      @At.fieldLoop endpos (spos + 1) _ _ _ next fun p least => passed' p (by omega)
    rw [isNext, marked_next, List.append_assoc, ← fresh_next ordered _ inFields, ← isHere]
      at later passed''
    rw [if_pos more]
    refine ⟨read', later, fun p least isRead => ?_⟩
    by_cases this : p = spos
    · rw [isHere, fresh_next ordered _ inFields, ← List.append_assoc, this]
      refine List.mem_append_left _ ?_
      by_cases isIn : spos ∈ chosen
      · exact List.mem_append_left _ isIn
      · simp [isIn]
    · exact passed'' p (by omega) isRead
  · rw [if_neg more]
    have whole : fresh fields.length (chosen.contains ·) (interval endpos spos) =
        if spos < fields.length ∧ spos ∉ chosen then [spos] else [] := by
      by_cases inFields : spos < fields.length
      · rw [if_fresh inFields]
        by_cases single : endpos < (spos + 1 : Nat)
        · rw [interval_single single, fresh_single _ inFields]
        · -- every field has been read
          have all : ¬max read (min (spos + 1) fields.length) < fields.length := fun less =>
            more ⟨by omega, next.isSome.mpr less,
              fun none => single (by rw [none, NON_RANGE]; omega)⟩
          obtain ⟨ordered, isHere, -⟩ := interval_next single
          rw [isHere, fresh_next ordered _ inFields, fresh_seen, List.append_nil]
          intro p inBound start
          simp only at start
          have isIn := passed p (by omega) (by omega)
          simp [isIn]
      · rw [if_neg (fun both => inFields both.1), fresh_behind _ (Nat.le_of_not_lt inFields)]
    rw [whole]
    exact ⟨_, next, passed'⟩
termination_by (endpos - spos).toNat
decreasing_by omega

/-! ## All ranges -/

/-- The fields that are visited are put out, and the loop ends where the line does. -/
theorem At.fieldLists {lists : List CutList} (here : At delim fields read chosen s)
    (sorted : lists.Pairwise fun a b => a.startpos ≤ b.startpos)
    (passed : ∀ list ∈ lists, ∀ p, list.startpos ≤ p → p < read → p ∈ chosen) :
    ∃ read', At delim fields read'
      (chosen ++ visit fields.length (chosen.contains ·) (lists.map CutList.interval))
      (fieldLists delim s lists) := by
  induction lists generalizing read chosen s with
  | nil => exact ⟨read, by simpa [visit, Cut.fieldLists] using here⟩
  | cons list lists ih =>
    obtain ⟨first, later⟩ := List.pairwise_cons.mp sorted
    rw [Cut.fieldLists, List.map_cons, visit]
    by_cases more : s.line.isSome = true
    · obtain ⟨read', next, passed'⟩ := @At.fieldLoop delim fields list.endpos list.startpos _ _ _
        here (passed list List.mem_cons_self)
      obtain ⟨read'', last⟩ := ih next later fun other mem p start =>
        passed' p (Nat.le_trans (first other mem) start)
      have marked : ∀ p < fields.length,
          (chosen ++ fresh fields.length (chosen.contains ·)
            (interval list.endpos list.startpos)).contains p =
          (chosen.contains p || list.interval.covers p) := by
        intro p inBound
        rw [Bool.eq_iff_iff, List.contains_iff_mem, List.mem_append, mem_fresh, Bool.or_eq_true,
          List.contains_iff_mem]
        constructor
        · rintro (isIn | ⟨-, covers, -⟩)
          · exact .inl isIn
          · exact .inr covers
        · rintro (isIn | covers)
          · exact .inl isIn
          · by_cases isIn : p ∈ chosen
            · exact .inl isIn
            · exact .inr ⟨inBound, covers, by simpa using isIn⟩
      rw [if_pos more]
      rw [visit_congr marked, List.append_assoc] at last
      exact ⟨read'', last⟩
    · have all : fields.length ≤ read := Nat.le_of_not_lt fun less => more (here.isSome.mpr less)
      have none := @visit_seen fields.length (chosen.contains ·)
        ((list :: lists).map CutList.interval) fun interval mem p inBound start => by
          obtain ⟨other, isOther, rfl⟩ := List.mem_map.mp mem
          exact List.contains_iff_mem.mpr
            (passed other isOther p start (Nat.lt_of_lt_of_le inBound all))
      rw [List.map_cons, visit] at none
      rw [if_neg more, none, List.append_nil]
      exact ⟨read, here⟩

/-- The fields of a line that are asked for. -/
theorem cutFields_selected (qsort : Qsort) (ranges : List Range) (delim : UInt8) (suppress : Bool)
    {line : List UInt8} (small : line.length + 1 < 2 ^ 31) :
    cutFields (sortedLists qsort ranges) delim suppress line =
      if delim ∈ line ∨ delim = 0 then
        [delim].intercalate (selected ranges (line.splitOn delim)) ++ [10]
      else if suppress then [] else line ++ [10] := by
  have start : At delim (line.splitOn delim) 0 [] { line := some line } :=
    ⟨Nat.zero_le _, rfl, rfl, rfl, fun _ => rfl, rfl, rfl⟩
  have sorted : (sortedLists qsort ranges).Pairwise fun a b => a.startpos ≤ b.startpos :=
    qsort.sorted _
  obtain ⟨read, done⟩ := start.fieldLists sorted
    (fun _ _ p _ before => absurd before (Nat.not_lt_zero p))
  have out := done.out
  have few := splitOn_length delim line
  rw [List.nil_append] at out
  have chosen := visit_selected qsort ranges (line.splitOn delim) [] (by omega)
  rw [cutFields, out]
  simp only [List.contains_nil, chosen]

/-! ## Files -/

/-- What is asked for of the lines of a file. A line without the delimiter is put out as it is or
left out; behind every line there is a NUL. -/
def documented (mode : Mode) (ranges : List Range) (delim : UInt8) (suppress : Bool)
    (lines : List (List UInt8)) : List UInt8 :=
  match mode with
  | .bytes => lines.flatMap fun line => selected ranges line ++ [10]
  | .fields =>
    if delim = 10 then (selected ranges lines).flatMap fun line => line ++ [10]
    else lines.flatMap fun line =>
      if delim ∈ line ∨ delim = 0 then
        [delim].intercalate (selected ranges (line.splitOn delim)) ++ [10]
      else if suppress then [] else line ++ [10]

/-- A file whose lines and line numbers are measured by an `int`. -/
abbrev Input := {stream : List UInt8 // (∀ line ∈ fgetlines stream, line.length + 1 < 2 ^ 31) ∧
  (fgetlines stream).length ≤ 2 ^ 31}

theorem mapM_some {α β : Type*} {f : α → Option β} {g : α → β} {items : List α}
    (all : ∀ item ∈ items, f item = some (g item)) : items.mapM f = some (items.map g) := by
  induction items with
  | nil => rfl
  | cons item items ih =>
    rw [List.mapM_cons, all item List.mem_cons_self,
      ih fun other mem => all other (List.mem_cons_of_mem _ mem)]
    rfl

/-- The lines of a file one after another. -/
theorem cutFile_lines {mode : Mode} {lists : List CutList} {delim : UInt8} {suppress : Bool}
    {stream : List UInt8} {text : List UInt8 × Nat → List UInt8}
    (lines : ∀ pair ∈ (fgetlines stream).zipIdx,
      cutLine mode lists delim suppress pair.1 pair.2 = some (text pair)) :
    cutFile mode lists delim suppress stream =
      some (((fgetlines stream).zipIdx.map text).flatten) := by
  rw [cutFile, mapM_some (g := text) lines]
  rfl

theorem flatten_selected {α : Type*} (items : List (α × Nat)) (chosen : Nat → Bool)
    (text : α → List UInt8) :
    (items.map fun pair => if chosen pair.2 then text pair.1 else []).flatten =
      ((items.filter fun pair => chosen pair.2).map Prod.fst).flatMap text := by
  induction items with
  | nil => rfl
  | cons item items ih =>
    by_cases isChosen : chosen item.2 = true
    · simp [isChosen, ih]
    · simp [isChosen, ih]

theorem flatten_zipIdx {α : Type*} (items : List α) (text : α → List UInt8) :
    (items.zipIdx.map fun pair => text pair.1).flatten = items.flatMap text := by
  have firsts : (items.zipIdx.map fun pair => text pair.1) =
      (items.zipIdx.map Prod.fst).map text := by
    rw [List.map_map]
    rfl
  rw [firsts, List.zipIdx_map_fst, List.flatMap_def]

theorem cutFile_documented (qsort : Qsort) (ranges : List Range) (mode : Mode) (delim : UInt8)
    (suppress : Bool) (input : Input) :
    cutFile mode (sortedLists qsort ranges) delim suppress input.1 =
      some (documented mode ranges delim suppress (fgetlines input.1)) := by
  obtain ⟨stream, short, few⟩ := input
  have fits {pair : List UInt8 × Nat} (mem : pair ∈ (fgetlines stream).zipIdx) :
      ¬2 ^ 31 ≤ pair.1.length + 1 :=
    Nat.not_le_of_lt (short pair.1 (List.fst_mem_of_mem_zipIdx mem))
  cases mode with
  | bytes =>
    have lines : ∀ pair ∈ (fgetlines stream).zipIdx,
        cutLine .bytes (sortedLists qsort ranges) delim suppress pair.1 pair.2 =
          some (selected ranges pair.1 ++ [10]) := by
      intro pair mem
      have small := fits mem
      rw [cutLine, if_neg small]
      exact congrArg some (cutBytes_selected qsort ranges (by omega))
    rw [cutFile_lines lines, flatten_zipIdx _ fun line => selected ranges line ++ [10]]
    rfl
  | fields =>
    by_cases isNewline : delim = 10
    · have lines : ∀ pair ∈ (fgetlines stream).zipIdx,
          cutLine .fields (sortedLists qsort ranges) delim suppress pair.1 pair.2 =
            some (if ranges.any (·.contains (pair.2 + 1)) then pair.1 ++ [10] else []) := by
        intro pair mem
        have inLines := List.snd_lt_of_mem_zipIdx mem
        rw [cutLine, if_neg (fits mem)]
        simp only [if_pos isNewline]
        rw [lineSelected_eq qsort ranges (by omega)]
      rw [cutFile_lines lines,
        flatten_selected _ (fun index => ranges.any (·.contains (index + 1)))
          (fun line : List UInt8 => line ++ [10]),
        documented, if_pos isNewline]
      rfl
    · have lines : ∀ pair ∈ (fgetlines stream).zipIdx,
          cutLine .fields (sortedLists qsort ranges) delim suppress pair.1 pair.2 =
            some (if delim ∈ pair.1 ∨ delim = 0 then
              [delim].intercalate (selected ranges (pair.1.splitOn delim)) ++ [10]
            else if suppress then [] else pair.1 ++ [10]) := by
        intro pair mem
        have small := fits mem
        rw [cutLine, if_neg small]
        simp only [if_neg isNewline]
        rw [cutFields_selected qsort ranges delim suppress (by omega)]
      rw [cutFile_lines lines, documented, if_neg isNewline]
      exact congrArg some (flatten_zipIdx (fgetlines stream) fun line =>
        if delim ∈ line ∨ delim = 0 then
          [delim].intercalate (selected ranges (line.splitOn delim)) ++ [10]
        else if suppress then [] else line ++ [10])

/-! ## The command -/

/-- `-d` with its character, with an empty argument, or not given. -/
def delimText (delim : Option (Option UInt8)) : Option Text := delim.map Option.toList

def delimValue : Option (Option UInt8) → UInt8
  | none => 9
  | some delim => delim.getD 0

theorem getDelim_delimText (delim : Option (Option UInt8)) :
    getDelim (delimText delim) = .ok (delimValue delim) := by
  rcases delim with - | - | delim <;> rfl

/-- A valid command line: the options for fields go with fields only. -/
structure Command where
  mode : Mode
  ranges : List Range
  delim : Option (Option UInt8) := none
  suppress : Bool := false
  nonempty : ranges ≠ []
  onFields : mode = .fields ∨ delim = none ∧ suppress = false

def Command.options (command : Command) : Options where
  mode := some command.mode
  list := listText command.ranges
  delim := delimText command.delim
  suppress := command.suppress

/-- A valid command line is taken as it is meant. -/
theorem cutMain_options (qsort : Qsort) (command : Command) (files : List (List UInt8)) :
    cutMain qsort command.options files =
      .ok ((files.mapM (cutFile command.mode (sortedLists qsort command.ranges)
        (delimValue command.delim) command.suppress)).map List.flatten) := by
  obtain ⟨mode, ranges, delim, suppress, nonempty, onFields⟩ := command
  have noSuppress : ¬(mode ≠ .fields ∧ suppress = true) := by
    rcases onFields with onFields | ⟨-, onFields⟩ <;> simp [onFields]
  have noDelim : ¬(mode ≠ .fields ∧ delimValue delim ≠ 9) := by
    rcases onFields with onFields | ⟨onFields, -⟩ <;> simp [onFields, delimValue]
  have someList : ranges.map Range.cutList ≠ [] := by simpa using nonempty
  simp only [cutMain, Command.options, getDelim_delimText, ok_bind, if_neg noSuppress,
    if_neg noDelim, parseLists_listText nonempty, if_neg someList]
  rfl

/-- What is in one of the ranges is put out once and in order. -/
theorem cutMain_documented (qsort : Qsort) (command : Command) (inputs : List Input) :
    cutMain qsort command.options (inputs.map Subtype.val) =
      .ok (some (inputs.flatMap fun input =>
        documented command.mode command.ranges (delimValue command.delim) command.suppress
          (fgetlines input.1))) := by
  have files : (inputs.map Subtype.val).mapM (cutFile command.mode
      (sortedLists qsort command.ranges) (delimValue command.delim) command.suppress) =
      some (inputs.map fun input => documented command.mode command.ranges
        (delimValue command.delim) command.suppress (fgetlines input.1)) := by
    rw [List.mapM_map]
    exact mapM_some fun input _ => cutFile_documented qsort command.ranges command.mode _ _ input
  rw [cutMain_options, files, List.flatMap_def]
  rfl

/-! ## A line without the delimiter -/

/-- What is asked for with no exception for a line without the delimiter. -/
def selectedOnly (mode : Mode) (ranges : List Range) (delim : UInt8)
    (lines : List (List UInt8)) : List UInt8 :=
  match mode with
  | .bytes => lines.flatMap fun line => selected ranges line ++ [10]
  | .fields =>
    if delim = 10 then (selected ranges lines).flatMap fun line => line ++ [10]
    else lines.flatMap fun line =>
      [delim].intercalate (selected ranges (line.splitOn delim)) ++ [10]

def mergeSort : Qsort where
  sort lists := lists.mergeSort fun a b => a.startpos ≤ b.startpos
  perm lists := List.mergeSort_perm lists _
  sorted lists := by
    have sorted : (lists.mergeSort fun a b => a.startpos ≤ b.startpos).Pairwise
        fun a b => decide (a.startpos ≤ b.startpos) = true :=
      List.pairwise_mergeSort
        (fun a b c ab bc => by simp only [decide_eq_true_eq] at *; omega)
        (fun a b => by simp only [Bool.or_eq_true, decide_eq_true_eq]; omega) lists
    simpa using sorted

/-- `cut -d: -f2` -/
def second : Command where
  mode := .fields
  ranges := [.single ⟨2, by decide⟩]
  delim := some (some 58)
  nonempty := List.cons_ne_nil _ _
  onFields := .inl rfl

theorem fgetlines_abc : fgetlines (ascii "abc\n") = [ascii "abc"] := by
  simp [ascii, fgetlines, Uuencode.fgetline]

def abc : Input :=
  ⟨ascii "abc\n", by rw [fgetlines_abc]; decide⟩

/-- The second field of a line without a colon is the line. -/
theorem cutMain_undelimited :
    ¬∀ (qsort : Qsort) (command : Command) (inputs : List Input),
      cutMain qsort command.options (inputs.map Subtype.val) =
        .ok (some (inputs.flatMap fun input =>
          selectedOnly command.mode command.ranges (delimValue command.delim)
            (fgetlines input.1))) := by
  intro all
  have printed := all mergeSort second [abc]
  have lines : fgetlines abc.1 = [ascii "abc"] := fgetlines_abc
  have file := cutFile_documented mergeSort second.ranges second.mode (delimValue second.delim)
    second.suppress abc
  have files : [abc.1].mapM (cutFile second.mode (sortedLists mergeSort second.ranges)
      (delimValue second.delim) second.suppress) = some [ascii "abc\n"] := by
    rw [List.mapM_cons, file, lines]
    decide
  have asked : selectedOnly second.mode second.ranges (delimValue second.delim)
      (fgetlines abc.1) = ascii "\n" := by
    rw [lines]
    decide
  rw [cutMain_options, List.map_singleton, files, List.flatMap_singleton, asked] at printed
  exact absurd (Option.some.inj (Except.ok.inj printed)) (by decide)

end Busybox.Coreutils.Cut
