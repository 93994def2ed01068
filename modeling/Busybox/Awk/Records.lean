import Busybox.Awk.GetlineLoop

/-!
# The records of an input

What `RS` makes of an input, and when the calls of `awk_getline` deliver that. A record that ends
with the input is not a paragraph if there is one newline behind it.
-/

namespace Busybox.Awk

/-- Records between characters, each with its `RT`; there is none behind the last character. -/
inductive Pieces (c : UInt8) : List UInt8 → List (List UInt8 × List UInt8) → Prop
  | none : Pieces c [] []
  | last {record} : record ≠ [] → c ∉ record → Pieces c record [(record, [])]
  | more {record rest records} : c ∉ record → Pieces c rest records →
      Pieces c (record ++ c :: rest) ((record, [c]) :: records)

/-- Lines, none of them empty, without the newline of the last one. -/
structure Paragraph (record : List UInt8) : Prop where
  first : ∃ x, record.head? = some x ∧ x ≠ 10
  last : ∃ x, record.getLast? = some x ∧ x ≠ 10
  lines : ∀ k : Nat, record[k]? = some 10 → record[k + 1]? ≠ some 10

/-- Paragraphs that are separated by two newlines or more. -/
inductive Paragraphs : List UInt8 → List (List UInt8 × List UInt8) → Prop
  | none : Paragraphs [] []
  | last {record} (count : Nat) : Paragraph record →
      Paragraphs (record ++ List.replicate count 10) [(record, List.replicate count 10)]
  | more {record rest records} (count : Nat) : Paragraph record → 2 ≤ count →
      rest.head? ≠ some 10 → Paragraphs rest records →
      Paragraphs (record ++ List.replicate count 10 ++ rest)
        ((record, List.replicate count 10) :: records)

/-- The records of an input; newlines in front of paragraphs are ignored. -/
def IsRecords (rs : UInt8) (input : List UInt8) (records : List (List UInt8 × List UInt8)) :
    Prop :=
  if rs ≠ 0 then Pieces rs input records else Paragraphs (input.dropWhile (· = 10)) records

/-- The calls deliver these records, and nothing after them. -/
def Delivers (rs : UInt8) (all : List UInt8) (records : List (List UInt8 × List UInt8)) : Prop :=
  ∀ n, delivered rs n all = (List.range n).map (records[·]?)

variable {rs : UInt8} {text : List UInt8} {records : List (List UInt8 × List UInt8)}

theorem delivers_nil (rs : UInt8) : Delivers rs [] [] := by
  intro n
  have behind : behindRecord rs [] = [] := List.drop_nil
  induction n with
  | zero => rfl
  | succ n ih =>
    rw [delivered, behind, ih, List.range_succ_eq_map, List.map_cons, List.map_map]
    rfl

theorem Delivers.cons {record : List UInt8 × List UInt8} (next : nextRecord rs text = some record)
    (rest : Delivers rs (behindRecord rs text) records) : Delivers rs text (record :: records) := by
  intro n
  cases n with
  | zero => rfl
  | succ n =>
    rw [delivered, next, rest n, List.range_succ_eq_map, List.map_cons, List.map_map]
    rfl

theorem nextRecord_eq {so eo rp : Nat} (nonempty : text ≠ [])
    (place : separator rs text = (so, eo, rp)) :
    nextRecord rs text = some ((text.take so).drop rp, (text.take eo).drop so) := by
  rw [nextRecord, if_neg nonempty, place]

/-! ## Characters -/

theorem pieces_delivered {c : UInt8} (single : c ≠ 0) (text : List UInt8) :
    ∃ records, Pieces c text records ∧ Delivers c text records := by
  obtain ⟨left, isLeft⟩ : ∃ left, text.length = left := ⟨_, rfl⟩
  induction left using Nat.strongRecOn generalizing text with
  | ind left ih =>
    by_cases nothing : text = []
    · exact ⟨[], nothing ▸ .none, nothing ▸ delivers_nil c⟩
    · cases found : text.findIdx? (· = c) with
      | some s =>
        obtain ⟨below, here, before⟩ := List.findIdx?_eq_some_iff_getElem.mp found
        have place := separator_character single found []
        rw [List.append_nil] at place
        have split : text.take s ++ c :: text.drop (s + 1) = text := by
          have letter : text[s] = c := of_decide_eq_true here
          rw [← letter, List.getElem_cons_drop, List.take_append_drop]
        have free : c ∉ text.take s := by
          intro mem
          obtain ⟨i, short, same⟩ := List.mem_iff_getElem.mp mem
          rw [List.length_take] at short
          rw [List.getElem_take] at same
          exact before i (by omega) (decide_eq_true same)
        have behind : behindRecord c text = text.drop (s + 1) := by rw [behindRecord, place]
        obtain ⟨records, pieces, delivers⟩ := ih (text.drop (s + 1)).length (by
          rw [List.length_drop]
          omega) _ rfl
        refine ⟨(text.take s, [c]) :: records, ?_, .cons ?_ (behind ▸ delivers)⟩
        · have more := Pieces.more free pieces
          rwa [split] at more
        · rw [nextRecord_eq nothing place, List.drop_zero, List.take_add_one, List.drop_left' (by
            rw [List.length_take]
            omega), List.getElem?_eq_getElem below, of_decide_eq_true here]
          rfl
      | none =>
        have place : separator c text = (text.length, text.length, 0) := by
          rw [separator, if_pos single, found]
        have behind : behindRecord c text = [] := by rw [behindRecord, place, List.drop_length]
        refine ⟨[(text, [])], .last nothing ?_, .cons ?_ (behind ▸ delivers_nil c)⟩
        · intro mem
          exact absurd rfl (of_decide_eq_false (List.findIdx?_eq_none_iff.mp found c mem))
        · rw [nextRecord_eq nothing place, List.take_length, List.drop_length, List.drop_zero]

/-! ## Paragraphs -/

/-- No empty line begins before the first one. -/
theorem blank_first {k : Nat} (before : ∀ s, blank text = some s → k < s)
    (here : text[k]? = some 10) : text[k + 1]? ≠ some 10 := by
  induction text generalizing k with
  | nil => exact nomatch here
  | cons x text ih =>
    cases text with
    | nil => exact nofun
    | cons y text =>
      rw [blank] at before
      cases k with
      | zero =>
        intro second
        have both : x = 10 ∧ y = 10 := ⟨Option.some.inj here, Option.some.inj second⟩
        rw [if_pos both] at before
        exact absurd (before 0 rfl) (Nat.lt_irrefl 0)
      | succ k =>
        refine ih (fun s found => ?_) here
        split at before
        case isTrue => exact absurd (before 0 rfl) (Nat.not_lt_zero _)
        case isFalse =>
          have later := before (s + 1) (by rw [found]; rfl)
          omega

theorem dropWhile_eq (text : List UInt8) : text.dropWhile (· = 10) = text.drop (leading text) := by
  induction text with
  | nil => rfl
  | cons x text ih =>
    rw [List.dropWhile_cons, leading_cons]
    by_cases newline : x = 10
    · simp only [newline, decide_true, if_true, List.drop_succ_cons, ih]
    · simp only [newline, decide_false, if_false, Bool.false_eq_true, List.drop_zero]

theorem take_leading (text : List UInt8) :
    text.take (leading text) = List.replicate (leading text) 10 := by
  induction text with
  | nil => rfl
  | cons x text ih =>
    rw [leading_cons]
    split
    case isTrue newline => rw [List.take_succ_cons, ih, newline, List.replicate_succ]
    case isFalse => rfl

theorem head_drop_leading (text : List UInt8) : (text.drop (leading text)).head? ≠ some 10 := by
  induction text with
  | nil => exact nofun
  | cons x text ih =>
    rw [leading_cons]
    split
    case isTrue => exact ih
    case isFalse other => exact fun same => other (Option.some.inj same)

theorem blank_pos {s : Nat} (head : text.head? ≠ some 10) (found : blank text = some s) :
    0 < s := by
  refine Nat.pos_of_ne_zero fun zero => head ?_
  rw [List.head?_eq_getElem?]
  exact zero ▸ (blank_get found).1

theorem paragraph_of_blank {s : Nat} (head : text.head? ≠ some 10) (found : blank text = some s) :
    Paragraph (text.take s) := by
  have pos := blank_pos head found
  have before : ∀ k, k < s → text[k]? = some 10 → text[k + 1]? ≠ some 10 := fun k below =>
    blank_first fun s' found' => Option.some.inj (found.symm.trans found') ▸ below
  obtain ⟨within, here⟩ := List.getElem?_eq_some_iff.mp (blank_get found).1
  refine ⟨?_, ?_, fun k letter second => ?_⟩
  · rw [List.head?_take, if_neg (Nat.ne_of_gt pos), List.head?_eq_getElem?,
      List.getElem?_eq_getElem (by omega)]
    refine ⟨_, rfl, fun same => head ?_⟩
    rw [List.head?_eq_getElem?, List.getElem?_eq_getElem (by omega), same]
  · rw [List.getLast?_take, if_neg (Nat.ne_of_gt pos), List.getElem?_eq_getElem (by omega)]
    refine ⟨_, rfl, fun same => before (s - 1) (by omega) ?_ ?_⟩
    · rw [List.getElem?_eq_getElem (by omega), same]
    · rw [Nat.sub_add_cancel pos]
      exact (blank_get found).1
  · rw [List.getElem?_take] at letter second
    split at letter
    case isTrue below =>
      split at second
      · exact before k below letter second
      · exact nomatch second
    case isFalse => exact nomatch letter

theorem leading_blank {s : Nat} (found : blank text = some s) : 2 ≤ leading (text.drop s) := by
  obtain ⟨first, here⟩ := List.getElem?_eq_some_iff.mp (blank_get found).1
  obtain ⟨second, next⟩ := List.getElem?_eq_some_iff.mp (blank_get found).2
  rw [List.drop_eq_getElem_cons first, here, List.drop_eq_getElem_cons second, next, leading_cons,
    if_pos rfl, leading_cons, if_pos rfl]
  omega

theorem paragraph_of_none (head : text.head? ≠ some 10) (nonempty : text ≠ [])
    (found : blank text = none) (last : text.getLast? ≠ some 10) : Paragraph text where
  first := by
    obtain ⟨x, text, rfl⟩ := List.exists_cons_of_ne_nil nonempty
    exact ⟨x, rfl, fun same => head (congrArg some same)⟩
  last := by
    refine ⟨text.getLast nonempty, List.getLast?_eq_some_getLast nonempty, fun same => last ?_⟩
    rw [List.getLast?_eq_some_getLast nonempty, same]
  lines k := blank_first fun s found' => nomatch found.symm.trans found'

/-- A paragraph with an empty line behind it is delivered with all newlines behind it. -/
theorem nextRecord_blank {s : Nat} (found : blank (text.drop (leading text)) = some s) :
    nextRecord 0 text = some ((text.drop (leading text)).take s,
        List.replicate (leading ((text.drop (leading text)).drop s)) 10) ∧
      behindRecord 0 text = ((text.drop (leading text)).drop s).drop
        (leading ((text.drop (leading text)).drop s)) := by
  have nonempty : text ≠ [] := by
    rintro rfl
    exact nomatch found
  have place : separator 0 text = (leading text + s,
      leading text + s + leading (text.drop (leading text + s)), leading text) := by
    simp only [separator, ne_eq, not_true_eq_false, if_false, found]
  constructor
  · rw [nextRecord_eq nonempty place, List.drop_take, List.drop_take, Nat.add_sub_cancel_left,
      Nat.add_sub_cancel_left, take_leading, List.drop_drop]
  · simp only [behindRecord, place, List.drop_drop, Nat.add_assoc]

theorem take_run (text : List UInt8) (s : Nat) :
    text.take s ++ List.replicate (leading (text.drop s)) 10 ++
      (text.drop s).drop (leading (text.drop s)) = text := by
  rw [← take_leading, List.append_assoc, List.take_append_drop, List.take_append_drop]

/-- Without an empty line, all that is left is the record. -/
theorem nextRecord_none (nonempty : text ≠ []) (found : blank (text.drop (leading text)) = none) :
    nextRecord 0 text = some (text.drop (leading text), []) ∧ behindRecord 0 text = [] := by
  have place : separator 0 text = (text.length, text.length, leading text) := by
    simp only [separator, ne_eq, not_true_eq_false, if_false, found]
  constructor
  · rw [nextRecord_eq nonempty place, List.take_length, List.drop_length]
  · rw [behindRecord, place, List.drop_length]

/-- One newline ends the input, or there are newlines only. -/
def Unended (input : List UInt8) : Prop :=
  input ≠ [] ∧ (∀ x ∈ input, x = 10) ∨ ∃ front x, x ≠ 10 ∧ input = front ++ [x, 10]

theorem Unended.behind {input : List UInt8} (front : List UInt8)
    (unended : ∃ rest x, x ≠ 10 ∧ input = rest ++ [x, 10]) : Unended (front ++ input) := by
  obtain ⟨rest, x, other, rfl⟩ := unended
  exact .inr ⟨front ++ rest, x, other, (List.append_assoc ..).symm⟩

theorem leading_eq_zero (head : text.head? ≠ some 10) : leading text = 0 := by
  cases text with
  | nil => rfl
  | cons x text => rw [leading_cons, if_neg fun same => head (congrArg some same)]

/-- A text without an empty line that ends with a newline. -/
theorem newline_last (head : text.head? ≠ some 10) (found : blank text = none)
    (last : text.getLast? = some 10) : ∃ rest x, x ≠ 10 ∧ text = rest ++ [x, 10] := by
  obtain ⟨rest, rfl⟩ := List.getLast?_eq_some_iff.mp last
  rcases List.eq_nil_or_concat rest with rfl | ⟨rest, x, rfl⟩
  · exact absurd rfl head
  · rw [List.concat_eq_append, List.append_assoc] at found ⊢
    refine ⟨rest, x, fun same => ?_, rfl⟩
    refine blank_first (k := rest.length) (fun s found' => nomatch found.symm.trans found') ?_ ?_
    · rw [List.getElem?_append_right (Nat.le_refl _), Nat.sub_self, same]
      rfl
    · rw [List.getElem?_append_right (Nat.le_succ _), Nat.succ_sub (Nat.le_refl _), Nat.sub_self]
      rfl

theorem newlines_only (text : List UInt8) (nothing : text.drop (leading text) = []) :
    ∀ x ∈ text, x = 10 := by
  intro x mem
  rw [← List.take_append_drop (leading text) text, nothing, List.append_nil, take_leading] at mem
  exact List.eq_of_mem_replicate mem

/-- Behind newlines that end there, the text ends as before. -/
theorem suffix_unended {before rest front : List UInt8} {x : UInt8} (other : x ≠ 10)
    (head : rest.head? ≠ some 10) (same : before ++ [10, 10] ++ rest = front ++ [x, 10]) :
    ∃ rest' x, x ≠ 10 ∧ rest = rest' ++ [x, 10] := by
  rcases List.eq_nil_or_concat rest with rfl | ⟨rest₁, z, rfl⟩
  · rw [List.append_nil] at same
    have last := (List.append_inj' same rfl).2
    exact absurd (List.cons.inj last).1.symm other
  · rcases List.eq_nil_or_concat rest₁ with rfl | ⟨rest₂, y, rfl⟩
    · have cut : before ++ [10] ++ [10, z] = front ++ [x, 10] := by
        rw [← same]
        simp
      have last := (List.append_inj' cut rfl).2
      exact absurd (congrArg some (List.cons.inj (List.cons.inj last).2).1) head
    · have cut : before ++ [10, 10] ++ rest₂ ++ [y, z] = front ++ [x, 10] := by
        rw [← same]
        simp
      have last := (List.append_inj' cut rfl).2
      refine ⟨rest₂, x, other, ?_⟩
      rw [← last]
      simp

theorem paragraphs_delivered (text : List UInt8) (ended : ¬Unended text) :
    ∃ records, Paragraphs (text.drop (leading text)) records ∧ Delivers 0 text records := by
  obtain ⟨left, isLeft⟩ : ∃ left, text.length = left := ⟨_, rfl⟩
  induction left using Nat.strongRecOn generalizing text with
  | ind left ih =>
    by_cases nothing : text = []
    · exact ⟨[], nothing ▸ .none, nothing ▸ delivers_nil 0⟩
    · have head := head_drop_leading text
      have front : text.take (leading text) ++ text.drop (leading text) = text :=
        List.take_append_drop _ _
      cases found : blank (text.drop (leading text)) with
      | none =>
        obtain ⟨next, behind⟩ := nextRecord_none nothing found
        refine ⟨[(text.drop (leading text), [])], ?_, .cons next (behind ▸ delivers_nil 0)⟩
        have paragraph : Paragraph (text.drop (leading text)) := by
          refine paragraph_of_none head (fun none => ended ?_) found fun last => ended ?_
          · exact .inl ⟨nothing, newlines_only text none⟩
          · have unended := newline_last head found last
            exact front ▸ Unended.behind _ unended
        have last := Paragraphs.last 0 paragraph
        rwa [List.replicate_zero, List.append_nil] at last
      | some s =>
        obtain ⟨next, behind⟩ := nextRecord_blank found
        have paragraph := paragraph_of_blank head found
        have run := leading_blank found
        generalize text.drop (leading text) = body at head front found next behind paragraph run ⊢
        have split := take_run body s
        have head' := head_drop_leading (body.drop s)
        generalize leading (body.drop s) = count at run split head' next behind ⊢
        generalize (body.drop s).drop count = rest at split head' behind ⊢
        have ended' : ¬Unended rest := by
          rintro (⟨nonempty, all⟩ | unended)
          · obtain ⟨x, rest, rfl⟩ := List.exists_cons_of_ne_nil nonempty
            exact head' (congrArg some (all x List.mem_cons_self))
          · refine ended ?_
            rw [← front, ← split, ← List.append_assoc]
            exact Unended.behind _ unended
        have shorter : rest.length < text.length := by
          rw [← front, ← split]
          simp only [List.length_append, List.length_replicate]
          omega
        have plain := leading_eq_zero head'
        obtain ⟨records, paragraphs, delivers⟩ := ih _ (isLeft ▸ shorter) rest ended' rfl
        rw [plain, List.drop_zero] at paragraphs
        have more := Paragraphs.more count paragraph run head' paragraphs
        rw [split] at more
        exact ⟨_, more, .cons next (behind ▸ delivers)⟩

/-- An input that does not end well is delivered with a record that is no paragraph. -/
theorem unended_delivered (text : List UInt8) (unended : Unended text) :
    ∃ n record rt, some (record, rt) ∈ delivered 0 n text ∧ ¬Paragraph record := by
  obtain ⟨left, isLeft⟩ : ∃ left, text.length = left := ⟨_, rfl⟩
  induction left using Nat.strongRecOn generalizing text with
  | ind left ih =>
    rcases unended with ⟨nonempty, all⟩ | ⟨front, x, other, rfl⟩
    · have none : text.drop (leading text) = [] := by
        refine List.eq_nil_iff_forall_not_mem.mpr fun y mem => ?_
        obtain ⟨z, rest, isRest⟩ := List.exists_cons_of_ne_nil (List.ne_nil_of_mem mem)
        refine head_drop_leading text ?_
        rw [isRest, all z (List.mem_of_mem_drop (isRest ▸ List.mem_cons_self))]
        rfl
      obtain ⟨next, -⟩ := nextRecord_none nonempty (by rw [none]; rfl)
      refine ⟨1, [], [], ?_, fun paragraph => ?_⟩
      · rw [delivered, next, none]
        exact List.mem_cons_self
      · obtain ⟨x, head, -⟩ := paragraph.first
        exact nomatch head
    · obtain ⟨text, isText⟩ : ∃ text, text = front ++ [x, 10] := ⟨_, rfl⟩
      rw [← isText] at isLeft ⊢
      have head := head_drop_leading text
      have split : text.take (leading text) ++ text.drop (leading text) = text :=
        List.take_append_drop _ _
      have member : x ∈ text := by
        rw [isText]
        exact List.mem_append_right _ List.mem_cons_self
      cases found : blank (text.drop (leading text)) with
      | none =>
        obtain ⟨next, -⟩ := nextRecord_none (List.ne_nil_of_mem member) found
        refine ⟨1, text.drop (leading text), [], ?_, fun paragraph => ?_⟩
        · rw [delivered, next]
          exact List.mem_cons_self
        · obtain ⟨y, last, apart⟩ := paragraph.last
          have whole := congrArg List.getLast? split
          rw [List.getLast?_append, last, Option.some_or, isText, List.getLast?_append] at whole
          exact apart (Option.some.inj whole)
      | some s =>
        obtain ⟨next, behind⟩ := nextRecord_blank found
        have run := leading_blank found
        generalize text.drop (leading text) = body at head split found next behind run
        have parts := take_run body s
        have head' := head_drop_leading (body.drop s)
        generalize leading (body.drop s) = count at run parts head' next behind
        generalize (body.drop s).drop count = rest at parts head' behind
        obtain ⟨count, rfl⟩ := Nat.exists_eq_add_of_le' run
        have unended : ∃ rest' x, x ≠ 10 ∧ rest = rest' ++ [x, 10] := by
          have whole : text.take (leading text) ++
              (body.take s ++ List.replicate (count + 2) 10 ++ rest) = text := by
            rw [parts, split]
          have again : text.take (leading text) ++ body.take s ++ List.replicate count 10 ++
              [10, 10] ++ rest = text := by
            have two : List.replicate 2 (10 : UInt8) = [10, 10] := rfl
            rw [List.replicate_add, two] at whole
            simpa only [List.append_assoc] using whole
          exact suffix_unended other head' (again.trans isText)
        have shorter : rest.length < text.length := by
          rw [← split, ← parts]
          simp only [List.length_append, List.length_replicate]
          omega
        obtain ⟨n, record, rt, mem, bad⟩ := ih _ (isLeft ▸ shorter) rest (.inr unended) rfl
        refine ⟨n + 1, record, rt, ?_, bad⟩
        rw [delivered, behind]
        exact List.mem_cons_of_mem _ mem

/-! ## All inputs -/

theorem Paragraphs.paragraph {record rt : List UInt8} (paragraphs : Paragraphs text records)
    (mem : (record, rt) ∈ records) : Paragraph record := by
  induction paragraphs with
  | none => exact nomatch mem
  | last count paragraph =>
    obtain ⟨rfl, -⟩ := Prod.mk.inj (List.mem_singleton.mp mem)
    exact paragraph
  | more count paragraph run head rest ih =>
    rcases List.mem_cons.mp mem with here | later
    · obtain ⟨rfl, -⟩ := Prod.mk.inj here
      exact paragraph
    · exact ih later

/-- The calls deliver the records of the input, whatever the reads are, if `RS` is a character or
the input does not end with one newline behind its last line. -/
theorem calls_records_iff (rs : UInt8) {input : List UInt8} (free : 0 ∉ input) :
    (∃ records, IsRecords rs input records ∧ ∀ splits junk n,
      calls splits junk rs n (stream input) = some ((List.range n).map (records[·]?))) ↔
      rs ≠ 0 ∨ ¬Unended input := by
  have called : ∀ splits junk n,
      calls splits junk rs n (stream input) = some (delivered rs n input) := fun splits junk n =>
    @calls_eq [] (stream input) splits junk rs n ⟨rfl, .inl ⟨rfl, rfl⟩⟩ free
  constructor
  · rintro ⟨records, isRecords, delivers⟩
    by_contra neither
    obtain ⟨paragraphs, unended⟩ := not_or.mp neither
    rw [IsRecords, if_neg paragraphs] at isRecords
    obtain rfl := not_not.mp paragraphs
    obtain ⟨n, record, rt, mem, bad⟩ := unended_delivered input (not_not.mp unended)
    have same := (called (fun _ => 0) 0 n).symm.trans (delivers (fun _ => 0) 0 n)
    rw [Option.some.inj same] at mem
    obtain ⟨k, -, here⟩ := List.mem_map.mp mem
    exact bad (isRecords.paragraph (List.mem_of_getElem? here))
  · intro holds
    by_cases single : rs ≠ 0
    · obtain ⟨records, pieces, delivers⟩ := pieces_delivered single input
      refine ⟨records, (if_pos single).mpr pieces, fun splits junk n => ?_⟩
      rw [called, delivers n]
    · obtain ⟨records, paragraphs, delivers⟩ :=
        paragraphs_delivered input (holds.resolve_left single)
      obtain rfl := not_not.mp single
      refine ⟨records, ?_, fun splits junk n => ?_⟩
      · rw [IsRecords, if_neg single, dropWhile_eq]
        exact paragraphs
      · rw [called, delivers n]

theorem calls_records_line : ∃ records, IsRecords 10 [97, 10] records ∧ ∀ splits junk n,
    calls splits junk 10 n (stream [97, 10]) = some ((List.range n).map (records[·]?)) :=
  (calls_records_iff 10 (by decide)).mpr (.inl (by decide))

/-- The paragraph of the input "a\n" is delivered with its newline. -/
theorem calls_not_records : ¬∃ records, IsRecords 0 [97, 10] records ∧ ∀ splits junk n,
    calls splits junk 0 n (stream [97, 10]) = some ((List.range n).map (records[·]?)) := by
  rintro ⟨records, isRecords, delivers⟩
  have first : calls (fun _ => 1) 0 0 1 (stream [97, 10]) = some [some ([97, 10], [])] := by
    decide +kernel
  have mem : some ([97, 10], []) ∈ (List.range 1).map (records[·]?) := by
    rw [← Option.some.inj (first.symm.trans (delivers _ _ _))]
    exact List.mem_cons_self
  obtain ⟨k, -, here⟩ := List.mem_map.mp mem
  obtain ⟨x, last, other⟩ := (Paragraphs.paragraph isRecords (List.mem_of_getElem? here)).last
  exact other (Option.some.inj last).symm

end Busybox.Awk
