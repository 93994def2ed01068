import Busybox.Lib.Directories
import Busybox.Pwdgrp.Tokenize

/-!
# The fields of a record

A record is divided as it should be where squeezing out blanks takes away nothing else, and where
the NUL of the string never comes to lie in the cell of a separator.
-/

namespace Busybox.Pwdgrp.Fields

open Libbb.Strings Tokenize

/-- A field without the blanks around it. -/
def trimmed (name : List UInt8) : List UInt8 := (name.dropWhile isblank).rdropWhile isblank

/-- The fields, each with a NUL behind it. -/
def divided (names : List (List UInt8)) : List UInt8 :=
  names.flatMap fun name => trimmed name ++ [0]

/-- The white space at the start of a field, if it starts with a blank, consists of blanks and does
not go on behind the field. -/
def Blanks (ch : UInt8) (text : List UInt8) : Prop :=
  text.head?.any isblank = true → ∀ c ∈ text.takeWhile isspace, isblank c = true ∧ c ≠ ch

/-- The number of blanks at the end of a field, those at its start apart. -/
def trailing (name : List UInt8) : Nat := ((name.dropWhile isblank).rtakeWhile isblank).length

/-- No field starts with a blank that other white space or the separator follows, and none but the
last ends with one blank more than there are characters behind its separator. -/
def Divisible (ch : UInt8) : List (List UInt8) → Prop
  | [] => True
  | name :: rest =>
    Blanks ch (List.intercalate [ch] (name :: rest)) ∧
    (rest ≠ [] → trailing name ≠ (List.intercalate [ch] rest).length + 1) ∧
    Divisible ch rest

variable {ch : UInt8} {text name tail : List UInt8}

/-! ## A field that starts as it should -/

theorem dropWhile_congr {α : Type*} {p q : α → Bool} (stronger : ∀ a, q a = true → p a = true)
    {l : List α} (same : ∀ a ∈ l.takeWhile p, q a = true) : l.dropWhile p = l.dropWhile q := by
  induction l with
  | nil => rfl
  | cons a l ih =>
    by_cases holds : p a = true
    · rw [List.takeWhile_cons_of_pos holds] at same
      obtain ⟨here, later⟩ := List.forall_mem_cons.mp same
      rw [List.dropWhile_cons_of_pos holds, List.dropWhile_cons_of_pos here, ih later]
    · rw [List.dropWhile_cons_of_neg holds,
        List.dropWhile_cons_of_neg fun strong => holds (stronger a strong)]

/-- What stands behind a field: nothing, or the separator. -/
def Follows (ch : UInt8) (tail : List UInt8) : Prop := ∀ c ∈ tail.head?, c = ch

theorem dropWhile_field {q : UInt8 → Bool} (stops : q ch = false) (follows : Follows ch tail)
    (name : List UInt8) : (name ++ tail).dropWhile q = name.dropWhile q ++ tail := by
  induction name with
  | nil =>
    cases tail with
    | nil => rfl
    | cons c tail =>
      obtain rfl := follows c rfl
      exact List.dropWhile_cons_of_neg (by simp [stops])
  | cons c name ih =>
    rw [List.cons_append]
    by_cases holds : q c = true
    · rw [List.dropWhile_cons_of_pos holds, List.dropWhile_cons_of_pos holds, ih]
    · rw [List.dropWhile_cons_of_neg holds, List.dropWhile_cons_of_neg holds, List.cons_append]

theorem squeezed_field (clean : ch ∉ name) (follows : Follows ch tail)
    (blanks : Blanks ch (name ++ tail)) :
    squeezed (name ++ tail) = name.dropWhile isblank ++ tail := by
  have own : name.dropWhile (fun c => isblank c && c != ch) = name.dropWhile isblank := by
    refine (dropWhile_congr (fun c both => ((Bool.and_eq_true _ _).mp both).1) ?_).symm
    intro c mem
    have inside := (List.takeWhile_prefix isblank).subset mem
    rw [List.mem_takeWhile_imp mem, Bool.true_and, bne_iff_ne]
    rintro rfl
    exact clean inside
  have together : squeezed (name ++ tail) =
      (name ++ tail).dropWhile fun c => isblank c && c != ch := by
    unfold squeezed
    split
    case isTrue blank =>
      refine dropWhile_congr ?_ ?_
      · exact fun c both => isspace_of_isblank ((Bool.and_eq_true _ _).mp both).1
      · intro c mem
        obtain ⟨isBlank, other⟩ := blanks blank c mem
        rw [isBlank, Bool.true_and, bne_iff_ne]
        exact other
    case isFalse solid =>
      cases whole : name ++ tail with
      | nil => rfl
      | cons c rest =>
        rw [whole] at solid
        have notBlank : ¬isblank c = true := solid
        rw [List.dropWhile_cons_of_neg]
        simp [notBlank]
  rw [together, dropWhile_field (by simp) follows, own]

theorem field_squeezed (clean : ch ∉ name) (follows : Follows ch tail)
    (blanks : Blanks ch (name ++ tail)) :
    field ch (squeezed (name ++ tail)) = name.dropWhile isblank ∧
      (squeezed (name ++ tail)).dropWhile (· ≠ ch) = tail := by
  have inside : ∀ c ∈ name.dropWhile isblank, decide (c ≠ ch) = true := by
    intro c mem
    refine decide_eq_true ?_
    rintro rfl
    exact clean ((List.dropWhile_suffix isblank).subset mem)
  rw [squeezed_field clean follows blanks, field, List.takeWhile_append_of_pos inside,
    List.dropWhile_append_of_pos inside]
  cases tail with
  | nil => simp
  | cons c tail =>
    obtain rfl := follows c rfl
    simp

theorem stripped_field (clean : ch ∉ name) (follows : Follows ch tail)
    (blanks : Blanks ch (name ++ tail)) : stripped ch (name ++ tail) = trimmed name := by
  rw [stripped, (field_squeezed clean follows blanks).1, trimmed]

/-! ## A field that does not -/

theorem divided_of_dropWhile (text : List UInt8) :
    (squeezed text).dropWhile (· ≠ ch) = [] ∨
      ∃ rest, (squeezed text).dropWhile (· ≠ ch) = ch :: rest := by
  have stops := List.head?_dropWhile_not (· ≠ ch) (squeezed text)
  cases ends : (squeezed text).dropWhile (· ≠ ch) with
  | nil => exact .inl rfl
  | cons d rest =>
    rw [ends] at stops
    obtain rfl : d = ch := by simpa using stops
    exact .inr ⟨rest, rfl⟩

/-- No more fields are found than there are. -/
theorem outcome_count (text : List UInt8) : (outcome ch text).2 ≤ (squeezed text).count ch + 1 := by
  induction length : text.length using Nat.strongRecOn generalizing text with
  | _ n ih =>
  subst length
  rcases @divided_of_dropWhile ch text with ends | ⟨rest, ends⟩
  · rw [outcome_last ends]
    exact Nat.succ_le_succ (Nat.zero_le _)
  · by_cases early : EndsEarly ch text rest
    · rw [outcome_early ends early]
      exact Nat.succ_le_succ (Nat.zero_le _)
    · have whole := List.takeWhile_append_dropWhile (p := (· ≠ ch)) (l := squeezed text)
      rw [ends] at whole
      have suffix := squeezed_suffix text
      have lengths := suffix.length_le
      rw [← whole, List.length_append, List.length_cons] at lengths
      have later := ih rest.length (by omega) rest rfl
      have fewer := (squeezed_suffix rest).sublist.count_le ch
      rw [outcome_next ends early, ← whole, List.count_append, List.count_cons_self]
      omega

theorem head_append {α : Type*} {holds : α → Prop} {l : List α} {d : α}
    (first : ∀ c ∈ l.head?, holds c) (otherwise : l = [] → holds d) (more : List α) :
    ∀ c ∈ (l ++ d :: more).head?, holds c := by
  cases l with
  | nil =>
    rintro c ⟨⟩
    exact otherwise rfl
  | cons e l => exact first

theorem head_prefix {α : Type*} {holds : α → Prop} {front l : List α} (isPrefix : front <+: l)
    (first : ∀ c ∈ l.head?, holds c) : ∀ c ∈ front.head?, holds c := by
  obtain ⟨rest, rfl⟩ := isPrefix
  cases front with
  | nil => exact nofun
  | cons e front => exact first

/-- What is left at the start of a field whose blanks were squeezed out is no white space. -/
theorem outcome_head (blank : text.head?.any isblank = true) :
    ∀ c ∈ (outcome ch text).1.head?, isspace c = false := by
  have solid : ∀ c ∈ (squeezed text).head?, isspace c = false := by
    intro c isHead
    have stops := List.head?_dropWhile_not isspace text
    rw [squeezed, if_pos blank] at isHead
    rw [isHead] at stops
    simpa using stops
  have word : ∀ c ∈ (field ch (squeezed text)).head?, isspace c = false :=
    head_prefix (List.takeWhile_prefix _) solid
  have kept : ∀ c ∈ (stripped ch text).head?, isspace c = false :=
    head_prefix (List.rdropWhile_prefix _ _) word
  rcases @divided_of_dropWhile ch text with ends | ⟨rest, ends⟩
  · rw [outcome_last ends]
    exact head_append kept (fun _ => isspace_zero) []
  by_cases early : EndsEarly ch text rest
  · rw [outcome_early ends early]
    refine head_append kept (fun nothing => ?_) []
    -- a field of blanks would start with one
    have blanks := List.rdropWhile_eq_nil_iff.mp nothing
    rw [EndsEarly, nothing] at early
    cases start : field ch (squeezed text) with
    | nil =>
      rw [start] at early
      simp at early
    | cons c more =>
      have isBlank := blanks c (by rw [start]; exact List.mem_cons_self)
      have notSpace := word c (by rw [start]; rfl)
      rw [isspace_of_isblank isBlank] at notSpace
      cases notSpace
  · rw [outcome_next ends early]
    exact head_append kept (fun _ => isspace_zero) _

/-- White space that is no blank is left at the start of a trimmed field. -/
theorem trimmed_space {c : UInt8} (follows : Follows ch tail)
    (own : ch ∉ (name ++ tail).takeWhile isspace) (mem : c ∈ (name ++ tail).takeWhile isspace)
    (other : ¬isblank c = true) :
    ∃ d more, name.dropWhile isblank = d :: more ∧ isspace d = true ∧ ¬isblank d = true := by
  induction name with
  | nil =>
    cases tail with
    | nil => cases mem
    | cons d tail =>
      obtain rfl := follows d rfl
      by_cases space : isspace d = true
      · rw [List.nil_append, List.takeWhile_cons_of_pos space] at own
        exact absurd List.mem_cons_self own
      · rw [List.nil_append, List.takeWhile_cons_of_neg space] at mem
        cases mem
  | cons e name ih =>
    by_cases space : isspace e = true
    · rw [List.cons_append, List.takeWhile_cons_of_pos space] at own mem
      by_cases blank : isblank e = true
      · rw [List.dropWhile_cons_of_pos blank]
        refine ih (fun inside => own (List.mem_cons_of_mem _ inside)) ?_
        rcases List.mem_cons.mp mem with rfl | later
        · exact absurd blank other
        · exact later
      · exact ⟨e, name, List.dropWhile_cons_of_neg blank, space, blank⟩
    · rw [List.cons_append, List.takeWhile_cons_of_neg space] at mem
      cases mem

/-- Where something else is squeezed out too, the fields are not those of the record. -/
theorem outcome_ne (follows : Follows ch tail)
    (other : ¬Blanks ch (name ++ tail)) (left : List UInt8) :
    outcome ch (name ++ tail) ≠ (trimmed name ++ 0 :: left, (name ++ tail).count ch + 1) := by
  obtain ⟨blank, c, mem, kind⟩ : (name ++ tail).head?.any isblank = true ∧
      ∃ c ∈ (name ++ tail).takeWhile isspace, ¬(isblank c = true ∧ c ≠ ch) := by
    simpa [Blanks] using other
  intro same
  by_cases crosses : ch ∈ (name ++ tail).takeWhile isspace
  · have counted := @outcome_count ch (name ++ tail)
    have whole := List.takeWhile_append_dropWhile (p := isspace) (l := name ++ tail)
    have total := congrArg (List.count ch) whole
    have crossed := List.count_pos_iff.mpr crosses
    rw [same, squeezed, if_pos blank] at counted
    rw [List.count_append] at total
    simp only at counted
    omega
  · have head := @outcome_head ch _ blank
    rw [same] at head
    have isOther : ¬isblank c = true := fun isBlank =>
      kind ⟨isBlank, fun isSep => crosses (isSep ▸ mem)⟩
    obtain ⟨d, more, start, space, solid⟩ := trimmed_space follows crosses mem isOther
    have first : ∀ e ∈ (trimmed name).head?, e = d := by
      refine head_prefix (List.rdropWhile_prefix _ _) ?_
      rw [start]
      rintro e ⟨⟩
      rfl
    cases kept : trimmed name with
    | nil =>
      have blanks := List.rdropWhile_eq_nil_iff.mp kept
      rw [start] at blanks
      exact solid (blanks d List.mem_cons_self)
    | cons e older =>
      rw [kept] at first head
      obtain rfl := first e rfl
      rw [head e rfl] at space
      cases space

/-! ## The whole record -/

variable {names : List (List UInt8)}

theorem count_intercalate (nonempty : names ≠ []) (clean : ∀ name ∈ names, ch ∉ name) :
    (List.intercalate [ch] names).count ch + 1 = names.length := by
  induction names with
  | nil => exact absurd rfl nonempty
  | cons name rest ih =>
    obtain ⟨here, later⟩ := List.forall_mem_cons.mp clean
    cases rest with
    | nil => simpa using List.count_eq_zero.mpr here
    | cons next rest =>
      have more := ih (by simp) later
      rw [List.intercalate_cons_cons, List.append_assoc, List.count_append,
        List.count_eq_zero.mpr here, List.singleton_append, List.count_cons_self, List.length_cons]
      omega

theorem endsEarly_iff {rest : List UInt8} (clean : ch ∉ name) (follows : Follows ch tail)
    (blanks : Blanks ch (name ++ tail)) :
    EndsEarly ch (name ++ tail) rest ↔ trailing name = rest.length + 1 := by
  have whole := congrArg List.length
    (List.rdropWhile_append_rtakeWhile (p := isblank) (l := name.dropWhile isblank))
  rw [List.length_append] at whole
  rw [EndsEarly, (field_squeezed clean follows blanks).1, stripped_field clean follows blanks,
    trimmed, trailing]
  omega

/-- What the loop does to a record is to divide it exactly where it can be divided. -/
theorem outcome_divided (nonempty : names ≠ []) (clean : ∀ name ∈ names, ch ∉ name) :
    outcome ch (List.intercalate [ch] names) = (divided names, names.length) ↔
      Divisible ch names := by
  induction names with
  | nil => exact absurd rfl nonempty
  | cons name rest ih =>
    obtain ⟨here, later⟩ := List.forall_mem_cons.mp clean
    rw [Divisible]
    have split : ∃ tail, List.intercalate [ch] (name :: rest) = name ++ tail ∧ Follows ch tail ∧
        (rest = [] ∧ tail = [] ∨ rest ≠ [] ∧ tail = ch :: List.intercalate [ch] rest) := by
      cases rest with
      | nil => exact ⟨[], by simp, nofun, .inl ⟨rfl, rfl⟩⟩
      | cons next rest =>
        refine ⟨ch :: List.intercalate [ch] (next :: rest), by simp, ?_, .inr ⟨by simp, rfl⟩⟩
        rintro c ⟨⟩
        rfl
    obtain ⟨tail, whole, follows, kind⟩ := split
    have counted := count_intercalate nonempty clean
    rw [whole] at counted ⊢
    by_cases blanks : Blanks ch (name ++ tail)
    · have ends := (field_squeezed here follows blanks).2
      rcases kind with ⟨rfl, rfl⟩ | ⟨more, rfl⟩
      · rw [outcome_last ends, stripped_field here follows blanks]
        exact iff_of_true (by simp [divided]) ⟨blanks, fun more => absurd rfl more, trivial⟩
      · by_cases early : trailing name = (List.intercalate [ch] rest).length + 1
        · rw [outcome_early ends ((endsEarly_iff here follows blanks).mpr early)]
          refine iff_of_false ?_ fun divisible => divisible.2.1 more early
          intro same
          have one := congrArg Prod.snd same
          have several := List.length_pos_iff.mpr more
          simp only [List.length_cons] at one
          omega
        · rw [outcome_next ends (mt (endsEarly_iff here follows blanks).mp early),
            stripped_field here follows blanks]
          have further := ih more later
          rw [Prod.ext_iff] at further ⊢
          simp only [divided, List.flatMap_cons, List.append_assoc, List.singleton_append,
            List.append_cancel_left_eq, List.cons.injEq, true_and, List.length_cons,
            Nat.add_right_cancel_iff] at further ⊢
          rw [further]
          exact ⟨fun divisible => ⟨blanks, fun _ => early, divisible⟩, fun all => all.2.2⟩
    · refine iff_of_false ?_ fun divisible => blanks divisible.1
      have other := outcome_ne follows blanks (divided rest)
      rw [counted] at other
      simpa [divided] using other

/-- What the loop does to a record, for the whole record. -/
theorem outcome_record (ch : UInt8) (text : List UInt8) :
    outcome ch text = (divided (text.splitOn ch), text.count ch + 1) ↔
      Divisible ch (text.splitOn ch) := by
  have nonempty := List.splitOn_ne_nil ch text
  have own : ∀ name ∈ text.splitOn ch, ch ∉ name := Directories.not_mem_splitOn
  have divides := outcome_divided nonempty own
  rwa [← count_intercalate nonempty own, List.intercalate_splitOn] at divides

theorem tokenize_eq_iff (clean : 0 ∉ text) (ch : UInt8) (behind cells : List UInt8) (count : Nat) :
    (∃ left, tokenize (text ++ 0 :: behind) ch = some ⟨cells ++ left, cells.length, count⟩) ↔
      outcome ch text = (cells, count) := by
  obtain ⟨left, ran⟩ := tokenize_outcome clean ch behind
  rw [ran]
  constructor
  · rintro ⟨left', same⟩
    obtain ⟨buffer, length, fields⟩ := Tokenized.mk.inj (Option.some.inj same)
    exact Prod.ext (List.append_inj buffer length).1 fields
  · intro same
    exact ⟨left, by rw [same]⟩

/-- For every string and every separator, the fields are left without the blanks around them, each
with a NUL behind it, and are counted, exactly where the record can be divided. -/
theorem tokenize_fields_iff (text : List UInt8) (clean : 0 ∉ text) (ch : UInt8)
    (behind : List UInt8) :
    (∃ left, tokenize (text ++ 0 :: behind) ch = some
      ⟨divided (text.splitOn ch) ++ left, (divided (text.splitOn ch)).length, text.count ch + 1⟩) ↔
      Divisible ch (text.splitOn ch) :=
  (tokenize_eq_iff clean ch behind _ _).trans (outcome_record ch text)

/-- `a :b` and `a  :b` -/
def oneBlank : List UInt8 := [97, 32, 58, 98]
def twoBlanks : List UInt8 := [97, 32, 32, 58, 98]

theorem tokenize_fields_oneBlank :
    (∃ left, tokenize (oneBlank ++ 0 :: []) 58 = some
      ⟨divided (oneBlank.splitOn 58) ++ left, (divided (oneBlank.splitOn 58)).length,
        oneBlank.count 58 + 1⟩) ↔ Divisible 58 (oneBlank.splitOn 58) :=
  tokenize_fields_iff oneBlank (by decide) 58 []

/-- Two blanks in front of the separator and one character behind it: the first field is all that is
found. -/
theorem tokenize_twoBlanks :
    ¬∃ left, tokenize (twoBlanks ++ 0 :: []) 58 = some
      ⟨divided (twoBlanks.splitOn 58) ++ left, (divided (twoBlanks.splitOn 58)).length,
        twoBlanks.count 58 + 1⟩ := by
  rw [tokenize_eq_iff (by decide), outcome_record]
  exact fun divisible => divisible.2.1 (by decide) (by decide)

end Busybox.Pwdgrp.Fields
