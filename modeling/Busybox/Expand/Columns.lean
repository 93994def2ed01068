import Busybox.Expand.Main
import Busybox.Libbb.Strings
import Mathlib.Data.List.TakeWhile

/-!
# unexpand keeps the columns

On a line narrow enough for `int`, `expand` is `TabStops.spread`, and spreading
what `unexpand` prints gives the spread line again. One thing is lost: the loop
passes a tab without printing it, to count it with the blanks that follow, and
when the text is over behind the tab it ends with these blanks still to print.
-/

namespace Busybox.Expand

open TabStops

/-- The line, spread, and one more tab are narrower than `int` counts. -/
def Narrow (width : Width) (tabSize : Nat) (line : Text) : Prop :=
  tabSize + width.of (spread width tabSize 0 [] line) < 2 ^ 31

instance (width : Width) (tabSize : Nat) (line : Text) : Decidable (Narrow width tabSize line) :=
  inferInstanceAs (Decidable (_ < _))

/-- The text ends in a tab that `unexpand` still looks at: with -a any one, else one in
the first blanks, where nothing but a word stands before them. -/
def LosesTab (all first : Bool) (text : Text) : Prop :=
  text.getLast? = some 9 ∧
    (all = true ∨ ∀ c ∈ if first then text.dropWhile (fun c => !isBlank c) else text,
      isBlank c = true)

section Lines

variable {width : Width} {tabSize : Nat}

theorem unsigned_of_lt {n : Nat} (small : n < 2 ^ 31) : unsigned n = n :=
  Nat.mod_eq_of_lt (by omega)

theorem padding_of_lt {len : Nat} (small : len < 2 ^ 31) : padding len = blanks len := by
  rw [padding, if_pos small]

/-- `expand` on text that starts at a tab stop. -/
theorem expandFrom_eq_spread (positive : 0 < tabSize) {column : Nat} (aligned : column % tabSize = 0)
    {held text : Text}
    (narrow : tabSize + width.of (spread width tabSize column held text) < 2 ^ 31) :
    expandFrom width tabSize false held text = spread width tabSize column held text := by
  induction text generalizing column held with
  | nil => rfl
  | cons c rest ih =>
    rw [expandFrom, if_neg (by simp)]
    rw [spread] at narrow ⊢
    split
    case isTrue tab =>
      rw [if_pos tab] at narrow
      dsimp only at narrow ⊢
      set here := column + width.of held with hereEq
      have place : here % tabSize = width.of held % tabSize := by
        rw [hereEq, Nat.add_mod, aligned, Nat.zero_add, Nat.mod_mod]
      have some : 0 < tabSize - here % tabSize := Nat.sub_pos_of_lt (Nat.mod_lt here positive)
      obtain ⟨count, is⟩ := Nat.exists_eq_succ_of_ne_zero some.ne'
      rw [is, Nat.succ_eq_add_one, blanks_succ, List.append_assoc, List.cons_append, width.blank,
        Width.of_blanks] at narrow
      have heldSmall : unsigned (width.of held) = width.of held := unsigned_of_lt (by omega)
      have padSmall : padding (tabSize - here % tabSize) = blanks (tabSize - here % tabSize) :=
        padding_of_lt (by omega)
      rw [heldSmall, ← place, padSmall, ih (mod_next_stop positive here)]
      rw [is, Nat.succ_eq_add_one]
      omega
    case isFalse noTab =>
      rw [if_neg noTab] at narrow
      exact ih aligned narrow

/-! ## The turns of `unexpand` -/

/-- The blanks a turn passes, and what it finds behind them. -/
theorem exists_blanks (text : Text) : ∃ count ptr, text = blanks count ++ ptr ∧ ptr.head? ≠ some 32 := by
  induction text with
  | nil => exact ⟨0, [], rfl, by simp⟩
  | cons c rest ih =>
    by_cases blank : c = 32
    · obtain ⟨count, ptr, rfl, ends⟩ := ih
      exact ⟨count + 1, ptr, by rw [blank]; rfl, ends⟩
    · exact ⟨0, c :: rest, rfl, by simpa using blank⟩

theorem takeWhile_blanks (count : Nat) {ptr : Text} (ends : ptr.head? ≠ some 32) :
    (blanks count ++ ptr).takeWhile (· = 32) = blanks count ∧
      (blanks count ++ ptr).dropWhile (· = 32) = ptr := by
  induction count with
  | zero =>
    cases ptr with
    | nil => exact ⟨rfl, rfl⟩
    | cons c ptr =>
      have other : c ≠ 32 := by simpa using ends
      simp [other]
  | succ count ih => simpa [blanks_succ] using ih

variable {all first : Bool} {column count : Nat} {ptr rest : Text}

/-- A turn that finds a tab. -/
theorem unexpandFrom_tab :
    unexpandFrom width tabSize all first column (blanks count ++ 9 :: rest) =
      unexpandFrom width tabSize all false
        (unsigned (unsigned (column + count) +
          (tabSize - unsigned (column + count) % tabSize))) rest := by
  have tab : (9 :: rest).head? ≠ some 32 := by simp
  obtain ⟨taken, dropped⟩ := takeWhile_blanks count tab
  rw [unexpandFrom, if_neg (by simp), taken, dropped, length_blanks]
  simp

/-- What a turn prints for the blanks it passed, with the columns and their sum. -/
def respelled (tabSize column count : Nat) : Text :=
  tabs ((column + count) / tabSize) ++
    blanks (if (column + count) / tabSize ≠ 0 then (column + count) % tabSize else count)

/-- A turn that finds the end of the first blanks without -a. -/
theorem unexpandFrom_last (nonempty : blanks count ++ ptr ≠ []) (noBlank : ptr.head? ≠ some 32)
    (noTab : ptr.head? ≠ some 9) (last : all = false) (inside : ¬ (first = true ∧ count = 0))
    (positive : 0 < tabSize) (small : column + count < 2 ^ 31)
    (narrow : tabSize + count < 2 ^ 31) :
    unexpandFrom width tabSize all first column (blanks count ++ ptr) =
      respelled tabSize column count ++ ptr := by
  obtain ⟨taken, dropped⟩ := takeWhile_blanks count noBlank
  have below := Nat.mod_lt (column + count) positive
  have sum : unsigned (column + count) = column + count := unsigned_of_lt (by omega)
  have pad : padding (if (column + count) / tabSize ≠ 0 then (column + count) % tabSize else count) =
      blanks (if (column + count) / tabSize ≠ 0 then (column + count) % tabSize else count) :=
    padding_of_lt (by split <;> omega)
  rw [unexpandFrom, if_neg nonempty, taken, dropped, length_blanks, if_neg noTab, sum]
  dsimp only
  rw [if_pos ⟨by simp [last], inside⟩, respelled, ← pad]
  congr 3
  split <;> rfl

/-- A turn that finds a word and goes on behind it. -/
theorem unexpandFrom_word (nonempty : blanks count ++ ptr ≠ []) (noBlank : ptr.head? ≠ some 32)
    (noTab : ptr.head? ≠ some 9) (goesOn : all = true ∨ first = true ∧ count = 0)
    (positive : 0 < tabSize) (small : column + count < 2 ^ 31)
    (narrow : tabSize + count + width.of (ptr.takeWhile fun c => !isBlank c) < 2 ^ 31) :
    unexpandFrom width tabSize all first column (blanks count ++ ptr) =
      respelled tabSize column count ++ (ptr.takeWhile (fun c => !isBlank c) ++
        unexpandFrom width tabSize all false
          ((column + count + width.of (ptr.takeWhile fun c => !isBlank c)) % tabSize)
          (ptr.dropWhile fun c => !isBlank c)) := by
  obtain ⟨taken, dropped⟩ := takeWhile_blanks count noBlank
  have below := Nat.mod_lt (column + count) positive
  have sum : unsigned (column + count) = column + count := unsigned_of_lt (by omega)
  have pad : padding (if (column + count) / tabSize ≠ 0 then (column + count) % tabSize else count) =
      blanks (if (column + count) / tabSize ≠ 0 then (column + count) % tabSize else count) :=
    padding_of_lt (by split <;> omega)
  have place : (if (column + count) / tabSize ≠ 0 then (column + count) % tabSize
      else column + count) = (column + count) % tabSize := by
    split
    · rfl
    case isFalse before =>
      rw [Nat.mod_eq_of_lt ((Nat.div_eq_zero_iff_lt positive).mp (not_not.mp before))]
  rw [unexpandFrom, if_neg nonempty, taken, dropped, length_blanks, if_neg noTab, sum]
  dsimp only
  rw [if_neg (by rintro ⟨notAll, later⟩; rcases goesOn with is | is <;> simp_all), place, respelled,
    ← pad, unsigned_of_lt (by omega), Nat.mod_add_mod]
  simp only [List.append_assoc]

/-- The blanks a turn prints are the columns it has passed since the last word. -/
theorem spread_respelled (positive : 0 < tabSize) {start pending : Nat} (before : start < tabSize)
    (passed : pending = 0 ∨ 0 < pending ∧ (start + pending) % tabSize = 0) (count : Nat)
    (more : Text) :
    spread width tabSize start [] (respelled tabSize (start + pending) count ++ more) =
      blanks (pending + count) ++ spread width tabSize (start + pending + count) [] more := by
  have division := Nat.div_add_mod (start + pending + count) tabSize
  cases quotient : (start + pending + count) / tabSize with
  | zero =>
    have small := (Nat.div_eq_zero_iff_lt positive).mp quotient
    obtain rfl : pending = 0 := by
      rcases passed with zero | ⟨some, aligned⟩
      · exact zero
      · rw [Nat.mod_eq_of_lt (by omega)] at aligned
        omega
    have printed : respelled tabSize (start + 0) count = blanks count := by
      rw [respelled, quotient]
      rfl
    rw [printed, spread_blanks, Nat.zero_add, Nat.add_zero]
  | succ stops =>
    rw [quotient, mul_comm] at division
    have printed : respelled tabSize (start + pending) count =
        tabs (stops + 1) ++ blanks ((start + pending + count) % tabSize) := by
      rw [respelled, quotient]
      rfl
    have reach : start ≤ (stops + 1) * tabSize := by
      have : tabSize ≤ (stops + 1) * tabSize := Nat.le_mul_of_pos_left tabSize (Nat.succ_pos stops)
      omega
    rw [printed, List.append_assoc, spread_tabs before, spread_blanks, division,
      ← List.append_assoc, ← blanks_add]
    congr 2
    omega

/-- What a turn prints starts with a blank or a tab, where there is any to print. -/
theorem divides_respelled (positive : 0 < tabSize) {start pending count : Nat}
    (passed : pending = 0 ∨ 0 < pending ∧ (start + pending) % tabSize = 0)
    (blank : pending ≠ 0 ∨ count ≠ 0) (more : Text) :
    Divides (respelled tabSize (start + pending) count ++ more) := by
  rw [respelled]
  cases quotient : (start + pending + count) / tabSize with
  | succ stops =>
    rintro c ⟨⟩
    rfl
  | zero =>
    have small := (Nat.div_eq_zero_iff_lt positive).mp quotient
    have some : count ≠ 0 := by
      refine blank.resolve_left fun more => ?_
      obtain ⟨-, aligned⟩ := passed.resolve_left more
      rw [Nat.mod_eq_of_lt (by omega)] at aligned
      omega
    obtain ⟨others, rfl⟩ := Nat.exists_eq_succ_of_ne_zero some
    rintro c ⟨⟩
    rfl

/-! ## The whole line -/

theorem dropWhile_blanks {count : Nat} (some : count ≠ 0) (rest : Text) :
    (blanks count ++ rest).dropWhile (fun c => !isBlank c) = blanks count ++ rest := by
  obtain ⟨more, rfl⟩ := Nat.exists_eq_succ_of_ne_zero some
  rfl

theorem isBlank_of_mem_blanks {count : Nat} {c : UInt8} (member : c ∈ blanks count) :
    isBlank c = true := by
  rw [List.eq_of_mem_replicate member]
  rfl

/-- What a word begins with is no blank. -/
theorem exists_not_blank (noBlank : ptr.head? ≠ some 32) (noTab : ptr.head? ≠ some 9)
    (nonempty : ptr ≠ []) : ∃ c behind, ptr = c :: behind ∧ isBlank c = false := by
  cases ptr with
  | nil => exact absurd rfl nonempty
  | cons c behind =>
    refine ⟨c, behind, rfl, ?_⟩
    simpa [isBlank] using And.intro noBlank noTab

theorem divides_dropWhile (text : Text) : Divides (text.dropWhile fun c => !isBlank c) := by
  induction text with
  | nil => exact fun _ is => by cases is
  | cons c rest ih =>
    by_cases blank : isBlank c
    · rintro other is
      simp only [List.dropWhile_cons, blank, Bool.not_true, Bool.false_eq_true, if_false,
        List.head?_cons, Option.mem_some_iff] at is
      exact is ▸ blank
    · simpa [List.dropWhile_cons, blank] using ih

theorem losesTab_tab :
    LosesTab all first (blanks count ++ 9 :: rest) ↔ rest = [] ∨ LosesTab all false rest := by
  have word : (blanks count ++ 9 :: rest).dropWhile (fun c => !isBlank c) =
      blanks count ++ 9 :: rest := by
    cases count <;> rfl
  have scope : (if first then (blanks count ++ 9 :: rest).dropWhile (fun c => !isBlank c)
      else blanks count ++ 9 :: rest) = blanks count ++ 9 :: rest := by
    rw [word, ite_self]
  have blank : (∀ c ∈ blanks count ++ 9 :: rest, isBlank c = true) ↔
      ∀ c ∈ rest, isBlank c = true := by
    constructor
    · intro every c member
      exact every c (by simp [member])
    · intro every c member
      rcases List.mem_append.mp member with spaces | member
      · exact isBlank_of_mem_blanks spaces
      · rcases List.mem_cons.mp member with rfl | member
        · rfl
        · exact every c member
  unfold LosesTab
  rw [scope, blank]
  cases rest with
  | nil => simp
  | cons c rest => simp [List.getLast?_append]

theorem losesTab_last (last : all = false) (inside : ¬ (first = true ∧ count = 0))
    (noBlank : ptr.head? ≠ some 32) (noTab : ptr.head? ≠ some 9) :
    ¬ LosesTab all first (blanks count ++ ptr) := by
  rintro ⟨ends, every⟩
  have every := every.resolve_left (by simp [last])
  have scope : (if first then (blanks count ++ ptr).dropWhile (fun c => !isBlank c)
      else blanks count ++ ptr) = blanks count ++ ptr := by
    split
    case isTrue is => exact dropWhile_blanks (fun zero => inside ⟨is, zero⟩) ptr
    case isFalse => rfl
  rw [scope] at every
  by_cases nonempty : ptr = []
  · rw [nonempty, List.append_nil] at ends
    exact absurd (List.eq_of_mem_replicate (List.mem_of_getLast? ends)) (by decide)
  · obtain ⟨c, behind, rfl, word⟩ := exists_not_blank noBlank noTab nonempty
    exact absurd ((every c (by simp)).symm.trans word) (by decide)

theorem losesTab_word (goesOn : all = true ∨ first = true ∧ count = 0) :
    LosesTab all first (blanks count ++ ptr) ↔
      LosesTab all false (ptr.dropWhile fun c => !isBlank c) := by
  have whole := List.takeWhile_append_dropWhile (p := fun c => !isBlank c) (l := ptr)
  have ends : (blanks count ++ ptr).getLast? = some 9 ↔
      (ptr.dropWhile fun c => !isBlank c).getLast? = some 9 := by
    by_cases behind : (ptr.dropWhile fun c => !isBlank c) = []
    · rw [behind, List.append_nil] at whole
      rw [behind]
      refine iff_of_false (fun ends => ?_) (by simp)
      rcases List.mem_append.mp (List.mem_of_getLast? ends) with spaces | word
      · exact absurd (List.eq_of_mem_replicate spaces) (by decide)
      · rw [← whole] at word
        exact absurd (List.mem_takeWhile_imp word) (by decide)
    · have split : blanks count ++ ptr = (blanks count ++ ptr.takeWhile fun c => !isBlank c) ++
          ptr.dropWhile fun c => !isBlank c := by
        rw [List.append_assoc, whole]
      rw [split, List.getLast?_append_of_ne_nil _ behind]
  unfold LosesTab
  rw [ends]
  refine and_congr_right fun _ => ?_
  rcases goesOn with is | ⟨is, rfl⟩
  · simp [is]
  · simp [is]

/-- What the loop prints, spread from the column where the blanks began that are still
to print, is these blanks and the spread text; or it is that but for some blanks at the
end, where the text loses a tab. By induction on the length of the text. -/
theorem unexpandFrom_spread (positive : 0 < tabSize) {start pending : Nat} {text : Text}
    (before : start < tabSize)
    (passed : pending = 0 ∨ 0 < pending ∧ (start + pending) % tabSize = 0)
    (narrow : tabSize + pending +
      width.of (spread width tabSize (start + pending) [] text) < 2 ^ 31) :
    (pending ≠ 0 ∨ Divides text →
      Divides (unexpandFrom width tabSize all first (start + pending) text)) ∧
    ∃ lost, blanks pending ++ spread width tabSize (start + pending) [] text =
        spread width tabSize start [] (unexpandFrom width tabSize all first (start + pending) text) ++
          blanks lost ∧
      (lost = 0 ↔ ¬ (text = [] ∧ pending ≠ 0 ∨ LosesTab all first text)) := by
  induction sizeEq : text.length using Nat.strong_induction_on
    generalizing text start pending first with
  | _ size ih =>
    by_cases nonempty : text = []
    · subst nonempty
      rw [unexpandFrom, if_pos rfl]
      refine ⟨fun _ _ is => by simp at is, pending, by simp [spread], ?_⟩
      simp [LosesTab]
    obtain ⟨count, ptr, rfl, noBlank⟩ := exists_blanks text
    rw [spread_blanks, Width.of_blanks] at narrow
    by_cases tab : ptr.head? = some 9
    · obtain ⟨rest, rfl⟩ := List.head?_eq_some_iff.mp tab
      set gap := tabSize - (start + pending + count) % tabSize with gapEq
      have gapPos : 0 < gap := Nat.sub_pos_of_lt (Nat.mod_lt _ positive)
      rw [spread_tab, Width.of_blanks, ← gapEq] at narrow
      have column : start + pending + count + gap = start + (pending + count + gap) := by omega
      have shorter : rest.length < size := by
        rw [← sizeEq, List.length_append, List.length_cons]
        omega
      have aligned : (start + (pending + count + gap)) % tabSize = 0 :=
        column ▸ mod_next_stop positive (start + pending + count)
      rw [column] at narrow
      obtain ⟨divides, lost, same, whether⟩ := @ih rest.length shorter false start
        (pending + count + gap) rest before (.inr ⟨by omega, aligned⟩) (by omega) rfl
      have sum : unsigned (start + pending + count) = start + pending + count :=
        unsigned_of_lt (by omega)
      rw [unexpandFrom_tab, sum, ← gapEq, column, unsigned_of_lt (by omega)]
      refine ⟨fun _ => divides (.inl (by omega)), lost, ?_, ?_⟩
      · rw [← same, spread_blanks, spread_tab, ← gapEq, column, ← List.append_assoc,
          ← List.append_assoc, ← blanks_add, ← blanks_add]
      · have later : pending + count + gap ≠ 0 := by omega
        rw [whether, losesTab_tab]
        simp only [later, nonempty, ne_eq, not_false_eq_true, and_true, false_and, false_or]
    · have blank : pending ≠ 0 ∨ Divides (blanks count ++ ptr) → pending ≠ 0 ∨ count ≠ 0 := by
        refine Or.imp_right fun divides => ?_
        rintro rfl
        obtain ⟨c, behind, rfl, word⟩ := exists_not_blank noBlank tab nonempty
        exact absurd ((divides c rfl).symm.trans word) (by decide)
      by_cases goesOn : all = true ∨ first = true ∧ count = 0
      · set word := ptr.takeWhile fun c => !isBlank c with wordEq
        set rest := ptr.dropWhile fun c => !isBlank c with restEq
        have whole : word ++ rest = ptr := List.takeWhile_append_dropWhile
        have noTab : 9 ∉ word := fun member =>
          absurd (List.mem_takeWhile_imp member) (by decide)
        have divides : Divides rest := divides_dropWhile ptr
        rw [← whole, spread_word _ noTab divides, width_spread_word positive word divides] at narrow
        have shorter : rest.length < size := by
          have passed := (takeWhile_blanks count noBlank).2
          have used := length_word_lt nonempty (by rw [passed]; exact tab)
          rw [passed] at used
          exact sizeEq ▸ used
        set next := (start + pending + count + width.of word) % tabSize with nextEq
        have same (text : Text) :
            spread width tabSize (start + pending + count + width.of word) [] text =
              spread width tabSize next [] text := spread_mod (Nat.mod_mod _ _).symm [] text
        rw [same] at narrow
        obtain ⟨later, lost, printed, whether⟩ := @ih rest.length shorter false next 0 rest
          (Nat.mod_lt _ positive) (.inl rfl) (by rw [Nat.add_zero, Nat.add_zero]; omega) rfl
        rw [Nat.add_zero] at later printed
        rw [unexpandFrom_word nonempty noBlank tab goesOn positive (by omega)
          (by rw [← wordEq]; omega), ← wordEq, ← restEq, ← nextEq]
        refine ⟨fun is => divides_respelled positive passed (blank is) _, lost, ?_, ?_⟩
        · have line : spread width tabSize (start + pending + count) [] ptr =
              word ++ spread width tabSize next [] rest := by
            rw [← same, ← spread_word _ noTab divides, whole]
          rw [spread_respelled positive before passed, spread_word _ noTab (later (.inr divides)),
            same, spread_blanks, line, blanks_add]
          rw [blanks_zero, List.nil_append] at printed
          rw [printed]
          simp only [List.append_assoc]
        · rw [whether, losesTab_word goesOn, ← restEq]
          simp only [nonempty, ne_eq, not_true_eq_false, and_false, false_and, false_or]
      · obtain ⟨notAll, inside⟩ := not_or.mp goesOn
        have last : all = false := by simpa using notAll
        rw [unexpandFrom_last nonempty noBlank tab last inside positive (by omega) (by omega),
          spread_respelled positive before passed]
        refine ⟨fun is => divides_respelled positive passed (blank is) _, 0, ?_, ?_⟩
        · rw [spread_blanks, ← List.append_assoc, ← blanks_add, blanks_zero, List.append_nil]
        · exact iff_of_true rfl (by simp [nonempty, losesTab_last last inside noBlank tab])

/-- A whole line: `unexpand` prints what spreads to the line but for some blanks at its
end, where it loses a tab. -/
theorem unexpandLine_spread (all : Bool) (positive : 0 < tabSize) {line : Text}
    (narrow : Narrow width tabSize line) :
    ∃ lost, spread width tabSize 0 [] line =
        spread width tabSize 0 [] (unexpandFrom width tabSize all true 0 line) ++ blanks lost ∧
      (lost = 0 ↔ ¬ LosesTab all true line) := by
  have nothing : tabSize + 0 + width.of (spread width tabSize (0 + 0) [] line) < 2 ^ 31 := narrow
  obtain ⟨lost, same, whether⟩ :=
    (@unexpandFrom_spread width tabSize all true positive 0 0 line positive (.inl rfl) nothing).2
  exact ⟨lost, by simpa using same, by simpa using whether⟩

end Lines

/-! ## Files -/

section Files

variable {width : Width} {tabSize : Nat}

/-- Lines as they are read: all but the last end in a newline. -/
inductive Lined : List Text → Prop
  | nil : Lined []
  | last {line : Text} (nonempty : line ≠ []) (rest : 10 ∉ line) : Lined [line]
  | cons {body : Text} {later : List Text} (inside : 10 ∉ body) (rest : Lined later) :
      Lined ((body ++ [10]) :: later)

theorem lines_cons {body : Text} (inside : 10 ∉ body) (rest : Text) :
    lines (body ++ 10 :: rest) = (body ++ [10]) :: lines rest := by
  induction body with
  | nil => simp [lines]
  | cons c body ih =>
    rw [List.mem_cons, not_or] at inside
    rw [List.cons_append, lines, if_neg (Ne.symm inside.1), ih inside.2]
    rfl

theorem lines_last {line : Text} (nonempty : line ≠ []) (rest : 10 ∉ line) :
    lines line = [line] := by
  induction line with
  | nil => exact absurd rfl nonempty
  | cons c line ih =>
    rw [List.mem_cons, not_or] at rest
    rw [lines, if_neg (Ne.symm rest.1)]
    cases line with
    | nil => rfl
    | cons next line => rw [ih (by simp) rest.2]

theorem lined_lines (file : Text) : Lined (lines file) := by
  induction size : file.length using Nat.strong_induction_on generalizing file with
  | _ size ih =>
    by_cases newline : 10 ∈ file
    · obtain ⟨body, rest, rfl, inside⟩ := List.eq_append_cons_of_mem newline
      rw [lines_cons inside]
      refine .cons inside (ih rest.length ?_ rest rfl)
      rw [← size, List.length_append, List.length_cons]
      omega
    · by_cases nonempty : file = []
      · subst nonempty
        exact .nil
      · rw [lines_last nonempty newline]
        exact .last nonempty newline

@[simp] theorem flatten_lines (file : Text) : (lines file).flatten = file := by
  induction file with
  | nil => rfl
  | cons c rest ih =>
    rw [lines]
    split
    · rw [List.flatten_cons, ih]
      rfl
    · split
      case h_1 none =>
        rw [none] at ih
        rw [← ih]
        rfl
      case h_2 line later is =>
        rw [is] at ih
        rw [← ih]
        rfl

theorem cString_of_noNul {line : Text} (noNul : 0 ∉ line) : cString line = line := by
  refine List.takeWhile_eq_self_iff.mpr fun c member => ?_
  have other : c ≠ 0 := fun is => noNul (is ▸ member)
  simpa using other

/-- What `expand` prints for one line. -/
def expandLine (width : Width) (tabSize : Nat) (line : Text) : Text :=
  expandFrom width tabSize false [] (cString line)

theorem expandLine_eq_spread (positive : 0 < tabSize) {line : Text} (noNul : 0 ∉ line)
    (narrow : Narrow width tabSize line) :
    expandLine width tabSize line = spread width tabSize 0 [] line := by
  rw [expandLine, cString_of_noNul noNul]
  exact expandFrom_eq_spread positive (Nat.zero_mod tabSize) narrow

theorem expand_cons {body : Text} (inside : 10 ∉ body) (rest : Text) :
    expand width tabSize false (body ++ 10 :: rest) =
      expandLine width tabSize (body ++ [10]) ++ expand width tabSize false rest := by
  rw [expand, lines_cons inside]
  rfl

theorem expand_last {line : Text} (rest : 10 ∉ line) :
    expand width tabSize false line = expandLine width tabSize line := by
  by_cases nonempty : line = []
  · subst nonempty
    rfl
  · rw [expand, lines_last nonempty rest, List.flatMap_singleton]
    rfl

/-- What `unexpand` prints for a line: it has the same characters apart from blanks, and
expanded it is the line expanded but for some blanks at the end. -/
theorem expandLine_unexpand (all : Bool) (positive : 0 < tabSize) {line : Text} (noNul : 0 ∉ line)
    (narrow : Narrow width tabSize line) :
    (∀ c, isBlank c = false →
      (unexpandFrom width tabSize all true 0 line).count c = line.count c) ∧
    ∃ lost, expandLine width tabSize line =
        expandLine width tabSize (unexpandFrom width tabSize all true 0 line) ++ blanks lost ∧
      (lost = 0 ↔ ¬ LosesTab all true line) := by
  obtain ⟨lost, same, whether⟩ := unexpandLine_spread all positive narrow
  set printed := unexpandFrom width tabSize all true 0 line
  have counts (c : UInt8) (noBlank : isBlank c = false) : printed.count c = line.count c := by
    have other : (blanks lost).count c = 0 := by
      refine List.count_eq_zero.mpr fun member => ?_
      rw [isBlank_of_mem_blanks member] at noBlank
      cases noBlank
    have both := congrArg (List.count c) same
    rw [List.count_append, other, count_spread noBlank, count_spread noBlank] at both
    simpa using both.symm
  have noNul' : 0 ∉ printed := by
    rw [← List.count_eq_zero, counts 0 rfl, List.count_eq_zero]
    exact noNul
  have narrow' : Narrow width tabSize printed := by
    refine lt_of_le_of_lt ?_ narrow
    rw [same]
    cases lost with
    | zero => simp
    | succ lost =>
      rw [blanks_succ, width.blank]
      omega
  refine ⟨counts, lost, ?_, whether⟩
  rw [expandLine_eq_spread positive noNul narrow, expandLine_eq_spread positive noNul' narrow', same]

/-- What `unexpand` prints for a line that ends in a newline is such a line. -/
theorem unexpandLine_closed (all : Bool) (positive : 0 < tabSize) {body : Text} (inside : 10 ∉ body)
    (narrow : Narrow width tabSize (body ++ [10])) :
    ∃ printed, unexpandFrom width tabSize all true 0 (body ++ [10]) = printed ++ [10] ∧
      10 ∉ printed := by
  have keeps : ¬ LosesTab all true (body ++ [10]) := by
    rintro ⟨ends, -⟩
    simp at ends
  obtain ⟨lost, same, whether⟩ := unexpandLine_spread all positive narrow
  obtain rfl := whether.mpr keeps
  rw [blanks_zero, List.append_nil] at same
  have counts := congrArg (List.count 10) same
  rw [count_spread rfl, count_spread rfl] at counts
  have ends : (spread width tabSize 0 [] (body ++ [10])).getLast? = some 10 :=
    getLast?_spread positive 0 [] body 10
  rw [same] at ends
  obtain nothing | ⟨printed, c, is⟩ :=
    List.eq_nil_or_concat (unexpandFrom width tabSize all true 0 (body ++ [10]))
  · rw [nothing] at ends
    simp [spread] at ends
  · rw [is, List.concat_eq_append] at ends counts ⊢
    rw [getLast?_spread positive] at ends
    have newline : c = 10 := by
      split at ends
      · simp at ends
      · simpa using ends
    subst newline
    refine ⟨printed, rfl, ?_⟩
    rw [List.count_append, List.count_append, List.count_eq_zero.mpr inside] at counts
    exact List.count_eq_zero.mp (by simpa using counts.symm)

/-- The lines of a file one after another. -/
theorem expand_lines (all : Bool) (positive : 0 < tabSize) {texts : List Text} (lined : Lined texts)
    (noNul : ∀ line ∈ texts, 0 ∉ line) (narrow : ∀ line ∈ texts, Narrow width tabSize line) :
    ∃ lost, texts.flatMap (expandLine width tabSize) =
        expand width tabSize false
          (texts.flatMap fun line => unexpandFrom width tabSize all true 0 (cString line)) ++
        blanks lost ∧
      (lost = 0 ↔ ¬ ∃ line ∈ texts.getLast?, LosesTab all true line) := by
  induction lined with
  | nil => exact ⟨0, rfl, by simp⟩
  | @last line nonempty rest =>
    have noNul := noNul line (by simp)
    obtain ⟨counts, lost, same, whether⟩ :=
      expandLine_unexpand all positive noNul (narrow line (by simp))
    have rest' : 10 ∉ unexpandFrom width tabSize all true 0 line := by
      rw [← List.count_eq_zero, counts 10 rfl, List.count_eq_zero]
      exact rest
    refine ⟨lost, ?_, by simpa using whether⟩
    rw [List.flatMap_singleton, List.flatMap_singleton, cString_of_noNul noNul, expand_last rest',
      same]
  | @cons body later inside _ ih =>
    have noNul' := noNul (body ++ [10]) (by simp)
    have narrow' := narrow (body ++ [10]) (by simp)
    obtain ⟨-, lost, same, whether⟩ := expandLine_unexpand all positive noNul' narrow'
    obtain rfl := whether.mpr (by rintro ⟨ends, -⟩; simp at ends)
    obtain ⟨printed, is, inside'⟩ := unexpandLine_closed all positive inside narrow'
    obtain ⟨lost, behind, whether⟩ := ih (fun line member => noNul line (by simp [member]))
      (fun line member => narrow line (by simp [member]))
    refine ⟨lost, ?_, ?_⟩
    · rw [List.flatMap_cons, List.flatMap_cons, cString_of_noNul noNul', is, List.append_assoc,
        List.singleton_append, expand_cons inside', ← is, same, behind]
      simp only [blanks_zero, List.append_nil, List.append_assoc]
    · rw [whether]
      cases later with
      | nil =>
        refine iff_of_true (by simp) ?_
        rintro ⟨line, ⟨⟩, ends, -⟩
        simp at ends
      | cons next later => simp

end Files

end Busybox.Expand
