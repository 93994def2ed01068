import Mathlib.Data.List.Basic
import Mathlib.Tactic.Ring

/-!
# Tab stops

Text with tabs, printed on a line with a tab stop at every multiple of some
width. `spread` replaces each tab by the blanks it stands for. The width of text
is left open: all that is asked of it is that a blank takes one column and
divides the text.
-/

namespace Busybox.TabStops

/-- A measure of text in columns. -/
structure Width where
  of : List UInt8 → Nat
  nil : of [] = 0
  blank : ∀ before after, of (before ++ 32 :: after) = of before + 1 + of after

/-- Every byte takes a column. -/
def Width.bytes : Width where
  of := List.length
  nil := rfl
  blank := by
    intro before after
    simp only [List.length_append, List.length_cons]
    omega

def blanks (count : Nat) : List UInt8 := List.replicate count 32

def tabs (count : Nat) : List UInt8 := List.replicate count 9

/-- A blank or a tab. -/
def isBlank (c : UInt8) : Bool := c == 32 || c == 9

/-- Text that starts at `column`, of which `held` was read since the last tab, with
its tabs replaced by blanks. -/
def spread (width : Width) (stop column : Nat) (held : List UInt8) : List UInt8 → List UInt8
  | [] => held
  | c :: rest =>
    if c = 9 then
      let here := column + width.of held
      held ++ blanks (stop - here % stop) ++ spread width stop (here + (stop - here % stop)) [] rest
    else spread width stop column (held ++ [c]) rest

/-- The text is over or goes on with a blank or a tab. -/
def Divides (rest : List UInt8) : Prop := ∀ c ∈ rest.head?, isBlank c = true

variable {width : Width} {stop : Nat}

@[simp] theorem blanks_zero : blanks 0 = [] := rfl

theorem blanks_succ (count : Nat) : blanks (count + 1) = 32 :: blanks count := rfl

theorem blanks_add (count more : Nat) : blanks (count + more) = blanks count ++ blanks more :=
  List.replicate_add ..

@[simp] theorem length_blanks (count : Nat) : (blanks count).length = count :=
  List.length_replicate

theorem Width.of_blanks (count : Nat) (rest : List UInt8) :
    width.of (blanks count ++ rest) = count + width.of rest := by
  induction count with
  | zero => simp
  | succ count ih =>
    have first := width.blank [] (blanks count ++ rest)
    rw [List.nil_append, width.nil] at first
    rw [blanks_succ, List.cons_append, first, ih]
    omega

/-- A word and what follows it are measured apart. -/
theorem Width.of_append (word : List UInt8) {rest : List UInt8} (divides : Divides rest)
    (noTab : rest.head? ≠ some 9) : width.of (word ++ rest) = width.of word + width.of rest := by
  cases rest with
  | nil => simp [width.nil]
  | cons c rest =>
    have blank := divides c rfl
    rw [isBlank, Bool.or_eq_true, beq_iff_eq, beq_iff_eq] at blank
    obtain rfl : c = 32 := blank.resolve_right fun tab => noTab (by simp [tab])
    have first := width.of_blanks 1 rest
    rw [width.blank, show 32 :: rest = blanks 1 ++ rest from rfl, first]
    omega

/-- A blank in front of the held text can be let go. -/
theorem spread_flush (column : Nat) (before after text : List UInt8) :
    spread width stop column (before ++ 32 :: after) text =
      before ++ 32 :: spread width stop (column + width.of before + 1) after text := by
  induction text generalizing after with
  | nil => rfl
  | cons c rest ih =>
    by_cases tab : c = 9
    · have here : column + width.of (before ++ 32 :: after) =
          column + width.of before + 1 + width.of after := by
        rw [width.blank]
        omega
      simp [spread, tab, here]
    · simp only [spread, if_neg tab, List.append_assoc, List.cons_append]
      exact ih (after ++ [c])

theorem spread_blank (column : Nat) (rest : List UInt8) :
    spread width stop column [] (32 :: rest) = 32 :: spread width stop (column + 1) [] rest := by
  have flush : spread width stop column [32] rest = _ := spread_flush column [] [] rest
  rw [spread, if_neg (by decide), List.nil_append, flush, width.nil]
  rfl

theorem spread_blanks (column count : Nat) (rest : List UInt8) :
    spread width stop column [] (blanks count ++ rest) =
      blanks count ++ spread width stop (column + count) [] rest := by
  induction count generalizing column with
  | zero => rfl
  | succ count ih =>
    rw [blanks_succ, List.cons_append, spread_blank, ih, List.cons_append]
    congr 3
    omega

theorem spread_tab (column : Nat) (rest : List UInt8) :
    spread width stop column [] (9 :: rest) =
      blanks (stop - column % stop) ++
        spread width stop (column + (stop - column % stop)) [] rest := by
  simp [spread, width.nil]

/-- A tab leads to a stop. -/
theorem mod_next_stop (positive : 0 < stop) (column : Nat) :
    (column + (stop - column % stop)) % stop = 0 := by
  have split := Nat.div_add_mod column stop
  have inside := Nat.mod_lt column positive
  have whole : column + (stop - column % stop) = stop * (column / stop + 1) := by
    rw [Nat.mul_add, mul_one]
    omega
  rw [whole, Nat.mul_mod_right]

/-- Only the place between two tab stops matters. -/
theorem spread_mod {column other : Nat} (same : column % stop = other % stop)
    (held text : List UInt8) :
    spread width stop column held text = spread width stop other held text := by
  induction text generalizing column other held with
  | nil => rfl
  | cons c rest ih =>
    simp only [spread]
    split
    · have here : (column + width.of held) % stop = (other + width.of held) % stop := by
        rw [Nat.add_mod, same, ← Nat.add_mod]
      rw [here]
      congr 1
      refine ih ?_ []
      rw [Nat.add_mod, here, ← Nat.add_mod]
    · exact ih same (held ++ [c])

theorem spread_held (column : Nat) (held word rest : List UInt8) (noTab : 9 ∉ word) :
    spread width stop column held (word ++ rest) =
      spread width stop column (held ++ word) rest := by
  induction word generalizing held with
  | nil => simp
  | cons c word ih =>
    rw [List.mem_cons, not_or] at noTab
    rw [List.cons_append, spread, if_neg (Ne.symm noTab.1), ih _ noTab.2, List.append_assoc]
    rfl

/-- A word keeps its place. -/
theorem spread_word (column : Nat) {word rest : List UInt8} (noTab : 9 ∉ word)
    (divides : Divides rest) :
    spread width stop column [] (word ++ rest) =
      word ++ spread width stop (column + width.of word) [] rest := by
  rw [spread_held column [] word rest noTab, List.nil_append]
  cases rest with
  | nil => simp [spread]
  | cons c rest =>
    have blank := divides c rfl
    rw [isBlank, Bool.or_eq_true, beq_iff_eq, beq_iff_eq] at blank
    rcases blank with rfl | rfl
    · rw [spread, if_neg (by decide), spread_blank]
      exact spread_flush column word [] rest
    · simp [spread, width.nil]

/-- Tabs lead to the stops behind the column. -/
theorem spread_tabs {column : Nat} (before : column < stop) (count : Nat) (rest : List UInt8) :
    spread width stop column [] (tabs (count + 1) ++ rest) =
      blanks ((count + 1) * stop - column) ++
        spread width stop ((count + 1) * stop) [] rest := by
  induction count generalizing rest with
  | zero =>
    have first : tabs 1 ++ rest = 9 :: rest := rfl
    have there : column + (stop - column) = 1 * stop := by omega
    rw [Nat.zero_add, first, spread_tab, Nat.mod_eq_of_lt before, there, one_mul]
  | succ count ih =>
    have split : tabs (count + 1 + 1) ++ rest = tabs (count + 1) ++ 9 :: rest := by
      rw [tabs, List.replicate_succ', List.append_assoc]
      rfl
    have next : (count + 1) * stop + stop = (count + 1 + 1) * stop := by ring
    have inside : column ≤ (count + 1) * stop := by
      have first : stop ≤ (count + 1) * stop := Nat.le_mul_of_pos_left stop (Nat.succ_pos count)
      omega
    rw [split, ih, spread_tab, Nat.mul_mod_left, Nat.sub_zero, next, ← List.append_assoc,
      ← blanks_add]
    congr 2
    omega

/-- The spread text that follows a word is measured apart from it. -/
theorem width_spread_word (positive : 0 < stop) (word : List UInt8) {rest : List UInt8}
    (divides : Divides rest) (column : Nat) :
    width.of (word ++ spread width stop column [] rest) =
      width.of word + width.of (spread width stop column [] rest) := by
  have starts {text : List UInt8} (head : text.head? = some 32) :
      width.of (word ++ text) = width.of word + width.of text :=
    width.of_append word (by rintro c is; rw [head] at is; cases is; rfl) (by simp [head])
  cases rest with
  | nil => simp [spread, width.nil]
  | cons c rest =>
    have blank := divides c rfl
    rw [isBlank, Bool.or_eq_true, beq_iff_eq, beq_iff_eq] at blank
    rcases blank with rfl | rfl
    · rw [spread_blank]
      exact starts rfl
    · rw [spread_tab]
      have some : 0 < stop - column % stop := Nat.sub_pos_of_lt (Nat.mod_lt column positive)
      obtain ⟨count, is⟩ := Nat.exists_eq_succ_of_ne_zero some.ne'
      rw [is, Nat.succ_eq_add_one, blanks_succ]
      exact starts rfl

/-- Spreading adds and removes nothing but blanks and tabs. -/
theorem count_spread {c : UInt8} (noBlank : isBlank c = false) (column : Nat)
    (held text : List UInt8) :
    (spread width stop column held text).count c = held.count c + text.count c := by
  have other (count : Nat) : (blanks count).count c = 0 := by
    refine List.count_eq_zero.mpr fun member => ?_
    rw [List.eq_of_mem_replicate member] at noBlank
    cases noBlank
  induction text generalizing column held with
  | nil => simp [spread]
  | cons first rest ih =>
    rw [spread]
    split
    case isTrue tab =>
      have apart : (first == c) = false := by
        refine beq_eq_false_iff_ne.mpr ?_
        rintro rfl
        rw [tab] at noBlank
        cases noBlank
      simp only [List.count_append, other, ih, List.count_nil, List.count_cons, apart]
      simp
    case isFalse =>
      rw [ih, List.count_append, List.count_singleton, List.count_cons]
      omega

/-- The spread text ends as the text does. -/
theorem getLast?_spread (positive : 0 < stop) (column : Nat) (held text : List UInt8) (c : UInt8) :
    (spread width stop column held (text ++ [c])).getLast? = some (if c = 9 then 32 else c) := by
  induction text generalizing column held with
  | nil =>
    rw [List.nil_append, spread]
    split
    · have some : 0 < stop - (column + width.of held) % stop :=
        Nat.sub_pos_of_lt (Nat.mod_lt _ positive)
      obtain ⟨count, is⟩ := Nat.exists_eq_succ_of_ne_zero some.ne'
      simp only [is, spread, List.append_nil, blanks, List.replicate_succ']
      simp
    · simp [spread]
  | cons first rest ih =>
    rw [List.cons_append, spread]
    split
    · rw [List.getLast?_append_of_ne_nil, ih]
      intro none
      have ends := ih (column + width.of held + (stop - (column + width.of held) % stop)) []
      rw [none] at ends
      cases ends
    · exact ih column (held ++ [first])

end Busybox.TabStops
