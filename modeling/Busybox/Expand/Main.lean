import Busybox.Lib.TabStops

/-!
# expand and unexpand

Both filters work line by line. Columns and lengths are `unsigned`, so sums of
them wrap, and `printf` takes the number of blanks to print as an `int`. A line
is shorter than 2^31 bytes here, so that the lengths of its parts are exact.
`width` is `unicode_strwidth`; without Unicode support it is `Width.bytes`.
-/

namespace Busybox.Expand

open TabStops

abbrev Text := List UInt8

/-- The lines that one call of `xmalloc_fgets` after another returns; each but the last
ends in a newline. -/
def lines : Text → List Text
  | [] => []
  | c :: rest =>
    if c = 10 then [c] :: lines rest
    else match lines rest with
      | [] => [[c]]
      | line :: later => (c :: line) :: later

/-- The string that a buffer holds. -/
def cString (line : Text) : Text := line.takeWhile (· ≠ 0)

def unsigned (n : Nat) : Nat := n % 2 ^ 32

/-- `printf("%*s", len, "")`: a width that is negative as an `int` is one to the left. -/
def padding (len : Nat) : Text := blanks (if len < 2 ^ 31 then len else 2 ^ 32 - len)

/-! ## expand -/

/-- The loop of `expand` over one line; `strbeg` is the text from `ptr_strbeg` to `ptr`. -/
def expandFrom (width : Width) (tabSize : Nat) (initial : Bool) (strbeg : Text) : Text → Text
  | [] => strbeg
  | c :: rest =>
    if initial ∧ ¬ isBlank c then
      strbeg ++ c :: rest
    else if c = 9 then
      let len := unsigned (width.of strbeg)
      strbeg ++ padding (tabSize - len % tabSize) ++ expandFrom width tabSize initial [] rest
    else
      expandFrom width tabSize initial (strbeg ++ [c]) rest

/-- `expand`, with `initial` for `OPT_INITIAL`. -/
def expand (width : Width) (tabSize : Nat) (initial : Bool) (file : Text) : Text :=
  (lines file).flatMap fun line => expandFrom width tabSize initial [] (cString line)

/-! ## unexpand -/

theorem length_dropWhile_le (p : UInt8 → Bool) (text : Text) :
    (text.dropWhile p).length ≤ text.length :=
  (List.dropWhile_suffix p).length_le

/-- Passing blanks and a tab uses up some of the text. -/
theorem length_tail_lt {text : Text} (tab : (text.dropWhile (· = 32)).head? = some 9) :
    (text.dropWhile (· = 32)).tail.length < text.length := by
  obtain ⟨rest, split⟩ := List.head?_eq_some_iff.mp tab
  have within := length_dropWhile_le (· = 32) text
  rw [split] at within ⊢
  exact within

/-- So does passing blanks and a word. -/
theorem length_word_lt {text : Text} (nonempty : text ≠ [])
    (noTab : (text.dropWhile (· = 32)).head? ≠ some 9) :
    ((text.dropWhile (· = 32)).dropWhile fun c => !isBlank c).length < text.length := by
  cases text with
  | nil => exact absurd rfl nonempty
  | cons c rest =>
    by_cases blank : c = 32
    · have passed := length_dropWhile_le (· = 32) rest
      have word := length_dropWhile_le (fun c => !isBlank c) (rest.dropWhile (· = 32))
      simp only [blank, List.dropWhile_cons, decide_true, if_true, List.length_cons]
      omega
    · simp only [List.dropWhile_cons, blank, decide_false, Bool.false_eq_true, if_false,
        List.head?_cons, ne_eq, Option.some.injEq] at noTab ⊢
      have word := length_dropWhile_le (fun c => !isBlank c) rest
      simp only [isBlank, beq_eq_false_iff_ne.mpr blank, beq_eq_false_iff_ne.mpr noTab,
        Bool.or_self, Bool.not_false, if_true, List.length_cons]
      exact Nat.lt_succ_of_le word

/-- The loop of `unexpand` over one line, with `all` for `OPT_ALL`; `first` says that
the text is the whole line. -/
def unexpandFrom (width : Width) (tabSize : Nat) (all first : Bool) (column : Nat) (text : Text) :
    Text :=
  if text = [] then
    []
  else
    let len := (text.takeWhile (· = 32)).length
    let ptr := text.dropWhile (· = 32)
    let column := unsigned (column + len)
    if ptr.head? = some 9 then
      unexpandFrom width tabSize all false (unsigned (column + (tabSize - column % tabSize)))
        ptr.tail
    else
      let n := column / tabSize
      let column := if n ≠ 0 then column % tabSize else column
      let pad := if n ≠ 0 then column else len
      -- `ptr != line`
      if ¬ all ∧ ¬ (first ∧ len = 0) then
        tabs n ++ padding pad ++ ptr
      else
        let word := ptr.takeWhile (fun c => !isBlank c)
        tabs n ++ padding pad ++ word ++
          unexpandFrom width tabSize all false (unsigned (column + width.of word) % tabSize)
            (ptr.dropWhile fun c => !isBlank c)
termination_by text.length
decreasing_by
  · exact length_tail_lt ‹_›
  · exact length_word_lt ‹_› ‹_›

/-- `unexpand`. -/
def unexpand (width : Width) (tabSize : Nat) (all : Bool) (file : Text) : Text :=
  (lines file).flatMap fun line => unexpandFrom width tabSize all true 0 (cString line)

end Busybox.Expand
