import Mathlib
import Busybox.Awk.Getline
import Busybox.Lib.Records

/-!
# What a call of `awk_getline` delivers

The end of a record is a function of all that is still to be delivered, be it in the buffer or not
read yet. A search in the buffer that does not find it says what the end is if nothing follows.
-/

namespace Busybox.Awk

/-! ## Searches -/

variable {text rest : List UInt8} {c : UInt8}

theorem strchr_eq (free : 0 ∉ text) (letter : c ≠ 0) :
    strchr c (text ++ 0 :: rest) = some (text.findIdx? (· = c)) := by
  induction text with
  | nil =>
    simp only [List.nil_append, strchr, if_neg (Ne.symm letter), if_true, List.findIdx?_nil]
  | cons x text ih =>
    obtain ⟨head, tail⟩ := not_or.mp (mt List.mem_cons.mpr free)
    rw [List.cons_append, strchr, List.findIdx?_cons]
    by_cases here : x = c
    · simp only [here, if_true, decide_true]
    · simp only [here, if_false, Ne.symm head, decide_false, ih tail]
      rfl

/-- How many newlines are in front. -/
def leading (text : List UInt8) : Nat := (text.takeWhile (· = 10)).length

theorem leading_cons (x : UInt8) (text : List UInt8) :
    leading (x :: text) = if x = 10 then leading text + 1 else 0 := by
  rw [leading, List.takeWhile_cons]
  by_cases newline : x = 10
  · simp only [newline, decide_true, if_true, List.length_cons, leading]
  · simp only [newline, decide_false, if_false, Bool.false_eq_true, List.length_nil]

theorem newlines_eq (text : List UInt8) : newlines (text ++ 0 :: rest) = some (leading text) := by
  induction text with
  | nil => rfl
  | cons x text ih =>
    rw [List.cons_append, newlines, leading_cons, ih]
    split
    · rfl
    · rfl

/-- Where the first empty line begins. -/
def blank : List UInt8 → Option Nat
  | x :: y :: text => if x = 10 ∧ y = 10 then some 0 else (blank (y :: text)).map (· + 1)
  | _ => none

theorem strstr_eq (free : 0 ∉ text) : strstr (text ++ 0 :: rest) = some (blank text) := by
  induction text with
  | nil =>
    cases rest with
    | nil => rfl
    | cons x rest => rfl
  | cons x text ih =>
    obtain ⟨head, tail⟩ := not_or.mp (mt List.mem_cons.mpr free)
    cases text with
    | nil =>
      simp only [List.cons_append, List.nil_append, strstr, if_neg (Ne.symm head)]
      rw [if_neg (fun both => absurd both.2 (by decide))]
      rw [List.nil_append] at ih
      rw [ih tail]
      rfl
    | cons y text =>
      rw [List.cons_append] at ih ⊢
      simp only [List.cons_append, strstr, if_neg (Ne.symm head), ih tail, blank]
      split
      · rfl
      · rfl

theorem blank_append {s : Nat} (found : blank text = some s) (rest : List UInt8) :
    blank (text ++ rest) = some s := by
  induction text generalizing s with
  | nil => exact nomatch found
  | cons x text ih =>
    cases text with
    | nil => exact nomatch found
    | cons y text =>
      rw [blank] at found
      rw [List.cons_append, List.cons_append, blank]
      split at found
      case isTrue here =>
        rw [if_pos here]
        exact found
      case isFalse apart =>
        obtain ⟨later, isLater, rfl⟩ := Option.map_eq_some_iff.mp found
        have tail := ih isLater
        rw [List.cons_append] at tail
        rw [if_neg apart, tail]
        rfl

theorem blank_get {s : Nat} (found : blank text = some s) :
    text[s]? = some 10 ∧ text[s + 1]? = some 10 := by
  induction text generalizing s with
  | nil => exact nomatch found
  | cons x text ih =>
    cases text with
    | nil => exact nomatch found
    | cons y text =>
      rw [blank] at found
      split at found
      case isTrue here =>
        obtain rfl := Option.some.inj found
        exact ⟨congrArg some here.1, congrArg some here.2⟩
      case isFalse =>
        obtain ⟨later, isLater, rfl⟩ := Option.map_eq_some_iff.mp found
        exact ih isLater

/-! ## The end of a record -/

/-- The separator that ends the first record of a text, if that is all there is. -/
def separator (rs : UInt8) (text : List UInt8) : Nat × Nat × Nat :=
  if rs ≠ 0 then
    match text.findIdx? (· = rs) with
    | some s => (s, s + 1, 0)
    | none => (text.length, text.length, 0)
  else
    let rp := leading text
    match blank (text.drop rp) with
    | some s => (rp + s, rp + s + leading (text.drop (rp + s)), rp)
    | none => (text.length, text.length, rp)

theorem leading_le (text : List UInt8) : leading text ≤ text.length :=
  (List.takeWhile_prefix _).length_le

theorem separator_le (rs : UInt8) (text : List UInt8) :
    (separator rs text).2.2 ≤ (separator rs text).1 ∧
      (separator rs text).1 ≤ (separator rs text).2.1 ∧
      (separator rs text).2.1 ≤ text.length := by
  rw [separator]
  split
  · split
    case h_1 s found =>
      obtain ⟨below, -⟩ := List.findIdx?_eq_some_iff_getElem.mp found
      exact ⟨Nat.zero_le _, Nat.le_succ _, below⟩
    · exact ⟨Nat.zero_le _, Nat.le_refl _, Nat.le_refl _⟩
  · simp only
    split
    case h_1 s found =>
      have run := leading_le (text.drop (leading text + s))
      have within := (List.getElem?_eq_some_iff.mp (blank_get found).1).1
      rw [List.length_drop] at run within
      simp only
      omega
    · exact ⟨leading_le text, Nat.le_refl _, Nat.le_refl _⟩

theorem leading_append {text : List UInt8} (stops : leading text < text.length)
    (rest : List UInt8) : leading (text ++ rest) = leading text := by
  unfold leading at stops ⊢
  rw [List.takeWhile_append, if_neg (Nat.ne_of_lt stops)]

/-- A separator that is found with something behind it stays where it is. -/
theorem separator_append {rs : UInt8} (paragraphs : rs = 0) {s : Nat}
    (found : blank (text.drop (leading text)) = some s)
    (behind : (separator rs text).2.1 < text.length) (rest : List UInt8) :
    separator rs (text ++ rest) = separator rs text := by
  obtain ⟨within, -⟩ := List.getElem?_eq_some_iff.mp (blank_get found).1
  rw [List.length_drop] at within
  have front := leading_append (by omega : leading text < text.length) rest
  have first : (text ++ rest).drop (leading text) = text.drop (leading text) ++ rest :=
    List.drop_append_of_le_length (leading_le text)
  have second : (text ++ rest).drop (leading text + s) = text.drop (leading text + s) ++ rest :=
    List.drop_append_of_le_length (by omega)
  have run : leading (text.drop (leading text + s)) < (text.drop (leading text + s)).length := by
    simp only [separator, paragraphs, ne_eq, not_true_eq_false, if_false, found] at behind
    rw [List.length_drop]
    omega
  simp only [separator, paragraphs, ne_eq, not_true_eq_false, if_false, front, first, second, found,
    blank_append found, leading_append run]

/-- What is known of a text that was searched before. -/
structure Searched (rs : UInt8) (text : List UInt8) (pp rp : Nat) : Prop where
  start : pp ≤ text.length
  passed : rs ≠ 0 → rs ∉ text.take pp
  front : rp ≤ leading text
  plain : rs ≠ 0 → rp = 0

theorem drop_newlines {rp : Nat} (front : rp ≤ leading text) :
    rp + leading (text.drop rp) = leading text := by
  induction rp generalizing text with
  | zero => rw [List.drop_zero, Nat.zero_add]
  | succ rp ih =>
    cases text with
    | nil => exact absurd front (Nat.not_succ_le_zero rp)
    | cons x text =>
      rw [leading_cons] at front ⊢
      split at front
      case isTrue newline =>
        have rest := ih (Nat.le_of_succ_le_succ front)
        rw [List.drop_succ_cons, if_pos newline]
        omega
      case isFalse => exact absurd front (Nat.not_succ_le_zero rp)

theorem findIdx?_drop {pp : Nat} (passed : c ∉ text.take pp) (start : pp ≤ text.length) :
    text.findIdx? (· = c) = ((text.drop pp).findIdx? (· = c)).map (pp + ·) := by
  have none : (text.take pp).findIdx? (· = c) = none := by
    rw [List.findIdx?_eq_none_iff]
    intro x mem
    exact decide_eq_false fun same => passed (same ▸ mem)
  have split := @List.findIdx?_append _ (text.take pp) (text.drop pp) (· = c)
  rw [List.take_append_drop, none, List.length_take_of_le start, Option.none_or] at split
  rw [split]
  exact congrArg (Option.map · _) (funext fun i => Nat.add_comm i pp)

theorem findIdx?_eq_none (apart : c ∉ text) : text.findIdx? (· = c) = none :=
  List.findIdx?_eq_none_iff.mpr fun _ mem => decide_eq_false fun same => apart (same ▸ mem)

theorem separator_character (single : c ≠ 0) {s : Nat} (found : text.findIdx? (· = c) = some s)
    (later : List UInt8) : separator c (text ++ later) = (s, s + 1, 0) := by
  rw [separator, if_pos single, List.findIdx?_append, found]
  rfl

/-- What an attempt says: the separator of the text, and whether it is that of all that follows. -/
structure Attempt (rs : UInt8) (text : List UInt8) (result : Separator) : Prop where
  so : result.so = (separator rs text).1
  eo : result.eo = (separator rs text).2.1
  rp : result.rp = (separator rs text).2.2
  stable : result.found = true → text ≠ [] ∧
    ∀ later, separator rs (text ++ later) = separator rs text
  again : result.found = false → Searched rs text text.length result.rp

theorem search_empty {rs : UInt8} {pp rp : Nat} (searched : Searched rs [] pp rp) (b : Buffer) :
    ∃ result, search rs b 0 pp rp = some result ∧ Attempt rs [] result := by
  have none : rp = 0 := Nat.le_zero.mp searched.front
  have bounds := separator_le rs []
  rw [List.length_nil] at bounds
  refine ⟨⟨0, 0, rp, false⟩, rfl, ?_, ?_, ?_, nofun, fun _ => ?_⟩
  · exact (Nat.le_zero.mp (Nat.le_trans bounds.2.1 bounds.2.2)).symm
  · exact (Nat.le_zero.mp bounds.2.2).symm
  · have last := Nat.le_trans bounds.1 (Nat.le_trans bounds.2.1 bounds.2.2)
    exact none.trans (Nat.le_zero.mp last).symm
  · exact ⟨Nat.le_refl _, fun _ => List.not_mem_nil, searched.front, searched.plain⟩

theorem search_character {pp rp : Nat} (single : c ≠ 0) (searched : Searched c text pp rp)
    (free : 0 ∉ text) (nonempty : text ≠ []) :
    ∃ result, search c (text ++ 0 :: rest) text.length pp rp = some result ∧
      Attempt c text result := by
  have length : text.length ≠ 0 := fun zero => nonempty (List.length_eq_zero_iff.mp zero)
  have free' : 0 ∉ text.drop pp := fun mem => free (List.mem_of_mem_drop mem)
  have place := findIdx?_drop (searched.passed single) searched.start
  rw [search, if_neg length, if_pos single, List.drop_append_of_le_length searched.start,
    strchr_eq free' single]
  cases found : (text.drop pp).findIdx? (· = c) with
  | some s =>
    rw [found, Option.map_some] at place
    have here := separator_character single place []
    rw [List.append_nil] at here
    refine ⟨⟨pp + s, pp + s + 1, rp, true⟩, rfl, ?_, ?_, ?_,
      fun _ => ⟨nonempty, fun later => ?_⟩, nofun⟩
    · rw [here]
    · rw [here]
    · rw [here, searched.plain single]
    · rw [here, separator_character single place]
  | none =>
    rw [found, Option.map_none] at place
    have here : separator c text = (text.length, text.length, 0) := by
      rw [separator, if_pos single, place]
    have nul : memchr ((text.drop pp ++ 0 :: rest).take (text.length - pp)) = none := by
      rw [← List.length_drop, List.take_left]
      exact findIdx?_eq_none free'
    refine ⟨⟨text.length, text.length, rp, false⟩, ?_, ?_, ?_, ?_, nofun,
      fun _ => ⟨Nat.le_refl _, fun _ => ?_, searched.front, searched.plain⟩⟩
    · simp only [Option.bind_eq_bind, Option.bind_some, nul]
      rfl
    · rw [here]
    · rw [here]
    · rw [here, searched.plain single]
    · rw [List.take_length]
      intro mem
      have absent := List.findIdx?_eq_none_iff.mp place c mem
      exact absurd rfl (of_decide_eq_false absent)

theorem search_paragraph {pp rp : Nat} (searched : Searched 0 text pp rp)
    (free : 0 ∉ text) (nonempty : text ≠ []) :
    ∃ result, search 0 (text ++ 0 :: rest) text.length pp rp = some result ∧
      Attempt 0 text result := by
  have length : text.length ≠ 0 := fun zero => nonempty (List.length_eq_zero_iff.mp zero)
  have within : rp ≤ text.length := Nat.le_trans searched.front (leading_le text)
  rw [search, if_neg length, if_neg (not_not.mpr rfl), List.drop_append_of_le_length within,
    newlines_eq]
  simp only [Option.bind_eq_bind, Option.bind_some, drop_newlines searched.front]
  rw [List.drop_append_of_le_length (leading_le text),
    strstr_eq fun mem => free (List.mem_of_mem_drop mem)]
  simp only [Option.bind_some]
  have again : Searched 0 text text.length (leading text) :=
    ⟨Nat.le_refl _, fun single => absurd rfl single, Nat.le_refl _, fun single => absurd rfl single⟩
  have bounds := separator_le 0 text
  cases found : blank (text.drop (leading text)) with
  | some s =>
    have here : separator 0 text = (leading text + s,
        leading text + s + leading (text.drop (leading text + s)), leading text) := by
      simp only [separator, ne_eq, not_true_eq_false, if_false, found]
    rw [here] at bounds
    simp only at bounds
    simp only
    rw [List.drop_append_of_le_length (by omega), newlines_eq]
    simp only [Option.bind_some]
    obtain ⟨eo, isEo⟩ : ∃ eo, leading text + s + leading (text.drop (leading text + s)) = eo :=
      ⟨_, rfl⟩
    rw [isEo] at here bounds ⊢
    rcases Nat.lt_or_eq_of_le bounds.2.2 with below | rfl
    · have letter : text[eo] ≠ 0 := fun nul => free (nul ▸ List.getElem_mem below)
      rw [List.getElem?_append_left below, List.getElem?_eq_getElem below]
      refine ⟨_, rfl, by rw [here], by rw [here], by rw [here], fun _ => ⟨nonempty, ?_⟩, ?_⟩
      · exact separator_append rfl found (by rw [here]; exact below)
      · exact fun notFound => absurd letter (of_decide_eq_false notFound)
    · rw [List.getElem?_append_right (Nat.le_refl _), Nat.sub_self, List.getElem?_cons_zero]
      exact ⟨_, rfl, by rw [here], by rw [here], by rw [here], by rintro ⟨⟩, fun _ => again⟩
  | none =>
    have here : separator 0 text = (text.length, text.length, leading text) := by
      simp only [separator, ne_eq, not_true_eq_false, if_false, found]
    exact ⟨_, rfl, by rw [here], by rw [here], by rw [here], by rintro ⟨⟩, fun _ => again⟩

/-- An attempt finds what ends the record of the text, and it says so if that does not change. -/
theorem search_eq {rs : UInt8} {pp rp : Nat} (searched : Searched rs text pp rp) (free : 0 ∉ text) :
    ∃ result, search rs (text ++ 0 :: rest) text.length pp rp = some result ∧
      Attempt rs text result := by
  by_cases empty : text = []
  · subst empty
    exact search_empty searched _
  · by_cases single : rs ≠ 0
    · exact search_character single searched free empty
    · obtain rfl := not_not.mp single
      exact search_paragraph searched free empty

/-! ## The loop -/

/-- The buffer holds a text, with a NUL behind it unless it is new. -/
structure Buffered (rsm : Rstream) (text : List UInt8) : Prop where
  pos : rsm.pos = text.length
  string : rsm.adv = 0 ∧ text = [] ∨ ∃ rest, rsm.buffer.drop rsm.adv = text ++ 0 :: rest

variable {rsm : Rstream} {splits : Nat → Nat} {junk : UInt8}

theorem Buffered.moveFront (held : Buffered rsm text) :
    ∃ m, moveFront rsm.buffer rsm.adv rsm.pos = some m ∧ m.take text.length = text := by
  rw [Awk.moveFront, held.pos]
  by_cases start : rsm.adv = 0
  · rw [if_pos start]
    refine ⟨_, rfl, ?_⟩
    rcases held.string with ⟨-, rfl⟩ | ⟨rest, holds⟩
    · rfl
    · rw [start, List.drop_zero] at holds
      rw [holds, List.take_left]
  · obtain ⟨rest, holds⟩ := held.string.resolve_left fun both => start both.1
    have length := congrArg List.length holds
    rw [List.length_drop, List.length_append, List.length_cons] at length
    rw [if_neg start, if_pos (by omega)]
    refine ⟨_, rfl, ?_⟩
    rw [holds, List.take_append_of_le_length (by
      rw [List.length_take, List.length_append, List.length_cons]
      omega), List.take_take, Nat.min_eq_left (Nat.le_succ _), List.take_left]

theorem qrealloc_take {m : Buffer} {p : Nat} (whole : p ≤ m.length) (n : Nat) :
    (qrealloc junk m n).take p = m.take p := by
  rw [qrealloc]
  split
  · exact List.take_append_of_le_length whole
  · rfl

theorem qrealloc_length (m : Buffer) (n : Nat) : n < (qrealloc junk m n).length := by
  rw [qrealloc]
  split
  · rw [List.length_append, List.length_replicate]
    omega
  · omega

theorem read_eq (source : Source) {len : Nat} (room : 0 < len) :
    (read splits source len).1 ++ (read splits source len).2.left = source.left ∧
      (read splits source len).1.length ≤ len ∧
      ((read splits source len).1 = [] → source.left = []) := by
  refine ⟨List.take_append_drop _ _, ?_, fun nothing => ?_⟩
  · simp only [read, List.length_take]
    omega
  · have length := congrArg List.length nothing
    simp only [read, List.length_take, List.length_nil] at length
    exact List.length_eq_zero_iff.mp (by omega)

theorem leading_le_append (text rest : List UInt8) : leading text ≤ leading (text ++ rest) := by
  unfold leading
  rw [List.takeWhile_append]
  split
  case isTrue all =>
    rw [all, List.length_append]
    exact Nat.le_add_right _ _
  case isFalse => exact Nat.le_refl _

theorem Searched.append {rs : UInt8} {rp : Nat} (searched : Searched rs text text.length rp)
    (chunk : List UInt8) : Searched rs (text ++ chunk) text.length rp where
  start := by
    rw [List.length_append]
    exact Nat.le_add_right _ _
  passed single := by
    rw [List.take_left]
    have passed := searched.passed single
    rwa [List.take_length] at passed
  front := Nat.le_trans searched.front (leading_le_append text chunk)
  plain := searched.plain

/-- What the loop ends with: the separator of all that is to come, and enough of it. -/
structure Ended (rs : UInt8) (all : List UInt8) (rsm : Rstream) (result : Separator)
    (text : List UInt8) : Prop where
  pos : rsm.pos = text.length
  string : ∃ rest, rsm.buffer.drop rsm.adv = text ++ 0 :: rest
  whole : text ++ rsm.source.left = all
  so : result.so = (separator rs all).1
  eo : result.eo = (separator rs all).2.1
  rp : result.rp = (separator rs all).2.2
  enough : result.eo ≤ text.length
  empty : text = [] → all = []

theorem readLoop_eq {rs : UInt8} {pp rp : Nat} (held : Buffered rsm text)
    (searched : Searched rs text pp rp) (free : 0 ∉ text ++ rsm.source.left) :
    ∃ rsm' result text', readLoop splits junk rs rsm pp rp = some (rsm', result) ∧
      Ended rs (text ++ rsm.source.left) rsm' result text' := by
  obtain ⟨left, isLeft⟩ : ∃ left, rsm.source.left.length = left := ⟨_, rfl⟩
  induction left using Nat.strongRecOn generalizing rsm text pp rp with
  | ind left ih =>
    have free' : 0 ∉ text := fun mem => free (List.mem_append_left _ mem)
    obtain ⟨result, searches, attempt⟩ : ∃ result,
        search rs (rsm.buffer.drop rsm.adv) rsm.pos pp rp = some result ∧
          Attempt rs text result := by
      rw [held.pos]
      rcases held.string with ⟨-, rfl⟩ | ⟨rest, holds⟩
      · exact search_empty searched _
      · rw [holds]
        exact search_eq searched free'
    have bounds := separator_le rs text
    rw [readLoop, searches]
    simp only [Option.bind_eq_bind, Option.bind_some]
    cases found : result.found with
    | true =>
      obtain ⟨nonempty, stable⟩ := attempt.stable found
      refine ⟨rsm, result, text, rfl, held.pos, ?_, rfl, ?_, ?_, ?_, ?_,
        fun none => absurd none nonempty⟩
      · exact held.string.resolve_left fun both => nonempty both.2
      · rw [stable, attempt.so]
      · rw [stable, attempt.eo]
      · rw [stable, attempt.rp]
      · exact attempt.eo ▸ bounds.2.2
    | false =>
      obtain ⟨m, moved, holds⟩ := held.moveFront
      have inside : text.length ≤ m.length := by
        have length := congrArg List.length holds
        rw [List.length_take] at length
        omega
      rw [if_neg Bool.false_ne_true, moved, held.pos]
      simp only [Option.bind_some]
      have holds' := (@qrealloc_take junk m _ inside (text.length + 128)).trans holds
      have size := @qrealloc_length junk m (text.length + 128)
      generalize qrealloc junk m (text.length + 128) = m' at holds' size
      obtain ⟨all, short, ends⟩ := @read_eq splits rsm.source _
        (by omega : 0 < m'.length - text.length - 1)
      have shorter := @read_lt splits rsm.source (m'.length - text.length - 1)
      generalize read splits rsm.source (m'.length - text.length - 1) = got
        at all short ends shorter
      rw [fill, if_pos (by omega), holds']
      simp only [Option.bind_some]
      have again := attempt.again found
      split
      case isTrue nothing =>
        have last : text ++ rsm.source.left = text := by rw [ends nothing, List.append_nil]
        refine ⟨_, result, text, rfl, rfl,
          ⟨m'.drop (text.length + got.1.length + 1), ?_⟩, ?_, ?_, ?_, ?_, ?_,
          fun none => last.trans none⟩
        · rw [List.drop_zero, nothing, List.append_nil]
        · rw [← all, nothing, List.nil_append]
        · rw [last, attempt.so]
        · rw [last, attempt.eo]
        · rw [last, attempt.rp]
        · exact attempt.eo ▸ bounds.2.2
      case isFalse more =>
        have whole : text ++ got.1 ++ got.2.left = text ++ rsm.source.left := by
          rw [List.append_assoc, all]
        rw [← whole] at free ⊢
        refine ih _ (isLeft ▸ shorter more) ⟨?_, .inr ⟨_, List.drop_zero ..⟩⟩ (again.append got.1)
          free rfl
        exact List.length_append.symm

/-! ## A call -/

/-- What a call delivers of what is to come, and what is left then. -/
def nextRecord (rs : UInt8) (all : List UInt8) : Option (List UInt8 × List UInt8) :=
  if all = [] then none
  else
    let (so, eo, rp) := separator rs all
    some ((all.take so).drop rp, (all.take eo).drop so)

def behindRecord (rs : UInt8) (all : List UInt8) : List UInt8 := all.drop (separator rs all).2.1

theorem stringUntil_eq (free : 0 ∉ text) {start stop : Nat} (order : start ≤ stop)
    (inside : stop ≤ text.length) :
    stringUntil (text ++ 0 :: rest) start stop = some ((text.take stop).drop start) := by
  have split : (text ++ 0 :: rest).set stop 0 =
      text.take stop ++ 0 :: (text ++ 0 :: rest).drop (stop + 1) := by
    rw [List.set_eq_take_append_cons_drop, if_pos (by
      rw [List.length_append, List.length_cons]
      omega), List.take_append_of_le_length inside]
  have free' : 0 ∉ (text.take stop).drop start := fun mem =>
    free (List.mem_of_mem_take (List.mem_of_mem_drop mem))
  rw [stringUntil, if_pos (by
    rw [List.length_append, List.length_cons]
    omega), split, List.drop_append_of_le_length (by
    rw [List.length_take]
    omega), Records.takeWhile_record free']

theorem awkGetline_eq {rs : UInt8} (held : Buffered rsm text) (free : 0 ∉ text ++ rsm.source.left) :
    ∃ rsm' text', awkGetline splits junk rs rsm =
        some (nextRecord rs (text ++ rsm.source.left), rsm') ∧ Buffered rsm' text' ∧
      text' ++ rsm'.source.left = behindRecord rs (text ++ rsm.source.left) := by
  obtain ⟨buffer, isBuffer⟩ : ∃ buffer,
      (if rsm.buffer = [] then qrealloc junk [] 256 else rsm.buffer) = buffer := ⟨_, rfl⟩
  have start : Buffered { rsm with buffer } text := by
    refine ⟨held.pos, ?_⟩
    by_cases new : rsm.buffer = []
    · rcases held.string with first | ⟨rest, holds⟩
      · exact .inl first
      · rw [new, List.drop_nil] at holds
        exact absurd holds.symm (by simp)
    · rw [if_neg new] at isBuffer
      exact isBuffer ▸ held.string
  obtain ⟨rsm', result, text', ran, ended⟩ := @readLoop_eq text _ splits junk rs 0 0 start
    ⟨Nat.zero_le _, fun _ => List.not_mem_nil, Nat.zero_le _, fun _ => rfl⟩ free
  obtain ⟨rest, string⟩ := ended.string
  obtain ⟨front, order, -⟩ := separator_le rs (text ++ rsm.source.left)
  generalize text ++ rsm.source.left = all at ended front order free ⊢
  obtain ⟨pos, -, whole, so, eo, rp, enough, empty⟩ := ended
  obtain rfl := whole
  have free' : 0 ∉ text' := fun mem => free (List.mem_append_left _ mem)
  have behind : Buffered { rsm' with adv := rsm'.adv + result.eo, pos := rsm'.pos - result.eo }
      (text'.drop result.eo) := by
    refine ⟨?_, .inr ⟨rest, ?_⟩⟩
    · rw [List.length_drop, pos]
    · rw [← List.drop_drop, string, List.drop_append_of_le_length enough]
  have left : text'.drop result.eo ++ rsm'.source.left =
      behindRecord rs (text' ++ rsm'.source.left) := by
    rw [behindRecord, ← eo, List.drop_append_of_le_length enough]
  rw [awkGetline, isBuffer, ran]
  simp only [Option.bind_eq_bind, Option.bind_some]
  by_cases none : text' = []
  · rw [if_pos (by rw [pos, none, List.length_nil]), nextRecord, if_pos (empty none)]
    exact ⟨_, _, rfl, behind, left⟩
  · have nonempty : text' ++ rsm'.source.left ≠ [] := fun both =>
      none (List.append_eq_nil_iff.mp both).1
    rw [if_neg (by
      rw [pos]
      exact fun zero => none (List.length_eq_zero_iff.mp zero)), string,
      stringUntil_eq free' (by omega) (by omega), stringUntil_eq free' (by omega) enough,
      nextRecord, if_neg nonempty]
    simp only [← so, ← eo, ← rp]
    rw [List.take_append_of_le_length (by omega), List.take_append_of_le_length enough]
    exact ⟨_, _, rfl, behind, left⟩

/-- What a number of calls deliver, whatever the reads were. -/
def delivered (rs : UInt8) : Nat → List UInt8 → List (Option (List UInt8 × List UInt8))
  | 0, _ => []
  | n + 1, all => nextRecord rs all :: delivered rs n (behindRecord rs all)

/-- No call accesses what is outside of the buffer, and what it delivers depends on the input
alone. -/
theorem calls_eq {rs : UInt8} (n : Nat) (held : Buffered rsm text)
    (free : 0 ∉ text ++ rsm.source.left) :
    calls splits junk rs n rsm = some (delivered rs n (text ++ rsm.source.left)) := by
  induction n generalizing rsm text with
  | zero => rfl
  | succ n ih =>
    obtain ⟨rsm', text', ran, held', rest⟩ :=
      @awkGetline_eq text rsm splits junk rs held free
    have free' : 0 ∉ text' ++ rsm'.source.left := fun mem =>
      free (List.mem_of_mem_drop (rest ▸ mem))
    rw [calls, ran]
    simp only [Option.bind_eq_bind, Option.bind_some, ih held' free', rest]
    rfl

end Busybox.Awk
