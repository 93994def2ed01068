import Busybox.Coreutils.Head
import Busybox.Coreutils.TailFile

/-!
# `head` and `tail` of one input

Where `head` and `tail` divide an input, however it is cut into reads.
-/

namespace Busybox.Coreutils.Tail

open Libbb

variable {text kept chunk front line input : List UInt8} {bufsiz count k : Nat}
  {options : Options} {fresh : Nat → UInt8} {chunks : List (List UInt8)}

/-! ## Lines of a text -/

/-- The lines of a text make up the text. -/
theorem flatten_fgets (line text : List UInt8) : (fgets line text).flatten = line ++ text := by
  induction text generalizing line with
  | nil => cases line <;> simp [fgets]
  | cons c text ih =>
    rw [fgets]
    split
    · rw [List.flatten_cons, ih, List.nil_append, List.append_assoc, List.singleton_append]
    · rw [ih, List.append_assoc, List.singleton_append]

theorem fgets_nulFree {c : UInt8} (nulFree : 0 ∉ c :: text) (line : List UInt8) :
    fgets line (c :: text) =
      if c = 10 then (line ++ [c]) :: fgets [] text else fgets (line ++ [c]) text := by
  have notNul : c ≠ 0 := fun nul => nulFree (nul ▸ List.mem_cons_self)
  rw [fgets]
  simp only [notNul, or_false]

/-- The text behind the first lines. -/
theorem flatten_drop_fgets (nulFree : 0 ∉ text) (line : List UInt8) (k : Nat) :
    ((fgets line text).drop (k + 1)).flatten = dropLines (k + 1) text := by
  induction text generalizing line k with
  | nil => cases line <;> simp [fgets, dropLines]
  | cons c text ih =>
    have free : 0 ∉ text := fun nul => nulFree (List.mem_cons_of_mem c nul)
    rw [fgets_nulFree nulFree, dropLines]
    split
    · rw [List.drop_succ_cons]
      cases k with
      | zero => rw [List.drop_zero, flatten_fgets, dropLines, List.nil_append]
      | succ k => exact ih free [] k
    · exact ih free _ k

/-- The first lines. -/
theorem flatten_take_fgets (nulFree : 0 ∉ text) (line : List UInt8) (k : Nat) :
    ((fgets line text).take (k + 1)).flatten = line ++ Head.printFirstN false (k + 1) text := by
  induction text generalizing line k with
  | nil => cases line <;> simp [fgets, Head.printFirstN]
  | cons c text ih =>
    have free : 0 ∉ text := fun nul => nulFree (List.mem_cons_of_mem c nul)
    rw [fgets_nulFree nulFree, Head.printFirstN, if_neg (Nat.succ_ne_zero k)]
    by_cases ends : c = 10
    · rw [if_pos ends, if_pos (.inr ends), List.take_succ_cons, List.flatten_cons,
        Nat.add_sub_cancel, List.append_assoc, List.singleton_append]
      cases k with
      | zero => cases text <;> simp [Head.printFirstN]
      | succ k => rw [ih free, List.nil_append]
    · have goes : ¬((false = true) ∨ c = 10) := by simp [ends]
      rw [if_neg ends, if_neg goes, ih free, List.append_assoc, List.singleton_append]

/-- `head -n` prints the first lines. -/
theorem printFirstN_lines (nulFree : 0 ∉ text) (k : Nat) :
    Head.printFirstN false k text = ((fgets [] text).take k).flatten := by
  cases k with
  | zero => cases text <;> simp [Head.printFirstN]
  | succ k => rw [flatten_take_fgets nulFree, List.nil_append]

/-- `head -c` prints the first bytes. -/
theorem printFirstN_bytes (k : Nat) (text : List UInt8) :
    Head.printFirstN true k text = text.take k := by
  induction text generalizing k with
  | nil => rw [Head.printFirstN, List.take_nil]
  | cons c text ih =>
    cases k with
    | zero => rfl
    | succ k =>
      rw [Head.printFirstN, if_neg (Nat.succ_ne_zero k), if_pos (.inl rfl), Nat.add_sub_cancel, ih,
        List.take_succ_cons]

theorem dropLines_lines (nulFree : 0 ∉ text) (k : Nat) :
    dropLines k text = ((fgets [] text).drop k).flatten := by
  cases k with
  | zero => rw [dropLines, List.drop_zero, flatten_fgets, List.nil_append]
  | succ k => exact (flatten_drop_fgets nulFree [] k).symm

/-- There are as many lines as newlines, and one that is not ended. -/
theorem length_fgets (nulFree : 0 ∉ text) (nonempty : line ≠ [] ∨ text ≠ []) :
    (fgets line text).length = text.count 10 + extra text := by
  induction text generalizing line with
  | nil =>
    obtain ⟨c, line, rfl⟩ := List.exists_cons_of_ne_nil (nonempty.resolve_right (· rfl))
    rfl
  | cons c text ih =>
    have free : 0 ∉ text := fun nul => nulFree (List.mem_cons_of_mem c nul)
    have last : text ≠ [] → extra (c :: text) = extra text := fun more => by
      obtain ⟨d, rest, rfl⟩ := List.exists_cons_of_ne_nil more
      rfl
    rw [fgets_nulFree nulFree]
    by_cases ends : c = 10
    · subst ends
      rw [if_pos rfl, List.length_cons, List.count_cons_self]
      by_cases more : text = []
      · subst more
        rfl
      · rw [ih free (.inr more), last more]
        omega
    · rw [if_neg ends, List.count_cons_of_ne (by simpa using ends)]
      rw [ih free (.inl (List.append_ne_nil_of_right_ne_nil _ (List.cons_ne_nil c [])))]
      by_cases more : text = []
      · subst more
        simp [extra, ends]
      · rw [last more]

theorem dropLines_nil (k : Nat) : dropLines k [] = [] := by cases k <;> rfl

/-- Where a text has too few lines, they are dropped from what follows. -/
theorem dropLines_append (k : Nat) (front text : List UInt8) :
    dropLines k (front ++ text) = dropLines k front ++ dropLines (k - front.count 10) text := by
  induction front generalizing k with
  | nil => rw [dropLines_nil, List.count_nil, Nat.sub_zero]; rfl
  | cons c front ih =>
    cases k with
    | zero => rw [Nat.zero_sub, dropLines, dropLines, dropLines]
    | succ k =>
      rw [List.cons_append, dropLines, dropLines]
      by_cases ends : c = 10
      · subst ends
        rw [if_pos rfl, if_pos rfl, ih, List.count_cons_self]
        congr 2
        omega
      · rw [if_neg ends, if_neg ends, ih, List.count_cons_of_ne (by simpa using ends)]

theorem dropLines_add (j k : Nat) (text : List UInt8) :
    dropLines k (dropLines j text) = dropLines (j + k) text := by
  induction text generalizing j with
  | nil => rw [dropLines_nil, dropLines_nil, dropLines_nil]
  | cons c text ih =>
    cases j with
    | zero => rw [dropLines, Nat.zero_add]
    | succ j =>
      rw [Nat.add_right_comm, dropLines, dropLines]
      split
      · exact ih j
      · rw [ih (j + 1), Nat.add_right_comm]

/-! ## From the top -/

/-- The text behind the lines that are skipped. -/
theorem skipLines_drop {seen : Nat} (less : seen < count) (chunk : List UInt8) :
    skipLines count chunk seen =
      (dropLines (count - seen) chunk, min count (seen + chunk.count 10)) := by
  induction chunk generalizing seen with
  | nil =>
    rw [skipLines, dropLines_nil, List.count_nil]
    congr 1
    omega
  | cons c chunk ih =>
    obtain ⟨k, isK⟩ : ∃ k, count - seen = k + 1 := ⟨count - seen - 1, by omega⟩
    rw [skipLines, isK, dropLines]
    by_cases ends : c = 10
    · subst ends
      rw [if_pos rfl, if_pos rfl, List.count_cons_self]
      by_cases last : seen + 1 = count
      · have none : k = 0 := by omega
        rw [if_pos last, none, dropLines]
        congr 1
        omega
      · have fewer : count - (seen + 1) = k := by omega
        rw [if_neg last, ih (by omega), fewer]
        congr 1
        omega
    · rw [if_neg ends, if_neg ends, ih less, isK, List.count_cons_of_ne (by simpa using ends)]

/-- From the top, the first lines are skipped. -/
theorem topRun_lines (byLines : options.countBytes = false) (delivers : [] ∉ chunks) {seen : Nat}
    (least : seen ≤ options.count.toNat) :
    topRun options chunks seen = dropLines (options.count.toNat - seen) chunks.flatten := by
  induction chunks generalizing seen with
  | nil => rw [topRun, List.flatten_nil, dropLines_nil]
  | cons chunk chunks ih =>
    have nonempty : chunk ≠ [] := fun empty => delivers (empty ▸ List.mem_cons_self)
    have later : [] ∉ chunks := fun empty => delivers (List.mem_cons_of_mem chunk empty)
    have step : topStep options seen chunk = (dropLines (options.count.toNat - seen) chunk,
        min options.count.toNat (seen + chunk.count 10)) := by
      rw [topStep]
      simp only [byLines, Bool.false_eq_true, if_false]
      by_cases less : seen < options.count.toNat
      · rw [if_pos less, skipLines_drop less]
      · have all : options.count.toNat - seen = 0 := by omega
        rw [if_neg less, all, dropLines]
        congr 1
        omega
    rw [topRun, if_neg nonempty, step, ih later (Nat.min_le_left _ _), List.flatten_cons,
      dropLines_append]
    congr 2
    omega

/-- From the top, the first bytes are skipped. -/
theorem topRun_bytes (byBytes : options.countBytes = true) (delivers : [] ∉ chunks) (seen : Nat) :
    topRun options chunks seen = chunks.flatten.drop (options.count.toNat - seen) := by
  induction chunks generalizing seen with
  | nil => rw [topRun, List.flatten_nil, List.drop_nil]
  | cons chunk chunks ih =>
    have nonempty : chunk ≠ [] := fun empty => delivers (empty ▸ List.mem_cons_self)
    have later : [] ∉ chunks := fun empty => delivers (List.mem_cons_of_mem chunk empty)
    rw [topRun, if_neg nonempty, ih later, List.flatten_cons, List.drop_append, topStep]
    simp only [byBytes, if_true]
    by_cases less : seen < options.count.toNat
    · rw [if_pos less]
      congr 2
      omega
    · have all : options.count.toNat - seen = 0 := by omega
      rw [if_neg less, all, Nat.zero_sub, List.drop_zero, List.drop_zero]

/-! ## The end -/

theorem lastBytes_append (count : Nat) (text chunk : List UInt8) :
    lastBytes count (lastBytes count text ++ chunk) = lastBytes count (text ++ chunk) := by
  have length : (lastBytes count text ++ chunk).length = min count text.length + chunk.length := by
    rw [List.length_append, length_lastBytes]
  rw [lastBytes, length, lastBytes, lastBytes, List.length_append, List.drop_append,
    List.drop_append, List.drop_drop, List.length_drop]
  congr 2 <;> omega

theorem lastLines_drop (count : Nat) (text : List UInt8) :
    lastLines count text = dropLines (text.count 10 + extra text - count) text := by
  have least := extra_le text
  unfold lastLines
  split
  case isTrue less =>
    have none : text.count 10 + extra text - count = 0 := by omega
    rw [none, dropLines]
  case isFalse => rfl

theorem lastLines_append (positive : 0 < count) (text : List UInt8) (nonempty : chunk ≠ []) :
    lastLines count (lastLines count text ++ chunk) = lastLines count (text ++ chunk) := by
  have some : 1 ≤ chunk.count 10 + extra chunk := by
    obtain ⟨front, c, rfl⟩ := (List.eq_nil_or_concat chunk).resolve_left nonempty
    rw [List.concat_eq_append, extra, List.getLast?_concat, List.count_append]
    by_cases ends : c = 10
    · subst ends
      simp
    · rw [if_neg (by simpa using ends)]
      omega
  have least := extra_le text
  have same : ∀ front, extra (front ++ chunk) = extra chunk := fun front => by
    rw [extra_append nonempty, extra]
  obtain ⟨j, isJ⟩ : ∃ j, text.count 10 + extra text - count = j := ⟨_, rfl⟩
  have few : j ≤ text.count 10 := by omega
  have rest : dropLines j text ++ chunk = dropLines j (text ++ chunk) := by
    rw [dropLines_append, Nat.sub_eq_zero_of_le few, dropLines]
  rw [lastLines_drop count text, isJ, lastLines_drop, lastLines_drop, same, same,
    List.count_append, List.count_append, count_dropLines few, rest, dropLines_add]
  congr 1
  omega

/-- The last bytes are kept, however they are read. -/
theorem bytesRun_last (counted : options.count.toNat = count) (positive : 0 < count)
    (small : count + bufsiz < 2 ^ 31) (fromEnd : options.fromTop = false)
    (byBytes : options.countBytes = true) (delivers : [] ∉ chunks) {state : State}
    (bytes : Bytes bufsiz count state (lastBytes count text)) :
    tailLoop bufsiz options chunks state = .error .tooMuchRead ∨
      bytesRun count chunks (lastBytes count text) =
        some (lastBytes count (text ++ chunks.flatten)) := by
  have notZero : options.count ≠ 0 := by
    rintro zero
    rw [zero] at counted
    exact positive.ne counted
  induction chunks generalizing state text with
  | nil =>
    rw [bytesRun, List.flatten_nil, List.append_nil]
    exact .inr rfl
  | cons chunk chunks ih =>
    have nonempty : chunk ≠ [] := fun empty => delivers (empty ▸ List.mem_cons_self)
    have later : [] ∉ chunks := fun empty => delivers (List.mem_cons_of_mem chunk empty)
    have size : state.tailbufsize < 2 ^ 64 := by
      rw [bytes.size]
      omega
    rcases tailRead_holds bytes.holds bytes.taillen bytes.buf size chunk with
      much | ⟨tailbuf, read, holds⟩
    · exact .inl (by rw [tailLoop, much, Fallible.error_bind])
    have within := holds.fits
    rw [List.length_append] at within
    simp only [bytes.size] at within
    have fits : (lastBytes count text).length + chunk.length < 2 ^ 31 := by omega
    have more : ¬toInt chunk.length ≤ 0 := fun less =>
      nonempty ((nread_le_zero (by omega)).mp less)
    have isBytes : body bufsiz options { state with tailbuf } chunk =
        keepBytes options { state with tailbuf } chunk := by
      simp [body, fromEnd, byBytes, notZero]
    obtain ⟨state', ran, bytes', -⟩ := keepBytes_bytes counted (by omega) bytes holds fits
    rw [lastBytes_append] at bytes'
    rw [tailLoop, read, Fallible.ok_bind, if_neg more, isBytes, ran, Fallible.ok_bind, bytesRun,
      if_neg more, if_pos fits, lastBytes_append, List.flatten_cons, ← List.append_assoc]
    exact ih later bytes'

/-- No lines that are kept would exceed an `int`. -/
def LinesFit (bufsiz count : Nat) (chunks : List (List UInt8)) : Prop :=
  ∀ front, front <+: chunks → (lastLines count front.flatten).length + bufsiz < 2 ^ 31

/-- The last lines are kept, however they are read. -/
theorem linesRun_last (positive : 0 < count) (delivers : [] ∉ chunks) (text : List UInt8) :
    linesRun bufsiz count chunks (lastLines count text) =
        some (lastLines count (text ++ chunks.flatten)) ∧
      (∀ front, front <+: chunks → front ≠ [] →
        (lastLines count (text ++ front.flatten)).length + bufsiz < 2 ^ 31) ∨
    linesRun bufsiz count chunks (lastLines count text) = none ∧
      ∃ front, front <+: chunks ∧ front ≠ [] ∧
        2 ^ 31 ≤ (lastLines count (text ++ front.flatten)).length + bufsiz := by
  induction chunks generalizing text with
  | nil =>
    refine .inl ⟨?_, fun front here nonempty => absurd (List.prefix_nil.mp here) nonempty⟩
    rw [linesRun, List.flatten_nil, List.append_nil]
  | cons chunk chunks ih =>
    have nonempty : chunk ≠ [] := fun empty => delivers (empty ▸ List.mem_cons_self)
    have later : [] ∉ chunks := fun empty => delivers (List.mem_cons_of_mem chunk empty)
    have one : ([chunk] : List (List UInt8)).flatten = chunk := List.append_nil chunk
    rw [linesRun, if_neg nonempty, lastLines_append positive text nonempty, List.flatten_cons,
      ← List.append_assoc]
    by_cases fits : (lastLines count (text ++ chunk)).length + bufsiz < 2 ^ 31
    · rw [if_pos fits]
      refine (ih later (text ++ chunk)).imp ?_ ?_
      · rintro ⟨run, all⟩
        refine ⟨run, fun front here some => ?_⟩
        obtain ⟨first, front, rfl⟩ := List.exists_cons_of_ne_nil some
        obtain ⟨rfl, there⟩ := List.cons_prefix_cons.mp here
        by_cases none : front = []
        · rw [none, one]
          exact fits
        · rw [List.flatten_cons, ← List.append_assoc]
          exact all front there none
      · rintro ⟨run, front, there, some, large⟩
        refine ⟨run, chunk :: front, List.cons_prefix_cons.mpr ⟨rfl, there⟩, List.cons_ne_nil _ _, ?_⟩
        rw [List.flatten_cons, ← List.append_assoc]
        exact large
    · rw [if_neg fits]
      refine .inr ⟨rfl, [chunk], List.prefix_append [chunk] chunks, List.cons_ne_nil _ _, ?_⟩
      rw [one]
      exact Nat.not_lt.mp fits

theorem linesRun_fits_or (positive : 0 < count) (small' : bufsiz < 2 ^ 29)
    (delivers : [] ∉ chunks) :
    (LinesFit bufsiz count chunks ∧
      linesRun bufsiz count chunks [] = some (lastLines count chunks.flatten)) ∨
    (¬LinesFit bufsiz count chunks ∧ linesRun bufsiz count chunks [] = none) := by
  have empty : lastLines count [] = [] := if_pos positive
  have runs := @linesRun_last bufsiz count chunks positive delivers []
  simp only [empty, List.nil_append] at runs
  refine runs.imp ?_ ?_
  · rintro ⟨run, all⟩
    refine ⟨fun front here => ?_, run⟩
    by_cases none : front = []
    · rw [none, List.flatten_nil, empty, List.length_nil]
      omega
    · exact all front here none
  · rintro ⟨run, front, here, -, large⟩
    exact ⟨fun fits => Nat.not_lt.mpr large (fits front here), run⟩

/-! ## What `tail` writes -/

/-- The reads of one run make up the input; only the one at its end returns nothing, and none
returns more than was asked for. -/
structure Split (bufsiz : Nat) (options : Options) (fresh : Nat → UInt8) (input : List UInt8)
    (chunks : List (List UInt8)) : Prop where
  whole : chunks.flatten = input
  delivers : [] ∉ chunks
  reads : tailFile bufsiz options false fresh chunks ≠ .error .tooMuchRead

theorem Split.fromTop (split : Split bufsiz options fresh input chunks) (small' : bufsiz < 2 ^ 29)
    (isTop : options.fromTop = true) (counted : options.count.toNat < 2 ^ 31) :
    tailFile bufsiz options false fresh chunks = .ok (topRun options chunks 1) := by
  exact (tailFile_top small' isTop (fun _ => ⟨by omega, fun _ _ _ => by omega⟩) false
    fresh).resolve_left split.reads

theorem Split.lastBytes (split : Split bufsiz options fresh input chunks)
    (counted : options.count.toNat = count) (small : count + bufsiz < 2 ^ 31)
    (small' : bufsiz < 2 ^ 29) (fromEnd : options.fromTop = false)
    (byBytes : options.countBytes = true) :
    tailFile bufsiz options false fresh chunks = .ok (lastBytes count input) := by
  rcases Nat.eq_zero_or_pos count with none | positive
  · have zero : options.count = 0 := UInt32.toNat_inj.mp (counted.trans none)
    have empty : Tail.lastBytes count input = [] := by
      rw [none]
      exact List.drop_length
    rw [empty]
    exact (tailFile_zero small' fromEnd zero false fresh chunks).resolve_left split.reads
  · have ran := (tailFile_bytes counted positive (by omega) small' fromEnd byBytes fresh
      chunks).resolve_left split.reads
    have bytes := @started_bytes bufsiz count options fresh counted positive (by omega) small'
      fromEnd byBytes
    have plain : optimized options false = false := by simp [optimized]
    have empty : Tail.lastBytes count [] = [] := List.drop_nil
    have kept := @bytesRun_last [] bufsiz count options chunks counted positive small fromEnd
      byBytes split.delivers _ (empty.symm ▸ bytes)
    have run := kept.resolve_left fun much => split.reads (by
      rw [tailFile_loop plain, much, Fallible.error_bind])
    rw [empty, List.nil_append, split.whole] at run
    rw [ran, run]
    rfl

theorem lastLines_lines (nulFree : 0 ∉ text) (count : Nat) :
    lastLines count text = ((fgets [] text).drop ((fgets [] text).length - count)).flatten := by
  by_cases empty : text = []
  · subst empty
    rw [lastLines_drop, dropLines_nil, fgets, List.drop_nil]
    rfl
  · rw [lastLines_drop, dropLines_lines nulFree, length_fgets nulFree (.inr empty)]

theorem nulFree_front (nulFree : 0 ∉ chunks.flatten) {front : List (List UInt8)}
    (here : front <+: chunks) : 0 ∉ front.flatten := by
  obtain ⟨rest, rfl⟩ := here
  rw [List.flatten_append] at nulFree
  exact fun nul => nulFree (List.mem_append_left _ nul)

theorem Split.lastLines (split : Split bufsiz options fresh input chunks) (nulFree : 0 ∉ input)
    (counted : options.count.toNat = count) (small : count < 2 ^ 31)
    (small' : bufsiz < 2 ^ 29) (fromEnd : options.fromTop = false)
    (byLines : options.countBytes = false) :
    (LinesFit bufsiz count chunks ∧
      tailFile bufsiz options false fresh chunks = .ok (lastLines count input)) ∨
    (¬LinesFit bufsiz count chunks ∧
      tailFile bufsiz options false fresh chunks = .error .memoryExhausted) := by
  rcases Nat.eq_zero_or_pos count with none | positive
  · have zero : options.count = 0 := UInt32.toNat_inj.mp (counted.trans none)
    have nothing : ∀ {text}, 0 ∉ text → Tail.lastLines count text = [] := by
      intro text free
      rw [lastLines_lines free, none, Nat.sub_zero, List.drop_length]
      rfl
    refine .inl ⟨fun front here => ?_, ?_⟩
    · rw [nothing (nulFree_front (split.whole ▸ nulFree) here), List.length_nil]
      omega
    · rw [nothing nulFree]
      exact (tailFile_zero small' fromEnd zero false fresh chunks).resolve_left split.reads
  · have ran := (@tailFile_lines bufsiz count options false counted positive small small' fromEnd
      byLines fresh chunks).resolve_left fun much => split.reads much.2
    refine (linesRun_fits_or positive small' split.delivers).imp ?_ ?_
    · rintro ⟨fits, run⟩
      rw [split.whole] at run
      rw [run] at ran
      exact ⟨fits, ran⟩
    · rintro ⟨large, run⟩
      rw [run] at ran
      exact ⟨large, ran⟩

/-! ## Both of them -/

/-- What `head` prints and what `tail` writes make up the input. -/
def Reproduces (head : Option (List UInt8)) (tail : Except Stop (List UInt8))
    (input : List UInt8) : Prop :=
  ∃ front back, head = some front ∧ tail = .ok back ∧ front ++ back = input

/-- The counts of the command line. -/
theorem counts (small : k < 2 ^ 28) :
    (UInt64.ofNat k).toNat = k ∧ (UInt64.ofNat k).toUInt32.toNat = k ∧
      (UInt64.ofNat k).toUInt32 + 1 ≠ 0 ∧ (UInt32.ofNat k).toNat = k ∧
      (UInt32.ofNat (k + 1)).toNat = k + 1 := by
  have toNat : (UInt64.ofNat k).toNat = k := UInt64.toNat_ofNat_of_lt' (small.trans (by decide))
  have low : (UInt64.ofNat k).toUInt32.toNat = k := by
    rw [UInt64.toNat_toUInt32, toNat]
    omega
  refine ⟨toNat, low, fun zero => ?_, UInt32.toNat_ofNat_of_lt' (small.trans (by decide)),
    UInt32.toNat_ofNat_of_lt' (Nat.lt_of_le_of_lt small (by decide))⟩
  have sum := congrArg UInt32.toNat zero
  rw [UInt32.toNat_add, low, UInt32.toNat_one, UInt32.toNat_zero] at sum
  omega

/-- A line without a NUL is printed as it is. -/
theorem printed_lines (nulFree : 0 ∉ input) (k : Nat) :
    (((fgets [] input).take k).map (·.takeWhile (· ≠ 0))).flatten =
      ((fgets [] input).take k).flatten := by
  have whole : ∀ line ∈ (fgets [] input).take k, line.takeWhile (· ≠ 0) = line := by
    intro line mem
    refine List.takeWhile_eq_self_iff.mpr fun c inside => ?_
    have here : c ∈ (fgets [] input).flatten :=
      List.mem_flatten.mpr ⟨line, List.mem_of_mem_take mem, inside⟩
    rw [flatten_fgets, List.nil_append] at here
    exact decide_eq_true fun nul => nulFree (nul ▸ here)
  rw [List.map_congr_left whole, List.map_id']

/-- `head -n -N` and the last lines. -/
theorem reproduces_last (nulFree : 0 ∉ input) (small : k < 2 ^ 28) :
    Reproduces (Head.printFile true false (UInt64.ofNat k) input) (.ok (lastLines k input))
      input := by
  obtain ⟨-, low, counted, -, -⟩ := counts small
  refine ⟨_, _, Head.printExceptNLastLines_take counted input, rfl, ?_⟩
  rw [printed_lines nulFree, low, lastLines_lines nulFree, ← List.flatten_append,
    List.take_append_drop, flatten_fgets, List.nil_append]

/-- `head` prints the first lines or bytes, and with what `tail` writes of the same input it makes
up this input; only for the last lines, what is kept has to fit into an `int`. -/
theorem head_tail_reproduce_iff (nulFree : 0 ∉ input) (small : k < 2 ^ 28)
    (small' : bufsiz < 2 ^ 29)
    {behindLines lastLines behindBytes lastBytes : List (List UInt8)}
    (linesTop : Split bufsiz ⟨true, false, UInt32.ofNat (k + 1)⟩ fresh input behindLines)
    (linesEnd : Split bufsiz ⟨false, false, UInt32.ofNat k⟩ fresh input lastLines)
    (bytesTop : Split bufsiz ⟨true, true, UInt32.ofNat (k + 1)⟩ fresh input behindBytes)
    (bytesEnd : Split bufsiz ⟨false, true, UInt32.ofNat k⟩ fresh input lastBytes) :
    (Head.printFile false false (UInt64.ofNat k) input =
        some ((fgets [] input).take k).flatten ∧
      Reproduces (Head.printFile false false (UInt64.ofNat k) input)
        (tailFile bufsiz ⟨true, false, UInt32.ofNat (k + 1)⟩ false fresh behindLines) input ∧
      Reproduces (Head.printFile true false (UInt64.ofNat k) input)
        (tailFile bufsiz ⟨false, false, UInt32.ofNat k⟩ false fresh lastLines) input ∧
      Head.printFile false true (UInt64.ofNat k) input = some (input.take k) ∧
      Reproduces (Head.printFile false true (UInt64.ofNat k) input)
        (tailFile bufsiz ⟨true, true, UInt32.ofNat (k + 1)⟩ false fresh behindBytes) input ∧
      Reproduces (Head.printFile true true (UInt64.ofNat k) input)
        (tailFile bufsiz ⟨false, true, UInt32.ofNat k⟩ false fresh lastBytes) input) ↔
      LinesFit bufsiz k lastLines := by
  obtain ⟨count, low, counted, isK, isNext⟩ := counts small
  have firstLines : Head.printFile false false (UInt64.ofNat k) input =
      some ((fgets [] input).take k).flatten := by
    rw [Head.printFile, if_neg Bool.false_ne_true, count, printFirstN_lines nulFree]
  have firstBytes : Head.printFile false true (UInt64.ofNat k) input = some (input.take k) := by
    rw [Head.printFile, if_neg Bool.false_ne_true, count, printFirstN_bytes]
  have topLines := linesTop.fromTop small' rfl (by rw [isNext]; omega)
  rw [topRun_lines rfl linesTop.delivers (by rw [isNext]; omega), isNext, Nat.add_sub_cancel,
    linesTop.whole, dropLines_lines nulFree] at topLines
  have topBytes := bytesTop.fromTop small' rfl (by rw [isNext]; omega)
  rw [topRun_bytes rfl bytesTop.delivers, isNext, Nat.add_sub_cancel, bytesTop.whole] at topBytes
  have endBytes := bytesEnd.lastBytes isK (by omega) small' rfl rfl
  have endLines := linesEnd.lastLines nulFree isK (by omega) small' rfl rfl
  constructor
  · rintro ⟨-, -, ⟨front, back, -, ran, -⟩, -, -, -⟩
    refine (endLines.resolve_right ?_).1
    rintro ⟨-, died⟩
    cases died.symm.trans ran
  · intro fits
    have written := (endLines.resolve_right fun large => large.1 fits).2
    refine ⟨firstLines, ⟨_, _, firstLines, topLines, ?_⟩, ?_, firstBytes,
      ⟨_, _, firstBytes, topBytes, List.take_append_drop k input⟩, ⟨_, _,
        Head.printExceptNLastBytes_take counted input, endBytes, ?_⟩⟩
    · rw [← List.flatten_append, List.take_append_drop, flatten_fgets, List.nil_append]
    · rw [written]
      exact reproduces_last nulFree small
    · rw [low]
      exact List.take_append_drop _ _

/-- The first byte of one. -/
theorem head_tail_reproduce_one :
    (Head.printFile false false (UInt64.ofNat 1) [97] =
        some ((fgets [] [97]).take 1).flatten ∧
      Reproduces (Head.printFile false false (UInt64.ofNat 1) [97])
        (tailFile 1024 ⟨true, false, UInt32.ofNat 2⟩ false (fun _ => 0) [[97]]) [97] ∧
      Reproduces (Head.printFile true false (UInt64.ofNat 1) [97])
        (tailFile 1024 ⟨false, false, UInt32.ofNat 1⟩ false (fun _ => 0) [[97]]) [97] ∧
      Head.printFile false true (UInt64.ofNat 1) [97] = some ([97].take 1) ∧
      Reproduces (Head.printFile false true (UInt64.ofNat 1) [97])
        (tailFile 1024 ⟨true, true, UInt32.ofNat 2⟩ false (fun _ => 0) [[97]]) [97] ∧
      Reproduces (Head.printFile true true (UInt64.ofNat 1) [97])
        (tailFile 1024 ⟨false, true, UInt32.ofNat 1⟩ false (fun _ => 0) [[97]]) [97]) ↔
      LinesFit 1024 1 [[97]] :=
  head_tail_reproduce_iff (by decide) (by decide) (by decide) ⟨rfl, by decide, by decide +kernel⟩
    ⟨rfl, by decide, by decide +kernel⟩ ⟨rfl, by decide, by decide +kernel⟩
    ⟨rfl, by decide, by decide +kernel⟩

/-- The reads of one line of so many bytes. -/
def longReads (n : Nat) : List (List UInt8) := List.replicate n (List.replicate 1024 97)

theorem flatten_longReads (n : Nat) : (longReads n).flatten = List.replicate (n * 1024) 97 :=
  List.flatten_replicate_replicate

/-- A line that is too long for the buffer. -/
theorem longReads_large {n : Nat} (long : 2 ^ 31 ≤ n * 1024 + 1024) :
    ¬LinesFit 1024 1 (longReads n) := by
  intro fits
  have bound := fits (longReads n) List.prefix_rfl
  have noLines : (List.replicate (n * 1024) (97 : UInt8)).count 10 < 1 := by
    rw [List.count_replicate, if_neg (by decide)]
    exact Nat.one_pos
  rw [flatten_longReads, lastLines, if_pos noLines, List.length_replicate] at bound
  omega

theorem split_longReads (n : Nat) :
    Split 1024 ⟨false, false, 1⟩ fresh (List.replicate (n * 1024) 97) (longReads n) := by
  refine ⟨flatten_longReads n, fun empty => ?_, fun much => ?_⟩
  · exact nomatch (List.mem_replicate.mp empty).2
  · have ran := @tailFile_lines 1024 1 ⟨false, false, 1⟩ false rfl (by decide) (by decide)
      (by decide) rfl rfl fresh (longReads n)
    rcases ran with ⟨⟨chunk, mem, long⟩, -⟩ | ran
    · rw [(List.mem_replicate.mp mem).2, List.length_replicate] at long
      exact Nat.lt_irrefl _ long
    · rw [ran] at much
      cases run : linesRun 1024 1 (longReads n) [] <;> rw [run] at much <;> exact nomatch much

/-- Of a line of 2 GiB `tail -n 1` writes nothing, as its buffer gets too large. -/
theorem head_tail_line_lost :
    Split 1024 ⟨false, false, 1⟩ (fun _ => 0) (List.replicate (2097152 * 1024) 97)
        (longReads 2097152) ∧
      ¬Reproduces (Head.printFile true false 1 (List.replicate (2097152 * 1024) 97))
        (tailFile 1024 ⟨false, false, 1⟩ false (fun _ => 0) (longReads 2097152))
        (List.replicate (2097152 * 1024) 97) := by
  have split := @split_longReads (fun _ => 0) 2097152
  have nulFree : (0 : UInt8) ∉ List.replicate (2097152 * 1024) 97 := fun nul =>
    absurd (List.mem_replicate.mp nul).2 (by decide)
  refine ⟨split, ?_⟩
  rintro ⟨front, back, -, ran, -⟩
  obtain ⟨-, died⟩ := (split.lastLines nulFree rfl (by decide) (by decide) rfl rfl).resolve_left
    fun fits => longReads_large (by decide) fits.1
  exact nomatch died.symm.trans ran

end Busybox.Coreutils.Tail
