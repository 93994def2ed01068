import Busybox.Coreutils.Tail

/-!
# Runs of `tail`

What the buffer holds from one read to the next, as long as the lengths fit into an `int`.
-/

namespace Busybox.Coreutils.Tail

theorem toInt_of_fits {n : Int} (low : -2 ^ 31 ≤ n) (high : n < 2 ^ 31) : toInt n = n :=
  Int.bmod_eq_of_le (by omega) (by omega)

theorem toInt_natCast {n : Nat} (small : n < 2 ^ 31) : toInt n = n :=
  toInt_of_fits (by omega) (by omega)

theorem toInt_of_large {n : Int} (low : 2 ^ 31 ≤ n) (high : n < 2 ^ 32 + 2 ^ 31) :
    toInt n = n - 2 ^ 32 := by
  have wraps := Int.bmod_eq_of_le (n := n - 2 ^ 32) (m := 2 ^ 32) (by omega) (by omega)
  have same : Int.bmod (n - 2 ^ 32) (2 ^ 32) = Int.bmod n (2 ^ 32) := Int.sub_bmod_right ..
  rw [toInt, ← same, wraps]

theorem toSize_natCast {n : Nat} (small : n < 2 ^ 64) : toSize n = n := by
  rw [toSize]
  omega

theorem toUnsigned_natCast {n : Nat} (small : n < 2 ^ 32) : toUnsigned n = n := by
  rw [toUnsigned]
  omega

/-- The start of the buffer. -/
structure Holds (state : State) (text : List UInt8) : Prop where
  fits : text.length ≤ state.tailbufsize
  cells : ∀ i < text.length, text[i]? = some (state.tailbuf i)

variable {state : State} {text kept chunk front : List UInt8} {bufsiz : Nat} {options : Options}

theorem Holds.prefix_left (holds : Holds state (text ++ chunk)) : Holds state text where
  fits := by
    have fits := holds.fits
    rw [List.length_append] at fits
    omega
  cells i inside := by
    have cell := holds.cells i (by rw [List.length_append]; omega)
    rwa [List.getElem?_append_left inside] at cell

/-- What was read stands behind what is kept. -/
theorem tailRead_holds (holds : Holds state kept) (taillen : state.taillen = kept.length)
    (buf : state.buf = kept.length) (size : state.tailbufsize < 2 ^ 64) (chunk : List UInt8) :
    state.tailRead chunk = .error .tooMuchRead ∨
      ∃ tailbuf, state.tailRead chunk = .ok { state with tailbuf } ∧
        Holds { state with tailbuf } (kept ++ chunk) := by
  have fits := holds.fits
  have request : toSize (state.tailbufsize - state.taillen) = state.tailbufsize - kept.length := by
    rw [taillen, ← Int.natCast_sub fits]
    exact toSize_natCast (by omega)
  rw [State.tailRead, request]
  by_cases much : state.tailbufsize - kept.length < chunk.length
  · exact .inl (if_pos much)
  · right
    have inside : state.inside state.buf chunk.length = true := by
      rw [State.inside, buf]
      simp
      omega
    rw [if_neg much, if_pos inside]
    refine ⟨_, rfl, ⟨by rw [List.length_append]; simp only; omega, fun i within => ?_⟩⟩
    rw [List.length_append] at within
    simp only [buf, Int.toNat_natCast]
    by_cases older : i < kept.length
    · rw [if_neg (by omega), List.getElem?_append_left older, holds.cells i older]
    · have newer : i - kept.length < chunk.length := by omega
      rw [if_pos (by omega), List.getElem?_append_right (by omega),
        List.getElem?_eq_getElem newer, Option.getD_some]

/-- More is read than was asked for. -/
theorem tailRead_much (taillen : state.taillen = kept.length)
    (room : kept.length + bufsiz ≤ state.tailbufsize ∧ state.tailbufsize < 2 ^ 64)
    (much : state.tailRead chunk = .error .tooMuchRead) : bufsiz < chunk.length := by
  obtain ⟨room, size⟩ := room
  have request : toSize (state.tailbufsize - state.taillen) = state.tailbufsize - kept.length := by
    rw [taillen, ← Int.natCast_sub (by omega)]
    exact toSize_natCast (by omega)
  rw [State.tailRead, request] at much
  split at much
  · omega
  · split at much <;> exact nomatch much

/-- The end of what the buffer holds is written. -/
theorem xwrite_holds (holds : Holds state (front ++ text)) :
    state.xwrite front.length text.length = .ok { state with stdout := state.stdout ++ text } := by
  have fits := holds.fits
  rw [List.length_append] at fits
  have inside : state.inside front.length text.length = true := by
    rw [State.inside]
    simp
    omega
  have written : ((List.range text.length).map fun i =>
      state.tailbuf ((front.length : Int).toNat + i)) = text := by
    refine List.ext_getElem? fun i => ?_
    rw [List.getElem?_map]
    by_cases within : i < text.length
    · have cell := holds.cells (front.length + i) (by rw [List.length_append]; omega)
      rw [List.getElem?_append_right (by omega), Nat.add_sub_cancel_left] at cell
      rw [List.getElem?_range within, cell]
      rfl
    · rw [List.getElem?_eq_none (by simp; omega), List.getElem?_eq_none (by omega)]
      rfl
  rw [State.xwrite, if_pos inside, written]

/-- The end of what the buffer holds is moved to its start. -/
theorem memmove_holds (holds : Holds state (front ++ text)) :
    ∃ tailbuf, state.memmove front.length text.length = .ok { state with tailbuf } ∧
      Holds { state with tailbuf } text := by
  have fits := holds.fits
  rw [List.length_append] at fits
  have inside : (state.inside front.length text.length && state.inside 0 text.length) = true := by
    simp [State.inside]
    omega
  rw [State.memmove, if_pos inside]
  refine ⟨_, rfl, ⟨by simp only; omega, fun i within => ?_⟩⟩
  have cell := holds.cells (front.length + i) (by rw [List.length_append]; omega)
  rw [List.getElem?_append_right (by omega), Nat.add_sub_cancel_left] at cell
  simp only [if_pos within, Int.toNat_natCast, cell]

/-! ## Lines -/

/-- A text without its first lines. -/
def dropLines : Nat → List UInt8 → List UInt8
  | 0, text => text
  | _ + 1, [] => []
  | k + 1, c :: text => if c = 10 then dropLines k text else dropLines (k + 1) text

theorem dropLines_suffix (k : Nat) (text : List UInt8) : dropLines k text <:+ text := by
  induction text generalizing k with
  | nil => cases k <;> exact List.suffix_rfl
  | cons c text ih =>
    cases k with
    | zero => exact List.suffix_rfl
    | succ k =>
      rw [dropLines]
      split
      · exact (ih k).trans (List.suffix_cons c text)
      · exact (ih (k + 1)).trans (List.suffix_cons c text)

theorem count_dropLines {k : Nat} (enough : k ≤ text.count 10) :
    (dropLines k text).count 10 = text.count 10 - k := by
  induction text generalizing k with
  | nil =>
    obtain rfl : k = 0 := Nat.le_zero.mp enough
    rfl
  | cons c text ih =>
    cases k with
    | zero => rfl
    | succ k =>
      rw [dropLines]
      split
      case isTrue line =>
        subst line
        rw [List.count_cons_self] at enough ⊢
        rw [ih (by omega)]
        omega
      case isFalse other =>
        rw [List.count_cons_of_ne (by simpa using other)] at enough ⊢
        exact ih enough

/-- The loop passes so many newlines. -/
theorem skip_holds {k : Nat} (small : k < 2 ^ 31) (holds : Holds state (front ++ text))
    (enough : k ≤ text.count 10) :
    state.skip k front.length = .ok ((front ++ text).length - (dropLines k text).length) := by
  induction text generalizing front k with
  | nil =>
    obtain rfl : k = 0 := Nat.le_zero.mp enough
    rw [State.skip]
    simp [dropLines]
  | cons c text ih =>
    cases k with
    | zero =>
      rw [State.skip]
      simp [dropLines]
    | succ k =>
      have fits := holds.fits
      have cell := holds.cells front.length (by simp)
      have isC : state.tailbuf front.length = c := by simpa using cell.symm
      have within : front.length < state.tailbufsize := by
        simp at fits
        omega
      have length : (front ++ [c]).length = front.length + 1 := by simp
      have notZero : ¬((k + 1 : Nat) : Int) = 0 := by omega
      rw [List.append_cons] at holds ⊢
      rw [State.skip, if_neg notZero, if_pos within, isC, dropLines, ← length]
      split
      case isTrue line =>
        subst line
        rw [List.count_cons_self] at enough
        have less : toInt (((k + 1 : Nat) : Int) - 1) = k := by
          rw [toInt_of_fits (by omega) (by omega)]
          omega
        rw [less]
        exact ih (by omega) holds (by omega)
      case isFalse other =>
        rw [List.count_cons_of_ne (by simpa using other)] at enough
        exact ih small holds enough

/-- A line that has no newline yet. -/
def extra (text : List UInt8) : Nat := if text.getLast? = some 10 then 0 else 1

/-- What is kept of a text: its last lines. -/
def lastLines (count : Nat) (text : List UInt8) : List UInt8 :=
  if text.count 10 < count then text else dropLines (text.count 10 + extra text - count) text

/-- What the variables say while lines are kept. -/
structure Lines (bufsiz : Nat) (state : State) (kept : List UInt8) : Prop where
  holds : Holds state kept
  taillen : state.taillen = kept.length
  newlines : state.newlinesSeen = kept.count 10
  buf : state.buf = kept.length
  room : kept.length + bufsiz ≤ state.tailbufsize
  size : state.tailbufsize < 2 ^ 31

theorem count_le_length (text : List UInt8) : text.count 10 ≤ text.length := List.count_le_length

theorem extra_append (nonempty : chunk ≠ []) (text : List UInt8) :
    extra (text ++ chunk) = if chunk.getLast? = some 10 then 0 else 1 := by
  obtain ⟨front, c, rfl⟩ := (List.eq_nil_or_concat chunk).resolve_left nonempty
  rw [List.concat_eq_append, extra, ← List.append_assoc, List.getLast?_concat,
    List.getLast?_concat]

theorem extra_le (text : List UInt8) : extra text ≤ 1 := by
  unfold extra
  split <;> omega

/-- There are not too many lines. -/
theorem trim_all {count : Nat} (counted : options.count.toNat = count) (small : count < 2 ^ 31)
    (newlines : state.newlinesSeen + chunk.count 10 = (text.count 10 : Nat))
    (taillen : state.taillen + chunk.length = (text.length : Nat))
    (long : chunk.length ≤ text.length) (size : text.length < 2 ^ 31)
    (less : text.count 10 < count) :
    trim options state chunk = .ok
      { state with taillen := text.length, newlinesSeen := text.count 10 } := by
  have few := count_le_length text
  have chunk' : chunk.length < 2 ^ 31 := by omega
  have less' : (text.count 10 : Int) < count := Int.ofNat_lt.mpr less
  have lines : text.count 10 < 2 ^ 31 := by omega
  rw [trim, counted]
  simp only [newlines, toInt_natCast lines, toInt_natCast small, toInt_natCast chunk', taillen,
    toInt_natCast size]
  exact if_pos less'

/-- The first lines are dropped. -/
theorem trim_drop {count : Nat} (counted : options.count.toNat = count) (positive : 0 < count)
    (small : count < 2 ^ 31) (last : extra text = if chunk.getLast? = some 10 then 0 else 1)
    (holds : Holds state text)
    (newlines : state.newlinesSeen + chunk.count 10 = (text.count 10 : Nat))
    (taillen : state.taillen + chunk.length = (text.length : Nat))
    (long : chunk.length ≤ text.length) (size : text.length < 2 ^ 31)
    (many : count ≤ text.count 10) :
    ∃ tailbuf, trim options state chunk = .ok
        { state with
          tailbuf
          taillen := (dropLines (text.count 10 + extra text - count) text).length
          newlinesSeen := (dropLines (text.count 10 + extra text - count) text).count 10 } ∧
      Holds { state with tailbuf } (dropLines (text.count 10 + extra text - count) text) := by
  have few := count_le_length text
  have short := extra_le text
  obtain ⟨k, isK⟩ : ∃ k, text.count 10 + extra text - count = k := ⟨_, rfl⟩
  have enough : k ≤ text.count 10 := by omega
  have small' : k < 2 ^ 31 := by omega
  have lines : text.count 10 < 2 ^ 31 := by omega
  have chunk' : chunk.length < 2 ^ 31 := by omega
  have more : ¬(text.count 10 : Int) < count := by omega
  have cast : ((if chunk.getLast? = some 10 then 0 else 1 : Int)) = (extra text : Nat) := by
    rw [last]
    split <;> rfl
  have skipped : (text.count 10 : Int) + (extra text : Nat) - count = (k : Nat) := by omega
  have passed := @skip_holds state text [] k small' holds enough
  obtain ⟨front, split⟩ := dropLines_suffix k text
  have parts := congrArg List.length split
  rw [List.length_append] at parts
  have before : text.length - (dropLines k text).length = front.length := by omega
  have left : (text.length : Int) - (front.length : Nat) = ((dropLines k text).length : Nat) := by
    omega
  have fits : (dropLines k text).length < 2 ^ 31 := by omega
  have fits' : (dropLines k text).length < 2 ^ 64 := by omega
  have rest := count_dropLines enough
  have left' : (count : Int) - (extra text : Nat) = ((dropLines k text).count 10 : Nat) := by omega
  have lines' : (dropLines k text).count 10 < 2 ^ 31 := by omega
  rw [List.nil_append, List.length_nil, before] at passed
  rw [← split] at holds
  obtain ⟨tailbuf, moved, holds'⟩ := memmove_holds holds
  refine ⟨tailbuf, ?_, isK ▸ holds'⟩
  rw [trim, counted]
  simp only [newlines, toInt_natCast lines, toInt_natCast small, toInt_natCast chunk', taillen,
    if_neg more, cast, skipped, toInt_natCast small', passed, Fallible.ok_bind, left,
    toInt_natCast fits, toSize_natCast fits', moved, left', toInt_natCast lines', isK]
  rfl

/-- The text is cut down to its last lines. -/
theorem trim_lines {count : Nat} (counted : options.count.toNat = count) (positive : 0 < count)
    (small : count < 2 ^ 31) (lines : Lines bufsiz state kept) (nonempty : chunk ≠ [])
    {tailbuf : Nat → UInt8} (holds : Holds { state with tailbuf } (kept ++ chunk)) :
    ∃ tailbuf', trim options { state with tailbuf } chunk = .ok
        { state with
          tailbuf := tailbuf'
          taillen := (lastLines count (kept ++ chunk)).length
          newlinesSeen := (lastLines count (kept ++ chunk)).count 10 } ∧
      Holds { state with tailbuf := tailbuf' } (lastLines count (kept ++ chunk)) := by
  have fits := holds.fits
  have size := lines.size
  have length : (kept ++ chunk).length = kept.length + chunk.length := List.length_append
  have newlines : state.newlinesSeen + chunk.count 10 = ((kept ++ chunk).count 10 : Nat) := by
    rw [lines.newlines, List.count_append, Int.natCast_add]
  have taillen : state.taillen + chunk.length = ((kept ++ chunk).length : Nat) := by
    rw [lines.taillen, List.length_append, Int.natCast_add]
  have long : chunk.length ≤ (kept ++ chunk).length := by omega
  have short : (kept ++ chunk).length < 2 ^ 31 := by
    simp only at fits
    omega
  unfold lastLines
  by_cases less : (kept ++ chunk).count 10 < count
  · rw [if_pos less]
    exact ⟨tailbuf, trim_all counted small newlines taillen long short less, holds⟩
  · rw [if_neg less]
    exact trim_drop counted positive small (extra_append nonempty kept) holds newlines taillen long
      short (Nat.not_lt.mp less)

/-- There is room for another read, unless the size does not fit into an `int`. -/
theorem enlarge_room (small : bufsiz < 2 ^ 31) (taillen : state.taillen = text.length)
    (fits : text.length < 2 ^ 31) (size : state.tailbufsize < 2 ^ 31) :
    if text.length + bufsiz < 2 ^ 31 then
      ∃ tailbufsize, enlarge bufsiz state = .ok { state with tailbufsize } ∧
        text.length + bufsiz ≤ tailbufsize ∧ state.tailbufsize ≤ tailbufsize ∧ tailbufsize < 2 ^ 31
    else enlarge bufsiz state = .error .memoryExhausted := by
  have wanted : (toSize state.taillen + bufsiz) % 2 ^ 64 = text.length + bufsiz := by
    have short : text.length < 2 ^ 64 := by omega
    have sum : text.length + bufsiz < 2 ^ 64 := by omega
    rw [taillen, toSize_natCast short, Nat.mod_eq_of_lt sum]
  rw [enlarge, wanted]
  split
  case isTrue room =>
    by_cases more : state.tailbufsize < text.length + bufsiz
    · have sum : toInt (state.taillen + bufsiz) = (text.length + bufsiz : Nat) := by
        rw [taillen, ← Int.natCast_add]
        exact toInt_natCast room
      have short : text.length + bufsiz < 2 ^ 64 := by omega
      refine ⟨text.length + bufsiz, ?_, Nat.le_refl _, Nat.le_of_lt more, room⟩
      rw [if_pos more, sum, toSize_natCast short]
      exact if_neg (by omega)
    · exact ⟨state.tailbufsize, if_neg more, by omega, Nat.le_refl _, size⟩
  case isFalse large =>
    have more : state.tailbufsize < text.length + bufsiz := by omega
    have sum : toInt (state.taillen + bufsiz) = (text.length + bufsiz : Nat) - 2 ^ 32 := by
      rw [taillen, ← Int.natCast_add]
      exact toInt_of_large (by omega) (by omega)
    have huge : 2 ^ 63 ≤ toSize (((text.length + bufsiz : Nat) : Int) - 2 ^ 32) := by
      unfold toSize
      omega
    rw [if_pos more, sum]
    exact if_pos huge

/-- A read while lines are kept. -/
theorem keepLines_lines {count : Nat} (counted : options.count.toNat = count) (positive : 0 < count)
    (small : count < 2 ^ 31) (small' : bufsiz < 2 ^ 31) (lines : Lines bufsiz state kept)
    (nonempty : chunk ≠ []) {tailbuf : Nat → UInt8}
    (holds : Holds { state with tailbuf } (kept ++ chunk)) :
    if (lastLines count (kept ++ chunk)).length + bufsiz < 2 ^ 31 then
      ∃ state', keepLines bufsiz options { state with tailbuf } chunk = .ok state' ∧
        Lines bufsiz state' (lastLines count (kept ++ chunk)) ∧ state'.stdout = state.stdout
    else keepLines bufsiz options { state with tailbuf } chunk = .error .memoryExhausted := by
  obtain ⟨tailbuf', trimmed, holds'⟩ := trim_lines counted positive small lines nonempty holds
  have size := lines.size
  have fits := holds'.fits
  simp only at fits
  have short : (lastLines count (kept ++ chunk)).length < 2 ^ 31 := by omega
  have room := @enlarge_room
    { state with
      tailbuf := tailbuf'
      taillen := (lastLines count (kept ++ chunk)).length
      newlinesSeen := (lastLines count (kept ++ chunk)).count 10 }
    _ bufsiz small' rfl short size
  rw [keepLines, trimmed, Fallible.ok_bind]
  split
  case isTrue fit =>
    rw [if_pos fit] at room
    obtain ⟨tailbufsize, enlarged, enough, more, size'⟩ := room
    rw [enlarged, Fallible.ok_bind]
    refine ⟨_, rfl, ⟨⟨?_, holds'.cells⟩, rfl, rfl, rfl, enough, size'⟩, rfl⟩
    simp only at more ⊢
    omega
  case isFalse large =>
    rw [if_neg large] at room
    rw [room, Fallible.error_bind]

/-- What is kept after all reads, unless the buffer becomes too large. -/
def linesRun (bufsiz count : Nat) : List (List UInt8) → List UInt8 → Option (List UInt8)
  | [], kept => some kept
  | chunk :: chunks, kept =>
    if chunk = [] then some kept
    else if (lastLines count (kept ++ chunk)).length + bufsiz < 2 ^ 31 then
      linesRun bufsiz count chunks (lastLines count (kept ++ chunk))
    else none

/-- What the buffer holds at the end of the loop, and what was written before. -/
structure Ended (state final : State) (text : List UInt8) : Prop where
  holds : Holds final text
  taillen : final.taillen = text.length
  stdout : final.stdout = state.stdout

theorem nonempty_of_nread (more : ¬toInt chunk.length ≤ 0) : chunk ≠ [] := by
  rintro rfl
  exact more (Int.le_refl 0)

theorem nread_le_zero (small : chunk.length < 2 ^ 31) : toInt chunk.length ≤ 0 ↔ chunk = [] := by
  rw [toInt_natCast small, ← List.length_eq_zero_iff]
  omega

theorem tailLoop_lines {count : Nat} (counted : options.count.toNat = count) (positive : 0 < count)
    (small : count < 2 ^ 31) (small' : bufsiz < 2 ^ 31) (fromEnd : options.fromTop = false)
    (byLines : options.countBytes = false) {chunks : List (List UInt8)}
    (lines : Lines bufsiz state kept) :
    (∃ chunk ∈ chunks, bufsiz < chunk.length) ∧
        tailLoop bufsiz options chunks state = .error .tooMuchRead ∨
      match linesRun bufsiz count chunks kept with
      | some text => ∃ final, tailLoop bufsiz options chunks state = .ok final ∧
          Ended state final text
      | none => tailLoop bufsiz options chunks state = .error .memoryExhausted := by
  have notZero : options.count ≠ 0 := by
    rintro zero
    rw [zero] at counted
    exact positive.ne counted
  induction chunks generalizing state kept with
  | nil => exact .inr ⟨state, rfl, lines.holds, lines.taillen, rfl⟩
  | cons chunk chunks ih =>
    have size : state.tailbufsize < 2 ^ 64 := lines.size.trans (by decide)
    rcases tailRead_holds lines.holds lines.taillen lines.buf size chunk with
      much | ⟨tailbuf, read, holds⟩
    · refine .inl ⟨⟨chunk, List.mem_cons_self, tailRead_much lines.taillen ?_ much⟩, ?_⟩
      · have room := lines.room
        have below := lines.size
        omega
      · rw [tailLoop, much, Fallible.error_bind]
    have within := holds.fits
    rw [List.length_append] at within
    have small'' : chunk.length < 2 ^ 31 := by
      have below := lines.size
      simp only at within
      omega
    rw [tailLoop, read, Fallible.ok_bind, linesRun]
    simp only [nread_le_zero small'']
    by_cases done : chunk = []
    · rw [if_pos done, if_pos done]
      exact .inr ⟨_, rfl, holds.prefix_left, lines.taillen, rfl⟩
    · have step := keepLines_lines counted positive small small' lines done holds
      have isLines : body bufsiz options { state with tailbuf } chunk =
          keepLines bufsiz options { state with tailbuf } chunk := by
        simp [body, fromEnd, byLines, notZero]
      rw [if_neg done, if_neg done, isLines]
      split at step
      case isTrue fits =>
        obtain ⟨state', ran, lines', written⟩ := step
        rw [if_pos fits, ran, Fallible.ok_bind]
        rcases ih lines' with ⟨⟨long, mem, more⟩, much⟩ | ends
        · exact .inl ⟨⟨long, List.mem_cons_of_mem _ mem, more⟩, much⟩
        right
        cases run : linesRun bufsiz count chunks (lastLines count (kept ++ chunk)) with
        | none =>
          rw [run] at ends
          exact ends
        | some text =>
          rw [run] at ends
          obtain ⟨final, loop, ended⟩ := ends
          exact ⟨final, loop, ended.holds, ended.taillen, ended.stdout.trans written⟩
      case isFalse large =>
        rw [if_neg large, step]
        exact .inr rfl

/-! ## Bytes -/

/-- The last bytes. -/
def lastBytes (count : Nat) (text : List UInt8) : List UInt8 := text.drop (text.length - count)

/-- What the variables say while bytes are kept. -/
structure Bytes (bufsiz count : Nat) (state : State) (kept : List UInt8) : Prop where
  holds : Holds state kept
  taillen : state.taillen = kept.length
  buf : state.buf = kept.length
  few : kept.length ≤ count
  size : state.tailbufsize = count + bufsiz

theorem length_lastBytes (count : Nat) (text : List UInt8) :
    (lastBytes count text).length = min count text.length := by
  rw [lastBytes, List.length_drop]
  omega

/-- A read while bytes are kept, as long as their number is an `int`. -/
theorem keepBytes_bytes {count : Nat} (counted : options.count.toNat = count)
    (small : count < 2 ^ 31) (bytes : Bytes bufsiz count state kept)
    {tailbuf : Nat → UInt8} (holds : Holds { state with tailbuf } (kept ++ chunk))
    (fits : kept.length + chunk.length < 2 ^ 31) :
    ∃ state', keepBytes options { state with tailbuf } chunk = .ok state' ∧
      Bytes bufsiz count state' (lastBytes count (kept ++ chunk)) ∧
      state'.stdout = state.stdout := by
  have length : (kept ++ chunk).length = kept.length + chunk.length := List.length_append
  have chunk' : chunk.length < 2 ^ 31 := by omega
  have sum : toInt (state.taillen + chunk.length) = ((kept ++ chunk).length : Nat) := by
    rw [bytes.taillen, ← Int.natCast_add, ← length]
    exact toInt_natCast (by omega)
  rw [keepBytes, counted]
  simp only [toInt_natCast chunk', toInt_natCast small, sum]
  by_cases more : count < (kept ++ chunk).length
  · obtain ⟨front, back, split, back'⟩ : ∃ front back, kept ++ chunk = front ++ back ∧
        back = lastBytes count (kept ++ chunk) :=
      ⟨_, _, (List.take_append_drop ((kept ++ chunk).length - count) _).symm, rfl⟩
    have size : back.length = count := by
      rw [back', length_lastBytes]
      omega
    have start : ((kept ++ chunk).length : Int) - count = (front.length : Nat) := by
      have parts : (kept ++ chunk).length = front.length + back.length := by
        rw [split, List.length_append]
      omega
    rw [split] at holds
    obtain ⟨tailbuf', moved, holds'⟩ := memmove_holds holds
    rw [size] at moved
    rw [if_pos (Int.ofNat_lt.mpr more), start, moved, Fallible.ok_bind, ← back']
    refine ⟨_, rfl, ⟨⟨holds'.fits, holds'.cells⟩, ?_, ?_, size.le, bytes.size⟩, rfl⟩
    · exact congrArg Int.ofNat size.symm
    · exact congrArg Int.ofNat size.symm
  · have all : lastBytes count (kept ++ chunk) = kept ++ chunk := by
      rw [lastBytes, Nat.sub_eq_zero_of_le (Nat.not_lt.mp more), List.drop_zero]
    rw [if_neg (fun less => more (Int.ofNat_lt.mp less)), all]
    exact ⟨_, rfl, ⟨⟨holds.fits, holds.cells⟩, rfl, rfl, Nat.not_lt.mp more, bytes.size⟩, rfl⟩

/-- What is kept after all reads, as long as the number of the bytes is an `int`. -/
def bytesRun (count : Nat) : List (List UInt8) → List UInt8 → Option (List UInt8)
  | [], kept => some kept
  | chunk :: chunks, kept =>
    if toInt chunk.length ≤ 0 then some kept
    else if kept.length + chunk.length < 2 ^ 31 then
      bytesRun count chunks (lastBytes count (kept ++ chunk))
    else none

/-- A length that came out negative leads out of the buffer, at the next read or at the end. -/
theorem tailLoop_negative (negative : state.taillen < 0) (low : -2 ^ 31 ≤ state.taillen)
    (buf : state.buf = state.taillen) (size : state.tailbufsize < 2 ^ 32)
    (chunks : List (List UInt8)) :
    tailLoop bufsiz options chunks state = .error .tooMuchRead ∨
      (tailLoop bufsiz options chunks state >>= fun final =>
        final.xwrite 0 (toSize final.taillen)) = .error .outOfBounds := by
  have huge : state.tailbufsize < toSize state.taillen := by
    unfold toSize
    omega
  have outside : state.xwrite 0 (toSize state.taillen) = .error .outOfBounds := by
    refine if_neg ?_
    simp [State.inside]
    omega
  cases chunks with
  | nil => exact .inr outside
  | cons chunk chunks =>
    by_cases much : toSize (state.tailbufsize - state.taillen) < chunk.length
    · exact .inl (by rw [tailLoop, State.tailRead, if_pos much, Fallible.error_bind])
    · right
      rw [tailLoop, State.tailRead, if_neg much]
      by_cases nothing : chunk = []
      · subst nothing
        have inside : state.inside state.buf ([] : List UInt8).length = true := by
          simp [State.inside]
        rw [if_pos inside, Fallible.ok_bind]
        refine if_neg ?_
        simp [State.inside]
        omega
      · have outside' : ¬state.inside state.buf chunk.length = true := by
          simp [State.inside, buf, nothing]
          omega
        rw [if_neg outside']
        rfl

theorem tailLoop_bytes {count : Nat} (counted : options.count.toNat = count) (positive : 0 < count)
    (small : count < 2 ^ 31) (small' : bufsiz < 2 ^ 31) (fromEnd : options.fromTop = false)
    (byBytes : options.countBytes = true) {chunks : List (List UInt8)}
    (bytes : Bytes bufsiz count state kept) :
    tailLoop bufsiz options chunks state = .error .tooMuchRead ∨
      match bytesRun count chunks kept with
      | some text => ∃ final, tailLoop bufsiz options chunks state = .ok final ∧
          Ended state final text
      | none => (tailLoop bufsiz options chunks state >>= fun final =>
          final.xwrite 0 (toSize final.taillen)) = .error .outOfBounds := by
  have notZero : options.count ≠ 0 := by
    rintro zero
    rw [zero] at counted
    exact positive.ne counted
  induction chunks generalizing state kept with
  | nil => exact .inr ⟨state, rfl, bytes.holds, bytes.taillen, rfl⟩
  | cons chunk chunks ih =>
    have size : state.tailbufsize < 2 ^ 32 := by
      rw [bytes.size]
      omega
    rcases tailRead_holds bytes.holds bytes.taillen bytes.buf (size.trans (by decide)) chunk with
      much | ⟨tailbuf, read, holds⟩
    · exact .inl (by rw [tailLoop, much, Fallible.error_bind])
    rw [tailLoop, read, Fallible.ok_bind, bytesRun]
    by_cases done : toInt chunk.length ≤ 0
    · rw [if_pos done, if_pos done]
      exact .inr ⟨_, rfl, holds.prefix_left, bytes.taillen, rfl⟩
    have isBytes : body bufsiz options { state with tailbuf } chunk =
        keepBytes options { state with tailbuf } chunk := by
      simp [body, fromEnd, byBytes, notZero]
    rw [if_neg done, if_neg done, isBytes]
    by_cases fits : kept.length + chunk.length < 2 ^ 31
    · obtain ⟨state', ran, bytes', written⟩ := keepBytes_bytes counted small bytes holds fits
      rw [if_pos fits, ran, Fallible.ok_bind]
      refine (ih bytes').imp_right fun ends => ?_
      cases run : bytesRun count chunks (lastBytes count (kept ++ chunk)) with
      | none =>
        rw [run] at ends
        exact ends
      | some text =>
        rw [run] at ends
        obtain ⟨final, loop, ended⟩ := ends
        exact ⟨final, loop, ended.holds, ended.taillen, ended.stdout.trans written⟩
    · rw [if_neg fits]
      have within := holds.fits
      have few := bytes.few
      rw [List.length_append] at within
      simp only [bytes.size] at within
      have long : chunk.length < 2 ^ 31 := by
        by_contra large
        refine done ?_
        rw [toInt_of_large (by omega) (by omega)]
        omega
      have wraps : toInt (state.taillen + toInt chunk.length) =
          (kept.length + chunk.length : Nat) - 2 ^ 32 := by
        rw [toInt_natCast long, bytes.taillen, ← Int.natCast_add]
        exact toInt_of_large (by omega) (by omega)
      obtain ⟨length, isLength⟩ :
          ∃ length : Int, length = (kept.length + chunk.length : Nat) - 2 ^ 32 := ⟨_, rfl⟩
      have ran : keepBytes options { state with tailbuf } chunk =
          .ok { state with tailbuf, taillen := length, buf := length } := by
        rw [keepBytes, counted]
        simp only [wraps, toInt_natCast small, ← isLength]
        exact if_neg (by omega)
      have negative : length < 0 := by omega
      have low : -2 ^ 31 ≤ length := by omega
      rw [ran, Fallible.ok_bind]
      exact @tailLoop_negative { state with tailbuf, taillen := length, buf := length } bufsiz
        options negative low rfl size chunks

/-! ## Nothing -/

/-- Where nothing is asked for, nothing is kept. -/
theorem tailLoop_zero (fromEnd : options.fromTop = false) (zero : options.count = 0)
    {chunks : List (List UInt8)} (taillen : state.taillen = 0) (buf : state.buf = 0)
    (size : state.tailbufsize < 2 ^ 64) :
    tailLoop bufsiz options chunks state = .error .tooMuchRead ∨
      ∃ final, tailLoop bufsiz options chunks state = .ok final ∧ Ended state final [] := by
  induction chunks generalizing state with
  | nil => exact .inr ⟨state, rfl, ⟨Nat.zero_le _, nofun⟩, taillen, rfl⟩
  | cons chunk chunks ih =>
    have nothing : Holds state [] := ⟨Nat.zero_le _, nofun⟩
    rcases tailRead_holds nothing taillen buf size chunk with much | ⟨tailbuf, read, -⟩
    · exact .inl (by rw [tailLoop, much, Fallible.error_bind])
    rw [tailLoop, read, Fallible.ok_bind]
    by_cases done : toInt chunk.length ≤ 0
    · rw [if_pos done]
      exact .inr ⟨_, rfl, ⟨Nat.zero_le _, nofun⟩, taillen, rfl⟩
    · have isBody : body bufsiz options { state with tailbuf } chunk =
          .ok { state with tailbuf } := by
        simp [body, fromEnd, zero]
      rw [if_neg done, isBody, Fallible.ok_bind]
      refine (@ih { state with tailbuf } taillen buf size).imp_right fun ends => ?_
      obtain ⟨final, loop, ended⟩ := ends
      exact ⟨final, loop, ended.holds, ended.taillen, ended.stdout⟩

/-! ## From the top -/

theorem skipLines_suffix (count : Nat) (chunk : List UInt8) (seen : Nat) :
    (skipLines count chunk seen).1 <:+ chunk := by
  induction chunk generalizing seen with
  | nil => exact List.suffix_rfl
  | cons c chunk ih =>
    rw [skipLines]
    split
    · split
      · exact List.suffix_cons c chunk
      · exact (ih _).trans (List.suffix_cons c chunk)
    · exact (ih _).trans (List.suffix_cons c chunk)

/-- What is written of a read, and what was seen then. -/
def topStep (options : Options) (seen : Nat) (chunk : List UInt8) : List UInt8 × Nat :=
  let count := options.count.toNat
  if seen < count then
    if options.countBytes then (chunk.drop (count - seen), seen + chunk.length)
    else skipLines count chunk seen
  else (chunk, seen)

theorem topStep_suffix (options : Options) (seen : Nat) (chunk : List UInt8) :
    (topStep options seen chunk).1 <:+ chunk := by
  unfold topStep
  simp only
  split
  · split
    · exact List.drop_suffix _ _
    · exact skipLines_suffix _ _ _
  · exact List.suffix_rfl

/-- The number that is skipped is not too large for the difference to be an `int`. -/
def Skips (options : Options) (seen : Nat) (chunk : List UInt8) : Prop :=
  options.countBytes = true → options.count.toNat ≤ 2 ^ 31 + seen + chunk.length ∧
    seen + chunk.length < 2 ^ 32

theorem nwrite_topStep {seen : Nat} (skips : Skips options seen chunk)
    (small : chunk.length < 2 ^ 31) :
    (nwrite options seen chunk).2 = (topStep options seen chunk).2 ∧
      ((nwrite options seen chunk).1 = (topStep options seen chunk).1.length ∨
        ((nwrite options seen chunk).1 ≤ 0 ∧ (topStep options seen chunk).1 = [])) := by
  unfold nwrite topStep
  simp only [toInt_natCast small]
  by_cases skip : seen < options.count.toNat
  · rw [if_pos skip, if_pos skip]
    by_cases byBytes : options.countBytes = true
    · obtain ⟨fits, sum⟩ := skips byBytes
      have below := UInt32.toNat_lt options.count
      have difference : toUnsigned ((options.count.toNat : Int) - seen) =
          options.count.toNat - seen := by
        rw [← Int.natCast_sub skip.le]
        exact toUnsigned_natCast (by omega)
      have less : toInt ((chunk.length : Int) - (options.count.toNat - seen : Nat)) =
          (chunk.length : Int) - (options.count.toNat - seen : Nat) :=
        toInt_of_fits (by omega) (by omega)
      have total : toUnsigned ((seen : Int) + chunk.length) = seen + chunk.length := by
        rw [← Int.natCast_add]
        exact toUnsigned_natCast sum
      rw [if_pos byBytes, if_pos byBytes, difference, less, total]
      refine ⟨rfl, ?_⟩
      by_cases some : options.count.toNat - seen ≤ chunk.length
      · left
        simp only [List.length_drop]
        omega
      · right
        exact ⟨by simp only; omega, List.drop_eq_nil_of_le (by omega)⟩
    · rw [if_neg byBytes, if_neg byBytes]
      exact ⟨rfl, .inl rfl⟩
  · rw [if_neg skip, if_neg skip]
    exact ⟨rfl, .inl rfl⟩

/-- A read from the top. -/
theorem fromTop_step (buf : state.buf = 0) (holds : Holds state chunk)
    (skips : Skips options state.seen chunk) (small : chunk.length < 2 ^ 31) :
    fromTop options state chunk = .ok
      { state with
        seen := (topStep options state.seen chunk).2
        stdout := state.stdout ++ (topStep options state.seen chunk).1 } := by
  obtain ⟨seen, number⟩ := nwrite_topStep skips small
  obtain ⟨front, split⟩ := topStep_suffix options state.seen chunk
  have parts := congrArg List.length split
  rw [List.length_append] at parts
  rw [fromTop]
  simp only [seen, toInt_natCast small]
  rcases number with number | ⟨nothing, empty⟩
  · rw [number]
    by_cases some : (topStep options state.seen chunk).1 = []
    · rw [if_neg (by simp [some]), some, List.append_nil]
    · have positive := List.length_pos_iff.mpr some
      have start : state.buf + chunk.length - (topStep options state.seen chunk).1.length =
          (front.length : Nat) := by omega
      rw [← split] at holds
      have holds' : Holds { state with seen := (topStep options state.seen chunk).2 }
          (front ++ (topStep options state.seen chunk).1) := ⟨holds.fits, holds.cells⟩
      rw [if_pos (by omega), start, Int.toNat_natCast]
      exact xwrite_holds holds'
  · rw [if_neg (by omega), empty, List.append_nil]

/-- What is written from the top. -/
def topRun (options : Options) : List (List UInt8) → Nat → List UInt8
  | [], _ => []
  | chunk :: chunks, seen =>
    if chunk = [] then []
    else (topStep options seen chunk).1 ++ topRun options chunks (topStep options seen chunk).2

/-- Where the buffer is not used up, and a count of bytes is not too large. -/
structure Top (bufsiz : Nat) (options : Options) (state : State) (chunks : List (List UInt8)) :
    Prop where
  buf : state.buf = 0
  taillen : state.taillen = 0
  size : state.tailbufsize = bufsiz
  seen : options.countBytes = true → state.seen ≤ options.count.toNat + bufsiz + 1
  fits : options.countBytes = true → options.count.toNat ≤ 2 ^ 31 + 1 + bufsiz
  skips : options.countBytes = true → ∀ chunk ∈ chunks.head?, 0 < toInt chunk.length →
    options.count.toNat ≤ 2 ^ 31 + state.seen + chunk.length

theorem tailLoop_top (small : bufsiz < 2 ^ 29) (isTop : options.fromTop = true)
    {chunks : List (List UInt8)} (top : Top bufsiz options state chunks) :
    tailLoop bufsiz options chunks state = .error .tooMuchRead ∨
      ∃ final, tailLoop bufsiz options chunks state = .ok final ∧
        final.stdout = state.stdout ++ topRun options chunks state.seen := by
  induction chunks generalizing state with
  | nil => exact .inr ⟨state, rfl, (List.append_nil _).symm⟩
  | cons chunk chunks ih =>
    have nothing : Holds state [] := ⟨Nat.zero_le _, nofun⟩
    have size : state.tailbufsize < 2 ^ 64 := by
      rw [top.size]
      omega
    rcases tailRead_holds nothing top.taillen top.buf size chunk with
      much | ⟨tailbuf, read, holds⟩
    · exact .inl (by rw [tailLoop, much, Fallible.error_bind])
    have within := holds.fits
    simp only [List.nil_append, top.size] at within
    have small' : chunk.length < 2 ^ 31 := by omega
    rw [tailLoop, read, Fallible.ok_bind, topRun]
    by_cases done : chunk = []
    · rw [if_pos ((nread_le_zero small').mpr done), if_pos done]
      exact .inr ⟨_, rfl, (List.append_nil _).symm⟩
    have more : ¬toInt chunk.length ≤ 0 := fun less => done ((nread_le_zero small').mp less)
    have skips : Skips options state.seen chunk := fun byBytes => by
      have seen := top.seen byBytes
      have fits := top.fits byBytes
      exact ⟨top.skips byBytes chunk rfl (Int.not_le.mp more), by omega⟩
    have step := @fromTop_step { state with tailbuf } chunk options top.buf holds skips
      small'
    have isBody : body bufsiz options { state with tailbuf } chunk =
        fromTop options { state with tailbuf } chunk := by
      simp [body, isTop]
    have further : Top bufsiz options
        { state with
          tailbuf
          seen := (topStep options state.seen chunk).2
          stdout := state.stdout ++ (topStep options state.seen chunk).1 } chunks := by
      refine ⟨top.buf, top.taillen, top.size, fun byBytes => ?_, top.fits,
        fun byBytes other _ _ => ?_⟩
      · have seen := top.seen byBytes
        simp only [topStep, if_pos byBytes]
        split
        · simp only
          omega
        · exact seen
      · have skip := (skips byBytes).1
        simp only [topStep, if_pos byBytes]
        split
        · simp only
          omega
        · simp only
          omega
    rw [if_neg more, if_neg done, isBody, step, Fallible.ok_bind]
    refine (ih further).imp_right fun ⟨final, loop, written⟩ => ⟨final, loop, ?_⟩
    rw [written, List.append_assoc]

end Busybox.Coreutils.Tail
