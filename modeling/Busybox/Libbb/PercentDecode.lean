import Mathlib.Data.List.Basic
import Busybox.Lib.Loops

/-!
# `percent_decode_in_place`

`libbb/percent_decode.c` reads a string and writes what its escapes stand for into the same
buffer. A text that was written and one that is still to be read are all there is to a state.
-/

namespace Busybox.Libbb.PercentDecode

open Turns

def percent : UInt8 := 37
def plus : UInt8 := 43
def space : UInt8 := 32
def slash : UInt8 := 47

/-- `hex_to_bin`: all bits are set for what is not a digit. -/
def hexToBin (c : UInt8) : UInt32 :=
  let v := c.toUInt32 - 48
  if v ≤ 9 then v
  else
    let v := (c ||| 0x20).toUInt32 - 97
    if v ≤ 5 then v + 10 else ~~~0

/-- The buffer, with the pointers of the reader and of the writer into it. -/
structure Cursor where
  buffer : List UInt8
  src : Nat
  dst : Nat

/-- The buffer afterwards, and where the returned pointer points: nowhere, to the string, or one
character behind its start. -/
structure Returned where
  buffer : List UInt8
  str : Option Nat

/-- `*dst++ = c`, with the reader somewhere else. -/
def put (state : Cursor) (c : UInt8) (src : Nat) : Option (Turn Cursor Returned) :=
  if state.dst < state.buffer.length then
    some (.next ⟨state.buffer.set state.dst c, src, state.dst + 1⟩)
  else none

/-- The label `bad_hex`. -/
def badHex (strict : Bool) (state : Cursor) (src : Nat) : Option (Turn Cursor Returned) :=
  if strict then some (.leave ⟨state.buffer, none⟩) else put state percent src

/-- The body of the loop, and what follows it where its test fails. Nothing stands outside the
buffer. -/
def turn (strict : Bool) (state : Cursor) : Option (Turn Cursor Returned) := do
  let c ← state.buffer[state.src]?
  let src := state.src + 1
  if c = 0 then
    if state.dst < state.buffer.length then
      some (.leave ⟨state.buffer.set state.dst 0, some 0⟩)
    else none
  else if !strict ∧ c = plus then put state space src
  else if c ≠ percent then put state c src
  else
    let v := hexToBin (← state.buffer[src]?)
    if 15 < v then badHex strict state src
    else
      let v := v * 16 ||| hexToBin (← state.buffer[src + 1]?)
      if 255 < v then badHex strict state src
      else if strict ∧ (v = slash.toUInt32 ∨ v = 0) then some (.leave ⟨state.buffer, some 1⟩)
      else put state v.toUInt8 (src + 2)

theorem put_lower {state next : Cursor} {c : UInt8} {src : Nat} (forward : state.src < src)
    (inside : state.src < state.buffer.length) (more : put state c src = some (.next next)) :
    next.buffer.length - next.src < state.buffer.length - state.src := by
  unfold put at more
  split at more
  · cases more
    simp only [List.length_set]
    omega
  · cases more

theorem badHex_lower {strict : Bool} {state next : Cursor} {src : Nat}
    (forward : state.src < src) (inside : state.src < state.buffer.length)
    (more : badHex strict state src = some (.next next)) :
    next.buffer.length - next.src < state.buffer.length - state.src := by
  unfold badHex at more
  split at more
  · cases more
  · exact put_lower forward inside more

theorem turn_lower {strict : Bool} {state next : Cursor}
    (more : turn strict state = some (.next next)) :
    next.buffer.length - next.src < state.buffer.length - state.src := by
  obtain ⟨c, here, more⟩ := Option.bind_eq_some_iff.mp more
  have inside := (List.getElem?_eq_some_iff.mp here).1
  have one : state.src < state.src + 1 := Nat.lt_succ_self _
  have three : state.src < state.src + 1 + 2 := by omega
  simp only at more
  split at more
  · split at more <;> cases more
  split at more
  · exact put_lower one inside more
  split at more
  · exact put_lower one inside more
  obtain ⟨first, -, more⟩ := Option.bind_eq_some_iff.mp more
  split at more
  · exact badHex_lower one inside more
  obtain ⟨second, -, more⟩ := Option.bind_eq_some_iff.mp more
  split at more
  · exact badHex_lower one inside more
  split at more
  · cases more
  · exact put_lower three inside more

/-- The loop. -/
def decodeLoop (strict : Bool) : Bounded Cursor Returned where
  turn := turn strict
  left state := state.buffer.length - state.src
  lower := turn_lower

def percentDecodeInPlace (buffer : List UInt8) (strict : Bool) : Option Returned :=
  (decodeLoop strict).run ⟨buffer, 0, 0⟩

/-! ## What escapes stand for -/

/-- The value of a hexadecimal digit. -/
def digit (c : UInt8) : Option UInt8 :=
  if 48 ≤ c ∧ c ≤ 57 then some (c - 48)
  else if 65 ≤ c ∧ c ≤ 70 then some (c - 55)
  else if 97 ≤ c ∧ c ≤ 102 then some (c - 87)
  else none

/-- A character that stands for itself, or one that an escape stands for. -/
structure Item where
  value : UInt8
  escaped : Bool

/-- The text as far as its escapes have two digits, and whether all of them have. -/
def read : List UInt8 → List Item × Bool
  | [] => ([], true)
  | c :: rest =>
    if c ≠ percent then ((read rest).1.cons ⟨c, false⟩, (read rest).2)
    else match rest with
      | high :: low :: rest =>
        match digit high, digit low with
        | some h, some l => ((read rest).1.cons ⟨16 * h + l, true⟩, (read rest).2)
        | _, _ => ([], false)
      | _ => ([], false)

/-- Every escape has two digits. -/
def WellFormed (text : List UInt8) : Prop := (read text).2 = true

/-- The character is an escaped slash or NUL. -/
def Item.Forbidden (item : Item) : Prop :=
  item.escaped = true ∧ (item.value = slash ∨ item.value = 0)

instance : DecidablePred Item.Forbidden := fun item =>
  inferInstanceAs (Decidable (item.escaped = true ∧ (item.value = slash ∨ item.value = 0)))

/-- An escape stands for a slash or for the NUL. -/
def Encodes (text : List UInt8) : Prop := ∃ item ∈ (read text).1, item.Forbidden

/-- The text that the escapes stand for. -/
def decoded (text : List UInt8) : List UInt8 := (read text).1.map Item.value

/-- The two characters behind the sign of an escape are digits. -/
def twoDigits : List UInt8 → Bool
  | high :: low :: _ => (digit high).isSome && (digit low).isSome
  | _ => false

theorem digits_of {rest : List UInt8} (digits : twoDigits rest = true) :
    ∃ high low rest' h l, rest = high :: low :: rest' ∧ digit high = some h ∧
      digit low = some l := by
  rcases rest with _ | ⟨high, _ | ⟨low, rest⟩⟩
  · cases digits
  · cases digits
  · obtain ⟨first, second⟩ := (Bool.and_eq_true _ _).mp digits
    obtain ⟨h, first⟩ := Option.isSome_iff_exists.mp first
    obtain ⟨l, second⟩ := Option.isSome_iff_exists.mp second
    exact ⟨high, low, rest, h, l, rfl, first, second⟩

theorem read_plain {c : UInt8} (plain : c ≠ percent) (rest : List UInt8) :
    read (c :: rest) = ((read rest).1.cons ⟨c, false⟩, (read rest).2) := by
  rcases rest with _ | ⟨high, _ | ⟨low, rest⟩⟩ <;> simp [read, plain]

theorem read_escape {high low h l : UInt8} (first : digit high = some h)
    (second : digit low = some l) (rest : List UInt8) :
    read (percent :: high :: low :: rest) =
      ((read rest).1.cons ⟨16 * h + l, true⟩, (read rest).2) := by
  simp [read, first, second]

theorem read_malformed {rest : List UInt8} (malformed : twoDigits rest = false) :
    read (percent :: rest) = ([], false) := by
  rcases rest with _ | ⟨high, _ | ⟨low, rest⟩⟩
  · simp [read]
  · simp [read]
  · cases first : digit high with
    | none => simp [read, first]
    | some h =>
      have second : digit low = none := by simpa [twoDigits, first] using malformed
      simp [read, first, second]

/-- A text ends, goes on with a character that is no escape, or with an escape. -/
theorem readInduction {motive : List UInt8 → Prop} (text : List UInt8) (nil : motive [])
    (plain : ∀ c rest, c ≠ percent → motive rest → motive (c :: rest))
    (malformed : ∀ rest, twoDigits rest = false → motive (percent :: rest))
    (escape : ∀ high low h l rest, digit high = some h → digit low = some l → motive rest →
      motive (percent :: high :: low :: rest)) : motive text := by
  induction length : text.length using Nat.strongRecOn generalizing text with
  | _ n ih =>
  subst length
  cases text with
  | nil => exact nil
  | cons c rest =>
    by_cases isPlain : c ≠ percent
    · exact plain c rest isPlain (ih rest.length (Nat.lt_succ_self _) rest rfl)
    obtain rfl : c = percent := not_not.mp isPlain
    by_cases bad : twoDigits rest = false
    · exact malformed rest bad
    · obtain ⟨high, low, rest, h, l, rfl, first, second⟩ := digits_of (by simpa using bad)
      exact escape high low h l rest first second (ih rest.length (by simp; omega) rest rfl)

theorem hexToBin_eq (c : UInt8) :
    hexToBin c = ((digit c).map UInt8.toUInt32).getD (~~~0) := by
  have all : ∀ n : Fin 256, hexToBin (UInt8.ofFin n) =
      ((digit (UInt8.ofFin n)).map UInt8.toUInt32).getD (~~~0) := by
    decide +kernel
  exact all c.toFin

theorem sub_lt {c low top : UInt8} (least : low ≤ c) (most : c ≤ top)
    (near : top.toNat < low.toNat + 16) : (c - low).toNat < 16 := by
  have below := UInt8.le_iff_toNat_le.mp most
  rw [UInt8.toNat_sub_of_le _ _ least]
  omega

theorem digit_lt {c v : UInt8} (isDigit : digit c = some v) : v.toNat < 16 := by
  unfold digit at isDigit
  split at isDigit
  case isTrue range =>
    cases isDigit
    exact sub_lt range.1 range.2 (by decide)
  split at isDigit
  case isTrue range =>
    cases isDigit
    have least : 55 ≤ c := UInt8.le_trans (by decide) range.1
    exact sub_lt least range.2 (by decide)
  split at isDigit
  case isTrue range =>
    cases isDigit
    have least : 87 ≤ c := UInt8.le_trans (by decide) range.1
    exact sub_lt least range.2 (by decide)
  · cases isDigit

/-- Two digits make a character. -/
theorem two_digits {h l : UInt8} (high : h.toNat < 16) (low : l.toNat < 16) :
    h.toUInt32 * 16 ||| l.toUInt32 = (16 * h + l).toUInt32 := by
  have joined := Nat.two_pow_add_eq_or_of_lt (i := 4) low h.toNat
  have product : (h.toUInt32 * 16).toNat = 2 ^ 4 * h.toNat := by
    rw [UInt32.toNat_mul, UInt8.toNat_toUInt32]
    simp
    omega
  have sum : (16 * h + l).toNat = 2 ^ 4 * h.toNat + l.toNat := by
    rw [UInt8.toNat_add, UInt8.toNat_mul]
    simp
    omega
  apply UInt32.toNat_inj.mp
  rw [UInt32.toNat_or, product, UInt8.toNat_toUInt32, UInt8.toNat_toUInt32, sum, joined]

/-! ## The loop reads the text -/

/-- A text was written and another is to be read in front of a NUL. What lies between them was
read and is not part of either. -/
def Holds (state : Cursor) (out text behind : List UInt8) : Prop :=
  ∃ gap, state.buffer = out ++ (gap ++ (text ++ 0 :: behind)) ∧ state.dst = out.length ∧
    state.src = out.length + gap.length

variable {state : Cursor} {out text seen behind : List UInt8} {c : UInt8}

theorem Holds.ahead (holds : Holds state out text behind) (k : Nat) :
    state.buffer[state.src + k]? = (text ++ 0 :: behind)[k]? := by
  obtain ⟨gap, buffer, -, reader⟩ := holds
  rw [buffer, List.getElem?_append_right (by omega), List.getElem?_append_right (by omega)]
  congr 1
  omega

variable (seen) in
/-- The cell of the writer is one that was read. -/
theorem Holds.put (holds : Holds state out (seen ++ text) behind) (nonempty : seen ≠ [])
    (c : UInt8) :
    ∃ next, put state c (state.src + seen.length) = some (.next next) ∧
      Holds next (out ++ [c]) text behind := by
  obtain ⟨gap, buffer, writer, reader⟩ := holds
  obtain ⟨old, more, cells⟩ : ∃ old more, gap ++ seen = old :: more :=
    List.exists_cons_of_ne_nil (by simp [nonempty])
  have length := congrArg List.length cells
  rw [List.length_append, List.length_cons] at length
  have whole : state.buffer = out ++ old :: (more ++ (text ++ 0 :: behind)) := by
    rw [buffer, ← List.cons_append, ← cells]
    simp
  refine ⟨⟨state.buffer.set state.dst c, state.src + seen.length, state.dst + 1⟩,
    if_pos (by simp [whole, writer]), more, ?_, by simp [writer], ?_⟩
  · rw [whole, writer, List.set_append_right _ _ (Nat.le_refl _)]
    simp
  · simp only [reader, List.length_append, List.length_singleton]
    omega

/-- What comes of a text. -/
inductive Outcome
  | encoded
  | malformed
  | text (decoded : List UInt8)

/-- The first escape that is forbidden or malformed decides. -/
def outcome (items : List Item × Bool) : Outcome :=
  if ∃ item ∈ items.1, item.Forbidden then .encoded
  else if items.2 = true then .text (items.1.map Item.value)
  else .malformed

/-- The loop has returned what comes of a text. -/
def Finishes (result : Option Returned) (out behind : List UInt8) : Outcome → Prop
  | .encoded => ∃ buffer, result = some ⟨buffer, some 1⟩
  | .malformed => ∃ buffer, result = some ⟨buffer, none⟩
  | .text decoded => ∃ left, result = some ⟨out ++ (decoded ++ 0 :: (left ++ behind)), some 0⟩

theorem Finishes.cons {result : Option Returned} {items : List Item × Bool} (item : Item)
    (allowed : ¬item.Forbidden)
    (finishes : Finishes result (out ++ [item.value]) behind (outcome items)) :
    Finishes result out behind (outcome (items.1.cons item, items.2)) := by
  have first : (∃ other ∈ items.1.cons item, other.Forbidden) ↔
      ∃ other ∈ items.1, other.Forbidden := by
    simp [allowed]
  unfold outcome at finishes ⊢
  by_cases later : ∃ other ∈ items.1, other.Forbidden
  · rw [if_pos later] at finishes
    rwa [if_pos (first.mpr later)]
  · rw [if_neg later] at finishes
    rw [if_neg (mt first.mp later)]
    split at finishes
    case isTrue whole => simpa [Finishes, whole] using finishes
    case isFalse broken => rwa [if_neg broken]

/-- A character that is no escape is copied. -/
theorem turn_plain (holds : Holds state out (c :: text) behind) (notNul : c ≠ 0)
    (plain : c ≠ percent) : turn true state = put state c (state.src + 1) := by
  have here : state.buffer[state.src]? = some c := holds.ahead 0
  rw [turn, here, Option.bind_eq_bind, Option.bind_some]
  simp [notNul, plain]

theorem digit_le {v : UInt8} (isDigit : digit c = some v) : ¬15 < hexToBin c := by
  have small := digit_lt isDigit
  rw [hexToBin_eq, isDigit, UInt32.lt_iff_toNat_lt]
  simp only [Option.map_some, Option.getD_some, UInt8.toNat_toUInt32, UInt32.reduceToNat]
  omega

/-- What the strict loop does with an escape. -/
theorem turn_percent {first : UInt8} (here : state.buffer[state.src]? = some percent)
    (one : state.buffer[state.src + 1]? = some first) :
    turn true state =
      if 15 < hexToBin first then some (.leave ⟨state.buffer, none⟩)
      else state.buffer[state.src + 2]?.bind fun second =>
        let v := hexToBin first * 16 ||| hexToBin second
        if 255 < v then some (.leave ⟨state.buffer, none⟩)
        else if v = slash.toUInt32 ∨ v = 0 then some (.leave ⟨state.buffer, some 1⟩)
        else put state v.toUInt8 (state.src + 3) := by
  have notNul : ¬percent = 0 := by decide
  simp only [turn, here, one, Option.bind_eq_bind, Option.bind_some, if_neg notNul, badHex,
    Bool.not_true, Bool.false_eq_true, false_and, true_and, if_true, if_false, ne_eq,
    not_true_eq_false]

/-- An escape with two digits stands for a character. -/
theorem turn_escape {high low h l : UInt8}
    (holds : Holds state out (percent :: high :: low :: text) behind)
    (first : digit high = some h) (second : digit low = some l) :
    turn true state =
      if 16 * h + l = slash ∨ 16 * h + l = 0 then some (.leave ⟨state.buffer, some 1⟩)
      else put state (16 * h + l) (state.src + 3) := by
  have two : state.buffer[state.src + 2]? = some low := holds.ahead 2
  have value : hexToBin high * 16 ||| hexToBin low = (16 * h + l).toUInt32 := by
    rw [hexToBin_eq, hexToBin_eq, first, second]
    exact two_digits (digit_lt first) (digit_lt second)
  have inByte : ¬255 < (16 * h + l).toUInt32 := by
    rw [UInt32.lt_iff_toNat_lt, UInt8.toNat_toUInt32]
    exact Nat.not_lt.mpr (Nat.le_of_lt_succ (UInt8.toNat_lt _))
  have isSlash : (16 * h + l).toUInt32 = slash.toUInt32 ↔ 16 * h + l = slash := UInt8.toUInt32_inj
  have isNul : (16 * h + l).toUInt32 = 0 ↔ 16 * h + l = 0 := UInt8.toUInt32_inj (b := 0)
  rw [turn_percent (holds.ahead 0) (holds.ahead 1), if_neg (digit_le first), two,
    Option.bind_some]
  simp only [value, if_neg inByte, isSlash, isNul, UInt8.toUInt8_toUInt32]

/-- An escape without two digits ends the loop. -/
theorem turn_malformed (holds : Holds state out (percent :: text) behind)
    (malformed : twoDigits text = false) :
    turn true state = some (.leave ⟨state.buffer, none⟩) := by
  have noDigit : ∀ {c}, digit c = none → hexToBin c = ~~~0 := by
    intro c none
    rw [hexToBin_eq, none]
    rfl
  have nul : digit 0 = none := by decide
  obtain ⟨first, one, after⟩ : ∃ first, (text ++ 0 :: behind)[0]? = some first ∧
      (digit first = none ∨ ∃ second, (text ++ 0 :: behind)[1]? = some second ∧
        digit second = none) := by
    cases text with
    | nil => exact ⟨0, rfl, .inl nul⟩
    | cons high rest =>
      refine ⟨high, rfl, ?_⟩
      cases rest with
      | nil => exact .inr ⟨0, rfl, nul⟩
      | cons low rest =>
        rcases Bool.and_eq_false_iff.mp malformed with bad | bad
        · exact .inl (Option.isNone_iff_eq_none.mp (by simpa using bad))
        · exact .inr ⟨low, rfl, by simpa using bad⟩
  rw [turn_percent (holds.ahead 0) ((holds.ahead 1).trans one)]
  by_cases bad : 15 < hexToBin first
  · rw [if_pos bad]
  · rcases after with bad' | ⟨second, two, bad'⟩
    · exact absurd (by rw [noDigit bad']; decide) bad
    · have ahead : state.buffer[state.src + 2]? = some second := (holds.ahead 2).trans two
      rw [if_neg bad, ahead, Option.bind_some, noDigit bad']
      have ones : ∀ v : UInt32, 255 < v ||| ~~~0 := fun v => by
        rw [UInt32.not_zero, UInt32.or_neg_one]
        decide
      exact if_pos (ones _)

/-- At the end of the text the NUL is written behind what was written. -/
theorem run_nil (holds : Holds state out [] behind) :
    ∃ left, (decodeLoop true).run state = some ⟨out ++ 0 :: (left ++ behind), some 0⟩ := by
  have here : state.buffer[state.src]? = some 0 := holds.ahead 0
  obtain ⟨gap, buffer, writer, -⟩ := holds
  have inside : state.dst < state.buffer.length := by
    simp only [buffer, writer, List.length_append, List.length_cons]
    omega
  have turned : turn true state = some (.leave ⟨state.buffer.set state.dst 0, some 0⟩) := by
    rw [turn, here, Option.bind_eq_bind, Option.bind_some]
    exact (if_pos rfl).trans (if_pos inside)
  have ended : (decodeLoop true).run state = some ⟨state.buffer.set state.dst 0, some 0⟩ :=
    Bounded.run_leave turned
  rw [ended, buffer, writer, List.set_append_right _ _ (Nat.le_refl _), Nat.sub_self]
  cases gap with
  | nil => exact ⟨[], rfl⟩
  | cons g gap => exact ⟨gap ++ [0], by simp⟩

/-- The loop returns what comes of the text. -/
theorem run_read (holds : Holds state out text behind) (clean : 0 ∉ text) :
    Finishes ((decodeLoop true).run state) out behind (outcome (read text)) := by
  induction text using readInduction generalizing state out with
  | nil => exact run_nil holds
  | plain c rest isPlain ih =>
    have notNul : c ≠ 0 := fun nul => clean (nul ▸ List.mem_cons_self)
    obtain ⟨next, more, holds'⟩ := holds.put [c] (by simp) c
    have step : (decodeLoop true).run state = (decodeLoop true).run next :=
      Bounded.run_next ((turn_plain holds notNul isPlain).trans more)
    rw [step, read_plain isPlain]
    refine Finishes.cons ⟨c, false⟩ (fun forbidden => by cases forbidden.1) (ih holds' ?_)
    exact fun mem => clean (List.mem_cons_of_mem _ mem)
  | malformed rest bad =>
    have ended : (decodeLoop true).run state = some ⟨state.buffer, none⟩ :=
      Bounded.run_leave (turn_malformed holds bad)
    rw [ended, read_malformed bad]
    exact ⟨state.buffer, rfl⟩
  | escape high low h l rest first second ih =>
    have turned := turn_escape holds first second
    rw [read_escape first second]
    by_cases forbidden : 16 * h + l = slash ∨ 16 * h + l = 0
    · have ended : (decodeLoop true).run state = some ⟨state.buffer, some 1⟩ :=
        Bounded.run_leave (turned.trans (if_pos forbidden))
      rw [ended, outcome, if_pos ⟨_, List.mem_cons_self, rfl, forbidden⟩]
      exact ⟨state.buffer, rfl⟩
    · obtain ⟨next, more, holds'⟩ := holds.put [percent, high, low] (by simp) (16 * h + l)
      have step : (decodeLoop true).run state = (decodeLoop true).run next :=
        Bounded.run_next ((turned.trans (if_neg forbidden)).trans more)
      rw [step]
      refine Finishes.cons ⟨16 * h + l, true⟩ (fun item => forbidden item.2) (ih holds' ?_)
      exact fun mem => clean (by simp [mem])

/-! ## The whole string -/

theorem percentDecodeInPlace_read (clean : 0 ∉ text) (behind : List UInt8) :
    Finishes (percentDecodeInPlace (text ++ 0 :: behind) true) [] behind (outcome (read text)) :=
  run_read ⟨[], rfl, rfl, rfl⟩ clean

/-- An item stands for itself in the text, or it is escaped. -/
theorem read_items (text : List UInt8) :
    ∀ item ∈ (read text).1, item.escaped = true ∨ item.value ∈ text := by
  induction text using readInduction with
  | nil => exact nofun
  | plain c rest isPlain ih =>
    rw [read_plain isPlain]
    refine List.forall_mem_cons.mpr ⟨.inr List.mem_cons_self, fun item mem => ?_⟩
    exact (ih item mem).imp_right (List.mem_cons_of_mem _)
  | malformed rest bad =>
    rw [read_malformed bad]
    exact nofun
  | escape high low h l rest first second ih =>
    rw [read_escape first second]
    refine List.forall_mem_cons.mpr ⟨.inl rfl, fun item mem => ?_⟩
    exact (ih item mem).imp_right fun inside => by simp [inside]

/-- No NUL comes of a text whose escapes stand for none. -/
theorem decoded_clean (clean : 0 ∉ text) (allowed : ¬Encodes text) : 0 ∉ decoded text := by
  intro nul
  obtain ⟨item, mem, isNul⟩ := List.mem_map.mp nul
  rcases read_items text item mem with escaped | inside
  · exact allowed ⟨item, mem, escaped, .inr isNul⟩
  · exact clean (isNul ▸ inside)

theorem decoded_plain (plain : c ≠ percent) (rest : List UInt8) :
    decoded (c :: rest) = c :: decoded rest := by
  rw [decoded, read_plain plain]
  rfl

end Busybox.Libbb.PercentDecode
