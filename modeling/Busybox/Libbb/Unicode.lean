import Mathlib.Data.List.Basic
import Mathlib.Tactic.Common
import Mathlib.Tactic.IntervalCases

/-!
# Wide characters and their bytes

`libbb/unicode.c` puts any 32 bits into one to six bytes. `wcstombs` and `mbstowcs` go over whole
strings, each with the room there is behind the pointer it writes to.
-/

namespace Busybox.Libbb.Unicode

/-- `wchar_t` is signed, and its shifts to the right keep the sign. -/
abbrev Wchar := BitVec 32
abbrev Byte := BitVec 8

inductive Status
  | unknown
  | off
  | on
  deriving DecidableEq

/-- `MB_CUR_MAX` -/
def mbCurMax : Nat := 6

/-- `ERROR_WCHAR` -/
def errorWchar : Wchar := ~~~0

/-- `(size_t) -1L` -/
def sizeError : Nat := 2 ^ 64 - 1

/-! ## One character -/

/-- "How many bytes do we need?" -/
def bytesNeeded (v : BitVec 32) (n : Nat) : Nat :=
  if 0x800 ≤ v ∧ n < 6 then bytesNeeded (v >>> 5) (n + 1) else n
termination_by 6 - n

/-- "Fill bytes n-1..1": those in front of the filled ones, and what is left of the character. -/
def fillBytes : Nat → Wchar → List Byte → Wchar × List Byte
  | 0, wc, filled => (wc, filled)
  | i + 1, wc, filled =>
    fillBytes i (wc.sshiftRight 6) (((wc &&& 0x3f) ||| 0x80).setWidth 8 :: filled)

/-- `(uint8_t)(0x3f00 >> n)` -/
def leadMask (n : Nat) : Byte := (0x3f00#32 >>> n).setWidth 8

/-- The bytes of a character; what is returned is their number. -/
def wcrtombInternal (wc : Wchar) : List Byte :=
  if wc ≤ 0x7f then [wc.setWidth 8]
  else
    let n := bytesNeeded wc 2
    let (wc, filled) := fillBytes (n - 1) wc []
    (wc ||| (leadMask n).setWidth 32).setWidth 8 :: filled

/-- The bits at the front of the first byte are counted while it is shifted; at most `left`. -/
def countLead : Nat → BitVec 32 → Nat × BitVec 32
  | 0, c => (0, c)
  | left + 1, c =>
    let c := c <<< 1
    if c &&& 0x80 ≠ 0 ∧ left ≠ 0 then ((countLead left c).1 + 1, (countLead left c).2) else (1, c)

/-- The continuation bytes; nothing for the character where one is missing. -/
def readRest : Nat → BitVec 32 → List Byte → Option (Option Wchar × List Byte)
  | 0, c, src => some (some c, src)
  | _ + 1, _, [] => none
  | bytes + 1, c, ch :: src =>
    if ch &&& 0xc0 ≠ 0x80 then some (none, ch :: src)
    else readRest bytes ((c <<< 6) + (ch &&& 0x3f).setWidth 32) src

/-- A character, and the bytes behind it. -/
def mbstowcInternal : List Byte → Option (Wchar × List Byte)
  | [] => none
  | first :: src =>
    let c := first.setWidth 32
    if c ≤ 0x7f then some (c, src)
    else
      let (bytes, c) := countLead 6 c
      if bytes = 1 then some (errorWchar, src)
      else do
        match ← readRest (bytes - 1) ((c.setWidth 8 >>> bytes).setWidth 32) src with
        | (none, src) => return (errorWchar, src)
        -- "crude check" for an overlong encoding
        | (some c, src) => return (if c ≤ 0x7f then errorWchar else c, src)

/-! ## Strings -/

section Strings

/- What goes behind the pointer, with `n` on entry for what is returned. -/
variable (orgN : Nat)

/-- Each character cut down to a byte. -/
def narrowLoop (dest : List Byte) : List Wchar → Nat → Option (List Byte × Nat)
  | _, 0 => some (dest, orgN)
  | [], _ + 1 => none
  | c :: src, n + 1 =>
    if c = 0 then some (dest ++ [c.setWidth 8], orgN - (n + 1))
    else narrowLoop (dest ++ [c.setWidth 8]) src n

/-- The characters for which there may be no room are put into a buffer first. -/
def tailLoop (dest : List Byte) : List Wchar → Nat → Option (List Byte × Nat)
  | _, 0 => some (dest, orgN)
  | [], _ + 1 => none
  | wc :: src, n + 1 =>
    let tbuf := wcrtombInternal wc
    if n + 1 < tbuf.length then some (dest, orgN - (n + 1))
    else if wc = 0 then some (dest ++ tbuf, orgN - (n + 1))
    else tailLoop (dest ++ tbuf) src (n + 1 - tbuf.length)

/-- There is room for every character. -/
def bulkLoop (dest : List Byte) : List Wchar → Nat → Option (List Byte × Nat)
  | [], n => if mbCurMax ≤ n then none else tailLoop orgN dest [] n
  | wc :: src, n =>
    if mbCurMax ≤ n then
      let bytes := wcrtombInternal wc
      if wc = 0 then some (dest ++ bytes, orgN - n)
      else bulkLoop (dest ++ bytes) src (n - bytes.length)
    else tailLoop orgN dest (wc :: src) n

def wcstombs (status : Status) (src : List Wchar) (n : Nat) : Option (List Byte × Nat) :=
  if status ≠ .on then narrowLoop n [] src n else bulkLoop n [] src n

/-- What goes to `dest`, which may be a null pointer. -/
def put (hasDest : Bool) (dest : List Wchar) (wc : Wchar) : List Wchar :=
  if hasDest then dest ++ [wc] else dest

/-- Each byte is a character. -/
def widenLoop (hasDest : Bool) (dest : List Wchar) :
    List Byte → Nat → Option (List Wchar × Nat)
  | _, 0 => some (dest, orgN)
  | [], _ + 1 => none
  | c :: src, n + 1 =>
    let dest := put hasDest dest (c.setWidth 32)
    if c = 0 then some (dest, orgN - (n + 1)) else widenLoop hasDest dest src n

def wideLoop (hasDest : Bool) (dest : List Wchar) :
    List Byte → Nat → Option (List Wchar × Nat)
  | _, 0 => some (dest, orgN)
  | src, n + 1 => do
    let (wc, src) ← mbstowcInternal src
    if wc = errorWchar then return (dest, sizeError)
    let dest := put hasDest dest wc
    if wc = 0 then return (dest, orgN - (n + 1))
    wideLoop hasDest dest src n

def mbstowcs (status : Status) (hasDest : Bool) (src : List Byte) (n : Nat) :
    Option (List Wchar × Nat) :=
  if status ≠ .on then widenLoop n hasDest [] src n else wideLoop n hasDest [] src n

end Strings

/-! ## There and back -/

/-- The low bits of two words are the same. -/
def Agree (bits : Nat) (x y : BitVec 32) : Prop := ∀ i < bits, x.getLsbD i = y.getLsbD i

theorem Agree.refl (bits : Nat) (x : BitVec 32) : Agree bits x x := fun _ _ => rfl

theorem Agree.eq {bits : Nat} {x y : BitVec 32} (all : 32 ≤ bits) (agree : Agree bits x y) :
    x = y := BitVec.eq_of_getLsbD_eq fun i small => agree i (by omega)

/-- The mask of the bits in a continuation byte. -/
theorem mask_getLsbD {w : Nat} (i : Nat) (wide : 6 ≤ w) : (0x3f#w).getLsbD i = decide (i < 6) := by
  have bit : Nat.testBit 0x3f i = decide (i < 6) := Nat.testBit_two_pow_sub_one 6 i
  rw [BitVec.getLsbD_ofNat, bit]
  by_cases low : i < 6
  · simp [low, Nat.lt_of_lt_of_le low wide]
  · simp [low]

/-- The six bits of a continuation byte stand behind what was read. -/
theorem Agree.push {bits : Nat} {x wc : BitVec 32} (agree : Agree bits x (wc.sshiftRight 6)) :
    Agree (bits + 6) ((x <<< 6) + (wc &&& 0x3f)) wc := by
  have apart : (x <<< 6) &&& (wc &&& 0x3f) = 0 := by
    refine BitVec.eq_of_getLsbD_eq fun i small => ?_
    simp only [BitVec.getLsbD_and, BitVec.getLsbD_shiftLeft, BitVec.ofNat_eq_ofNat,
      mask_getLsbD i (by decide : 6 ≤ 32), BitVec.getLsbD_zero]
    by_cases low : i < 6 <;> simp [low]
  intro i small
  rw [BitVec.add_eq_or_of_and_eq_zero _ _ apart]
  simp only [BitVec.getLsbD_or, BitVec.getLsbD_and, BitVec.getLsbD_shiftLeft, BitVec.ofNat_eq_ofNat,
    mask_getLsbD i (by decide : 6 ≤ 32)]
  by_cases low : i < 6
  · simp [low]
  · by_cases word : i < 32
    · have bit := agree (i - 6) (by omega)
      rw [BitVec.getLsbD_sshiftRight] at bit
      have place : 6 + (i - 6) = i := by omega
      simp [low, word, bit, place]
      omega
    · simp [word, BitVec.getLsbD_of_ge wc i (by omega)]

/-- A continuation byte, as it is written and as it is read. -/
theorem continuation_byte (wc : Wchar) :
    (((wc &&& 0x3f) ||| 0x80).setWidth 8 : Byte) &&& 0xc0 = 0x80 ∧
      ((((wc &&& 0x3f) ||| 0x80).setWidth 8 : Byte) &&& 0x3f).setWidth 32 = wc &&& 0x3f := by
  constructor
  · refine BitVec.eq_of_getLsbD_eq fun i small => ?_
    interval_cases i <;> simp
  · refine BitVec.eq_of_getLsbD_eq fun i small => ?_
    interval_cases i <;> simp

/-- One more continuation byte is read behind the others. -/
theorem readRest_succ {bytes : Nat} {c x : BitVec 32} {ch : Byte} {src rest : List Byte}
    (read : readRest bytes c src = some (some x, ch :: rest)) (isMore : ch &&& 0xc0 = 0x80) :
    readRest (bytes + 1) c src = some (some ((x <<< 6) + (ch &&& 0x3f).setWidth 32), rest) := by
  induction bytes generalizing c src with
  | zero =>
    cases read
    rw [readRest, if_neg (not_not.mpr isMore), readRest]
  | succ bytes ih =>
    cases src with
    | nil => cases read
    | cons first src =>
      rw [readRest] at read ⊢
      split at read
      case isTrue => cases read
      case isFalse good => rw [if_neg good, ih read]

theorem fillBytes_append (i : Nat) (wc : Wchar) (filled : List Byte) :
    fillBytes i wc filled = ((fillBytes i wc []).1, (fillBytes i wc []).2 ++ filled) := by
  induction i generalizing wc filled with
  | zero => rfl
  | succ i ih =>
    rw [fillBytes, ih, fillBytes, ih _ [_]]
    simp

theorem fillBytes_length (i : Nat) (wc : Wchar) : (fillBytes i wc []).2.length = i := by
  induction i generalizing wc with
  | zero => rfl
  | succ i ih => rw [fillBytes, fillBytes_append, List.length_append, ih, List.length_singleton]

/-- What is left of a character when bytes were filled. -/
theorem fillBytes_left (i : Nat) (wc : Wchar) :
    (fillBytes i wc []).1 = wc.sshiftRight (6 * i) := by
  induction i generalizing wc with
  | zero => exact (BitVec.sshiftRight_zero).symm
  | succ i ih =>
    rw [fillBytes, fillBytes_append, ih]
    rw [← BitVec.sshiftRight_add]
    congr 1
    omega

/-- The filled bytes put back what was taken from the character. -/
theorem readRest_fillBytes {i bits : Nat} {c wc : BitVec 32}
    (agree : Agree bits c (fillBytes i wc []).1) (rest : List Byte) :
    ∃ x, readRest i c ((fillBytes i wc []).2 ++ rest) = some (some x, rest) ∧
      Agree (bits + 6 * i) x wc := by
  induction i generalizing wc rest with
  | zero => exact ⟨c, rfl, agree⟩
  | succ i ih =>
    rw [fillBytes, fillBytes_append] at agree ⊢
    obtain ⟨isMore, six⟩ := continuation_byte wc
    obtain ⟨x, read, same⟩ :=
      ih agree ((((wc &&& 0x3f) ||| 0x80).setWidth 8 : Byte) :: rest)
    have more := readRest_succ read isMore
    rw [six] at more
    exact ⟨_, by rw [List.append_assoc]; exact more, same.push⟩

/-! ## The first byte -/

theorem bytesNeeded_bounds (v : BitVec 32) {n : Nat} (small : n ≤ 6) :
    n ≤ bytesNeeded v n ∧ bytesNeeded v n ≤ 6 ∧
      (bytesNeeded v n < 6 → v.toNat < 2 ^ (11 + 5 * (bytesNeeded v n - n))) := by
  induction v, n using bytesNeeded.induct with
  | case1 v n more ih =>
    obtain ⟨atLeast, atMost, room⟩ := ih (by omega)
    rw [bytesNeeded, if_pos more]
    refine ⟨by omega, atMost, fun below => ?_⟩
    have shifted := room below
    rw [BitVec.toNat_ushiftRight, Nat.shiftRight_eq_div_pow] at shifted
    have exponent : 11 + 5 * (bytesNeeded (v >>> 5) (n + 1) - n) =
        5 + (11 + 5 * (bytesNeeded (v >>> 5) (n + 1) - (n + 1))) := by omega
    rw [exponent, Nat.pow_add]
    omega
  | case2 v n done =>
    rw [bytesNeeded, if_neg done]
    refine ⟨Nat.le_refl n, small, fun below => ?_⟩
    have less : ¬0x800 ≤ v := fun more => done ⟨more, below⟩
    rw [Nat.sub_self, Nat.mul_zero, Nat.add_zero]
    rw [BitVec.le_def] at less
    simpa using less

/-- The first byte of so many bytes: they are counted again, and what it holds is left. -/
theorem countLead_mask : ∀ n ∈ [2, 3, 4, 5, 6], ∀ high : Byte,
    (n < 6 → high.toNat < 2 ^ (7 - n)) →
      0x7f < (high ||| leadMask n).setWidth 32 ∧
      (countLead 6 ((high ||| leadMask n).setWidth 32)).1 = n ∧
      (countLead 6 ((high ||| leadMask n).setWidth 32)).2.setWidth 8 >>> n =
        if n < 6 then high else high &&& 3 := by
  decide +kernel

/-- With fewer than six bytes little of the character is left for the first. -/
theorem fillBytes_small {wc : Wchar} {n : Nat} (enough : 2 ≤ n) (few : n < 6)
    (room : wc.toNat < 2 ^ (5 * n + 1)) :
    (fillBytes (n - 1) wc []).1.toNat < 2 ^ (7 - n) := by
  have positive : wc.msb = false := by
    rw [BitVec.msb_eq_decide, decide_eq_false_iff_not, not_le]
    exact Nat.lt_of_lt_of_le room (Nat.pow_le_pow_right (by decide) (by omega))
  rw [fillBytes_left, BitVec.sshiftRight_eq_of_msb_false positive, BitVec.toNat_ushiftRight,
    Nat.shiftRight_eq_div_pow]
  refine Nat.div_lt_of_lt_mul (Nat.lt_of_lt_of_le room ?_)
  rw [← Nat.pow_add]
  exact Nat.pow_le_pow_right (by decide) (by omega)

/-- Any character is read back, the error value too. -/
theorem mbstowcInternal_wcrtombInternal (wc : Wchar) (rest : List Byte) :
    mbstowcInternal (wcrtombInternal wc ++ rest) = some (wc, rest) := by
  unfold wcrtombInternal
  split
  case isTrue ascii =>
    have whole : (wc.setWidth 8).setWidth 32 = wc := by
      rw [BitVec.le_def] at ascii
      apply BitVec.eq_of_toNat_eq
      simp at ascii ⊢
      omega
    rw [List.singleton_append, mbstowcInternal]
    simp only [whole, if_pos ascii]
  case isFalse long =>
    obtain ⟨enough, most, room⟩ := bytesNeeded_bounds wc (by decide : 2 ≤ 6)
    generalize bytesNeeded wc 2 = n at enough most room ⊢
    dsimp only
    have small : n < 6 → (fillBytes (n - 1) wc []).1.toNat < 2 ^ (7 - n) := fun few =>
      fillBytes_small enough few (by
        have exponent : 11 + 5 * (n - 2) = 5 * n + 1 := by omega
        rw [← exponent]
        exact room few)
    have read := fun bits c agree => @readRest_fillBytes (n - 1) bits c wc agree rest
    generalize fillBytes (n - 1) wc [] = filling at small read ⊢
    obtain ⟨high, filled⟩ := filling
    have lead : (high ||| (leadMask n).setWidth 32).setWidth 8 =
        high.setWidth 8 ||| leadMask n := by
      rw [BitVec.setWidth_or, BitVec.setWidth_setWidth_of_le _ (by decide), BitVec.setWidth_eq]
    have few : n < 6 → (high.setWidth 8 : Byte).toNat < 2 ^ (7 - n) := fun few => by
      rw [BitVec.toNat_setWidth]
      exact Nat.lt_of_le_of_lt (Nat.mod_le _ _) (small few)
    have listed : n ∈ [2, 3, 4, 5, 6] := by
      simp only [List.mem_cons, List.not_mem_nil, or_false]
      omega
    obtain ⟨above, counted, left⟩ := countLead_mask n listed (high.setWidth 8) few
    have agree : Agree (if n < 6 then 32 else 2)
        ((if n < 6 then high.setWidth 8 else high.setWidth 8 &&& 3 : Byte).setWidth 32) high := by
      split
      case isTrue few =>
        have tiny : high.toNat < 2 ^ 8 :=
          Nat.lt_trans (small few) (Nat.pow_lt_pow_right (by decide) (by omega))
        have whole : (high.setWidth 8 : Byte).setWidth 32 = high := by
          apply BitVec.eq_of_toNat_eq
          simp
          omega
        rw [whole]
        exact Agree.refl 32 high
      case isFalse =>
        intro i two
        interval_cases i <;> simp
    obtain ⟨x, rested, same⟩ := read _ _ agree
    have all : 32 ≤ (if n < 6 then 32 else 2) + 6 * (n - 1) := by split <;> omega
    obtain rfl := same.eq all
    have notOne : n ≠ 1 := by omega
    have notLow : ¬(high.setWidth 8 ||| leadMask n : Byte).setWidth 32 ≤ 0x7f :=
      BitVec.not_le.mpr above
    rw [List.cons_append, mbstowcInternal]
    simp only [lead, if_neg notLow, counted, if_neg notOne, left, rested, Option.bind_eq_bind,
      Option.bind_some, if_neg long]
    rfl

/-! ## Strings -/

theorem wcrtombInternal_length (wc : Wchar) :
    1 ≤ (wcrtombInternal wc).length ∧ (wcrtombInternal wc).length ≤ mbCurMax := by
  unfold wcrtombInternal
  split
  · exact ⟨Nat.le_refl 1, Nat.le_of_ble_eq_true rfl⟩
  · obtain ⟨enough, most, -⟩ := bytesNeeded_bounds wc (by decide : 2 ≤ 6)
    simp only [List.length_cons, fillBytes_length, mbCurMax]
    omega

/-- The bytes of a text. -/
def encoded (ws : List Wchar) : List Byte := ws.flatMap wcrtombInternal

@[simp] theorem encoded_cons (wc : Wchar) (ws : List Wchar) :
    encoded (wc :: ws) = wcrtombInternal wc ++ encoded ws := rfl

/-- The characters for whose bytes there is room, up to the first one for which there is none. -/
def fitting (n : Nat) : List Wchar → List Wchar
  | [] => []
  | wc :: ws =>
    if (wcrtombInternal wc).length ≤ n then wc :: fitting (n - (wcrtombInternal wc).length) ws
    else []

theorem fitting_prefix (n : Nat) (ws : List Wchar) : fitting n ws <+: ws := by
  induction ws generalizing n with
  | nil => exact List.prefix_refl []
  | cons wc ws ih =>
    rw [fitting]
    split
    · exact (List.prefix_cons_inj wc).mpr (ih _)
    · exact List.nil_prefix

theorem fitting_length (n : Nat) (ws : List Wchar) : (encoded (fitting n ws)).length ≤ n := by
  induction ws generalizing n with
  | nil => exact Nat.zero_le n
  | cons wc ws ih =>
    rw [fitting]
    split
    case isTrue room =>
      have later := ih (n - (wcrtombInternal wc).length)
      rw [encoded_cons, List.length_append]
      omega
    case isFalse => exact Nat.zero_le n

theorem fitting_all {n : Nat} {ws : List Wchar} (room : (encoded ws).length ≤ n) :
    fitting n ws = ws := by
  induction ws generalizing n with
  | nil => rfl
  | cons wc ws ih =>
    rw [encoded_cons, List.length_append] at room
    rw [fitting, if_pos (by omega), ih (by omega)]

/-- What the loops of `wcstombs` store and return: the bytes of the characters that fit, and the
NUL if there is room left. -/
def stores (orgN : Nat) (dest : List Byte) (ws : List Wchar) (n : Nat) : List Byte × Nat :=
  (dest ++ (encoded (fitting n ws) ++ if (encoded ws).length < n then [0] else []),
    orgN - (n - (encoded (fitting n ws)).length))

section Stores

variable {orgN n : Nat} {dest : List Byte} {ws behind : List Wchar} {wc : Wchar}

theorem stores_cons (room : (wcrtombInternal wc).length ≤ n) :
    stores orgN dest (wc :: ws) n =
      stores orgN (dest ++ wcrtombInternal wc) ws (n - (wcrtombInternal wc).length) := by
  have left : (encoded (wc :: ws)).length < n ↔
      (encoded ws).length < n - (wcrtombInternal wc).length := by
    rw [encoded_cons, List.length_append]
    omega
  simp only [stores, left]
  rw [fitting, if_pos room, encoded_cons, List.length_append, List.append_assoc, List.append_assoc,
    Nat.sub_add_eq]

theorem stores_full (full : n < (wcrtombInternal wc).length) :
    stores orgN dest (wc :: ws) n = (dest, orgN - n) := by
  have more : ¬(encoded (wc :: ws)).length < n := by
    rw [encoded_cons, List.length_append]
    omega
  rw [stores, fitting, if_neg (by omega), if_neg more]
  simp [encoded]

theorem stores_end (room : 0 < n) : stores orgN dest [] n = (dest ++ [0], orgN - n) := by
  have left : (encoded []).length < n := room
  rw [stores, fitting, if_pos left]
  rfl

theorem tailLoop_eq (noNul : 0 ∉ ws) :
    tailLoop orgN dest (ws ++ 0 :: behind) n = some (stores orgN dest ws n) := by
  induction ws generalizing dest n with
  | nil =>
    cases n with
    | zero => simp [tailLoop, stores, fitting, encoded]
    | succ n =>
      rw [List.nil_append, tailLoop, stores_end (Nat.succ_pos n)]
      exact (if_neg (by simp [wcrtombInternal])).trans (if_pos rfl)
  | cons wc ws ih =>
    obtain ⟨notNul, later⟩ := not_or.mp (mt List.mem_cons.mpr noNul)
    cases n with
    | zero => rw [stores_full (wcrtombInternal_length wc).1]; rfl
    | succ n =>
      rw [List.cons_append, tailLoop]
      by_cases full : n + 1 < (wcrtombInternal wc).length
      · exact (if_pos full).trans (by rw [stores_full full])
      · simp only [if_neg full, if_neg (Ne.symm notNul)]
        rw [ih later, stores_cons (not_lt.mp full)]

theorem bulkLoop_eq (noNul : 0 ∉ ws) :
    bulkLoop orgN dest (ws ++ 0 :: behind) n = some (stores orgN dest ws n) := by
  induction ws generalizing dest n with
  | nil =>
    rw [List.nil_append, bulkLoop]
    by_cases bulk : mbCurMax ≤ n
    · rw [if_pos bulk, stores_end (Nat.lt_of_lt_of_le (by decide) bulk)]
      exact if_pos rfl
    · rw [if_neg bulk]
      exact tailLoop_eq noNul
  | cons wc ws ih =>
    obtain ⟨notNul, later⟩ := not_or.mp (mt List.mem_cons.mpr noNul)
    rw [List.cons_append, bulkLoop]
    by_cases bulk : mbCurMax ≤ n
    · simp only [if_pos bulk, if_neg (Ne.symm notNul)]
      rw [ih later, stores_cons ((wcrtombInternal_length wc).2.trans bulk)]
    · rw [if_neg bulk]
      exact tailLoop_eq noNul

end Stores

theorem wideLoop_eq {ws : List Wchar} (noNul : 0 ∉ ws) (noError : errorWchar ∉ ws) {n : Nat}
    (room : ws.length < n) (orgN : Nat) (dest : List Wchar) (rest : List Byte) :
    wideLoop orgN true dest (encoded ws ++ 0 :: rest) n =
      some (dest ++ ws ++ [0], orgN - (n - ws.length)) := by
  induction ws generalizing dest n with
  | nil =>
    obtain ⟨n, rfl⟩ := Nat.exists_eq_succ_of_ne_zero (Nat.ne_zero_of_lt room)
    simp [wideLoop, encoded, mbstowcInternal, put, errorWchar]
  | cons wc ws ih =>
    obtain ⟨n, rfl⟩ := Nat.exists_eq_succ_of_ne_zero (Nat.ne_zero_of_lt room)
    obtain ⟨notNul, noNul⟩ := not_or.mp (mt List.mem_cons.mpr noNul)
    obtain ⟨notError, noError⟩ := not_or.mp (mt List.mem_cons.mpr noError)
    rw [encoded_cons, List.append_assoc, wideLoop, mbstowcInternal_wcrtombInternal]
    simp only [Option.bind_eq_bind, Option.bind_some, if_neg (Ne.symm notError),
      if_neg (Ne.symm notNul)]
    rw [ih noNul noError (Nat.lt_of_succ_lt_succ room)]
    simp [put]

/-- A text of wide characters, none of which is the NUL or the error value. -/
abbrev WideText := {ws : List Wchar // 0 ∉ ws ∧ errorWchar ∉ ws}

/-- A text comes back from its bytes if there was room for all of them and for the NUL, and for the
characters. With less room there are the bytes of its first characters, and their number. -/
theorem mbstowcs_wcstombs (ws : WideText) (behind : List Wchar) (n : Nat) :
    ∃ written, wcstombs .on (ws.1 ++ 0 :: behind) n =
        some (written, (encoded (fitting n ws.1)).length) ∧
      written.length ≤ n ∧ fitting n ws.1 <+: ws.1 ∧
      (n ≤ (encoded ws.1).length → written = encoded (fitting n ws.1)) ∧
      ((encoded ws.1).length < n → fitting n ws.1 = ws.1 ∧ written = encoded ws.1 ++ [0] ∧
        ∀ rest m, ws.1.length < m →
          mbstowcs .on true (written ++ rest) m = some (ws.1 ++ [0], ws.1.length)) := by
  obtain ⟨ws, noNul, noError⟩ := ws
  have short := fitting_length n ws
  have stored : wcstombs .on (ws ++ 0 :: behind) n =
      some (encoded (fitting n ws) ++ (if (encoded ws).length < n then [0] else []),
        (encoded (fitting n ws)).length) := by
    rw [wcstombs, if_neg (by decide), bulkLoop_eq noNul, stores, List.nil_append,
      Nat.sub_sub_self short]
  refine ⟨_, stored, ?_, fitting_prefix n ws, fun tight => ?_, fun enough => ?_⟩
  · split
    case isTrue enough =>
      rw [fitting_all enough.le, List.length_append, List.length_singleton]
      exact enough
    case isFalse => rwa [List.append_nil]
  · rw [if_neg (not_lt.mpr tight), List.append_nil]
  · rw [fitting_all enough.le, if_pos enough]
    refine ⟨rfl, rfl, fun rest m room => ?_⟩
    rw [mbstowcs, if_neg (by decide), List.append_assoc, List.singleton_append,
      wideLoop_eq noNul noError room, List.nil_append, Nat.sub_sub_self room.le]

end Busybox.Libbb.Unicode
