import Busybox.Syslog.Split
import Mathlib.Tactic.Ring

/-!
# The bounds of a datagram

A part grows to twice its size at most when it is escaped, and a line by less than the 128 bytes
that `printbuf` has more. Only the facility can be out of its array.
-/

namespace Busybox.Syslog

open Fallible

/-! ## Escaping -/

/-- What a character that is not NUL becomes. -/
def escapeChar (c : UInt8) : List UInt8 :=
  let c := if c = 10 then 32 else c
  if c < 32 ∧ c ≠ 9 then [94, c + 64] else [c]

def escape (part : List UInt8) : List UInt8 := part.flatMap escapeChar

theorem escapeChar_length (c : UInt8) : (escapeChar c).length ≤ 2 := by
  unfold escapeChar
  dsimp only
  split_ifs <;> simp

theorem escape_length (part : List UInt8) : (escape part).length ≤ 2 * part.length := by
  induction part with
  | nil => exact le_rfl
  | cons c part ih =>
    have here := escapeChar_length c
    unfold escape at ih ⊢
    rw [List.flatMap_cons, List.length_append, List.length_cons]
    omega

theorem escapeChar_ne_zero {c : UInt8} (some : c ≠ 0) : 0 ∉ escapeChar c := by
  have visible : (if c = 10 then 32 else c) ≠ 0 := by
    split
    · decide
    · exact some
  unfold escapeChar
  dsimp only
  generalize (if c = 10 then 32 else c) = c at visible
  intro mem
  split at mem
  case isTrue control =>
    have less : c.toNat < 32 := UInt8.lt_iff_toNat_lt.mp control.1
    rcases List.mem_cons.mp mem with caret | mem
    · exact absurd caret (by decide)
    · have zero := congrArg UInt8.toNat (List.mem_singleton.mp mem)
      rw [UInt8.toNat_add] at zero
      have at_ : (64 : UInt8).toNat = 64 := rfl
      have none : (0 : UInt8).toNat = 0 := rfl
      omega
  case isFalse => exact visible (List.mem_singleton.mp mem).symm

theorem escape_ne_zero {part : List UInt8} (noNul : 0 ∉ part) : 0 ∉ escape part := by
  intro mem
  obtain ⟨c, inside, here⟩ := List.mem_flatMap.mp mem
  exact escapeChar_ne_zero (fun zero => noNul (zero ▸ inside)) here

/-- A store behind what has been written. -/
theorem store_behind {written junk : List UInt8} (room : 1 ≤ junk.length) (c : UInt8) :
    store (written ++ junk) written.length c = .ok (written ++ [c] ++ junk.drop 1) := by
  obtain ⟨old, junk, rfl⟩ := List.exists_cons_of_length_pos room
  unfold store
  rw [if_pos (by simp), List.set_append_right _ _ le_rfl, Nat.sub_self, List.append_assoc]
  rfl

/-- A part is copied up to its NUL. -/
theorem escapeLoop_spec {part : List UInt8} (noNul : 0 ∉ part) (more written junk : List UInt8)
    (room : 2 * part.length + 1 ≤ junk.length) :
    escapeLoop (part ++ 0 :: more) (written ++ junk) written.length =
      .ok (more, written ++ escape part ++ [0] ++ junk.drop ((escape part).length + 1),
        written.length + (escape part).length) := by
  induction part generalizing written junk with
  | nil =>
    rw [List.nil_append, escapeLoop, if_pos rfl, store_behind (by omega), ok_bind]
    show _ = Except.ok (more, written ++ [] ++ [0] ++ junk.drop 1, written.length)
    rw [List.append_nil]
    rfl
  | cons c part ih =>
    obtain ⟨other, noNul⟩ := not_or.mp (List.mem_cons.not.mp noNul)
    rw [List.length_cons] at room
    have escaped : escape (c :: part) = escapeChar c ++ escape part := List.flatMap_cons
    rw [List.cons_append, escapeLoop, if_neg (Ne.symm other), escaped]
    unfold escapeChar
    dsimp only
    generalize (if c = 10 then 32 else c) = visible
    by_cases control : visible < 32 ∧ visible ≠ 9
    · rw [if_pos control, if_pos control, store_behind (by omega), ok_bind]
      have next : written.length + 1 = (written ++ [94]).length := by
        rw [List.length_append, List.length_singleton]
      rw [next, store_behind (by rw [List.length_drop]; omega), ok_bind, List.drop_drop]
      have last : written.length + 2 = (written ++ [94] ++ [visible + 64]).length := by
        rw [List.length_append, List.length_append, List.length_singleton, List.length_singleton]
      rw [last, ih noNul _ _ (by rw [List.length_drop]; omega), List.drop_drop]
      simp only [List.append_assoc, List.cons_append, List.nil_append, List.length_append,
        List.length_cons, List.length_nil]
      have behind : 1 + 1 + ((escape part).length + 1) = (escape part).length + 1 + 1 + 1 := by
        omega
      rw [behind]
      congr 3
      omega
    · rw [if_neg control, if_neg control, store_behind (by omega), ok_bind]
      have next : written.length + 1 = (written ++ [visible]).length := by
        rw [List.length_append, List.length_singleton]
      rw [next, ih noNul _ _ (by rw [List.length_drop]; omega), List.drop_drop]
      simp only [List.append_assoc, List.cons_append, List.nil_append, List.length_append,
        List.length_cons, List.length_nil]
      have behind : 1 + ((escape part).length + 1) = (escape part).length + 1 + 1 := by
        omega
      rw [behind]
      congr 3
      omega

/-! ## The priority number -/

/-- The number behind a `<`. -/
def magicPri (arg : List UInt8) : ℕ :=
  let digits := arg.takeWhile isdigit
  let v := digits.foldl (fun v c => v * 10 + (c.toNat - 48)) 0
  if digits = [] ∨ v ≥ 1024 ∨ (arg.dropWhile isdigit).head?.any isalnum then defaultPri else v

/-- The priority of a part. -/
def partPri : List UInt8 → ℕ
  | 60 :: arg => magicPri arg
  | _ => defaultPri

theorem isalnum_of_isdigit {c : UInt8} (digit : isdigit c = true) : isalnum c = true := by
  unfold isalnum
  unfold isdigit at digit
  rw [digit, Bool.true_or]

theorem partPri_lt (part : List UInt8) : partPri part < 1024 := by
  have default : defaultPri < 1024 := by decide
  unfold partPri
  split
  · unfold magicPri
    dsimp only
    split_ifs with none
    · exact default
    · rw [not_or, not_or] at none
      omega
  · exact default

/-- The number is read up to the NUL of its part at most. -/
theorem bbStrtou_spec {arg : List UInt8} (noNul : 0 ∉ arg) (more : List UInt8) :
    ∃ v rest, bbStrtou (arg ++ 0 :: more) = .ok (v, rest ++ 0 :: more) ∧ rest <:+ arg ∧
      (if v ≥ 1024 then defaultPri else v) = magicPri arg := by
  have default : (if UINT_MAX ≥ 1024 then defaultPri else UINT_MAX) = defaultPri :=
    if_pos (by decide)
  have nul : isdigit 0 = false := by decide
  have taken : (arg ++ 0 :: more).takeWhile isdigit = arg.takeWhile isdigit := by
    rw [List.takeWhile_append]
    split
    case isTrue all =>
      have whole : arg.takeWhile isdigit = arg := (List.takeWhile_prefix _).eq_of_length all
      rw [List.takeWhile_cons, nul, whole, if_neg Bool.false_ne_true, List.append_nil]
    case isFalse => rfl
  have dropped : (arg ++ 0 :: more).dropWhile isdigit = arg.dropWhile isdigit ++ 0 :: more := by
    rw [List.dropWhile_append]
    split
    case isTrue empty =>
      rw [List.isEmpty_iff.mp empty, List.dropWhile_cons, nul]
      rfl
    case isFalse => rfl
  obtain ⟨c, p, first⟩ : ∃ c p, arg ++ 0 :: more = c :: p :=
    List.exists_cons_of_ne_nil (List.append_ne_nil_of_right_ne_nil _ (List.cons_ne_nil _ _))
  have head : (arg.head?.getD 0) = c := by
    cases arg with
    | nil => exact (List.cons.inj first).1
    | cons d arg => exact (List.cons.inj first).1
  rw [first, bbStrtou]
  unfold magicPri
  dsimp only
  by_cases number : isalnum c = true
  · rw [if_neg (not_not.mpr number), ← first, taken, dropped]
    have rest : arg.dropWhile isdigit <:+ arg := List.dropWhile_suffix _
    have noDigits : arg.takeWhile isdigit = [] → arg.dropWhile isdigit = arg := by
      intro none
      have whole := List.takeWhile_append_dropWhile (p := isdigit) (l := arg)
      rwa [none] at whole
    generalize arg.takeWhile isdigit = digits at noDigits
    generalize arg.dropWhile isdigit = after at rest noDigits
    generalize digits.foldl (fun v c => v * 10 + (c.toNat - 48)) 0 = v
    obtain ⟨next, p', split⟩ : ∃ next p', after ++ 0 :: more = next :: p' :=
      List.exists_cons_of_ne_nil (List.append_ne_nil_of_right_ne_nil _ (List.cons_ne_nil _ _))
    have follows : after.head?.any isalnum = true ↔ (next ≠ 0 ∧ isalnum next = true) := by
      cases after with
      | nil =>
        obtain rfl : 0 = next := (List.cons.inj split).1
        exact iff_of_false Bool.false_ne_true fun both => both.1 rfl
      | cons d after =>
        obtain rfl : d = next := (List.cons.inj split).1
        refine ⟨fun isNumber => ⟨?_, isNumber⟩, fun both => both.2⟩
        rintro rfl
        have nulIs : isalnum 0 = true := isNumber
        exact absurd nulIs (by decide)
    have letter : digits = [] → next ≠ 0 ∧ isalnum next = true := by
      intro none
      have same := noDigits none
      rw [same, first] at split
      obtain rfl : c = next := (List.cons.inj split).1
      refine ⟨?_, number⟩
      rintro rfl
      exact absurd number (by decide)
    rw [split]
    dsimp only
    rw [← split]
    by_cases long : v > UINT_MAX
    · have large : v ≥ 1024 := by
        unfold UINT_MAX at long
        omega
      rw [if_pos long, if_pos (.inr (.inl large))]
      exact ⟨UINT_MAX, after, rfl, rest, default⟩
    · rw [if_neg long]
      by_cases number' : next ≠ 0 ∧ isalnum next = true
      · rw [if_pos number', if_pos (.inr (.inr (follows.mpr number')))]
        exact ⟨UINT_MAX, after, rfl, rest, default⟩
      · have some : digits ≠ [] := fun none => number' (letter none)
        rw [if_neg number']
        refine ⟨v, after, rfl, rest, ?_⟩
        congr 1
        rw [follows]
        simp only [some, number', false_or, or_false]
  · have none : arg.takeWhile isdigit = [] := by
      cases arg with
      | nil => rfl
      | cons d arg =>
        have same : d = c := head
        rw [List.takeWhile_cons, if_neg]
        rw [same]
        exact fun digit => number (isalnum_of_isdigit digit)
    rw [if_pos number, ← first, if_pos (.inl none)]
    exact ⟨UINT_MAX, arg, rfl, List.suffix_rfl, default⟩

/-- A part loses at most its priority number. -/
theorem parsePri_spec {part : List UInt8} (noNul : 0 ∉ part) (more : List UInt8) :
    ∃ rest, parsePri (part ++ 0 :: more) = .ok (partPri part, rest ++ 0 :: more) ∧
      rest <:+ part := by
  cases part with
  | nil => exact ⟨[], rfl, List.suffix_rfl⟩
  | cons c arg =>
    have tailNoNul : 0 ∉ arg := fun mem => noNul (List.mem_cons_of_mem c mem)
    rw [List.cons_append, parsePri]
    by_cases magic : c = 60
    · subst magic
      obtain ⟨v, rest, read, suffix, value⟩ := bbStrtou_spec tailNoNul more
      rw [if_neg (not_not.mpr rfl), read, ok_bind]
      dsimp only
      rw [value]
      have arg_suffix : rest <:+ 60 :: arg := suffix.trans (List.suffix_cons 60 arg)
      cases rest with
      | nil => exact ⟨[], rfl, List.nil_suffix⟩
      | cons d rest =>
        rw [List.cons_append]
        dsimp only
        by_cases closed : d = 62
        · rw [if_pos closed]
          exact ⟨rest, rfl, (List.suffix_cons d rest).trans arg_suffix⟩
        · rw [if_neg closed]
          exact ⟨d :: rest, rfl, arg_suffix⟩
    · rw [if_pos magic]
      refine ⟨c :: arg, ?_, List.suffix_rfl⟩
      unfold partPri
      split
      case h_1 here => exact absurd (List.cons.inj here).1 magic
      case h_2 => rfl

/-! ## One message -/

/-- A string ends at its NUL. -/
theorem stringAt_of_drop {parsebuf : List UInt8} {i : ℕ} {text : Str} (noNul : 0 ∉ text)
    (junk : List UInt8) (behind : parsebuf.drop i = text ++ 0 :: junk) :
    stringAt parsebuf i = .ok text := by
  have clean : ∀ c ∈ text, (c ≠ 0 : Bool) = true := by
    intro c mem
    rw [decide_eq_true_iff]
    rintro rfl
    exact noNul mem
  unfold stringAt
  rw [behind, if_pos (List.mem_append_right _ List.mem_cons_self),
    List.takeWhile_append_of_pos clean]
  show Except.ok (text ++ []) = _
  rw [List.append_nil]

theorem stringAt_eq {text : Str} (noNul : 0 ∉ text) (junk : List UInt8) {i : ℕ}
    (inside : i ≤ text.length) : stringAt (text ++ [0] ++ junk) i = .ok (text.drop i) := by
  refine stringAt_of_drop (fun mem => noNul (List.mem_of_mem_drop mem)) junk ?_
  rw [List.append_assoc, List.drop_append_of_le_length inside]
  rfl

/-- The timestamp of a message is cut off it. -/
theorem stringAt_set {text : Str} (noNul : 0 ∉ text) (junk : List UInt8)
    (long : 16 ≤ text.length) :
    stringAt ((text ++ [0] ++ junk).set 15 0) 0 = .ok (text.take 15) ∧
      stringAt ((text ++ [0] ++ junk).set 15 0) 16 = .ok (text.drop 16) := by
  have inside : 15 < (text ++ [0] ++ junk).length := by
    rw [List.length_append, List.length_append]
    omega
  constructor
  · have split : ((text ++ [0] ++ junk).set 15 0).drop 0 =
        text.take 15 ++ 0 :: (text ++ [0] ++ junk).drop 16 := by
      rw [List.drop_zero, List.set_eq_take_append_cons_drop, if_pos inside, List.append_assoc,
        List.take_append_of_le_length (by omega)]
    exact stringAt_of_drop (fun mem => noNul (List.mem_of_mem_take mem)) _ split
  · refine stringAt_of_drop (fun mem => noNul (List.mem_of_mem_drop mem)) junk ?_
    rw [List.drop_set_of_lt (by decide), List.append_assoc, List.drop_append_of_le_length long]
    rfl

theorem cell_eq {parsebuf : List UInt8} {i : ℕ} (inside : i < parsebuf.length) :
    ∃ c, cell parsebuf i = .ok c := by
  unfold cell
  rw [List.getElem?_eq_getElem inside]
  exact ⟨_, rfl⟩

theorem sprintf_eq {text : Str} (fits : text.length + 1 ≤ MAX_READ * 2 + 128) :
    sprintf text = .ok text := if_pos fits

/-- The rules are looked at, and the facility has to be in their arrays. -/
theorem matchRules_eq (facility prio : ℕ) (rules : List LogRule) :
    (facility < LOG_NFACILITIES ∨ rules = [] →
        ∃ files, matchRules facility prio rules = .ok files) ∧
      (¬(facility < LOG_NFACILITIES ∨ rules = []) →
        matchRules facility prio rules = .error .enabledFacilityPriomap) := by
  induction rules with
  | nil => exact ⟨fun _ => ⟨[], rfl⟩, fun absurdity => absurd (.inr rfl) absurdity⟩
  | cons rule rules ih =>
    rw [matchRules]
    constructor
    · rintro (inside | absurdity)
      · obtain ⟨files, matched⟩ := ih.1 (.inl inside)
        rw [List.getElem?_eq_getElem (by rw [rule.size]; exact inside)]
        dsimp only
        rw [matched, ok_bind]
        exact ⟨_, rfl⟩
      · cases absurdity
    · intro outside
      rw [List.getElem?_eq_none (by rw [rule.size]; exact not_lt.mp (not_or.mp outside).1)]

theorem parseFacPrio20_length (g : Globals) (pri : ℕ) : (parseFacPrio20 g pri).length ≤ 19 := by
  unfold parseFacPrio20
  split
  · exact List.length_take_le _ _
  · exact List.length_take_le _ _

theorem decimal_length {n : ℕ} (small : n < 10 ^ 4) : (decimal n).length ≤ 4 := by
  unfold decimal
  rw [List.length_map]
  exact (Nat.length_toDigits_le_iff (by decide) (by decide)).mpr small

/-- A message with such a priority is logged within the bounds. -/
def Loggable (g : Globals) (pri : ℕ) : Prop :=
  g.kmsg = true ∨ g.logRules = [] ∨ LOG_FAC pri < LOG_NFACILITIES

theorem hasTimestamp_spec {parsebuf : List UInt8} {len : ℕ} (inside : len < parsebuf.length) :
    ∃ stamped, hasTimestamp parsebuf len = .ok stamped ∧ (stamped = true → 16 ≤ len) := by
  unfold hasTimestamp
  split_ifs with long
  · obtain ⟨c3, read3⟩ := cell_eq (show 3 < parsebuf.length by omega)
    obtain ⟨c6, read6⟩ := cell_eq (show 6 < parsebuf.length by omega)
    obtain ⟨c9, read9⟩ := cell_eq (show 9 < parsebuf.length by omega)
    obtain ⟨c12, read12⟩ := cell_eq (show 12 < parsebuf.length by omega)
    obtain ⟨c15, read15⟩ := cell_eq (show 15 < parsebuf.length by omega)
    rw [read3, ok_bind, read6, ok_bind, read9, ok_bind, read12, ok_bind, read15]
    exact ⟨_, rfl, fun _ => long⟩
  · exact ⟨false, rfl, fun absurdity => nomatch absurdity⟩

/-- A message is logged, or it is the facility that is outside. -/
theorem timestampAndLog_spec (g : Globals) (ctime : Ctime) {pri : ℕ} (less : pri < 1024)
    {text : Str} (noNul : 0 ∉ text) (junk : List UInt8)
    (room : text.length ≤ 2 * (MAX_READ - 1)) :
    (Loggable g pri → ∃ parsebuf logged,
      timestampAndLog g ctime pri (text ++ [0] ++ junk) text.length = .ok (parsebuf, logged) ∧
        parsebuf.length = (text ++ [0] ++ junk).length) ∧
      (¬Loggable g pri → timestampAndLog g ctime pri (text ++ [0] ++ junk) text.length =
        .error .enabledFacilityPriomap) := by
  have length : (text ++ [0] ++ junk).length = text.length + 1 + junk.length := by
    rw [List.length_append, List.length_append, List.length_singleton]
  have within : text.length < (text ++ [0] ++ junk).length := by omega
  obtain ⟨stamped, isStamped, long⟩ := hasTimestamp_spec within
  unfold timestampAndLog
  rw [isStamped, ok_bind]
  -- the timestamp, and the message that is left behind it
  obtain ⟨timestamp, parsebuf, stamp, short, size, same⟩ : ∃ timestamp parsebuf,
      (if stamped = true ∧ ¬g.timestamp = true then do
        let parsebuf ← store (text ++ [0] ++ junk) 15 0
        let timestamp ← stringAt parsebuf 0
        return (timestamp, parsebuf)
      else .ok ((ctime.text.drop 4).take 15, text ++ [0] ++ junk) :
        Except Fault (Str × List UInt8)) = .ok (timestamp, parsebuf) ∧ timestamp.length ≤ 15 ∧
      parsebuf.length = (text ++ [0] ++ junk).length ∧
      stringAt parsebuf (if stamped then 16 else 0) =
        .ok (text.drop (if stamped then 16 else 0)) := by
    have inside : (if stamped then 16 else 0) ≤ text.length := by
      split
      case isTrue isTrue => exact long isTrue
      case isFalse => exact Nat.zero_le _
    by_cases own : stamped = true ∧ ¬g.timestamp = true
    · obtain ⟨cut, rest⟩ := stringAt_set noNul junk (long own.1)
      unfold store
      rw [if_pos own, if_pos (by have := long own.1; omega), ok_bind, cut]
      refine ⟨_, _, rfl, List.length_take_le _ _, List.length_set, ?_⟩
      rw [if_pos own.1]
      exact rest
    · rw [if_neg own]
      exact ⟨_, _, rfl, List.length_take_le _ _, rfl, stringAt_eq noNul junk inside⟩
  have rest : (text.drop (if stamped then 16 else 0)).length ≤ 2 * (MAX_READ - 1) := by
    rw [List.length_drop]
    omega
  generalize text.drop (if stamped then 16 else 0) = msg at same rest
  rw [stamp, ok_bind]
  dsimp only
  rw [same, ok_bind]
  have prio := parseFacPrio20_length g pri
  have name : (g.hostname.take 64).length ≤ 64 := List.length_take_le _ _
  have number : (decimal (pri &&& g.primask)).length ≤ 4 :=
    decimal_length (Nat.and_le_left.trans_lt (less.trans (by decide)))
  unfold Loggable
  by_cases kmsg : g.kmsg = true
  · rw [if_pos kmsg, sprintf_eq, ok_bind]
    · exact ⟨fun _ => ⟨parsebuf, _, rfl, size⟩, fun absurdity => absurd (.inl kmsg) absurdity⟩
    · simp only [List.length_append, List.length_singleton]
      omega
  · rw [if_neg kmsg]
    obtain ⟨printbuf, printed⟩ : ∃ printbuf, (if g.small = true then
        sprintf (timestamp ++ [32] ++ msg ++ [10])
      else sprintf (timestamp ++ [32] ++ g.hostname.take 64 ++ [32] ++ parseFacPrio20 g pri ++
        [32] ++ msg ++ [10])) = .ok printbuf := by
      split
      · refine ⟨_, sprintf_eq ?_⟩
        simp only [List.length_append, List.length_singleton]
        omega
      · refine ⟨_, sprintf_eq ?_⟩
        simp only [List.length_append, List.length_singleton]
        omega
    obtain ⟨matched, outside⟩ := matchRules_eq (LOG_FAC pri) (LOG_PRI pri) g.logRules
    rw [printed, ok_bind]
    constructor
    · rintro (absurdity | none | inside)
      · exact absurd absurdity kmsg
      · obtain ⟨files, found⟩ := matched (.inr none)
        rw [found, ok_bind]
        exact ⟨parsebuf, _, rfl, size⟩
      · obtain ⟨files, found⟩ := matched (.inl inside)
        rw [found, ok_bind]
        exact ⟨parsebuf, _, rfl, size⟩
    · intro not
      rw [outside fun either => not (.inr either.symm)]
      rfl

/-! ## A datagram -/

/-- The parts of a datagram; the first argument is the one that has been begun. -/
def parts : List UInt8 → List UInt8 → List (List UInt8)
  | [], [] => []
  | part, [] => [part]
  | part, c :: rest => if c = 0 then part :: parts [] rest else parts (part ++ [c]) rest

theorem parts_of_noNul {part : List UInt8} (noNul : 0 ∉ part) (begun rest : List UInt8) :
    parts begun (part ++ rest) = parts (begun ++ part) rest := by
  induction part generalizing begun with
  | nil => rw [List.nil_append, List.append_nil]
  | cons c part ih =>
    obtain ⟨other, noNul⟩ := not_or.mp (List.mem_cons.not.mp noNul)
    rw [List.cons_append, parts, if_neg (Ne.symm other), ih noNul, List.append_assoc]
    rfl

/-- The first part of a datagram, in front of a NUL or of the one at the end. -/
theorem parts_first {datagram : List UInt8} (some : datagram ≠ []) :
    ∃ part more, 0 ∉ part ∧ datagram ++ [0] = part ++ 0 :: more ∧
      ((more = [] ∧ parts [] datagram = [part]) ∨
        ∃ rest, more = rest ++ [0] ∧ rest.length < datagram.length ∧
          parts [] datagram = part :: parts [] rest) := by
  have noNul : 0 ∉ datagram.takeWhile (· ≠ 0) := by
    intro mem
    simpa using List.mem_takeWhile_imp mem
  have whole := List.takeWhile_append_dropWhile (p := (· ≠ 0)) (l := datagram)
  refine ⟨datagram.takeWhile (· ≠ 0), ?_⟩
  cases after : datagram.dropWhile (· ≠ 0) with
  | nil =>
    rw [after, List.append_nil] at whole
    rw [whole] at noNul ⊢
    refine ⟨[], noNul, rfl, .inl ⟨rfl, ?_⟩⟩
    have read := parts_of_noNul noNul [] []
    rw [List.append_nil, List.nil_append] at read
    rw [read]
    cases datagram with
    | nil => exact absurd rfl some
    | cons c rest => rfl
  | cons c rest =>
    have nul : c = 0 := by
      have head := List.head?_dropWhile_not (fun c => decide (c ≠ 0)) datagram
      rw [after] at head
      simpa using head
    subst nul
    rw [after] at whole
    refine ⟨rest ++ [0], noNul, ?_, .inr ⟨rest, rfl, ?_, ?_⟩⟩
    · rw [← List.cons_append, ← List.append_assoc, whole]
    · rw [← whole, List.length_append, List.length_cons]
      omega
    · have read := parts_of_noNul noNul [] (0 :: rest)
      rw [whole, List.nil_append, parts, if_pos rfl] at read
      exact read

/-- The loop logs the parts, or the facility of one is outside. -/
theorem splitLoop_spec (g : Globals) (ctime : ℕ → Ctime) (turns : ℕ) {datagram : List UInt8}
    (enough : datagram.length ≤ turns) (short : datagram.length ≤ MAX_READ - 1)
    {parsebuf : List UInt8} (size : parsebuf.length = 2 * MAX_READ) :
    ((∀ part ∈ parts [] datagram, Loggable g (partPri part)) →
      ∃ result, splitLoop g ctime turns (datagram ++ [0]) parsebuf = .ok result) ∧
      (¬(∀ part ∈ parts [] datagram, Loggable g (partPri part)) →
        splitLoop g ctime turns (datagram ++ [0]) parsebuf = .error .enabledFacilityPriomap) := by
  have stops (turns : ℕ) {p : List UInt8} (last : p.length ≤ 1) (parsebuf : List UInt8) :
      splitLoop g ctime turns p parsebuf = .ok (parsebuf, []) := by
    rw [splitLoop.eq_def, if_pos last]
  have noParts : ∀ part ∈ parts [] [], Loggable g (partPri part) :=
    fun part absurdity => absurd absurdity List.not_mem_nil
  induction turns generalizing datagram parsebuf with
  | zero =>
    obtain rfl := List.length_eq_zero_iff.mp (Nat.le_zero.mp enough)
    exact ⟨fun _ => ⟨_, stops 0 le_rfl parsebuf⟩, fun not => absurd noParts not⟩
  | succ turns ih =>
    by_cases some : datagram = []
    · subst some
      exact ⟨fun _ => ⟨_, stops _ le_rfl parsebuf⟩, fun not => absurd noParts not⟩
    obtain ⟨part, more, noNul, whole, last⟩ := parts_first some
    have longer : ¬(part ++ 0 :: more).length ≤ 1 := by
      have := List.length_pos_of_ne_nil some
      rw [← whole, List.length_append, List.length_singleton]
      omega
    have fits : part.length ≤ datagram.length := by
      have length := congrArg List.length whole
      simp only [List.length_append, List.length_cons, List.length_nil] at length
      omega
    obtain ⟨rest, read, suffix⟩ := parsePri_spec noNul more
    have restNoNul : 0 ∉ rest := fun mem => noNul (suffix.subset mem)
    have grown := escape_length rest
    have shorter := suffix.length_le
    have positive : 1 ≤ MAX_READ := by decide
    have copied := escapeLoop_spec restNoNul more [] parsebuf (by omega)
    rw [List.nil_append, List.nil_append, List.length_nil, Nat.zero_add] at copied
    obtain ⟨logs, outside⟩ := timestampAndLog_spec g (ctime turns) (partPri_lt part)
      (escape_ne_zero restNoNul) (parsebuf.drop ((escape rest).length + 1)) (by omega)
    rw [whole, splitLoop.eq_def, if_neg longer]
    dsimp only
    rw [read, ok_bind]
    dsimp only
    rw [copied, ok_bind]
    dsimp only
    by_cases here : Loggable g (partPri part)
    · obtain ⟨parsebuf', logged, done, size'⟩ := logs here
      have size' : parsebuf'.length = 2 * MAX_READ := by
        rw [size', List.length_append, List.length_append, List.length_singleton,
          List.length_drop]
        omega
      rw [done, ok_bind]
      dsimp only
      rcases last with ⟨rfl, only⟩ | ⟨later, rfl, less, two⟩
      · have ended : ([] : List UInt8).length ≤ 1 := Nat.zero_le 1
        rw [stops turns ended parsebuf', only]
        refine ⟨fun _ => ⟨_, rfl⟩, fun not => absurd ?_ not⟩
        intro part' mem
        rwa [List.mem_singleton.mp mem]
      · have enoughLater : later.length ≤ turns := by omega
        obtain ⟨logsLater, outsideLater⟩ := ih enoughLater (by omega) size'
        rw [two]
        constructor
        · intro all
          obtain ⟨result, ran⟩ := logsLater fun part' mem => all part' (List.mem_cons_of_mem _ mem)
          rw [ran]
          exact ⟨_, rfl⟩
        · intro not
          rw [outsideLater fun all => not (List.forall_mem_cons.mpr ⟨here, all⟩)]
          rfl
    · rw [outside here]
      have mem : part ∈ parts [] datagram := by
        rcases last with ⟨-, only⟩ | ⟨later, -, -, two⟩
        · rw [only]
          exact List.mem_singleton_self part
        · rw [two]
          exact List.mem_cons_self
      exact ⟨fun all => absurd (all part mem) here, fun _ => rfl⟩

/-- Every datagram that fits `recvbuf` is logged without leaving a buffer, unless a part of it has
a facility that the rules have no place for; then the index is outside their arrays. -/
theorem split_in_bounds_iff (g : Globals) (ctime : ℕ → Ctime) {parsebuf datagram : List UInt8}
    (size : parsebuf.length = 2 * MAX_READ) (short : datagram.length ≤ MAX_READ - 1) :
    ((∃ result, splitEscapeAndLog g ctime parsebuf datagram = .ok result) ↔
      g.kmsg = true ∨ g.logRules = [] ∨
        ∀ part ∈ parts [] datagram, LOG_FAC (partPri part) < LOG_NFACILITIES) ∧
      ∀ fault, splitEscapeAndLog g ctime parsebuf datagram = .error fault →
        fault = .enabledFacilityPriomap := by
  obtain ⟨logs, outside⟩ := splitLoop_spec g ctime datagram.length le_rfl short size
  have same : (∀ part ∈ parts [] datagram, Loggable g (partPri part)) ↔
      g.kmsg = true ∨ g.logRules = [] ∨
        ∀ part ∈ parts [] datagram, LOG_FAC (partPri part) < LOG_NFACILITIES := by
    unfold Loggable
    by_cases kmsg : g.kmsg = true
    · exact iff_of_true (fun _ _ => .inl kmsg) (.inl kmsg)
    by_cases none : g.logRules = []
    · exact iff_of_true (fun _ _ => .inr (.inl none)) (.inr (.inl none))
    simp only [kmsg, none, Bool.false_eq_true, false_or]
  rw [← same]
  unfold splitEscapeAndLog
  by_cases all : ∀ part ∈ parts [] datagram, Loggable g (partPri part)
  · obtain ⟨result, ran⟩ := logs all
    rw [ran]
    exact ⟨iff_of_true ⟨result, rfl⟩ all, fun fault absurdity => nomatch absurdity⟩
  · rw [outside all]
    refine ⟨iff_of_false ?_ all, fun fault same => (Except.error.inj same).symm⟩
    rintro ⟨result, absurdity⟩
    cases absurdity

/-! ## A priority that has no facility -/

/-- Everything is logged to a file. -/
def oneRule (map : UInt8) : LogRule := ⟨List.replicate 24 map, List.length_replicate, [47]⟩

/-- The default options, with rules. -/
def defaults (rules : List LogRule) : Globals where
  timestamp := false
  small := false
  kmsg := false
  circularlog := false
  primask := 7
  logLevel := 8
  hostname := []
  logFile := [47]
  logRules := rules
  prioritynames := []
  facilitynames := []

def epoch : Ctime := ⟨List.replicate 24 32, by decide⟩

def emptyParsebuf : List UInt8 := List.replicate (2 * MAX_READ) 0

/-- A message with the last priority that has a facility: `<191>a`. -/
theorem split_in_bounds_last :
    ∃ result, splitEscapeAndLog (defaults [oneRule 255]) (fun _ => epoch) emptyParsebuf
      [60, 49, 57, 49, 62, 97] = .ok result :=
  (split_in_bounds_iff (defaults [oneRule 255]) (fun _ => epoch) List.length_replicate
    (by decide)).1.mpr (.inr (.inr (by decide)))

/-- A message with the next priority: `<192>a`. -/
theorem split_out_of_bounds :
    splitEscapeAndLog (defaults [oneRule 255]) (fun _ => epoch) emptyParsebuf
      [60, 49, 57, 50, 62, 97] = .error .enabledFacilityPriomap := by
  refine (splitLoop_spec (defaults [oneRule 255]) (fun _ => epoch) 6 le_rfl (by decide)
    List.length_replicate).2 fun all => ?_
  have logged := all [60, 49, 57, 50, 62, 97] (by decide)
  unfold Loggable at logged
  exact absurd logged (by decide)

end Busybox.Syslog
